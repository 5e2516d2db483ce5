import QPHi.Theorems.Cond.Run
import QPHi.Theorems.Lock.Invariant

/-! Who has the mutex of a condition. A thread that sleeps in `pthread_cond_wait` has given the mutex up but left
    its identity and its count in the lock, so a thread that locks in that time counts on from 1 and its unlock
    keeps the mutex. As long as nobody locks while another thread sleeps, the mutex comes back. -/

namespace QPHi

/-- The point of the lock function that the thread is in. -/
def CondPc.lock? {T : Type} [DecidableEq T] {ids : Ids T} : CondPc (.reentrant ids) → Option Pc
  | .signalLock p | .waitLock p => some (.enter p)
  | .signalUnlock _ p | .waitUnlock _ p => some (.leave p)
  | _ => none

/-- How often the thread has the lock, sleeping or not. -/
def CondPc.inside {T : Type} {M : LockModel T} : CondPc M → Nat
  | .idle | .signalLock _ | .signalSend | .waitLock _ => 0
  | _ => 1

/-- The thread is in `pthread_cond_wait`. -/
def CondPc.Sleeps {T : Type} {M : LockModel T} : CondPc M → Prop
  | .asleep | .woken => True
  | _ => False

theorem CondPc.Sleeps.inside {T : Type} {M : LockModel T} {q : CondPc M} (h : q.Sleeps) : q.inside = 1 := by
  cases q <;> first | exact h.elim | rfl

/-- The point belongs to `qp_lock_lock`. -/
def LockPc.Blocking : LockPc → Prop
  | .loadCounter call | .loadThread call | .loadProcess call | .acquire call => call = .lock
  | _ => True

namespace CondSystem

variable {T : Type} [DecidableEq T] {ids : Ids T} {t : T} {s s' : State (.reentrant ids)} {holder : Option T}

/-- The thread that has the mutex. -/
def State.taken (s : State (.reentrant ids)) : Option T := Lock.taken s.condLock

/-- No thread takes the mutex in `qp_lock_lock` while another one is in `pthread_cond_wait`. -/
def Undisturbed (t : T) (s : State (.reentrant ids)) : Prop :=
  ∀ call, (s.pc t).lock? = some (.enter (.acquire call)) → s.taken = none → ∀ u, ¬ (s.pc u).Sleeps

structure MutexInv (ids : Ids T) (holder : Option T) (s : State (.reentrant ids)) : Prop where
  lock : LockInv ids holder s.condLock (CondPc.lock? ∘ s.pc) (CondPc.inside ∘ s.pc)
  free : holder = none → s.taken = none
  awake : ∀ t, holder = some t → ¬ (s.pc t).Sleeps → s.taken = some t
  asleep : ∀ t, (s.pc t).Sleeps → s.taken = none
  blocking : ∀ t p, (s.pc t).lock? = some (.enter p) → p.Blocking

/-! ### The lock functions -/

theorem lockAdvance_blocking {l l' : Lock T} {p : LockPc} {o : Outcome LockPc} (hp : p.Blocking)
    (ht : ∀ call, p = .acquire call → l.taken ≠ some t) (hadv : lockAdvance false ids t l p = some (l', o)) :
    (∃ p', o = .goto p' ∧ p'.Blocking) ∨ o = .ret QP_SUCCESS := by
  cases p with
  | loadCounter call =>
    simp only [lockAdvance, Option.some.injEq, Prod.mk.injEq] at hadv
    refine .inl ⟨_, hadv.2.symm, ?_⟩
    split <;> exact hp
  | loadThread call =>
    simp only [lockAdvance, Option.some.injEq, Prod.mk.injEq] at hadv
    refine .inl ⟨_, hadv.2.symm, ?_⟩
    split <;> exact hp
  | loadProcess call =>
    simp only [lockAdvance, Option.some.injEq, Prod.mk.injEq] at hadv
    refine .inl ⟨_, hadv.2.symm, ?_⟩
    split
    · trivial
    · exact hp
  | reenter =>
    simp only [lockAdvance, Option.some.injEq, Prod.mk.injEq] at hadv
    exact .inr hadv.2.symm
  | acquire call =>
    obtain rfl : call = .lock := hp
    cases hl : l.taken with
    | none =>
      simp only [lockAdvance, hl, Option.some.injEq, Prod.mk.injEq] at hadv
      exact .inl ⟨_, hadv.2.symm, trivial⟩
    | some u =>
      have hut : u ≠ t := fun heq => ht .lock rfl (by rw [hl, heq])
      simp [lockAdvance, hl, hut] at hadv
  | setThread =>
    simp only [lockAdvance, Option.some.injEq, Prod.mk.injEq] at hadv
    exact .inl ⟨_, hadv.2.symm, trivial⟩
  | setProcess =>
    simp only [lockAdvance, Option.some.injEq, Prod.mk.injEq] at hadv
    exact .inl ⟨_, hadv.2.symm, trivial⟩
  | count =>
    simp only [lockAdvance, Option.some.injEq, Prod.mk.injEq] at hadv
    exact .inr hadv.2.symm

namespace MutexInv

theorem holder_of_inside (I : MutexInv ids holder s) (h : (s.pc t).inside ≠ 0) : holder = some t := by
  by_contra ht
  exact h (I.lock.outside t ht).1

theorem holder_of_taken (I : MutexInv ids holder s) (h : s.taken = some t) : holder = some t := by
  cases hh : holder with
  | none => exact absurd (h.symm.trans (I.free hh)) (by simp)
  | some u =>
    by_cases hu : (s.pc u).Sleeps
    · exact absurd (h.symm.trans (I.asleep u hu)) (by simp)
    · exact (I.awake u hh hu).symm.trans h

theorem taken_of_inside (I : MutexInv ids holder s) (h : (s.pc t).inside ≠ 0) (hns : ¬ (s.pc t).Sleeps) :
    s.taken = some t := I.awake t (I.holder_of_inside h) hns

/-- The invariant when the thread `t`, which does not sleep, moves to a point where it does not sleep. -/
theorem move {holder' : Option T} {l : Lock T} {n : Nat} {r : T → Int} {q : CondPc (.reentrant ids)}
    (I : MutexInv ids holder s) (hq : ¬ q.Sleeps)
    (L : LockInv ids holder' l (Function.update (CondPc.lock? ∘ s.pc) t q.lock?)
      (Function.update (CondPc.inside ∘ s.pc) t q.inside))
    (hfree : holder' = none → l.taken = none) (hself : holder' = some t → l.taken = some t)
    (hother : ∀ u ≠ t, holder' = some u → holder = some u ∧ l.taken = s.taken)
    (hsleep : ∀ u ≠ t, (s.pc u).Sleeps → l.taken = none)
    (hblock : ∀ p, q.lock? = some (.enter p) → p.Blocking) :
    MutexInv ids holder' ⟨l, n, Function.update s.pc t q, r⟩ := by
  refine ⟨?_, hfree, fun u hu hns => ?_, fun u hu => ?_, fun u p hp => ?_⟩
  · show LockInv ids holder' l (CondPc.lock? ∘ Function.update s.pc t q) (CondPc.inside ∘ Function.update s.pc t q)
    rw [Function.comp_update, Function.comp_update]
    exact L
  · by_cases hut : u = t
    · subst hut
      exact hself hu
    · simp only [Function.update_of_ne hut] at hns
      obtain ⟨hu', htaken⟩ := hother u hut hu
      exact htaken.trans (I.awake u hu' hns)
  · by_cases hut : u = t
    · subst hut
      simp only [Function.update_self] at hu
      exact absurd hu hq
    · simp only [Function.update_of_ne hut] at hu
      exact hsleep u hut hu
  · by_cases hut : u = t
    · subst hut
      simp only [Function.update_self] at hp
      exact hblock p hp
    · simp only [Function.update_of_ne hut] at hp
      exact I.blocking u p hp

/-- The thread with the mutex goes on with it. -/
theorem keep {l : Lock T} {n : Nat} {r : T → Int} {q : CondPc (.reentrant ids)} (I : MutexInv ids holder s)
    (hh : holder = some t) (ht : s.taken = some t) (hq : ¬ q.Sleeps) (H : OwnerAt ids t l q.inside q.lock?)
    (ht' : l.taken = some t) (hblock : ∀ p, q.lock? = some (.enter p) → p.Blocking) :
    MutexInv ids (some t) ⟨l, n, Function.update s.pc t q, r⟩ := by
  refine I.move hq (I.lock.hold (.inr hh) H) (by simp) (fun _ => ht') (fun u hut hu => ?_) (fun u _ hu => ?_) hblock
  · exact absurd (Option.some.inj hu).symm hut
  · exact absurd ((I.asleep u hu).symm.trans ht) (by simp)

/-- The thread with the mutex gives it up. -/
theorem drop {l : Lock T} {n : Nat} {r : T → Int} {q : CondPc (.reentrant ids)} (I : MutexInv ids (some t) s)
    (hq : ¬ q.Sleeps) (hin : q.inside = 0) (hl : q.lock? = none) (hf : l.Fields 0 0 0) (ht' : l.taken = none) :
    MutexInv ids none ⟨l, n, Function.update s.pc t q, r⟩ := by
  refine I.move hq ?_ (fun _ => ht') (by simp) (by simp) (fun _ _ _ => ht') (by simp [hl])
  rw [hin, hl]
  exact I.lock.drop hf trivial

/-- A thread takes the mutex that nobody has, and nobody sleeps. -/
theorem take {l : Lock T} {n : Nat} {r : T → Int} {q : CondPc (.reentrant ids)} (I : MutexInv ids none s)
    (hq : ¬ q.Sleeps) (H : OwnerAt ids t l q.inside q.lock?) (ht' : l.taken = some t)
    (hns : ∀ u, ¬ (s.pc u).Sleeps) (hblock : ∀ p, q.lock? = some (.enter p) → p.Blocking) :
    MutexInv ids (some t) ⟨l, n, Function.update s.pc t q, r⟩ := by
  refine I.move hq (I.lock.hold (.inl rfl) H) (by simp) (fun _ => ht') (fun u hut hu => ?_) (fun u _ hu => ?_) hblock
  · exact absurd (Option.some.inj hu).symm hut
  · exact absurd hu (hns u)

/-- A thread without the mutex moves. -/
theorem roam {n : Nat} {r : T → Int} {q : CondPc (.reentrant ids)} (I : MutexInv ids holder s) (ht : holder ≠ some t)
    (hq : ¬ q.Sleeps) (hin : q.inside = 0) (hout : Outside ids t q.lock?)
    (hblock : ∀ p, q.lock? = some (.enter p) → p.Blocking) :
    MutexInv ids holder ⟨s.condLock, n, Function.update s.pc t q, r⟩ := by
  refine I.move hq ?_ I.free (fun hh => absurd hh ht) (fun _ _ hu => ⟨hu, rfl⟩) (fun u _ hu => I.asleep u hu) hblock
  rw [hin]
  exact I.lock.roam ht hout

/-! ### One step of a thread -/

/-- The body of a function, under the lock. -/
theorem body {n : Nat} {r : T → Int} {q₀ q : CondPc (.reentrant ids)} (I : MutexInv ids holder s) (hpc : s.pc t = q₀)
    (hin : q₀.inside = 1) (hl : q₀.lock? = none) (hns : ¬ q₀.Sleeps) (hq : ¬ q.Sleeps)
    (hin' : q.inside = 1) (hl' : q.lock? = none ∨ q.lock? = some (.leave .loadCounter)) :
    MutexInv ids holder ⟨s.condLock, n, Function.update s.pc t q, r⟩ := by
  rw [← hpc] at hin hl hns
  have hne : (s.pc t).inside ≠ 0 := by omega
  have hh := I.holder_of_inside hne
  have ht := I.taken_of_inside hne hns
  have H := I.lock.owner t hh
  simp only [Function.comp_apply, hin, hl] at H
  have H' : OwnerAt ids t s.condLock q.inside q.lock? := by
    rw [hin']
    rcases hl' with hl' | hl' <;> rw [hl'] <;> exact H
  have hblock : ∀ p, q.lock? = some (.enter p) → p.Blocking := by
    rcases hl' with hl' | hl' <;> simp [hl']
  have K : MutexInv ids (some t) ⟨s.condLock, n, Function.update s.pc t q, r⟩ := I.keep hh ht hq H' ht hblock
  rwa [← hh] at K

/-- An access of `qp_lock_lock`, called by a function that goes on to `next`. -/
theorem lockStep {q₀ : CondPc (.reentrant ids)} {p : LockPc} {l : Lock T} {o : Outcome LockPc} {n : Nat} {r : T → Int}
    (next : Outcome LockPc → CondPc (.reentrant ids)) (I : MutexInv ids holder s) (hids : ids.Proper)
    (hmix : ids.Unmixed) (hund : Undisturbed t s) (hpc : s.pc t = q₀) (hl : q₀.lock? = some (.enter p))
    (hin : q₀.inside = 0) (hns : ¬ q₀.Sleeps)
    (hnext : ∀ o, (next o).lock? = o.enterPc ∧ ¬ (next o).Sleeps)
    (hgoto : ∀ p', (next (.goto p')).inside = 0) (hret : (next (.ret QP_SUCCESS)).inside = 1)
    (hadv : lockAdvance false ids t s.condLock p = some (l, o)) :
    ∃ holder, MutexInv ids holder ⟨l, n, Function.update s.pc t (next o), r⟩ := by
  rw [← hpc] at hl hin hns
  obtain ⟨hl', hq⟩ := hnext o
  have hacq : ∀ call, p = .acquire call → Lock.taken s.condLock ≠ some t := by
    rintro call rfl htaken
    have H := I.lock.owner t (I.holder_of_taken htaken)
    simp only [Function.comp_apply, hin, hl] at H
    exact absurd H.2.1 (by omega)
  have hout := lockAdvance_blocking (I.blocking t p hl) hacq hadv
  have hin' : (next o).inside = o.successes := by
    rcases hout with ⟨p', rfl, -⟩ | rfl
    · exact hgoto p'
    · exact hret
  have hblock : ∀ p, (next o).lock? = some (.enter p) → p.Blocking := by
    rw [hl']
    rcases hout with ⟨p', rfl, hp'⟩ | rfl
    · rintro _ ⟨⟩
      exact hp'
    · rintro _ ⟨⟩
  by_cases hh : holder = some t
  · have ht := I.awake t hh hns
    have H := I.lock.owner t hh
    simp only [Function.comp_apply, hin, hl] at H
    obtain ⟨ht', H'⟩ := H.lockAdvance ht hadv
    rw [Nat.zero_add, ← hin', ← hl'] at H'
    exact ⟨some t, I.keep hh ht hq H' ht' hblock⟩
  · rcases I.lock.lockAdvance_outside hids hmix hh hl hadv with ⟨rfl, ho, hq'⟩ | ⟨hfree, ⟨call, rfl⟩, rfl, rfl⟩
    · rw [← hl'] at hq'
      exact ⟨holder, I.roam hh hq (hin'.trans ho) hq' hblock⟩
    · -- The mutex is free, and by assumption nobody sleeps: no thread has left its count in the lock.
      have hns' := hund call hl hfree
      obtain rfl : holder = none := by
        cases hu : holder with
        | none => rfl
        | some u => exact absurd (hfree.symm.trans (I.awake u hu (hns' u))) (by simp)
      refine ⟨some t, I.take hq ?_ rfl hns' hblock⟩
      rw [hin', hl']
      exact ⟨I.lock.free rfl, rfl⟩

/-- An access of `qp_lock_unlock`. -/
theorem unlockStep {q₀ : CondPc (.reentrant ids)} {p : UnlockPc} {l : Lock T} {o : Outcome UnlockPc} {n : Nat}
    {r : T → Int} (next : Outcome UnlockPc → CondPc (.reentrant ids)) (I : MutexInv ids holder s)
    (hpc : s.pc t = q₀) (hl : q₀.lock? = some (.leave p)) (hin : q₀.inside = 1) (hns : ¬ q₀.Sleeps)
    (hnext : ∀ o, (next o).lock? = o.leavePc ∧ ¬ (next o).Sleeps)
    (hgoto : ∀ p', (next (.goto p')).inside = 1) (hret : (next (.ret QP_SUCCESS)).inside = 0)
    (hadv : unlockAdvance false ids t s.condLock p = (l, o)) :
    ∃ holder, MutexInv ids holder ⟨l, n, Function.update s.pc t (next o), r⟩ := by
  rw [← hpc] at hl hin hns
  obtain ⟨hl', hq⟩ := hnext o
  have hne : (s.pc t).inside ≠ 0 := by omega
  obtain rfl := I.holder_of_inside hne
  have ht := I.taken_of_inside hne hns
  have H := I.lock.owner t rfl
  simp only [Function.comp_apply, hin, hl] at H
  rcases H.unlockAdvance ht hadv with ⟨ht', -, ⟨p', rfl⟩ | hlt, H'⟩ | ⟨ht', -, rfl, hf⟩
  · have hin' : (next (.goto p')).inside = 1 := hgoto p'
    refine ⟨some t, I.keep rfl ht hq ?_ ht' (by rw [hl']; rintro _ ⟨⟩)⟩
    rw [hin', hl']
    exact H'
  · exact absurd hlt (by omega)
  · exact ⟨none, I.drop hq hret hl' hf ht'⟩

/-- A thread falls asleep with its identity in the lock, and its mutex is free. -/
theorem sleep (I : MutexInv ids holder s) (hpc : s.pc t = .waitSleep) :
    MutexInv ids holder { s with
      condLock := { (s.condLock : Lock T) with taken := none }
      pc := Function.update s.pc t .asleep } := by
  have hne : (s.pc t).inside ≠ 0 := by rw [hpc]; exact Nat.one_ne_zero
  obtain rfl := I.holder_of_inside hne
  have H := I.lock.owner t rfl
  simp only [Function.comp_apply, hpc] at H
  refine ⟨?_, by simp, fun u hu hns => ?_, fun _ _ => rfl, fun u p hp => ?_⟩
  · show LockInv ids _ _ (CondPc.lock? ∘ Function.update s.pc t .asleep) (CondPc.inside ∘ Function.update s.pc t .asleep)
    rw [Function.comp_update, Function.comp_update]
    exact I.lock.hold (.inr rfl) H
  · obtain rfl := Option.some.inj hu
    simp only [Function.update_self] at hns
    exact absurd trivial hns
  · by_cases hut : u = t
    · subst hut
      simp [CondPc.lock?] at hp
    · simp only [Function.update_of_ne hut] at hp
      exact I.blocking u p hp

/-- A thread that was woken gets its mutex back. -/
theorem wake (I : MutexInv ids holder s) (hpc : s.pc t = .woken) :
    MutexInv ids holder { s with
      condLock := { (s.condLock : Lock T) with taken := some t }
      pc := Function.update s.pc t .waitTest } := by
  have hne : (s.pc t).inside ≠ 0 := by rw [hpc]; exact Nat.one_ne_zero
  obtain rfl := I.holder_of_inside hne
  have H := I.lock.owner t rfl
  simp only [Function.comp_apply, hpc] at H
  refine I.move not_false (I.lock.hold (.inr rfl) H) (by simp) (fun _ => rfl)
    (fun u hut hu => ?_) (fun u hut hu => ?_) (by rintro _ ⟨⟩)
  · exact absurd (Option.some.inj hu).symm hut
  · have hu' : (s.pc u).inside ≠ 0 := by
      rw [hu.inside]
      exact Nat.one_ne_zero
    exact absurd (Option.some.inj (I.holder_of_inside hu')).symm hut

/-- Threads that are woken stay in `pthread_cond_wait`. -/
theorem woken {pc : T → CondPc (.reentrant ids)} {r : T → Int} (I : MutexInv ids holder s)
    (hl : CondPc.lock? ∘ pc = CondPc.lock? ∘ s.pc) (hin : CondPc.inside ∘ pc = CondPc.inside ∘ s.pc)
    (hsleeps : ∀ u, (pc u).Sleeps ↔ (s.pc u).Sleeps) : MutexInv ids holder { s with pc := pc, result := r } := by
  refine ⟨?_, I.free, fun u hu hns => ?_, fun u hu => ?_, fun u p hp => ?_⟩
  · rw [hl, hin]
    exact I.lock
  · exact I.awake u hu (fun h => hns ((hsleeps u).mpr h))
  · exact I.asleep u ((hsleeps u).mp hu)
  · exact I.blocking u p ((congrFun hl u).symm.trans hp)

end MutexInv

/-! ### Whole runs -/

theorem Init.mutexInv (h : Init s) : MutexInv ids none s := by
  obtain ⟨hl, -, hpc⟩ := h
  have hlock : (CondPc.lock? ∘ s.pc) = fun _ => none := by
    funext t
    rw [Function.comp_apply, hpc t]
    rfl
  refine ⟨⟨fun _ => ?_, by simp, fun t _ => ⟨?_, ?_⟩⟩, fun _ => ?_, by simp, fun t ht => ?_, fun t p hp => ?_⟩
  · rw [hl]
    exact ⟨rfl, rfl, rfl⟩
  · rw [Function.comp_apply, hpc t]
    rfl
  · rw [hlock]
    trivial
  · rw [State.taken, hl]
    rfl
  · rw [hpc t] at ht
    exact ht.elim
  · rw [hpc t] at hp
    cases hp

theorem Wakes.sleeps {pc pc' : T → CondPc (.reentrant ids)} (h : Wakes t pc pc') (ht : pc t = .signalSend) (u : T) :
    (pc' u).lock? = (pc u).lock? ∧ (pc' u).inside = (pc u).inside ∧ ((pc' u).Sleeps ↔ (pc u).Sleeps) := by
  obtain ⟨hidle, hother, -⟩ := h
  by_cases hut : u = t
  · rw [hut, hidle, ht]
    simp [CondPc.lock?, CondPc.inside, CondPc.Sleeps]
  · rcases hother u hut with hu | ⟨hu, hu'⟩
    · rw [hu]
      exact ⟨rfl, rfl, .rfl⟩
    · rw [hu, hu']
      simp [CondPc.lock?, CondPc.inside, CondPc.Sleeps]

theorem Step.mutexInv (hids : ids.Proper) (hmix : ids.Unmixed) (I : MutexInv ids holder s) (hund : Undisturbed t s)
    (h : Step (.reentrant ids) t s s') : ∃ holder, MutexInv ids holder s' := by
  -- A thread that is in no function does not have the mutex.
  have hidle : s.pc t = .idle → holder ≠ some t := by
    intro hpc hh
    have H := I.lock.owner t hh
    simp only [Function.comp_apply, hpc] at H
    exact absurd H.2.1 (by simp [CondPc.inside])
  cases h with
  | signal hpc =>
    exact ⟨holder, I.roam (hidle hpc) not_false rfl trivial (by rintro _ ⟨⟩; rfl)⟩
  | wait hpc =>
    exact ⟨holder, I.roam (hidle hpc) not_false rfl trivial (by rintro _ ⟨⟩; rfl)⟩
  | signalLock hpc hadv =>
    refine I.lockStep (signalLocked (.reentrant ids)) hids hmix hund hpc rfl rfl not_false
      (fun o => ?_) (fun _ => rfl) rfl hadv
    cases o <;> exact ⟨rfl, not_false⟩
  | signalTest hpc =>
    exact ⟨holder, I.body hpc rfl rfl not_false not_false rfl (.inl rfl)⟩
  | signalLoad hpc =>
    exact ⟨holder, I.body hpc rfl rfl not_false not_false rfl (.inl rfl)⟩
  | signalStore hpc =>
    exact ⟨holder, I.body hpc rfl rfl not_false not_false rfl (.inr rfl)⟩
  | @signalUnlock stat p l o hpc hadv =>
    refine I.unlockStep (signalUnlocked (.reentrant ids) stat) hpc rfl rfl not_false
      (fun o => ?_) (fun _ => rfl) (by cases stat <;> rfl) hadv
    cases o <;> cases stat <;> exact ⟨rfl, not_false⟩
  | signalSend hpc hwakes =>
    have hw := hwakes.sleeps hpc
    exact ⟨holder, I.woken (funext fun u => (hw u).1) (funext fun u => (hw u).2.1) fun u => (hw u).2.2⟩
  | waitLock hpc hadv =>
    refine I.lockStep (waitLocked (.reentrant ids)) hids hmix hund hpc rfl rfl not_false
      (fun o => ?_) (fun _ => rfl) rfl hadv
    cases o <;> exact ⟨rfl, not_false⟩
  | waitTest hpc =>
    refine ⟨holder, I.body hpc rfl rfl not_false ?_ ?_ (.inl ?_)⟩
    · split <;> exact not_false
    · split <;> rfl
    · split <;> rfl
  | waitSleep hpc htaken => exact ⟨holder, I.sleep hpc⟩
  | waitFail hpc =>
    exact ⟨holder, I.body hpc rfl rfl not_false not_false rfl (.inr rfl)⟩
  | spurious hpc =>
    refine ⟨holder, I.woken ?_ ?_ fun u => ?_⟩
    · rw [Function.comp_update]
      exact Function.update_eq_self_iff.mpr (by rw [Function.comp_apply, hpc]; rfl)
    · rw [Function.comp_update]
      exact Function.update_eq_self_iff.mpr (by rw [Function.comp_apply, hpc]; rfl)
    · by_cases hut : u = t
      · subst hut
        simp [CondPc.Sleeps, hpc]
      · rw [Function.update_of_ne hut]
  | woken hpc hfree => exact ⟨holder, I.wake hpc⟩
  | waitLoad hpc =>
    exact ⟨holder, I.body hpc rfl rfl not_false not_false rfl (.inl rfl)⟩
  | waitStore hpc =>
    exact ⟨holder, I.body hpc rfl rfl not_false not_false rfl (.inr rfl)⟩
  | @waitUnlock failed p l o hpc hadv =>
    refine I.unlockStep (waitUnlocked (.reentrant ids) failed) hpc rfl rfl not_false
      (fun o => ?_) (fun _ => rfl) rfl hadv
    cases o <;> exact ⟨rfl, not_false⟩

theorem ReachableBy.mutexInv (hids : ids.Proper) (hmix : ids.Unmixed) (h : ReachableBy (.reentrant ids) Undisturbed s) :
    ∃ holder, MutexInv ids holder s := by
  refine @Trans.Reachable.invariant _ _ _ s (fun s => ∃ holder, MutexInv ids holder s) h
    (fun s h₀ => ⟨none, h₀.mutexInv⟩) fun s s' I hs => ?_
  obtain ⟨holder, I⟩ := I
  obtain ⟨t, hund, hs⟩ := hs
  exact hs.mutexInv hids hmix I hund

/-- In a run in which no thread takes the mutex in `qp_lock_lock` while another one is in `pthread_cond_wait`, a
    thread that has returned does not have the mutex. -/
theorem undisturbed_returned (hids : ids.Proper) (hmix : ids.Unmixed)
    (h : ReachableBy (.reentrant ids) Undisturbed s) (t : T) (hpc : s.pc t = .idle) : s.taken ≠ some t := by
  intro htaken
  obtain ⟨holder, I⟩ := h.mutexInv hids hmix
  have H := I.lock.owner t (I.holder_of_taken htaken)
  simp only [Function.comp_apply, hpc] at H
  exact absurd H.2.1 (by simp [CondPc.inside])

/-- A thread signals. Another one that has called `qp_cond_wait` before takes what is there, and both return. -/
theorem exists_undisturbed_history : ∃ s : State (.reentrant twoThreads),
    History (.reentrant twoThreads) Undisturbed [.call 0 .signal, .call 1 .wait, .ret 0 QP_SUCCESS, .ret 1 QP_SUCCESS] s ∧
      ∀ t, s.pc t = .idle := by
  have hboth : ∀ {s : State (.reentrant twoThreads)}, ¬(s.pc 0).Sleeps → ¬(s.pc 1).Sleeps → ∀ u, ¬(s.pc u).Sleeps :=
    fun h₀ h₁ u => by match u with | 0 => exact h₀ | 1 => exact h₁
  have hawake : ∀ {t} {s : State (.reentrant twoThreads)}, ¬(s.pc 0).Sleeps → ¬(s.pc 1).Sleeps → Undisturbed t s :=
    fun h₀ h₁ _ _ _ => hboth h₀ h₁
  have hsend : ∀ {s : State (.reentrant twoThreads)}, ¬(s.pc 0).Sleeps → ¬(s.pc 1).Sleeps →
      Wakes 0 s.pc (Function.update s.pc 0 .idle) := by
    intro s h₀ h₁
    refine wakes_none fun u hu => hboth h₀ h₁ u ?_
    rw [hu]
    trivial
  have h₀ : History (.reentrant twoThreads) Undisturbed [] (start _) := .start (start_init _)
  have h₁ := h₀.next 0 (hawake not_false not_false) (.signal rfl)
  have h₂ := h₁.next 1 (hawake not_false not_false) (.wait rfl)
  -- The signal: the lock, `nready`, the unlock and the call of `pthread_cond_signal`.
  have h₃ := h₂.next 0 (hawake not_false not_false) (.signalLock rfl rfl)
  have h₄ := h₃.next 0 (hawake not_false not_false) (.signalLock rfl rfl)
  have h₅ := h₄.next 0 (hawake not_false not_false) (.signalLock rfl rfl)
  have h₆ := h₅.next 0 (hawake not_false not_false) (.signalLock rfl rfl)
  have h₇ := h₆.next 0 (hawake not_false not_false) (.signalLock (l := (⟨some 0, 1, 7, 1⟩ : Lock (Fin 2))) rfl rfl)
  have h₈ := h₇.next 0 (hawake not_false not_false) (.signalTest rfl)
  have h₉ := h₈.next 0 (hawake not_false not_false) (.signalLoad rfl)
  have h₁₀ := h₉.next 0 (hawake not_false not_false) (.signalStore rfl)
  have h₁₁ := h₁₀.next 0 (hawake not_false not_false) (.signalUnlock rfl rfl)
  have h₁₂ := h₁₁.next 0 (hawake not_false not_false) (.signalUnlock rfl rfl)
  have h₁₃ := h₁₂.next 0 (hawake not_false not_false) (.signalUnlock rfl rfl)
  have h₁₄ := h₁₃.next 0 (hawake not_false not_false) (.signalUnlock (l := (⟨some 0, 1, 7, 0⟩ : Lock (Fin 2))) rfl rfl)
  have h₁₅ := h₁₄.next 0 (hawake not_false not_false) (.signalUnlock rfl rfl)
  have h₁₆ := h₁₅.next 0 (hawake not_false not_false) (.signalUnlock rfl rfl)
  have h₁₇ := h₁₆.next 0 (hawake not_false not_false) (.signalUnlock rfl rfl)
  have h₁₈ := h₁₇.next 0 (hawake not_false not_false) (.signalUnlock rfl rfl)
  have h₁₉ := h₁₈.next 0 (hawake not_false not_false) (.signalSend rfl (hsend not_false not_false))
  -- The wait, which finds `nready` at 1.
  have h₂₀ := h₁₉.next 1 (hawake not_false not_false) (.waitLock rfl rfl)
  have h₂₁ := h₂₀.next 1 (hawake not_false not_false) (.waitLock rfl rfl)
  have h₂₂ := h₂₁.next 1 (hawake not_false not_false) (.waitLock rfl rfl)
  have h₂₃ := h₂₂.next 1 (hawake not_false not_false) (.waitLock rfl rfl)
  have h₂₄ := h₂₃.next 1 (hawake not_false not_false) (.waitLock (l := (⟨some 1, 2, 7, 1⟩ : Lock (Fin 2))) rfl rfl)
  have h₂₅ := h₂₄.next 1 (hawake not_false not_false) (.waitTest rfl)
  have h₂₆ := h₂₅.next 1 (hawake not_false not_false) (.waitLoad rfl)
  have h₂₇ := h₂₆.next 1 (hawake not_false not_false) (.waitStore rfl)
  have h₂₈ := h₂₇.next 1 (hawake not_false not_false) (.waitUnlock rfl rfl)
  have h₂₉ := h₂₈.next 1 (hawake not_false not_false) (.waitUnlock rfl rfl)
  have h₃₀ := h₂₉.next 1 (hawake not_false not_false) (.waitUnlock rfl rfl)
  have h₃₁ := h₃₀.next 1 (hawake not_false not_false) (.waitUnlock (l := (⟨some 1, 2, 7, 0⟩ : Lock (Fin 2))) rfl rfl)
  have h₃₂ := h₃₁.next 1 (hawake not_false not_false) (.waitUnlock rfl rfl)
  have h₃₃ := h₃₂.next 1 (hawake not_false not_false) (.waitUnlock rfl rfl)
  have h₃₄ := h₃₃.next 1 (hawake not_false not_false) (.waitUnlock rfl rfl)
  have h₃₅ := h₃₄.next 1 (hawake not_false not_false) (.waitUnlock rfl rfl)
  exact ⟨_, h₃₅, fun t => by match t with | 0 => rfl | 1 => rfl⟩

/-- Both threads have returned, and neither has the mutex. -/
theorem undisturbed_returned_both : ∃ s : State (.reentrant twoThreads),
    History (.reentrant twoThreads) Undisturbed [.call 0 .signal, .call 1 .wait, .ret 0 QP_SUCCESS, .ret 1 QP_SUCCESS] s ∧
      s.taken ≠ some 0 ∧ s.taken ≠ some 1 := by
  obtain ⟨s, run, hidle⟩ := exists_undisturbed_history
  have hmix := Ids.unmixed_of_injective twoThreads_injective
  refine ⟨s, run, ?_, ?_⟩
  · exact undisturbed_returned twoThreads_proper hmix run.reachable 0 (hidle 0)
  · exact undisturbed_returned twoThreads_proper hmix run.reachable 1 (hidle 1)

/-! ### A signal while a thread sleeps -/

section
variable {l l' : Lock T} {n : Nat}

theorem move_signalLock {p : LockPc} (o : Outcome LockPc) (hadv : lockAdvance false ids t l p = some (l', o)) :
    Step (.reentrant ids) t (s.move t (.signalLock p) l n) (s.move t (signalLocked (.reentrant ids) o) l' n) :=
  move_step (.signalLock (Function.update_self _ _ _) hadv)

theorem move_waitLock {p : LockPc} (o : Outcome LockPc) (hadv : lockAdvance false ids t l p = some (l', o)) :
    Step (.reentrant ids) t (s.move t (.waitLock p) l n) (s.move t (waitLocked (.reentrant ids) o) l' n) :=
  move_step (.waitLock (Function.update_self _ _ _) hadv)

theorem move_signalUnlock {stat : Bool} {p p' : UnlockPc} (hadv : unlockAdvance false ids t l p = (l', .goto p')) :
    Step (.reentrant ids) t (s.move t (.signalUnlock stat p) l n) (s.move t (.signalUnlock stat p') l' n) := by
  have h : Step (.reentrant ids) t (s.move t (.signalUnlock stat p) l n) _ :=
    .signalUnlock (Function.update_self _ _ _) hadv
  simp only [signalResult, State.move, Function.update_eq_self] at h
  exact move_step h

end

/-- A thread that nobody disturbs waits for a signal. -/
theorem wait_alone (hr : Reachable (.reentrant ids) s) (hpc : s.pc t = .idle) (hl : s.condLock = Lock.init T)
    (hn : s.nready = 0) :
    Reachable (.reentrant ids) (s.move t .asleep (⟨none, ids.thread t, ids.process t, 1⟩ : Lock T) 0) := by
  have h₁ : Reachable (.reentrant ids) (s.move t (.waitLock (.loadCounter .lock)) (Lock.init T) 0) := by
    rw [← hl, ← hn]
    exact hr.step (.wait hpc)
  have h₂ : Reachable (.reentrant ids) (s.move t (.waitLock (.acquire .lock)) (Lock.init T) 0) :=
    h₁.step (move_waitLock (.goto (.acquire .lock)) rfl)
  have h₃ : Reachable (.reentrant ids) (s.move t (.waitLock .setThread) (⟨some t, 0, 0, 0⟩ : Lock T) 0) :=
    h₂.step (move_waitLock (.goto .setThread) rfl)
  have h₄ : Reachable (.reentrant ids) (s.move t (.waitLock .setProcess) (⟨some t, ids.thread t, 0, 0⟩ : Lock T) 0) :=
    h₃.step (move_waitLock (.goto .setProcess) rfl)
  have h₅ : Reachable (.reentrant ids)
      (s.move t (.waitLock .count) (⟨some t, ids.thread t, ids.process t, 0⟩ : Lock T) 0) :=
    h₄.step (move_waitLock (.goto .count) rfl)
  have h₆ : Reachable (.reentrant ids) (s.move t .waitTest (⟨some t, ids.thread t, ids.process t, 1⟩ : Lock T) 0) :=
    h₅.step (move_waitLock (.ret QP_SUCCESS) rfl)
  have h₇ : Reachable (.reentrant ids) (s.move t .waitSleep (⟨some t, ids.thread t, ids.process t, 1⟩ : Lock T) 0) :=
    h₆.step (move_step (.waitTest (Function.update_self _ _ _)))
  exact h₇.step (move_step (.waitSleep (Function.update_self _ _ _) rfl))

/-- A thread that signals while another one sleeps keeps the mutex when it returns. -/
theorem signal_alone {u : T} {th pr : Nat} (hr : Reachable (.reentrant ids) s) (hpc : s.pc t = .idle)
    (hu : s.pc u = .asleep) (hut : u ≠ t)
    (hl : s.condLock = (⟨none, th, pr, 1⟩ : Lock T)) (hth : th ≠ ids.thread t) (hn : s.nready = 0) :
    ∃ s' : State (.reentrant ids), Reachable (.reentrant ids) s' ∧ s'.pc t = .idle ∧ s'.taken = some t := by
  have h₁ : Reachable (.reentrant ids) (s.move t (.signalLock (.loadCounter .lock)) (⟨none, th, pr, 1⟩ : Lock T) 0) := by
    rw [← hl, ← hn]
    exact hr.step (.signal hpc)
  have h₂ : Reachable (.reentrant ids) (s.move t (.signalLock (.loadThread .lock)) (⟨none, th, pr, 1⟩ : Lock T) 0) :=
    h₁.step (move_signalLock (.goto (.loadThread .lock)) rfl)
  have h₃ : Reachable (.reentrant ids) (s.move t (.signalLock (.acquire .lock)) (⟨none, th, pr, 1⟩ : Lock T) 0) :=
    h₂.step (move_signalLock (.goto (.acquire .lock)) (by simp only [lockAdvance, if_neg hth]))
  have h₄ : Reachable (.reentrant ids) (s.move t (.signalLock .setThread) (⟨some t, th, pr, 1⟩ : Lock T) 0) :=
    h₃.step (move_signalLock (.goto .setThread) rfl)
  have h₅ : Reachable (.reentrant ids) (s.move t (.signalLock .setProcess) (⟨some t, ids.thread t, pr, 1⟩ : Lock T) 0) :=
    h₄.step (move_signalLock (.goto .setProcess) rfl)
  have h₆ : Reachable (.reentrant ids)
      (s.move t (.signalLock .count) (⟨some t, ids.thread t, ids.process t, 1⟩ : Lock T) 0) :=
    h₅.step (move_signalLock (.goto .count) rfl)
  obtain ⟨l, hl⟩ : ∃ l : Lock T, l = ⟨some t, ids.thread t, ids.process t, 2⟩ := ⟨_, rfl⟩
  have h₇ : Reachable (.reentrant ids) (s.move t .signalTest l 0) := by
    rw [hl]
    exact h₆.step (move_signalLock (.ret QP_SUCCESS) rfl)
  have h₈ : Reachable (.reentrant ids) (s.move t (.signalLoad true) l 0) :=
    h₇.step (move_step (.signalTest (Function.update_self _ _ _)))
  have h₉ : Reachable (.reentrant ids) (s.move t (.signalStore true 0) l 0) :=
    h₈.step (move_step (.signalLoad (Function.update_self _ _ _)))
  have h₁₀ : Reachable (.reentrant ids) (s.move t (.signalUnlock true .loadCounter) l 1) :=
    h₉.step (move_step (.signalStore (n := 0) (Function.update_self _ _ _)))
  have h₁₁ : Reachable (.reentrant ids) (s.move t (.signalUnlock true .loadThread) l 1) :=
    h₁₀.step (move_signalUnlock (by rw [hl]; rfl))
  have h₁₂ : Reachable (.reentrant ids) (s.move t (.signalUnlock true .loadProcess) l 1) :=
    h₁₁.step (move_signalUnlock (by simp only [unlockAdvance, hl, ↓reduceIte]))
  have h₁₃ : Reachable (.reentrant ids) (s.move t (.signalUnlock true .uncount) l 1) :=
    h₁₂.step (move_signalUnlock (by simp only [unlockAdvance, hl, ↓reduceIte]))
  have h₁₄ : Reachable (.reentrant ids) (s.move t (.signalUnlock true .recheck) { l with holdCounter := 1 } 1) :=
    h₁₃.step (move_signalUnlock (by simp only [unlockAdvance, hl, subWord_one (n := 2) (by omega) (by omega)]))
  -- The count of the sleeping thread is still in the lock, so this unlock looks like one of two.
  have hadv : unlockAdvance false ids t { l with holdCounter := 1 } .recheck =
    ({ l with holdCounter := 1 }, .ret QP_SUCCESS) := rfl
  obtain ⟨s₁, A⟩ := arrives_signal h₁₄ hadv
  have hpc₁ : s₁.pc t = .signalSend := by
    rw [A.pc, Function.update_self]
    rfl
  have hu₁ : s₁.pc u = .asleep := by
    rw [A.pc, Function.update_of_ne hut, hu]
  obtain ⟨s₂, B⟩ := arrives_send A.reachable hpc₁ hu₁ hut
  refine ⟨s₂, B.reachable, ?_, ?_⟩
  · rw [B.pc, Function.update_of_ne hut.symm, Function.update_self]
  · rw [State.taken, B.condLock, A.condLock]
    simp only [hl]

theorem undisturbed_returned_signal : ∃ s : State (.reentrant twoThreads),
    Reachable (.reentrant twoThreads) s ∧ s.pc 1 = .idle ∧ s.taken = some 1 := by
  have hr : Reachable (.reentrant twoThreads) (start (.reentrant twoThreads)) := Trans.Reachable.start (start_init _)
  exact signal_alone (wait_alone (t := 0) hr rfl rfl rfl) rfl (u := 0) rfl (by decide) rfl (by decide) rfl

end CondSystem

end QPHi
