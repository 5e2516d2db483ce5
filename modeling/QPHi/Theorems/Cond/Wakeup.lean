import Mathlib.Algebra.BigOperators.Group.Finset.Basic
import Mathlib.Algebra.Order.BigOperators.Group.Finset
import QPHi.Theorems.Cond.Run

/-! When a signal is lost. `qp_cond_signal` wakes a thread only if it finds `nready` at 0, so the threads that are
    awake have to be enough for what is ready; with two threads asleep, a second signal that comes before the
    first one is taken leaves one of them asleep. -/

namespace QPHi

namespace CondPc
variable {T : Type} {M : LockModel T}

/-- 1 if the thread is asleep in `pthread_cond_wait`. -/
def asleepCount : CondPc M → Nat
  | .asleep => 1
  | _ => 0

/-- 1 if the thread is in `qp_cond_wait` and will look at `nready` again. -/
def awakeCount : CondPc M → Nat
  | .waitLock _ | .waitTest | .waitSleep | .woken | .waitLoad | .waitStore _ => 1
  | _ => 0

/-- 1 if the thread is about to call `pthread_cond_signal`. -/
def pendingCount : CondPc M → Nat
  | .signalUnlock true _ | .signalSend => 1
  | _ => 0

/-- The thread is between the lock and the unlock. -/
def Locked : CondPc M → Prop
  | .signalTest | .signalLoad _ | .signalStore _ _ | .signalUnlock _ _ => True
  | .waitTest | .waitSleep | .waitLoad | .waitStore _ | .waitUnlock _ _ => True
  | _ => False

/-- What the thread knows of `nready`. -/
def Knows (n : Nat) : CondPc M → Prop
  | .signalLoad stat => stat = decide (0 = n)
  | .signalStore stat m => m = n ∧ stat = decide (0 = n)
  | .waitSleep => n = 0
  | .waitLoad => n ≠ 0
  | .waitStore m => m = n ∧ n ≠ 0
  | _ => True

theorem knows_of_not_locked {n : Nat} {q : CondPc M} (h : ¬ q.Locked) : q.Knows n := by
  cases q <;> first | exact absurd trivial h | trivial

end CondPc

namespace CondSystem

variable {T : Type} {M : LockModel T} {pc pc' : T → CondPc M} {t : T}

/-! ### Waking threads -/

theorem Wakes.locked (h : Wakes t pc pc') (ht : pc t = .signalSend) (u : T) :
    ((pc' u).Locked ↔ (pc u).Locked) ∧ ((pc' u).Locked → pc' u = pc u) := by
  by_cases hut : u = t
  · rw [hut, h.1, ht]
    exact ⟨.rfl, False.elim⟩
  · rcases h.2.1 u hut with hu | ⟨hu, hu'⟩
    · rw [hu]
      exact ⟨.rfl, fun _ => rfl⟩
    · rw [hu, hu']
      exact ⟨.rfl, False.elim⟩

section
variable [Fintype T]

/-- How many threads are at points that `f` counts. -/
def count (f : CondPc M → Nat) (pc : T → CondPc M) : Nat := ∑ t, f (pc t)

def State.asleep (s : State M) : Nat := count CondPc.asleepCount s.pc
def State.awake (s : State M) : Nat := count CondPc.awakeCount s.pc
def State.pending (s : State M) : Nat := count CondPc.pendingCount s.pc

/-- Something is ready, a thread is asleep, and nobody else is in the functions. -/
def Lost (s : State M) : Prop :=
  1 ≤ s.nready ∧ (∃ t, s.pc t = .asleep) ∧ ∀ t, s.pc t = .idle ∨ s.pc t = .asleep

/-- A thread that adds to a `nready` that is not 0, and so wakes nobody, finds that no more threads are asleep than
    are about to be woken, or that more threads are awake or about to be woken than are ready. -/
def Covered (t : T) (s : State M) : Prop :=
  ∀ n, s.pc t = .signalStore false n → s.asleep ≤ s.pending ∨ s.nready < s.awake + s.pending

/-- When a thread goes from `q₀` to `q` and `nready` is `n` then, the threads awake are enough. -/
def StillCovered (s : State M) (q₀ q : CondPc M) (n : Nat) : Prop :=
  ∀ a w p, a + q₀.asleepCount = s.asleep + q.asleepCount → w + q₀.awakeCount = s.awake + q.awakeCount →
    p + q₀.pendingCount = s.pending + q.pendingCount → a ≤ p ∨ n ≤ w + p

theorem stillCovered {s : State M} {q₀ q : CondPc M}
    (hc : s.asleep ≤ s.pending ∨ s.nready ≤ s.awake + s.pending) (ha : q.asleepCount ≤ q₀.asleepCount)
    (hw : q₀.awakeCount ≤ q.awakeCount) (hp : q₀.pendingCount ≤ q.pendingCount) :
    StillCovered s q₀ q s.nready := by
  intro a w p _ _ _
  omega

theorem count_total (h : ∀ u, pc' u = pc u ∨ pc u = .asleep ∧ pc' u = .woken) :
    count CondPc.asleepCount pc' + count CondPc.awakeCount pc' =
      count CondPc.asleepCount pc + count CondPc.awakeCount pc := by
  simp only [count, ← Finset.sum_add_distrib]
  refine Finset.sum_congr rfl fun u _ => ?_
  rcases h u with hu | ⟨hu, hu'⟩
  · rw [hu]
  · rw [hu, hu']
    rfl

theorem count_pending (h : ∀ u, pc' u = pc u ∨ pc u = .asleep ∧ pc' u = .woken) :
    count CondPc.pendingCount pc' = count CondPc.pendingCount pc := by
  refine Finset.sum_congr rfl fun u _ => ?_
  rcases h u with hu | ⟨hu, hu'⟩
  · rw [hu]
  · rw [hu, hu']
    rfl

/-- A signal leaves nobody asleep, or fewer threads than before. -/
theorem Wakes.fewer (h : Wakes t pc pc') (ht : pc t = .signalSend) :
    count CondPc.asleepCount pc' = 0 ∨ count CondPc.asleepCount pc' < count CondPc.asleepCount pc := by
  have hle : ∀ u, (pc' u).asleepCount ≤ (pc u).asleepCount := by
    intro u
    by_cases hut : u = t
    · rw [hut, h.1, ht]
      exact Nat.le_refl _
    · rcases h.2.1 u hut with hu | ⟨hu, hu'⟩
      · rw [hu]
      · rw [hu, hu']
        exact Nat.zero_le _
  by_cases hsleep : ∃ u, pc u = .asleep
  · obtain ⟨u, hu, hu'⟩ := h.2.2 hsleep
    refine .inr (Finset.sum_lt_sum (fun v _ => hle v) ⟨u, Finset.mem_univ u, ?_⟩)
    rw [hu, hu']
    exact Nat.one_pos
  · refine .inl (Finset.sum_eq_zero fun u _ => ?_)
    have hu : (pc u).asleepCount = 0 := by
      cases hq : pc u <;> first | rfl | exact absurd ⟨u, hq⟩ hsleep
    exact Nat.le_zero.mp (hu ▸ hle u)

end

section
variable [DecidableEq T]

theorem Wakes.woken (h : Wakes t pc pc') :
    ∀ u, pc' u = Function.update pc t .idle u ∨ Function.update pc t .idle u = .asleep ∧ pc' u = .woken := by
  intro u
  by_cases hut : u = t
  · subst hut
    rw [Function.update_self]
    exact .inl h.1
  · rw [Function.update_of_ne hut]
    exact h.2.1 u hut

theorem ideal_lockAdvance {l l' : Option T} {p : Unit} {o : Outcome Unit}
    (h : (LockModel.ideal T).lockAdvance t l p = some (l', o)) : l = none ∧ l' = some t ∧ o = .ret QP_SUCCESS := by
  simp only [LockModel.ideal] at h
  split at h
  next hl =>
    cases h
    exact ⟨hl, rfl, rfl⟩
  next => cases h

theorem ideal_unlockAdvance {l l' : Option T} {p : Unit} {o : Outcome Unit} (hl : l = some t)
    (h : (LockModel.ideal T).unlockAdvance t l p = (l', o)) : l' = none ∧ o = .ret QP_SUCCESS := by
  simp only [LockModel.ideal, if_pos hl] at h
  cases h
  exact ⟨rfl, rfl⟩

end

variable [Fintype T] [DecidableEq T] {s s' : State (.ideal T)}

theorem count_update (f : CondPc M → Nat) (pc : T → CondPc M) (t : T) (q : CondPc M) :
    count f (Function.update pc t q) + f (pc t) = count f pc + f q := by
  have hnew := Finset.add_sum_erase Finset.univ (fun u => f (Function.update pc t q u)) (Finset.mem_univ t)
  have hold := Finset.add_sum_erase Finset.univ (fun u => f (pc u)) (Finset.mem_univ t)
  have hrest : ∑ u ∈ Finset.univ.erase t, f (Function.update pc t q u) = ∑ u ∈ Finset.univ.erase t, f (pc u) := by
    refine Finset.sum_congr rfl fun u hu => ?_
    rw [Function.update_of_ne (Finset.ne_of_mem_erase hu)]
  simp only [Function.update_self] at hnew
  simp only [count]
  omega

/-! ### The invariant -/

structure WakeInv (s : State (.ideal T)) : Prop where
  mutex : ∀ t, (s.pc t).Locked ↔ s.condLock = some t
  knows : ∀ t, (s.pc t).Knows s.nready
  bound : s.nready < 2 ^ 32
  covered : s.asleep ≤ s.pending ∨ s.nready ≤ s.awake + s.pending

namespace WakeInv

/-- The thread `t` moves to `q`. Only the thread with the mutex changes `nready`. -/
theorem move {l : Option T} {n : Nat} {r : T → Int} {q₀ q : CondPc (.ideal T)} (I : WakeInv s) (hpc : s.pc t = q₀)
    (hself : q.Locked ↔ l = some t) (hother : ∀ u ≠ t, l = some u ↔ s.condLock = some u) (hknows : q.Knows n)
    (hn : n = s.nready ∨ s.condLock = some t) (hbound : n < 2 ^ 32)
    (hcov : StillCovered s q₀ q n) :
    WakeInv ⟨l, n, Function.update s.pc t q, r⟩ := by
  refine ⟨fun u => ?_, fun u => ?_, hbound, ?_⟩
  · by_cases hut : u = t
    · subst hut
      simp only [Function.update_self]
      exact hself
    · simp only [Function.update_of_ne hut]
      exact (I.mutex u).trans (hother u hut).symm
  · by_cases hut : u = t
    · subst hut
      simpa only [Function.update_self] using hknows
    · simp only [Function.update_of_ne hut]
      rcases hn with rfl | ht
      · exact I.knows u
      · refine CondPc.knows_of_not_locked fun hu => hut ?_
        exact Option.some.inj (((I.mutex u).mp hu).symm.trans ht)
  · refine hcov _ _ _ ?_ ?_ ?_
    · rw [← hpc]
      exact count_update CondPc.asleepCount s.pc t q
    · rw [← hpc]
      exact count_update CondPc.awakeCount s.pc t q
    · rw [← hpc]
      exact count_update CondPc.pendingCount s.pc t q

/-- A thread without the mutex moves and stays without it. -/
theorem outside {r : T → Int} {q₀ q : CondPc (.ideal T)} (I : WakeInv s) (hpc : s.pc t = q₀) (hq₀ : ¬ q₀.Locked)
    (hq : ¬ q.Locked)
    (hcov : StillCovered s q₀ q s.nready) :
    WakeInv ⟨s.condLock, s.nready, Function.update s.pc t q, r⟩ := by
  have ht : ¬ s.condLock = some t := by
    rw [← I.mutex t, hpc]
    exact hq₀
  exact I.move hpc (iff_of_false hq ht) (fun _ _ => .rfl) (CondPc.knows_of_not_locked hq) (.inl rfl) I.bound hcov

/-- A thread takes the mutex. -/
theorem acquire {r : T → Int} {q₀ q : CondPc (.ideal T)} (I : WakeInv s) (hpc : s.pc t = q₀)
    (hfree : s.condLock = none) (hq : q.Locked) (hknows : q.Knows s.nready)
    (hcov : StillCovered s q₀ q s.nready) :
    WakeInv ⟨some t, s.nready, Function.update s.pc t q, r⟩ := by
  refine I.move hpc (iff_of_true hq rfl) (fun u hut => iff_of_false ?_ ?_) hknows (.inl rfl) I.bound hcov
  · exact fun h => hut (Option.some.inj h).symm
  · rw [hfree]
    exact fun h => by cases h

/-- The thread with the mutex goes on with it. -/
theorem body {n : Nat} {r : T → Int} {q₀ q : CondPc (.ideal T)} (I : WakeInv s) (hpc : s.pc t = q₀) (hq₀ : q₀.Locked)
    (hq : q.Locked) (hknows : q.Knows n) (hbound : n < 2 ^ 32)
    (hcov : StillCovered s q₀ q n) :
    WakeInv ⟨s.condLock, n, Function.update s.pc t q, r⟩ := by
  have ht : s.condLock = some t := by
    rw [← I.mutex t, hpc]
    exact hq₀
  exact I.move hpc (iff_of_true hq ht) (fun _ _ => .rfl) hknows (.inr ht) hbound hcov

/-- The thread with the mutex gives it up. -/
theorem release {r : T → Int} {q₀ q : CondPc (.ideal T)} (I : WakeInv s) (hpc : s.pc t = q₀) (hq₀ : q₀.Locked)
    (hq : ¬ q.Locked)
    (hcov : StillCovered s q₀ q s.nready) :
    WakeInv ⟨none, s.nready, Function.update s.pc t q, r⟩ := by
  have ht : s.condLock = some t := by
    rw [← I.mutex t, hpc]
    exact hq₀
  refine I.move hpc (iff_of_false hq (by simp)) (fun u hut => iff_of_false (by simp) ?_)
    (CondPc.knows_of_not_locked hq) (.inl rfl) I.bound hcov
  rw [ht]
  exact fun h => hut (Option.some.inj h).symm

/-- Waking threads moves them from the ones asleep to the ones awake. -/
theorem send {pc : T → CondPc (.ideal T)} {r : T → Int} (I : WakeInv s) (hpc : s.pc t = .signalSend)
    (hwakes : Wakes t s.pc pc) : WakeInv ⟨s.condLock, s.nready, pc, r⟩ := by
  have hw := hwakes.woken
  have ha := count_update CondPc.asleepCount s.pc t .idle
  have hb := count_update CondPc.awakeCount s.pc t .idle
  have hp := count_update CondPc.pendingCount s.pc t .idle
  rw [hpc] at ha hb hp
  simp only [CondPc.asleepCount, CondPc.awakeCount, CondPc.pendingCount] at ha hb hp
  have htotal := count_total hw
  have hpending := count_pending hw
  have hfewer := hwakes.fewer hpc
  refine ⟨fun u => ?_, fun u => ?_, I.bound, ?_⟩
  · exact (hwakes.locked hpc u).1.trans (I.mutex u)
  · by_cases hu : (pc u).Locked
    · have hk := I.knows u
      rwa [← (hwakes.locked hpc u).2 hu] at hk
    · exact CondPc.knows_of_not_locked hu
  · have hc := I.covered
    show count CondPc.asleepCount pc ≤ count CondPc.pendingCount pc ∨
      s.nready ≤ count CondPc.awakeCount pc + count CondPc.pendingCount pc
    simp only [State.asleep, State.awake, State.pending] at hc hfewer
    omega

end WakeInv

/-- One step keeps the invariant. -/
theorem Step.wakeInv (I : WakeInv s) (hcov : Covered t s) (h : Step (.ideal T) t s s') : WakeInv s' := by
  have hc := I.covered
  have hk := I.knows t
  have hb := I.bound
  have hlocked : (s.pc t).Locked → s.condLock = some t := (I.mutex t).mp
  cases h with
  | signal hpc =>
    exact I.outside hpc not_false not_false (stillCovered hc (Nat.le_refl _) (Nat.le_refl _) (Nat.le_refl _))
  | wait hpc =>
    exact I.outside hpc not_false not_false (stillCovered hc (Nat.le_refl _) (Nat.zero_le _) (Nat.le_refl _))
  | signalLock hpc hadv =>
    obtain ⟨hfree, rfl, rfl⟩ := ideal_lockAdvance hadv
    exact I.acquire hpc hfree trivial trivial (stillCovered hc (Nat.le_refl _) (Nat.le_refl _) (Nat.le_refl _))
  | signalTest hpc =>
    exact I.body hpc trivial trivial rfl hb (stillCovered hc (Nat.le_refl _) (Nat.le_refl _) (Nat.le_refl _))
  | signalLoad hpc =>
    rw [hpc] at hk
    exact I.body hpc trivial trivial ⟨rfl, hk⟩ hb (stillCovered hc (Nat.le_refl _) (Nat.le_refl _) (Nat.le_refl _))
  | @signalStore stat n hpc =>
    rw [hpc] at hk
    obtain ⟨rfl, hstat⟩ := hk
    refine I.body hpc trivial trivial trivial (Nat.mod_lt _ (by omega)) fun a w p => ?_
    cases stat with
    | true =>
      have hz : 0 = s.nready := of_decide_eq_true hstat.symm
      simp only [CondPc.asleepCount, CondPc.awakeCount, CondPc.pendingCount]
      omega
    | false =>
      -- Nobody is woken for this one, so the threads that are awake have to be enough.
      have hc := hcov _ hpc
      simp only [CondPc.asleepCount, CondPc.awakeCount, CondPc.pendingCount]
      omega
  | @signalUnlock stat p l o hpc hadv =>
    obtain ⟨rfl, rfl⟩ := ideal_unlockAdvance (hlocked (by rw [hpc]; trivial)) hadv
    cases stat with
    | true =>
      exact I.release hpc trivial not_false (stillCovered hc (Nat.le_refl _) (Nat.le_refl _) (Nat.le_refl _))
    | false =>
      exact I.release hpc trivial not_false (stillCovered hc (Nat.le_refl _) (Nat.le_refl _) (Nat.le_refl _))
  | signalSend hpc hwakes => exact I.send hpc hwakes
  | waitLock hpc hadv =>
    obtain ⟨hfree, rfl, rfl⟩ := ideal_lockAdvance hadv
    exact I.acquire hpc hfree trivial trivial (stillCovered hc (Nat.le_refl _) (Nat.le_refl _) (Nat.le_refl _))
  | waitTest hpc =>
    by_cases hz : 0 = s.nready
    · rw [if_pos hz]
      exact I.body hpc trivial trivial hz.symm hb (stillCovered hc (Nat.le_refl _) (Nat.le_refl _) (Nat.le_refl _))
    · rw [if_neg hz]
      exact I.body hpc trivial trivial (Ne.symm hz) hb (stillCovered hc (Nat.le_refl _) (Nat.le_refl _) (Nat.le_refl _))
  | waitSleep hpc htaken =>
    rw [hpc] at hk
    have hz : s.nready = 0 := hk
    exact I.release hpc trivial not_false fun a w p _ _ _ => .inr (by omega)
  | waitFail hpc =>
    rw [hpc] at hk
    have hz : s.nready = 0 := hk
    exact I.body hpc trivial trivial trivial hb fun a w p _ _ _ => .inr (by omega)
  | spurious hpc =>
    exact I.outside hpc not_false not_false (stillCovered hc (Nat.zero_le _) (Nat.zero_le _) (Nat.le_refl _))
  | woken hpc hfree =>
    exact I.acquire hpc hfree trivial trivial (stillCovered hc (Nat.le_refl _) (Nat.le_refl _) (Nat.le_refl _))
  | waitLoad hpc =>
    rw [hpc] at hk
    exact I.body hpc trivial trivial ⟨rfl, hk⟩ hb (stillCovered hc (Nat.le_refl _) (Nat.le_refl _) (Nat.le_refl _))
  | waitStore hpc =>
    rw [hpc] at hk
    obtain ⟨rfl, hne⟩ := hk
    refine I.body hpc trivial trivial trivial (Nat.mod_lt _ (by omega)) fun a w p => ?_
    simp only [CondPc.asleepCount, CondPc.awakeCount, CondPc.pendingCount]
    omega
  | waitUnlock hpc hadv =>
    obtain ⟨rfl, rfl⟩ := ideal_unlockAdvance (hlocked (by rw [hpc]; trivial)) hadv
    exact I.release hpc trivial not_false (stillCovered hc (Nat.le_refl _) (Nat.le_refl _) (Nat.le_refl _))

theorem Init.wakeInv (h : Init s) : WakeInv s := by
  obtain ⟨hl, hn, hpc⟩ := h
  refine ⟨fun t => iff_of_false ?_ ?_, fun t => ?_, by omega, .inr (by omega)⟩
  · rw [hpc t]
    exact not_false
  · rw [hl]
    exact fun h => by cases h
  · rw [hpc t]
    trivial

/-- In a run in which every signal that finds `nready` above 0 finds enough threads awake, no wake-up is lost. -/
theorem covered_not_lost (h : ReachableBy (.ideal T) Covered s) : ¬ Lost s := by
  have I : WakeInv s := by
    refine Trans.Reachable.invariant h (fun s => Init.wakeInv) fun s s' I hs => ?_
    obtain ⟨t, hcov, hs⟩ := hs
    exact hs.wakeInv I hcov
  rintro ⟨hready, ⟨t, ht⟩, hall⟩
  have hawake : s.awake = 0 := Finset.sum_eq_zero fun u _ => by
    rcases hall u with hu | hu <;> rw [hu] <;> rfl
  have hpending : s.pending = 0 := Finset.sum_eq_zero fun u _ => by
    rcases hall u with hu | hu <;> rw [hu] <;> rfl
  have hasleep : 0 < s.asleep := Finset.sum_pos' (fun _ _ => Nat.zero_le _) ⟨t, Finset.mem_univ t, by rw [ht]; exact Nat.one_pos⟩
  have hc := I.covered
  omega

/-- A thread sleeps, another one signals and wakes it up, and both return. -/
theorem covered_not_lost_woken : ∃ s : State (.ideal (Fin 2)),
    History (.ideal (Fin 2)) Covered [.call 0 .wait, .call 1 .signal, .ret 1 QP_SUCCESS, .ret 0 QP_SUCCESS] s ∧ ¬Lost s := by
  have h₀ : History (.ideal (Fin 2)) Covered [] (start _) := .start (start_init _)
  have h₁ := h₀.next 0 (fun _ h => by cases h) (.wait rfl)
  have h₂ := h₁.next 0 (fun _ h => by cases h) (.waitLock (p := ()) rfl rfl)
  have h₃ := h₂.next 0 (fun _ h => by cases h) (.waitTest rfl)
  have h₄ := h₃.next 0 (fun _ h => by cases h) (.waitSleep rfl rfl)
  -- The signal finds `nready` at 0, so it calls `pthread_cond_signal`.
  have h₅ := h₄.next 1 (fun _ h => by cases h) (.signal rfl)
  have h₆ := h₅.next 1 (fun _ h => by cases h) (.signalLock (p := ()) rfl rfl)
  have h₇ := h₆.next 1 (fun _ h => by cases h) (.signalTest rfl)
  have h₈ := h₇.next 1 (fun _ h => by cases h) (.signalLoad rfl)
  have h₉ := h₈.next 1 (fun _ h => by cases h) (.signalStore rfl)
  have h₁₀ := h₉.next 1 (fun _ h => by cases h) (.signalUnlock (p := ()) rfl rfl)
  have h₁₁ := h₁₀.next 1 (fun _ h => by cases h) (.signalSend rfl (wakes_one (u := 0) rfl (by decide)))
  -- The sleeper gets the mutex back and takes what is there.
  have h₁₂ := h₁₁.next 0 (fun _ h => by cases h) (.woken rfl rfl)
  have h₁₃ := h₁₂.next 0 (fun _ h => by cases h) (.waitTest rfl)
  have h₁₄ := h₁₃.next 0 (fun _ h => by cases h) (.waitLoad rfl)
  have h₁₅ := h₁₄.next 0 (fun _ h => by cases h) (.waitStore rfl)
  have h₁₆ := h₁₅.next 0 (fun _ h => by cases h) (.waitUnlock (p := ()) rfl rfl)
  exact ⟨_, h₁₆, covered_not_lost h₁₆.reachable⟩

/-! ### Two signals for two threads -/

section
omit [Fintype T]
variable {u : T}

theorem ideal_lock (t : T) : (LockModel.ideal T).lockAdvance t (none : Option T) () = some (some t, .ret QP_SUCCESS) :=
  rfl

theorem ideal_unlock (t : T) :
    (LockModel.ideal T).unlockAdvance t (some t) () = ((none : Option T), .ret QP_SUCCESS) := by
  simp only [LockModel.ideal, ↓reduceIte]

/-- A thread that nobody disturbs waits for a signal. -/
theorem ideal_wait (hr : Reachable (.ideal T) s) (hpc : s.pc t = .idle) (hl : s.condLock = (none : Option T))
    (hn : s.nready = 0) : Reachable (.ideal T) (s.move t .asleep (none : Option T) 0) := by
  have h₁ : Reachable (.ideal T) (s.move t (.waitLock ()) (none : Option T) 0) := by
    rw [← hl, ← hn]
    exact hr.step (.wait hpc)
  have h₂ : Reachable (.ideal T) (s.move t .waitTest (some t) 0) :=
    h₁.step (move_step (.waitLock (o := .ret QP_SUCCESS) (Function.update_self _ _ _) (ideal_lock t)))
  have h₃ : Reachable (.ideal T) (s.move t .waitSleep (some t) 0) :=
    h₂.step (move_step (.waitTest (Function.update_self _ _ _)))
  exact h₃.step (move_step (.waitSleep (Function.update_self _ _ _) rfl))

/-- A thread adds to `nready` and unlocks. -/
theorem ideal_signal {n : Nat} (hr : Reachable (.ideal T) s) (hpc : s.pc t = .idle)
    (hl : s.condLock = (none : Option T)) (hn : s.nready = n) :
    ∃ s', Arrives (.ideal T) (none : Option T) ((n + 1) % 2 ^ 32)
      (Function.update s.pc t (if decide (0 = n) then .signalSend else .idle)) s' := by
  have h₁ : Reachable (.ideal T) (s.move t (.signalLock ()) (none : Option T) n) := by
    rw [← hl, ← hn]
    exact hr.step (.signal hpc)
  have h₂ : Reachable (.ideal T) (s.move t .signalTest (some t) n) :=
    h₁.step (move_step (.signalLock (o := .ret QP_SUCCESS) (Function.update_self _ _ _) (ideal_lock t)))
  have h₃ : Reachable (.ideal T) (s.move t (.signalLoad (decide (0 = n))) (some t) n) :=
    h₂.step (move_step (.signalTest (Function.update_self _ _ _)))
  have h₄ : Reachable (.ideal T) (s.move t (.signalStore (decide (0 = n)) n) (some t) n) :=
    h₃.step (move_step (.signalLoad (Function.update_self _ _ _)))
  have h₅ : Reachable (.ideal T) (s.move t (.signalUnlock (decide (0 = n)) ()) (some t) ((n + 1) % 2 ^ 32)) :=
    h₄.step (move_step (.signalStore (n := n) (Function.update_self _ _ _)))
  exact arrives_signal h₅ (ideal_unlock t)

/-- A thread that was woken takes one of two. -/
theorem ideal_take (hr : Reachable (.ideal T) s) (hpc : s.pc t = .woken) (hl : s.condLock = (none : Option T))
    (hn : s.nready = 2) : ∃ s', Arrives (.ideal T) (none : Option T) 1 (Function.update s.pc t .idle) s' := by
  have h₁ : Reachable (.ideal T) (s.move t .waitTest (some t) 2) := by
    rw [← hn]
    exact hr.step (.woken hpc hl)
  have h₂ : Reachable (.ideal T) (s.move t .waitLoad (some t) 2) :=
    h₁.step (move_step (.waitTest (Function.update_self _ _ _)))
  have h₃ : Reachable (.ideal T) (s.move t (.waitStore 2) (some t) 2) :=
    h₂.step (move_step (.waitLoad (Function.update_self _ _ _)))
  have h₄ : Reachable (.ideal T) (s.move t (.waitUnlock false ()) (some t) 1) :=
    h₃.step (move_step (.waitStore (n := 2) (Function.update_self _ _ _)))
  exact arrives_wait h₄ (ideal_unlock t)

end

/-- Two threads sleep; the third one signals twice before the thread that is woken takes anything. -/
theorem covered_not_lost_twice : ∃ s : State (.ideal (Fin 3)), Reachable (.ideal (Fin 3)) s ∧ Lost s := by
  have hr₀ : Reachable (.ideal (Fin 3)) (start (.ideal (Fin 3))) := Trans.Reachable.start (start_init _)
  have hr₁ := ideal_wait (t := 0) hr₀ rfl rfl rfl
  have hr₂ := ideal_wait (t := 1) hr₁ rfl rfl rfl
  obtain ⟨s₃, A⟩ := ideal_signal (t := 2) hr₂ rfl rfl rfl
  have h₂ : s₃.pc 2 = .signalSend := by rw [A.pc]; rfl
  have h₀ : s₃.pc 0 = .asleep := by rw [A.pc]; rfl
  obtain ⟨s₄, B⟩ := arrives_send A.reachable h₂ h₀ (by decide)
  have hpc₄ : s₄.pc 2 = .idle := by rw [B.pc]; rfl
  obtain ⟨s₅, C⟩ := ideal_signal B.reachable hpc₄ (B.condLock.trans A.condLock) (B.nready.trans A.nready)
  have hpc₅ : s₅.pc 0 = .woken := by rw [C.pc, B.pc]; rfl
  obtain ⟨s₆, D⟩ := ideal_take C.reachable hpc₅ C.condLock C.nready
  refine ⟨s₆, D.reachable, by rw [D.nready], ⟨1, ?_⟩, fun t => ?_⟩
  · rw [D.pc, C.pc, B.pc, A.pc]
    rfl
  · rw [D.pc, C.pc, B.pc, A.pc]
    match t with
    | 0 => exact .inl rfl
    | 1 => exact .inr rfl
    | 2 => exact .inl rfl

end CondSystem

end QPHi
