import QPHi.Theorems.Cond.Mutex
import QPHi.Theorems.Cond.Wakeup

/-! A condition is linearizable to a counting semaphore, for every lock that keeps the threads out of each other's way between
    the lock and the unlock: an ideal mutex, and the lock of the source in the runs that do not disturb it. -/

namespace QPHi

/-- The semaphore and its threads. -/
abbrev Semaphore (T : Type) := Linear.Atomic T CondOp Int Nat

/-- A counting semaphore with the word of `nready`. A wait takes one of what is there, or fails and takes nothing. -/
def semaphore (T : Type) : Linear.Object T CondOp Int Nat where
  init := 0
  apply _ op n r n' :=
    match op with
    | .signal => r = QP_SUCCESS ∧ n' = (n + 1) % 2 ^ 32
    | .wait => r = QP_SUCCESS ∧ n = n' + 1 ∨ r = QP_ERROR ∧ n' = n

namespace CondPc
variable {T : Type} {M : LockModel T}

/-- The thread reads or writes `nready`, or is about to. -/
def Looks : CondPc M → Prop
  | .signalTest | .signalLoad _ | .signalStore _ _ | .waitTest | .waitSleep | .waitLoad | .waitStore _ => True
  | _ => False

theorem knows_of_not_looks {n : Nat} {q : CondPc M} (h : ¬q.Looks) : q.Knows n := by
  cases q <;> first | exact absurd trivial h | trivial

/-- Where a thread is in its call, for a point of the function. -/
def Stands : CondPc M → Linear.Status CondOp Int → Prop
  | .idle, st => st = .idle
  | .signalLock _, st | .signalTest, st | .signalLoad _, st | .signalStore _ _, st => st = .called .signal
  | .signalUnlock _ _, st | .signalSend, st => st = .done QP_SUCCESS
  | .waitLock _, st | .waitTest, st | .waitSleep, st | .asleep, st | .woken, st | .waitLoad, st | .waitStore _, st =>
    st = .called .wait
  | .waitUnlock failed _, st => st = .done (if failed then QP_ERROR else QP_SUCCESS)

end CondPc

namespace CondSystem

variable {T : Type} {M : LockModel T}

/-- No two threads look at `nready` at once, and an unlock that ends a wait succeeds. -/
structure Guarded (s : State M) : Prop where
  alone : ∀ t u, (s.pc t).Looks → (s.pc u).Looks → t = u
  unlocks : ∀ t failed p l r, s.pc t = .waitUnlock failed p → M.unlockAdvance t s.condLock p = (l, .ret r) → r = QP_SUCCESS

variable {P : T → State M → Prop} {t u : T} {s s' : State M} {a : Semaphore T}

structure Sim (s : State M) (a : Semaphore T) : Prop where
  nready : a.object = s.nready
  bound : s.nready < 2 ^ 32
  knows : ∀ t, (s.pc t).Knows s.nready
  stands : ∀ t, (s.pc t).Stands (a.status t)

theorem Sim.eta (S : Sim s a) : (⟨s.nready, a.status⟩ : Semaphore T) = a := by
  rw [← S.nready]

theorem Init.sim (h : Init s) : Sim s ⟨0, fun _ => .idle⟩ := by
  obtain ⟨-, hn, hpc⟩ := h
  refine ⟨hn.symm, by omega, fun t => ?_, fun t => ?_⟩
  · rw [hpc t]
    trivial
  · rw [hpc t]
    rfl

variable [DecidableEq T]

/-- The semaphore answers the step of `t` that leads to `s'`. -/
def Answers (a : Semaphore T) (e : Option (CondAction T)) (s' : State M) : Prop :=
  ∃ ms b, Linear.Goes (semaphore T) a ms b ∧ ms.filterMap Linear.Mark.action? = e.toList ∧ Sim s' b

namespace Sim
variable {l : M.Fields} {n : Nat} {r : T → Int} {q : CondPc M} {st : Linear.Status CondOp Int}

/-- The thread `t` moves to `q`. Only a thread that looks at `nready` changes it. -/
theorem move (S : Sim s a) (G : Guarded s) (hn : n = s.nready ∨ (s.pc t).Looks) (hbound : n < 2 ^ 32) (hknows : q.Knows n)
    (hst : q.Stands st) : Sim ⟨l, n, Function.update s.pc t q, r⟩ ⟨n, Function.update a.status t st⟩ := by
  refine ⟨rfl, hbound, fun u => ?_, fun u => ?_⟩
  · show (Function.update s.pc t q u).Knows n
    by_cases hut : u = t
    · rw [hut, Function.update_self]
      exact hknows
    · rw [Function.update_of_ne hut]
      rcases hn with rfl | hlooks
      · exact S.knows u
      · exact CondPc.knows_of_not_looks fun hu => hut (G.alone u t hu hlooks)
  · show (Function.update s.pc t q u).Stands (Function.update a.status t st u)
    by_cases hut : u = t
    · rw [hut, Function.update_self, Function.update_self]
      exact hst
    · rw [Function.update_of_ne hut, Function.update_of_ne hut]
      exact S.stands u

/-- The thread goes on in its call, and `nready` is as it was. -/
theorem stays {q₀ : CondPc M} (S : Sim s a) (G : Guarded s) (hpc : s.pc t = q₀) (hq₀ : q₀.Inside) (hq : q.Inside)
    (hknows : q.Knows s.nready) (hst : ∀ st, q₀.Stands st → q.Stands st) :
    Answers a (s.action t ⟨l, s.nready, Function.update s.pc t q, r⟩) ⟨l, s.nready, Function.update s.pc t q, r⟩ := by
  have h := S.move (t := t) (l := l) (r := r) G (.inl rfl) S.bound hknows (hst _ (hpc ▸ S.stands t))
  rw [Function.update_eq_self, S.eta] at h
  rw [action_none hpc hq₀ (Function.update_self _ _ _) hq]
  exact ⟨[], a, .refl, rfl, h⟩

/-- The call takes effect. -/
theorem effect {q₀ : CondPc M} (S : Sim s a) (G : Guarded s) {op : CondOp} {x : Int} (hpc : s.pc t = q₀) (hlooks : q₀.Looks)
    (hcalled : a.status t = .called op) (happ : (semaphore T).apply t op s.nready x n) (hbound : n < 2 ^ 32)
    (hq : q.Inside) (hknows : q.Knows n) (hst : q.Stands (.done x)) :
    Answers a (s.action t ⟨l, n, Function.update s.pc t q, r⟩) ⟨l, n, Function.update s.pc t q, r⟩ := by
  have hq₀ : q₀.Inside := by
    cases q₀ <;> first | exact hlooks.elim | trivial
  rw [action_none hpc hq₀ (Function.update_self _ _ _) hq]
  refine ⟨_, _, Linear.Goes.refl.effect hcalled ?_, rfl, S.move G (.inr (hpc ▸ hlooks)) hbound hknows hst⟩
  rw [S.nready]
  exact happ

/-- The call returns. -/
theorem returns {q₀ : CondPc M} (S : Sim s a) (G : Guarded s) (hpc : s.pc t = q₀) (hq₀ : q₀.Inside)
    (hdone : a.status t = .done (r t)) :
    Answers a (s.action t ⟨l, s.nready, Function.update s.pc t .idle, r⟩)
      ⟨l, s.nready, Function.update s.pc t .idle, r⟩ := by
  have h := S.move (t := t) (l := l) (r := r) G (.inl rfl) S.bound (q := .idle) trivial rfl
  have hgoes : Linear.Goes (semaphore T) a _ _ := .ret .refl hdone
  rw [S.nready] at hgoes
  rw [action_ret hpc hq₀ (Function.update_self _ _ _)]
  exact ⟨_, _, hgoes, rfl, h⟩

/-- The thread calls a function. -/
theorem calls (S : Sim s a) (G : Guarded s) {op : CondOp} (hpc : s.pc t = .idle) (hknows : q.Knows s.nready)
    (hst : q.Stands (.called op)) :
    Answers a (some (.call t op)) ⟨l, s.nready, Function.update s.pc t q, r⟩ := by
  have h := S.move (t := t) (l := l) (r := r) G (.inl rfl) S.bound hknows hst
  have hidle := S.stands t
  rw [hpc] at hidle
  have hgoes : Linear.Goes (semaphore T) a [.action (.call t op)] _ := .call .refl hidle
  rw [S.nready] at hgoes
  exact ⟨_, _, hgoes, rfl, h⟩

theorem step (S : Sim s a) (G : Guarded s) (hs : Step M t s s') : Answers a (s.action t s') s' := by
  have hst := S.stands t
  have hknows := S.knows t
  cases hs with
  | signal hpc =>
    have haction : s.action t { s with pc := Function.update s.pc t (.signalLock M.lock) } = some (.call t .signal) := by
      rw [State.action, hpc]
      simp only [Function.update_self]
    rw [haction]
    exact S.calls G hpc trivial rfl
  | wait hpc =>
    have haction : s.action t { s with pc := Function.update s.pc t (.waitLock M.lock) } = some (.call t .wait) := by
      rw [State.action, hpc]
      simp only [Function.update_self]
    rw [haction]
    exact S.calls G hpc trivial rfl
  | @signalLock p l o hpc hadv =>
    cases o with
    | goto p' => exact S.stays G hpc trivial trivial trivial fun _ h => h
    | ret r => exact S.stays G hpc trivial trivial trivial fun _ h => h
  | signalTest hpc => exact S.stays G hpc trivial trivial rfl fun _ h => h
  | signalLoad hpc =>
    rw [hpc] at hknows
    exact S.stays G hpc trivial trivial ⟨rfl, hknows⟩ fun _ h => h
  | @signalStore stat n hpc =>
    rw [hpc] at hst hknows
    obtain ⟨rfl, -⟩ := hknows
    exact S.effect G hpc trivial hst ⟨rfl, rfl⟩ (Nat.mod_lt _ (by omega)) trivial trivial rfl
  | @signalUnlock stat p l o hpc hadv =>
    cases o with
    | goto p' => exact S.stays G hpc trivial trivial trivial fun _ h => h
    | ret r =>
      cases stat with
      | true => exact S.stays G hpc trivial trivial trivial fun _ h => h
      | false =>
        rw [hpc] at hst
        refine S.returns G hpc trivial ?_
        rw [Function.update_self]
        exact hst
  | @signalSend pc hpc hwakes =>
    rw [hpc] at hst
    have hothers : ∀ u ≠ t, (pc u).Knows s.nready ∧ (pc u).Stands (a.status u) := by
      intro u hut
      have hu := S.stands u
      rcases hwakes.2.1 u hut with hsame | ⟨hasleep, hwoken⟩
      · rw [hsame]
        exact ⟨S.knows u, hu⟩
      · rw [hasleep] at hu
        rw [hwoken]
        exact ⟨trivial, hu⟩
    rw [action_ret hpc trivial hwakes.1]
    refine ⟨_, _, Linear.Goes.refl.ret (r := QP_SUCCESS) hst, ?_, S.nready, S.bound, fun u => ?_, fun u => ?_⟩
    · show _ = (some (Linear.Action.ret t (Function.update s.result t QP_SUCCESS t))).toList
      rw [Function.update_self]
      rfl
    · show (pc u).Knows s.nready
      by_cases hut : u = t
      · rw [hut, hwakes.1]
        trivial
      · exact (hothers u hut).1
    · show (pc u).Stands (Function.update a.status t .idle u)
      by_cases hut : u = t
      · rw [hut, hwakes.1, Function.update_self]
        rfl
      · rw [Function.update_of_ne hut]
        exact (hothers u hut).2
  | @waitLock p l o hpc hadv =>
    cases o with
    | goto p' => exact S.stays G hpc trivial trivial trivial fun _ h => h
    | ret r => exact S.stays G hpc trivial trivial trivial fun _ h => h
  | waitTest hpc =>
    by_cases hz : 0 = s.nready
    · rw [if_pos hz]
      exact S.stays G hpc trivial trivial hz.symm fun _ h => h
    · rw [if_neg hz]
      exact S.stays G hpc trivial trivial (Ne.symm hz) fun _ h => h
  | waitSleep hpc htaken => exact S.stays G hpc trivial trivial trivial fun _ h => h
  | waitFail hpc =>
    rw [hpc] at hst
    exact S.effect G hpc trivial hst (.inr ⟨rfl, rfl⟩) S.bound trivial trivial rfl
  | spurious hpc => exact S.stays G hpc trivial trivial trivial fun _ h => h
  | woken hpc hfree => exact S.stays G hpc trivial trivial trivial fun _ h => h
  | waitLoad hpc =>
    rw [hpc] at hknows
    exact S.stays G hpc trivial trivial ⟨rfl, hknows⟩ fun _ h => h
  | @waitStore n hpc =>
    rw [hpc] at hst hknows
    obtain ⟨rfl, hne⟩ := hknows
    have hbound := S.bound
    exact S.effect G hpc trivial hst (.inl ⟨rfl, by omega⟩) (Nat.mod_lt _ (by omega)) trivial trivial rfl
  | @waitUnlock failed p l o hpc hadv =>
    cases o with
    | goto p' => exact S.stays G hpc trivial trivial trivial fun _ h => h
    | ret r =>
      rw [hpc] at hst
      refine S.returns G hpc trivial ?_
      rw [Function.update_self, G.unlocks t failed p l r hpc hadv]
      exact hst

end Sim

theorem guarded_linearizable {h : List (CondAction T)} (hguarded : ∀ s, ReachableBy M P s → Guarded s)
    (run : History M P h s) : Linear.Linearizable (semaphore T) h := by
  refine Linear.Run.linearizable (fun s a => ReachableBy M P s ∧ Sim s a) (fun s h₀ => ⟨.start h₀, h₀.sim⟩) ?_ run
  rintro s e s' a ⟨hr, S⟩ ⟨t, hP, hs, rfl⟩
  obtain ⟨ms, b, hgoes, hms, S'⟩ := S.step (hguarded s hr) hs
  exact ⟨ms, b, hgoes, hms, hr.tail ⟨t, hP, hs⟩, S'⟩

/-! ### The ideal mutex -/

/-- The thread between the lock and the unlock is the one that has the mutex. -/
def Mutual (s : State (.ideal T)) : Prop := ∀ t, (s.pc t).Locked ↔ s.condLock = some t

namespace Mutual
variable {s : State (.ideal T)} {n : Nat} {r : T → Int} {q₀ q : CondPc (.ideal T)}

theorem move {l : Option T} (I : Mutual s) (hself : q.Locked ↔ l = some t)
    (hother : ∀ u ≠ t, l = some u ↔ s.condLock = some u) : Mutual ⟨l, n, Function.update s.pc t q, r⟩ := by
  intro u
  show (Function.update s.pc t q u).Locked ↔ l = some u
  by_cases hut : u = t
  · rw [hut, Function.update_self]
    exact hself
  · rw [Function.update_of_ne hut]
    exact (I u).trans (hother u hut).symm

/-- The thread keeps what it has. -/
theorem keep (I : Mutual s) (hpc : s.pc t = q₀) (hsame : q.Locked ↔ q₀.Locked) :
    Mutual ⟨s.condLock, n, Function.update s.pc t q, r⟩ := by
  refine I.move (hsame.trans ?_) fun _ _ => Iff.rfl
  rw [← hpc]
  exact I t

theorem take (I : Mutual s) (hfree : s.condLock = none) (hq : q.Locked) :
    Mutual ⟨some t, n, Function.update s.pc t q, r⟩ := by
  refine I.move (iff_of_true hq rfl) fun u hut => iff_of_false (fun h => hut (Option.some.inj h).symm) ?_
  rw [hfree]
  exact fun h => by cases h

theorem drop (I : Mutual s) (hpc : s.pc t = q₀) (hq₀ : q₀.Locked) (hq : ¬q.Locked) :
    Mutual ⟨none, n, Function.update s.pc t q, r⟩ := by
  refine I.move (iff_of_false hq (by intro h; cases h)) fun u hut => iff_of_false (by intro h; cases h) fun h => hut ?_
  exact Option.some.inj (h.symm.trans ((I t).mp (hpc ▸ hq₀)))

theorem step {s' : State (.ideal T)} (I : Mutual s) (hs : Step (.ideal T) t s s') : Mutual s' := by
  cases hs with
  | signal hpc | wait hpc | signalTest hpc | signalLoad hpc | signalStore hpc | waitFail hpc | spurious hpc | waitLoad hpc
  | waitStore hpc => exact I.keep hpc Iff.rfl
  | waitTest hpc =>
    refine I.keep hpc ?_
    split <;> exact Iff.rfl
  | signalLock hpc hadv | waitLock hpc hadv =>
    obtain ⟨hfree, rfl, rfl⟩ := ideal_lockAdvance hadv
    exact I.take hfree trivial
  | @signalUnlock stat p l o hpc hadv =>
    obtain ⟨rfl, rfl⟩ := ideal_unlockAdvance ((I t).mp (hpc ▸ trivial)) hadv
    refine I.drop hpc trivial ?_
    cases stat <;> exact not_false
  | waitUnlock hpc hadv =>
    obtain ⟨rfl, rfl⟩ := ideal_unlockAdvance ((I t).mp (hpc ▸ trivial)) hadv
    exact I.drop hpc trivial not_false
  | waitSleep hpc _ => exact I.drop hpc trivial not_false
  | woken hpc hfree => exact I.take hfree trivial
  | signalSend hpc hwakes => exact fun u => (hwakes.locked hpc u).1.trans (I u)

end Mutual

theorem Reachable.guarded {s : State (.ideal T)} (h : Reachable (.ideal T) s) : Guarded s := by
  have I : Mutual s := by
    refine Trans.Reachable.invariant h (fun s h₀ t => iff_of_false ?_ ?_) fun s s' I hs => ?_
    · rw [h₀.2.2 t]
      exact not_false
    · rw [h₀.1]
      exact fun h => by cases h
    · obtain ⟨t, -, hs⟩ := hs
      exact I.step hs
  have hlooks : ∀ t, (s.pc t).Looks → s.condLock = some t := by
    intro t ht
    refine (I t).mp ?_
    cases hpc : s.pc t <;> rw [hpc] at ht <;> first | exact ht.elim | trivial
  refine ⟨fun t u ht hu => Option.some.inj ((hlooks t ht).symm.trans (hlooks u hu)), fun t failed p l r hpc hadv => ?_⟩
  have hret := (ideal_unlockAdvance ((I t).mp (hpc ▸ trivial)) hadv).2
  exact Outcome.ret.inj hret

theorem ideal_linearizable {s : State (.ideal T)} {h : List (CondAction T)} (run : History (.ideal T) (fun _ _ => True) h s) :
    Linear.Linearizable (semaphore T) h := guarded_linearizable (fun _ => Reachable.guarded) run

/-- A signal, and a wait that takes it. -/
theorem ideal_linearizable_signal : Linear.Linearizable (semaphore (Fin 2))
    [.call 0 .signal, .ret 0 QP_SUCCESS, .call 1 .wait, .ret 1 QP_SUCCESS] := by
  have h₀ : History (.ideal (Fin 2)) (fun _ _ => True) [] (start _) := .start (start_init _)
  have h₁ := h₀.next 0 trivial (.signal rfl)
  have h₂ := h₁.next 0 trivial (.signalLock (p := ()) rfl rfl)
  have h₃ := h₂.next 0 trivial (.signalTest rfl)
  have h₄ := h₃.next 0 trivial (.signalLoad rfl)
  have h₅ := h₄.next 0 trivial (.signalStore rfl)
  have h₆ := h₅.next 0 trivial (.signalUnlock (p := ()) rfl rfl)
  have h₇ := h₆.next 0 trivial (.signalSend rfl (wakes_none fun u h => by match u with | 0 => cases h | 1 => cases h))
  have h₈ := h₇.next 1 trivial (.wait rfl)
  have h₉ := h₈.next 1 trivial (.waitLock (p := ()) rfl rfl)
  have h₁₀ := h₉.next 1 trivial (.waitTest rfl)
  have h₁₁ := h₁₀.next 1 trivial (.waitLoad rfl)
  have h₁₂ := h₁₁.next 1 trivial (.waitStore rfl)
  have h₁₃ := h₁₂.next 1 trivial (.waitUnlock (p := ()) rfl rfl)
  exact ideal_linearizable h₁₃

/-! ### The lock of the source -/

theorem Undisturbed.guarded {ids : Ids T} {s : State (.reentrant ids)} (hids : ids.Proper) (hmix : ids.Unmixed)
    (h : ReachableBy (.reentrant ids) Undisturbed s) : Guarded s := by
  obtain ⟨holder, I⟩ := h.mutexInv hids hmix
  have hlooks : ∀ t, (s.pc t).Looks → holder = some t := by
    intro t ht
    refine I.holder_of_inside ?_
    cases hpc : s.pc t <;> rw [hpc] at ht <;> first | exact ht.elim | exact Nat.one_ne_zero
  refine ⟨fun t u ht hu => Option.some.inj ((hlooks t ht).symm.trans (hlooks u hu)), fun t failed p l r hpc hadv => ?_⟩
  have hne : (s.pc t).inside ≠ 0 := by
    rw [hpc]
    exact Nat.one_ne_zero
  have H := I.lock.owner t (I.holder_of_inside hne)
  simp only [Function.comp_apply, hpc] at H
  have ht := I.taken_of_inside hne (by rw [hpc]; exact not_false)
  rcases H.unlockAdvance ht hadv with ⟨-, -, ⟨p', ho⟩ | hlt, -⟩ | ⟨-, -, ho, -⟩
  · cases ho
  · exact absurd hlt (Nat.lt_irrefl 1)
  · exact Outcome.ret.inj ho

theorem undisturbed_linearizable {ids : Ids T} {s : State (.reentrant ids)} {h : List (CondAction T)} (hids : ids.Proper)
    (hmix : ids.Unmixed) (run : History (.reentrant ids) Undisturbed h s) : Linear.Linearizable (semaphore T) h :=
  guarded_linearizable (fun _ => Undisturbed.guarded hids hmix) run

theorem undisturbed_linearizable_signal : Linear.Linearizable (semaphore (Fin 2))
    [.call 0 .signal, .call 1 .wait, .ret 0 QP_SUCCESS, .ret 1 QP_SUCCESS] := by
  obtain ⟨s, run, -⟩ := exists_undisturbed_history
  exact undisturbed_linearizable twoThreads_proper (Ids.unmixed_of_injective twoThreads_injective) run

end CondSystem

end QPHi
