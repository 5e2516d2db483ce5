import QPHi.Cond
import QPHi.Lib.Linear

/-! Runs of a condition, what is seen of them, and runs of one thread that nobody disturbs. -/

namespace QPHi

/-- The functions of a condition. -/
inductive CondOp where
  | signal
  | wait
deriving DecidableEq, Repr

/-- What is seen of the threads that use a condition. -/
abbrev CondAction (T : Type) := Linear.Action T CondOp Int

/-- The thread is in a function. -/
def CondPc.Inside {T : Type} {M : LockModel T} : CondPc M → Prop
  | .idle => False
  | _ => True

namespace CondSystem

variable {T : Type} {M : LockModel T} {P : T → State M → Prop} {s s' : State M} {t u : T}

/-! ### What is seen -/

/-- What is seen of a step of `t`. -/
def State.action (t : T) (s s' : State M) : Option (CondAction T) :=
  match s.pc t, s'.pc t with
  | .idle, .signalLock _ => some (.call t .signal)
  | .idle, .waitLock _ => some (.call t .wait)
  | .idle, _ => none
  | _, .idle => some (.ret t (s'.result t))
  | _, _ => none

theorem action_none {q₀ q : CondPc M} {t : T} {s s' : State M} (hpc : s.pc t = q₀) (hq₀ : q₀.Inside) (hpc' : s'.pc t = q)
    (hq : q.Inside) : s.action t s' = none := by
  unfold State.action
  rw [hpc, hpc']
  cases q₀ with
  | idle => exact hq₀.elim
  | _ =>
    cases q with
    | idle => exact hq.elim
    | _ => rfl

theorem action_ret {q₀ : CondPc M} {t : T} {s s' : State M} (hpc : s.pc t = q₀) (hq₀ : q₀.Inside) (hq : s'.pc t = .idle) :
    s.action t s' = some (.ret t (s'.result t)) := by
  unfold State.action
  rw [hpc, hq]
  cases q₀ with
  | idle => exact hq₀.elim
  | _ => rfl

variable [DecidableEq T]

/-- The runs whose steps meet `P`, with what is seen of them. -/
def History (M : LockModel T) (P : T → State M → Prop) : List (CondAction T) → State M → Prop :=
  Linear.Run Init fun s e s' => ∃ t, P t s ∧ Step M t s s' ∧ e = s.action t s'

theorem History.reachable {h : List (CondAction T)} (run : History M P h s) : ReachableBy M P s := by
  induction run with
  | start h₀ => exact .start h₀
  | tail _ hs ih =>
    obtain ⟨t, hP, hs, -⟩ := hs
    exact ih.tail ⟨t, hP, hs⟩

theorem History.next {h : List (CondAction T)} (run : History M P h s) (t : T) (hP : P t s) (hs : Step M t s s') :
    History M P (h ++ (s.action t s').toList) s' := run.tail ⟨t, hP, hs, rfl⟩

/-! ### One thread -/

theorem Reachable.step (h : Reachable M s) (hs : Step M t s s') : Reachable M s' :=
  Trans.Reachable.tail h ⟨t, trivial, hs⟩

/-- The thread `t` moves and the condition changes. -/
def State.move (s : State M) (t : T) (q : CondPc M) (l : M.Fields) (n : Nat) : State M :=
  { s with condLock := l, nready := n, pc := Function.update s.pc t q }

theorem move_step {l l' : M.Fields} {n n' : Nat} {q q' : CondPc M}
    (h : Step M t (s.move t q l n) ⟨l', n', Function.update (s.move t q l n).pc t q', s.result⟩) :
    Step M t (s.move t q l n) (s.move t q' l' n') := by
  simpa only [State.move, Function.update_idem] using h

/-- `pthread_cond_signal` may wake one thread only. -/
theorem wakes_one {pc : T → CondPc M} (hu : pc u = .asleep) (hut : u ≠ t) :
    Wakes t pc (Function.update (Function.update pc t .idle) u .woken) := by
  refine ⟨?_, fun v hvt => ?_, fun _ => ⟨u, hu, Function.update_self _ _ _⟩⟩
  · rw [Function.update_of_ne hut.symm, Function.update_self]
  · by_cases hvu : v = u
    · subst hvu
      exact .inr ⟨hu, Function.update_self _ _ _⟩
    · rw [Function.update_of_ne hvu, Function.update_of_ne hvt]
      exact .inl rfl

/-- `pthread_cond_signal` has no thread to wake. -/
theorem wakes_none {pc : T → CondPc M} (h : ∀ u, pc u ≠ .asleep) : Wakes t pc (Function.update pc t .idle) :=
  ⟨Function.update_self _ _ _, fun _ hut => .inl (Function.update_of_ne hut _ _), fun ⟨u, hu⟩ => absurd hu (h u)⟩

/-- The condition and the threads after some steps: what the threads have got back is left out. -/
structure Arrives (M : LockModel T) (l : M.Fields) (n : Nat) (pc : T → CondPc M) (s : State M) : Prop where
  reachable : Reachable M s
  condLock : s.condLock = l
  nready : s.nready = n
  pc : s.pc = pc

theorem arrives_signal {stat : Bool} {l l' : M.Fields} {n : Nat} {p : M.Leave} {r : Int}
    (hr : Reachable M (s.move t (.signalUnlock stat p) l n)) (hadv : M.unlockAdvance t l p = (l', .ret r)) :
    ∃ s', Arrives M l' n (Function.update s.pc t (if stat then .signalSend else .idle)) s' :=
  ⟨_, hr.step (.signalUnlock (Function.update_self _ _ _) hadv), rfl, rfl, Function.update_idem _ _ _⟩

theorem arrives_wait {failed : Bool} {l l' : M.Fields} {n : Nat} {p : M.Leave} {r : Int}
    (hr : Reachable M (s.move t (.waitUnlock failed p) l n)) (hadv : M.unlockAdvance t l p = (l', .ret r)) :
    ∃ s', Arrives M l' n (Function.update s.pc t .idle) s' :=
  ⟨_, hr.step (.waitUnlock (Function.update_self _ _ _) hadv), rfl, rfl, Function.update_idem _ _ _⟩

theorem arrives_send (hr : Reachable M s) (hpc : s.pc t = .signalSend) (hu : s.pc u = .asleep) (hut : u ≠ t) :
    ∃ s', Arrives M s.condLock s.nready (Function.update (Function.update s.pc t .idle) u .woken) s' :=
  ⟨_, hr.step (.signalSend hpc (wakes_one hu hut)), rfl, rfl, rfl⟩

end CondSystem

end QPHi
