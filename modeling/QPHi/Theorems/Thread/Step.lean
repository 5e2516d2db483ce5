import QPHi.Thread

/-! What one step of a new thread changes: its own record, the structure, and with `pthread_detach` the record of the thread
    that is detached. -/

namespace QPHi.ThreadSystem

variable {s s' : State} {tid : Nat} {detached : Bool} {ret : Ptr} {r r' q : Runner} {t : Thread}
  {allowed : State → Label → Prop}

/-- The thread has no access to the structure left. -/
def RunnerPc.Over : RunnerPc → Prop
  | .exit | .ended => True
  | _ => False

theorem RunnerPc.Over.not_touches {p : RunnerPc} (h : p.Over) : ¬p.Touches := by
  cases p with
  | exit => exact id
  | ended => exact id
  | _ => exact h.elim

/-- No new thread has an access to the structure left. -/
def State.AllOver (s : State) : Prop := ∀ tid r, s.runners tid = some r → r.pc.Over

/-- The records differ in what `pthread_detach` and `pthread_join` say about them at most. -/
structure Runner.Same (r r' : Runner) : Prop where
  pc : r'.pc = r.pc
  handler : r'.handler = r.handler
  args : r'.args = r.args
  calls : r'.calls = r.calls

theorem Runner.Same.refl (r : Runner) : r.Same r := ⟨rfl, rfl, rfl, rfl⟩

/-! ### The step of a new thread -/

/-- The thread `tid` with the record `r` has made an access. -/
structure Advanced (s s' : State) (tid : Nat) (detached : Bool) (ret : Ptr) (r : Runner) : Prop where
  thread : s'.thread = (runnerAdvance tid detached ret s.thread r).1
  owner : s'.owner = s.owner
  destroyed : s'.destroyed = s.destroyed
  own : ∃ r', s'.runners tid = some r' ∧ (runnerAdvance tid detached ret s.thread r).2.Same r'
  others : ∀ other q', other ≠ tid → s'.runners other = some q' → ∃ q, s.runners other = some q ∧ q.Same q'
  quiet : r.pc ≠ .detach → s'.runners = Function.update s.runners tid (some (runnerAdvance tid detached ret s.thread r).2)

theorem runnerAdvance_detached (tid : Nat) (detached : Bool) (ret : Ptr) (t : Thread) (hpc : r.pc = .detach) :
    runnerAdvance tid detached ret t { r with detached := true } =
      ((runnerAdvance tid detached ret t r).1, { (runnerAdvance tid detached ret t r).2 with detached := true }) := by
  simp only [runnerAdvance, hpc]

theorem advance_advanced (hr : s.runners tid = some r) (h : s.advance tid detached ret = some s') :
    Advanced s s' tid detached ret r := by
  unfold State.advance at h
  simp only [hr, Option.some.injEq] at h
  subst h
  refine ⟨rfl, rfl, rfl, ⟨_, Function.update_self _ _ _, .refl _⟩, fun other q' hne hq => ?_, fun _ => rfl⟩
  exact ⟨q', (Function.update_of_ne hne _ _).symm.trans hq, .refl q'⟩

theorem detach_advanced {s₁ : State} (hr : s.runners tid = some r) (hpc : r.pc = .detach)
    (hd : s.detach s.thread.tid = some s₁) (h : s₁.advance tid detached ret = some s') :
    Advanced s s' tid detached ret r := by
  unfold State.detach at hd
  cases hq : s.runners s.thread.tid with
  | none =>
    rw [hq] at hd
    cases hd
  | some q =>
    rw [hq] at hd
    simp only [Option.ite_none_right_eq_some, Option.some.injEq] at hd
    obtain ⟨-, rfl⟩ := hd
    by_cases htid : tid = s.thread.tid
    · -- The thread detaches itself, as it should.
      subst htid
      have hrq : q = r := Option.some.inj (hq.symm.trans hr)
      subst hrq
      have A := advance_advanced (r := { q with detached := true }) (Function.update_self _ _ _) h
      have hadv := runnerAdvance_detached s.thread.tid detached ret s.thread hpc
      obtain ⟨r', hr', hsame⟩ := A.own
      replace hsame : Runner.Same _ r' := congrArg Prod.snd hadv ▸ hsame
      have hthread : (runnerAdvance s.thread.tid detached ret s.thread { q with detached := true }).1 =
        (runnerAdvance s.thread.tid detached ret s.thread q).1 := by rw [hadv]
      refine ⟨A.thread.trans hthread, A.owner, A.destroyed,
        ⟨r', hr', ⟨hsame.pc, hsame.handler, hsame.args, hsame.calls⟩⟩,
        fun other q' hne hq' => ?_, fun hne => absurd hpc hne⟩
      obtain ⟨q₁, hq₁, hs⟩ := A.others other q' hne hq'
      exact ⟨q₁, (Function.update_of_ne hne _ _).symm.trans hq₁, hs⟩
    · have A := advance_advanced (r := r) ((Function.update_of_ne htid _ _).trans hr) h
      refine ⟨A.thread, A.owner, A.destroyed, A.own, fun other q' hne hq' => ?_, fun hne => absurd hpc hne⟩
      obtain ⟨q₁, hq₁, hs⟩ := A.others other q' hne hq'
      by_cases hother : other = s.thread.tid
      · subst hother
        simp only [Function.update_self, Option.some.injEq] at hq₁
        subst hq₁
        exact ⟨q, hq, ⟨hs.pc, hs.handler, hs.args, hs.calls⟩⟩
      · exact ⟨q₁, (Function.update_of_ne hother _ _).symm.trans hq₁, hs⟩

theorem step_runner (h : step s (.runner tid detached ret) = some s') :
    ∃ r, s.runners tid = some r ∧ r.pc ≠ .ended ∧ Advanced s s' tid detached ret r := by
  unfold step at h
  cases hr : s.runners tid with
  | none =>
    simp only [hr] at h
    cases h
  | some r =>
    simp only [hr] at h
    split at h
    case isTrue => cases h
    case isFalse hended =>
      refine ⟨r, rfl, hended, ?_⟩
      split at h
      case isTrue hdetach =>
        obtain ⟨s₁, hd, hadv⟩ := Option.bind_eq_some_iff.mp h
        exact detach_advanced hr hdetach.1 hd hadv
      case isFalse => exact advance_advanced hr h

theorem runnerAdvance_over (tid : Nat) (detached : Bool) (ret : Ptr) (t : Thread) (h : r.pc.Over) :
    (runnerAdvance tid detached ret t r).1 = t ∧ (runnerAdvance tid detached ret t r).2.pc.Over := by
  unfold RunnerPc.Over at h
  split at h
  case h_1 hpc => simp only [runnerAdvance, hpc, RunnerPc.Over, and_self]
  case h_2 hpc => simp only [runnerAdvance, hpc, RunnerPc.Over, and_self]
  case h_3 => exact h.elim

/-- The record of a thread behind the step comes from its record before. -/
theorem Advanced.back {other : Nat} {q' : Runner} (A : Advanced s s' tid detached ret r) (hq : s'.runners other = some q') :
    other = tid ∧ (runnerAdvance tid detached ret s.thread r).2.Same q' ∨
      other ≠ tid ∧ ∃ q, s.runners other = some q ∧ q.Same q' := by
  by_cases hother : other = tid
  · subst hother
    obtain ⟨r', hr', hsame⟩ := A.own
    obtain rfl := Option.some.inj (hq.symm.trans hr')
    exact .inl ⟨rfl, hsame⟩
  · exact .inr ⟨hother, A.others other q' hother hq⟩

/-- A thread that has no access left gets none. -/
theorem Advanced.over {other : Nat} {q' : Runner} (A : Advanced s s' tid detached ret r) (hr : s.runners tid = some r)
    (hq : s'.runners other = some q') (h : ∀ q, s.runners other = some q → q.pc.Over) : q'.pc.Over := by
  rcases A.back hq with ⟨rfl, hsame⟩ | ⟨-, q, hq₀, hsame⟩
  · rw [hsame.pc]
    exact (runnerAdvance_over _ _ _ _ (h r hr)).2
  · rw [hsame.pc]
    exact h q hq₀

theorem Advanced.allOver (A : Advanced s s' tid detached ret r) (hr : s.runners tid = some r) (h : s.AllOver) :
    s'.AllOver := fun other _ hq => A.over hr hq (h other)

theorem step_plain (detached : Bool) (ret : Ptr) (hr : s.runners tid = some r) (hended : r.pc ≠ .ended) (hdetach : r.pc ≠ .detach) :
    step s (.runner tid detached ret) = some { s with
      thread := (runnerAdvance tid detached ret s.thread r).1
      runners := Function.update s.runners tid (some (runnerAdvance tid detached ret s.thread r).2) } := by
  have hnot : ¬(r.pc = .detach ∧ detached = true) := fun h => hdetach h.1
  simp only [step, hr, if_neg hended, if_neg hnot, State.advance]

/-! ### Runs of given steps -/

/-- The state after the steps, if each of them passes the test and is possible. -/
def runs (test : State → Label → Bool) : List Label → State → Option State
  | [], s => some s
  | a :: labels, s => if test s a then (step s a).bind (runs test labels) else none

theorem Reachable.runs {test : State → Label → Bool} (htest : ∀ s a, test s a = true → allowed s a) (labels : List Label)
    (h : Reachable allowed s) (hruns : runs test labels s = some s') : Reachable allowed s' := by
  induction labels generalizing s with
  | nil =>
    cases hruns
    exact h
  | cons a labels ih =>
    unfold ThreadSystem.runs at hruns
    split at hruns
    case isTrue ha =>
      obtain ⟨s₁, hs₁, hrest⟩ := Option.bind_eq_some_iff.mp hruns
      exact ih (h.tail ⟨a, htest s a ha, hs₁⟩) hrest
    case isFalse => cases hruns

theorem Reachable.runs_any (labels : List Label) (h : Reachable (fun _ _ => True) s)
    (hruns : ThreadSystem.runs (fun _ _ => true) labels s = some s') : Reachable (fun _ _ => True) s' :=
  h.runs (fun _ _ _ => trivial) labels hruns

/-- An allocated structure of `qp_thread_init`. -/
def fresh (detach : Bool) : State :=
  ⟨{ Thread.zero with cid := QP_CPUID_INVALID, isInited := true, isAlloced := true, isDetach := detach }, none, QP_SUCCESS,
    false, fun _ => none⟩

theorem fresh_init (detach : Bool) : Init (fresh detach) :=
  ⟨none, detach, true, by cases detach <;> rfl, rfl, rfl, fun _ => rfl⟩

/-- The owner calls a function and makes its next accesses; `pthread_create` makes the thread 1. -/
def ownerLabels (c : Call) (n : Nat) : List Label := .call c :: List.replicate n (.owner (some 1))

/-- The thread 1 makes its next accesses. -/
def runnerLabels (n : Nat) : List Label := List.replicate n (.runner 1 true NULL)

end QPHi.ThreadSystem
