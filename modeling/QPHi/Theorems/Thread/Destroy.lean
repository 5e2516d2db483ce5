import QPHi.Theorems.Thread.Step

/-! When `qp_thread_destroy` waits for the new thread: it looks at `is_running`, which that thread sets itself, so it waits
    only for a thread that has come as far. -/

namespace QPHi.ThreadSystem

variable {s s' : State} {tid : Nat} {detached : Bool} {ret : Ptr} {r : Runner} {t : Thread} {a : Label} {p : OwnerPc}

/-- The thread has set `is_running`, or gives the structure up with its next access. -/
def RunnerPc.Started : RunnerPc → Prop
  | .affinityTid | .affinityCid | .readHandler | .loadHandler | .loadArgs _ | .call _ _ | .handling | .storeRet _
  | .unsetRunning => True
  | _ => False

/-- One new thread at most has accesses left: the one whose id is stored, which has started and is as `P` says. -/
def State.Awaited (s : State) (P : Thread → Runner → Prop) : Prop :=
  s.AllOver ∨ ∃ r, s.runners s.thread.tid = some r ∧ r.pc.Started ∧ P s.thread r ∧
    ∀ other q, other ≠ s.thread.tid → s.runners other = some q → q.pc.Over

/-- What `qp_thread_destroy` should find. -/
def State.Waitable (s : State) : Prop := s.Awaited fun t r => t.isRunning = true ∧ (t.isDetach = true ∨ r.Joinable)

/-- `qp_thread_destroy` looks at `is_running` in a state where it waits for the new thread. -/
def DestroysWaitable (s : State) : Label → Prop
  | .owner _ => s.owner = some (.destroy .readRunning) → s.Waitable
  | _ => True

/-- After `qp_thread_destroy` has returned success, no new thread is about to access the structure. -/
def State.Untouched (s : State) : Prop := s.destroyed = true → ∀ tid r, s.runners tid = some r → ¬r.pc.Touches

/-! ### Steps of the new thread -/

/-- A thread that has started keeps the owner's fields, and gives the structure up when it clears `is_running`. -/
theorem runnerAdvance_started (tid : Nat) (detached : Bool) (ret : Ptr) (t : Thread) (h : r.pc.Started) :
    (runnerAdvance tid detached ret t r).1.tid = t.tid ∧ ((runnerAdvance tid detached ret t r).2.pc.Over ∨
      (runnerAdvance tid detached ret t r).2.pc.Started ∧ (runnerAdvance tid detached ret t r).1.isRunning = t.isRunning ∧
        (runnerAdvance tid detached ret t r).1.isDetach = t.isDetach ∧
        ((runnerAdvance tid detached ret t r).2.Joinable ↔ r.Joinable)) := by
  unfold RunnerPc.Started at h
  unfold runnerAdvance Runner.Joinable
  split at h
  case h_9 hpc => simp only [hpc, RunnerPc.Over, true_or, and_self]
  case h_3 hpc =>
    simp only [hpc]
    split
    · simp only [RunnerPc.Started, and_self, or_true]
    · simp only [RunnerPc.Started, and_self, or_true]
  case h_10 => exact h.elim
  all_goals
    rename_i hpc
    simp only [hpc, RunnerPc.Started, and_self, or_true]

theorem runnerAdvance_isInited : (runnerAdvance tid detached ret t r).1.isInited = t.isInited := by
  unfold runnerAdvance
  cases r.pc <;> rfl

/-- A thread that is awaited stays so until its accesses are over. -/
theorem Advanced.awaited {P : Thread → Runner → Prop} (A : Advanced s s' tid detached ret r) (hr : s.runners tid = some r)
    (hP : ∀ t t' r r', t'.isRunning = t.isRunning → t'.isDetach = t.isDetach → (r'.Joinable ↔ r.Joinable) → P t r → P t' r')
    (h : s.Awaited P) : s'.Awaited P := by
  rcases h with hover | ⟨q, hq, hstarted, hPq, hothers⟩
  · exact .inl (A.allOver hr hover)
  · by_cases htid : tid = s.thread.tid
    · subst htid
      obtain rfl := Option.some.inj (hr.symm.trans hq)
      obtain ⟨hstored, hnext⟩ := runnerAdvance_started s.thread.tid detached ret s.thread hstarted
      have hquiet := A.quiet (fun hpc => by rw [hpc] at hstarted; exact hstarted)
      have hrest : ∀ other q, other ≠ s.thread.tid → s'.runners other = some q → q.pc.Over := by
        intro other q hne hq
        rw [hquiet, Function.update_of_ne hne] at hq
        exact hothers other q hne hq
      rcases hnext with hover | ⟨hstarted', hrunning, hdetach, hjoin⟩
      · refine .inl fun other q hq => ?_
        by_cases hne : other = s.thread.tid
        · rw [hquiet, hne, Function.update_self] at hq
          exact Option.some.inj hq ▸ hover
        · exact hrest other q hne hq
      · have htid' : s'.thread.tid = s.thread.tid := by rw [A.thread, hstored]
        refine .inr ⟨_, ?_, hstarted', ?_, fun other q hne => hrest other q (htid' ▸ hne)⟩
        · rw [htid', hquiet, Function.update_self]
        · rw [A.thread]
          exact hP _ _ _ _ hrunning hdetach hjoin hPq
    · -- Another thread has nothing left to do here.
      have hover := hothers tid r htid hr
      obtain ⟨hkept, hover'⟩ := runnerAdvance_over tid detached ret s.thread hover
      have hquiet := A.quiet (fun hpc => by rw [hpc] at hover; exact hover)
      have hthread : s'.thread = s.thread := A.thread.trans hkept
      refine .inr ⟨q, ?_, hstarted, by rw [hthread]; exact hPq, fun other q' hne hq' => ?_⟩
      · rw [hthread, hquiet, Function.update_of_ne (Ne.symm htid)]
        exact hq
      · rw [hthread] at hne
        rw [hquiet] at hq'
        by_cases hother : other = tid
        · rw [hother, Function.update_self] at hq'
          exact Option.some.inj hq' ▸ hover'
        · rw [Function.update_of_ne hother] at hq'
          exact hothers other q' hne hq'

/-! ### The owner in `qp_thread_destroy` -/

/-- What holds where the owner is in `qp_thread_destroy`, behind its look at `is_running`. -/
def State.Waited (s : State) : OwnerPc → Prop
  | .stop .readInited true | .stop .readDetach true => s.Waitable
  | .stop .join true => s.Awaited fun _ r => r.Joinable
  | .stop .readRunning true => s.Awaited fun t _ => t.isRunning = true
  | .stop .clearTid true | .destroy .unsetInited => s.AllOver
  | .destroy .readAlloced => s.AllOver ∧ s.thread.isInited = false
  | _ => True

/-- The owner is about to look at `is_inited`, in a function that it called itself. -/
def OwnerPc.First : OwnerPc → Prop
  | .start .readInited _ _ | .stop .readInited false | .destroy .readInited => True
  | _ => False

/-- What the runs keep that wait for the new thread. -/
structure Waiting (s : State) : Prop where
  owner : ∀ p, s.owner = some p → s.Waited p
  destroyed : s.destroyed = true → s.AllOver ∧ s.thread.isInited = false ∧ ∀ p, s.owner = some p → p.First

theorem Init.waiting (h : Init s) : Waiting s := by
  obtain ⟨-, -, -, -, howner, hdestroyed, -⟩ := h
  refine ⟨fun p hp => ?_, fun hd => ?_⟩
  · rw [howner] at hp
    cases hp
  · rw [hdestroyed] at hd
    cases hd

theorem Advanced.waited (A : Advanced s s' tid detached ret r) (hr : s.runners tid = some r) (h : s.Waited p) :
    s'.Waited p := by
  unfold State.Waited at h ⊢
  split at h
  case h_1 | h_2 =>
    exact A.awaited hr (fun _ _ _ _ hrunning hdetach hjoin hP => ⟨hrunning ▸ hP.1, by rw [hdetach, hjoin]; exact hP.2⟩) h
  case h_3 => exact A.awaited hr (fun _ _ _ _ _ _ hjoin hP => hjoin.mpr hP) h
  case h_4 => exact A.awaited hr (fun _ _ _ _ hrunning _ _ hP => hrunning ▸ hP) h
  case h_5 | h_6 => exact A.allOver hr h
  case h_7 =>
    refine ⟨A.allOver hr h.1, ?_⟩
    rw [A.thread, runnerAdvance_isInited]
    exact h.2
  case h_8 => trivial

theorem Waiting.runner (I : Waiting s) (h : step s (.runner tid detached ret) = some s') : Waiting s' := by
  obtain ⟨r, hr, -, A⟩ := step_runner h
  refine ⟨fun p hp => A.waited hr (I.owner p (A.owner ▸ hp)), fun hd => ?_⟩
  obtain ⟨hover, hinited, hfirst⟩ := I.destroyed (A.destroyed ▸ hd)
  refine ⟨A.allOver hr hover, ?_, fun p hp => hfirst p (A.owner ▸ hp)⟩
  rw [A.thread, runnerAdvance_isInited]
  exact hinited

theorem Waiting.call {c : Call} (I : Waiting s) (h : step s (.call c) = some s') : Waiting s' := by
  simp only [step] at h
  split at h
  case h_2 => cases h
  split at h
  case isTrue => cases h
  cases h
  have hwaited : ∀ p, some c.pc = some p → s.Waited p ∧ p.First := by
    rintro p hp
    cases hp
    cases c with
    | start handler args => exact ⟨trivial, trivial⟩
    | stop => exact ⟨trivial, trivial⟩
    | destroy => exact ⟨trivial, trivial⟩
  refine ⟨fun p hp => (hwaited p hp).1, fun hd => ?_⟩
  obtain ⟨hover, hinited, -⟩ := I.destroyed hd
  exact ⟨hover, hinited, fun p hp => (hwaited p hp).2⟩

/-- The owner returns from a function, before it has destroyed the structure or when it only looked at `is_inited`. -/
theorem Waiting.returned (I : Waiting s) (r : Int) : Waiting (s.ret r) :=
  ⟨fun _ hp => (nomatch hp), fun hd => ⟨(I.destroyed hd).1, (I.destroyed hd).2.1, fun _ hp => (nomatch hp)⟩⟩

/-- The owner goes on in a function while the structure is not destroyed. -/
theorem Waiting.goesOn {p : OwnerPc} (hd : s.destroyed = false) (hp : s.Waited p) : Waiting (s.goto p) := by
  refine ⟨fun q hq => ?_, fun htrue => ?_⟩
  · cases hq
    exact hp
  · exact absurd (hd.symm.trans htrue) (by decide)

/-- Behind its look at `is_inited` the owner has not destroyed the structure. -/
theorem Waiting.not_destroyed (I : Waiting s) (hp : s.owner = some p) (hfirst : ¬p.First) : s.destroyed = false := by
  by_contra hd
  exact hfirst ((I.destroyed (Bool.not_eq_false _ ▸ hd)).2.2 p hp)

theorem Waiting.not_destroyed_of_inited (I : Waiting s) (hinited : s.thread.isInited = true) : s.destroyed = false := by
  by_contra hd
  have hnot := (I.destroyed (Bool.not_eq_false _ ▸ hd)).2.1
  exact absurd (hinited.symm.trans hnot) (by decide)

theorem Waiting.idle (hd : s.destroyed = false) (howner : s.owner = none) : Waiting s := by
  refine ⟨fun p hp => ?_, fun htrue => ?_⟩
  · cases howner.symm.trans hp
  · exact absurd (hd.symm.trans htrue) (by decide)

theorem Waiting.start {created : Option Nat} {handler args : Ptr} {p : StartPc} (I : Waiting s)
    (hp : s.owner = some (.start p handler args)) (h : startAdvance s created handler args p = some s') : Waiting s' := by
  cases p with
  | readInited =>
    cases h
    split
    case isTrue hinited => exact .goesOn (I.not_destroyed_of_inited hinited) trivial
    case isFalse => exact I.returned _
  | setHandler =>
    cases h
    exact .goesOn (I.not_destroyed hp id) trivial
  | setArgs =>
    cases h
    exact .goesOn (I.not_destroyed hp id) trivial
  | create =>
    have hd := I.not_destroyed hp id
    cases created with
    | none =>
      cases h
      exact .goesOn hd trivial
    | some tid =>
      simp only [startAdvance, Option.ite_none_right_eq_some, Option.some.injEq] at h
      obtain ⟨-, rfl⟩ := h
      exact .goesOn hd trivial
  | storeTid tid =>
    cases h
    exact .idle (I.not_destroyed hp id) rfl
  | clearTid =>
    cases h
    exact .goesOn (I.not_destroyed hp id) trivial
  | clearHandler =>
    cases h
    exact .goesOn (I.not_destroyed hp id) trivial
  | clearArgs =>
    cases h
    exact .idle (I.not_destroyed hp id) rfl

/-- A call of `qp_thread_stop` that is not a part of `qp_thread_destroy`. -/
theorem State.waited_stop (p : StopPc) : s.Waited (.stop p false) := by
  cases p <;> trivial

theorem Awaited.allOver {P : Thread → Runner → Prop} (h : s.Awaited P)
    (hnot : ∀ r, s.runners s.thread.tid = some r → r.pc.Started → ¬P s.thread r) : s.AllOver := by
  rcases h with hover | ⟨r, hr, hstarted, hP, -⟩
  · exact hover
  · exact absurd hP (hnot r hr hstarted)

theorem Awaited.imp {P Q : Thread → Runner → Prop} (h : s.Awaited P) (hPQ : ∀ r, P s.thread r → Q s.thread r) :
    s.Awaited Q := by
  rcases h with hover | ⟨r, hr, hstarted, hP, hothers⟩
  · exact .inl hover
  · exact .inr ⟨r, hr, hstarted, hPQ r hP, hothers⟩

/-- The thread that was waited for has ended. -/
theorem Awaited.joined (h : s.Awaited fun _ r => r.Joinable) (hr : s.runners s.thread.tid = some r) (hended : r.pc = .ended) :
    State.AllOver { s with runners := Function.update s.runners s.thread.tid (some { r with joined := true }) } := by
  have hover : s.AllOver := by
    refine Awaited.allOver h fun q hq hstarted => ?_
    obtain rfl := Option.some.inj (hr.symm.trans hq)
    rw [hended] at hstarted
    exact hstarted.elim
  intro other q hq
  by_cases hother : other = s.thread.tid
  · simp only [hother, Function.update_self, Option.some.injEq] at hq
    subst hq
    exact hover _ r hr
  · simp only [Function.update_of_ne hother] at hq
    exact hover other q hq

/-- The owner goes on in `qp_thread_stop`. -/
theorem Waiting.stops {destroying : Bool} {p : StopPc} (hd : s.destroyed = false)
    (hp : destroying = true → s.Waited (.stop p true)) : Waiting (s.goto (.stop p destroying)) := by
  refine .goesOn hd ?_
  cases destroying with
  | false => exact State.waited_stop _
  | true => exact hp rfl

theorem Waiting.stop {destroying : Bool} {p : StopPc} (I : Waiting s) (hp : s.owner = some (.stop p destroying))
    (h : stopAdvance s destroying p = some s') : Waiting s' := by
  have hw : destroying = true → s.Waited (.stop p true) := by
    rintro rfl
    exact I.owner _ hp
  cases p with
  | readInited =>
    cases h
    split
    case isTrue hinited => exact .stops (I.not_destroyed_of_inited hinited) hw
    case isFalse => exact I.returned _
  | readDetach =>
    cases h
    refine .stops (I.not_destroyed hp (by cases destroying <;> exact id)) fun hdestroying => ?_
    have hwait : s.Waitable := hw hdestroying
    cases hdetach : s.thread.isDetach with
    | false =>
      have hdetach' : ¬s.thread.isDetach = true := by rw [hdetach]; decide
      exact Awaited.imp (Q := fun _ r => r.Joinable) hwait fun r hr => hr.2.resolve_left hdetach'
    | true => exact Awaited.imp (Q := fun t _ => t.isRunning = true) hwait fun r hr => hr.1
  | join =>
    have hd := I.not_destroyed hp (by cases destroying <;> exact id)
    have hwait : destroying = true → s.Awaited fun _ r => r.Joinable := hw
    simp only [stopAdvance] at h
    split at h
    case h_1 hnone =>
      cases h
      exact .stops hd fun hdestroying => Awaited.allOver (hwait hdestroying) fun r hr => nomatch hnone.symm.trans hr
    case h_2 r hr =>
      split at h
      case isTrue hjoin =>
        simp only [Option.ite_none_right_eq_some, Option.some.injEq] at h
        obtain ⟨hended, rfl⟩ := h
        exact .stops hd fun hdestroying => Awaited.joined (hwait hdestroying) hr hended
      case isFalse hjoin =>
        cases h
        refine .stops hd fun hdestroying => Awaited.allOver (hwait hdestroying) fun q hq _ => ?_
        obtain rfl := Option.some.inj (hr.symm.trans hq)
        exact hjoin
  | readRunning =>
    cases h
    split
    case isTrue => exact I.returned _
    case isFalse hrunning =>
      refine .stops (I.not_destroyed hp (by cases destroying <;> exact id)) fun hdestroying => ?_
      have hwait : s.Awaited fun t _ => t.isRunning = true := hw hdestroying
      exact Awaited.allOver hwait fun _ _ _ => hrunning
  | clearTid =>
    have hd := I.not_destroyed hp (by cases destroying <;> exact id)
    cases h
    cases destroying with
    | false => exact .idle hd rfl
    | true => exact .goesOn hd (hw rfl)

theorem Waiting.destroy {p : DestroyPc} (I : Waiting s) (hp : s.owner = some (.destroy p))
    (hwaitable : p = .readRunning → s.Waitable) : Waiting (destroyAdvance s p) := by
  have hw := I.owner _ hp
  cases p with
  | readInited =>
    simp only [destroyAdvance]
    split
    case isTrue hinited => exact .goesOn (I.not_destroyed_of_inited hinited) trivial
    case isFalse => exact I.returned _
  | readRunning =>
    have hwait := hwaitable rfl
    refine .goesOn (I.not_destroyed hp id) ?_
    split
    case isTrue => exact hwait
    case isFalse hrunning => exact Awaited.allOver hwait fun _ _ _ hP => hrunning hP.1
  | unsetInited => exact .goesOn (I.not_destroyed hp id) ⟨hw, rfl⟩
  | readAlloced => exact ⟨fun _ hp => (nomatch hp), fun _ => ⟨hw.1, hw.2, fun _ hp => (nomatch hp)⟩⟩

theorem Waiting.step (I : Waiting s) (ha : DestroysWaitable s a) (h : step s a = some s') : Waiting s' := by
  cases a with
  | call c => exact I.call h
  | owner created =>
    simp only [ThreadSystem.step] at h
    split at h
    case h_1 => cases h
    case h_2 p handler args hp => exact I.start hp h
    case h_3 p destroying hp => exact I.stop hp h
    case h_4 p hp =>
      cases h
      exact I.destroy hp fun hread => ha (hread ▸ hp)
  | runner tid detached ret => exact I.runner h

theorem Reachable.waiting (h : Reachable DestroysWaitable s) : Waiting s := by
  refine Trans.Reachable.invariant h (fun s hs => Init.waiting hs) fun s s' I hs => ?_
  obtain ⟨a, ha, hstep⟩ := hs
  exact I.step ha hstep

/-! ### Waiting for the new thread -/

/-- A structure is not touched behind its destruction, if `qp_thread_destroy` looks at `is_running` only when no new thread
    has accesses left, or the one that is stored has set `is_running`. -/
theorem destroyed_untouched (h : Reachable DestroysWaitable s) : s.Untouched :=
  fun hd tid r hr => ((h.waiting.destroyed hd).1 tid r hr).not_touches

/-- The owner finds that the new thread is running and waits until it has ended. -/
theorem destroyed_untouched_running : ∃ s : State, s.destroyed = true ∧ (∃ r, s.runners 1 = some r ∧ r.calls = [(8, 9)]) ∧
    s.Untouched := by
  let test : State → Label → Bool := fun s _ => s.owner ≠ some (.destroy .readRunning)
  have htest : ∀ s a, test s a = true → DestroysWaitable s a := by
    intro s a hs
    cases a with
    | call c => trivial
    | owner created => exact fun hread => absurd hread (of_decide_eq_true hs)
    | runner tid detached ret => trivial
  -- The new thread has set `is_running`, and the owner is about to look at it.
  let s₁ : State := (runs test (ownerLabels (.start 8 9) 5 ++ runnerLabels 3 ++ ownerLabels .destroy 1) (fresh false)).get rfl
  have h₁ : Reachable DestroysWaitable s₁ :=
    Reachable.runs htest _ (Trans.Reachable.start (fresh_init false)) (Option.some_get _).symm
  have hothers : ∀ other q, other ≠ s₁.thread.tid → s₁.runners other = some q → q.pc.Over := by
    intro other q hne hq
    match other with
    | 0 => exact nomatch (show none = some q from hq)
    | 1 => exact absurd rfl hne
    | n + 2 => exact nomatch (show none = some q from hq)
  have hwait : DestroysWaitable s₁ (.owner none) :=
    fun _ => .inr ⟨⟨.affinityTid, 8, 9, [], false, false⟩, rfl, trivial, ⟨rfl, .inr ⟨rfl, rfl⟩⟩, hothers⟩
  have h₂ := h₁.tail ⟨.owner none, hwait, rfl⟩
  have h₃ := Reachable.runs htest (List.replicate 2 (.owner none) ++ runnerLabels 10 ++ List.replicate 4 (.owner none)) h₂ rfl
  exact ⟨_, rfl, ⟨_, rfl, rfl⟩, destroyed_untouched h₃⟩

/-- The owner destroys the structure of a thread that has not come to set `is_running`. -/
theorem destroyed_touched : ∃ s, Reachable (fun _ _ => True) s ∧ s.destroyed = true ∧ s.result = QP_SUCCESS ∧
    s.thread.isAlloced = true ∧ (∃ r, s.runners 1 = some r ∧ r.pc = .checkSelf) ∧ ¬s.Untouched := by
  have h := Reachable.runs_any (ownerLabels (.start 8 9) 5 ++ ownerLabels .destroy 4)
    (Trans.Reachable.start (fresh_init false)) rfl
  exact ⟨_, h, rfl, rfl, rfl, ⟨_, rfl, rfl⟩, fun huntouched => huntouched rfl 1 _ rfl trivial⟩

/-- Whenever `qp_thread_destroy` finds `is_running` clear while a new thread has an access to make, it frees the structure
    under it. -/
theorem touched_of_not_running (howner : s.owner = some (.destroy .readRunning)) (hrunning : s.thread.isRunning = false)
    (hr : s.runners tid = some r) (htouches : r.pc.Touches) :
    ∃ s', runs (fun _ _ => true) (List.replicate 3 (.owner none)) s = some s' ∧ s'.destroyed = true ∧ ¬s'.Untouched := by
  refine ⟨{ s with thread := { s.thread with isInited := false }, owner := none, result := QP_SUCCESS, destroyed := true },
    ?_, rfl, fun huntouched => huntouched rfl tid r hr htouches⟩
  simp only [List.replicate, runs, step, howner, destroyAdvance, hrunning, State.goto, State.ret, Option.bind_some,
    ↓reduceIte, Bool.false_eq_true]

end QPHi.ThreadSystem
