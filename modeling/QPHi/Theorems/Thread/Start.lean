import QPHi.Theorems.Thread.Step

/-! What a started thread calls: its handler, if the id that it compares with its own is stored when it begins to run, and
    the owner does not change the fields under it. -/

namespace QPHi.ThreadSystem

variable {s s' : State} {tid : Nat} {detached : Bool} {ret : Ptr} {r : Runner} {t : Thread} {a : Label} {p : OwnerPc}

/-- `pthread_create` has made the thread `tid` and its id is not stored yet. -/
def State.Storing (s : State) (tid : Nat) : Prop := ∃ handler args, s.owner = some (.start (.storeTid tid) handler args)

/-- The owner's next access writes the id or the handler, apart from the id of the thread it is making. -/
def OwnerPc.Writes : OwnerPc → Prop
  | .start .setHandler _ _ | .start .setArgs _ _ | .start .clearTid _ _ | .start .clearHandler _ _ | .start .clearArgs _ _
  | .stop .clearTid _ => True
  | _ => False

/-- A handler is given, the owner changes its fields when no new thread has accesses left, and a new thread looks at the id
    when it is stored. -/
def StartsStored (s : State) : Label → Prop
  | .call (.start handler _) => handler ≠ NULL
  | .call _ => True
  | .owner _ => ∀ p, s.owner = some p → p.Writes → s.AllOver
  | .runner tid _ _ => ∀ r, s.runners tid = some r → r.pc = .checkSelf → ¬s.Storing tid

/-- A new thread that is through, and whose start has returned, has called its handler once. -/
def State.HandlersRan (s : State) : Prop :=
  ∀ tid r, s.runners tid = some r → r.pc.Over → ¬s.Storing tid → r.calls = [(r.handler, r.args)]

/-! ### The invariant -/

/-- What a thread has called and is to call, by where it is. -/
def Runner.Progress (r : Runner) : Prop :=
  match r.pc with
  | .loadArgs handler => handler = r.handler ∧ r.calls = []
  | .call handler args => handler = r.handler ∧ args = r.args ∧ r.calls = []
  | .handling | .storeRet _ | .unsetRunning | .exit | .ended => r.calls = [(r.handler, r.args)]
  | _ => r.calls = []

/-- The structure holds what the thread `tid` was started with. -/
structure Serves (s : State) (tid : Nat) (r : Runner) : Prop where
  handler : s.thread.handlerPtr = r.handler
  args : s.thread.argsPtr = r.args
  stored : s.thread.tid = tid ∨ s.Storing tid

/-- What the owner has written where it is in `qp_thread_start`. -/
def State.Writing (s : State) : OwnerPc → Prop
  | .start .readInited handler _ | .start .setHandler handler _ => handler ≠ NULL
  | .start .setArgs handler _ => handler ≠ NULL ∧ s.AllOver ∧ s.thread.handlerPtr = handler
  | .start .create handler args =>
    handler ≠ NULL ∧ s.AllOver ∧ s.thread.handlerPtr = handler ∧ s.thread.argsPtr = args
  | .start (.storeTid tid) _ _ => ∀ other q, other ≠ tid → s.runners other = some q → q.pc.Over
  | _ => True

structure Starting (s : State) : Prop where
  owner : ∀ p, s.owner = some p → s.Writing p
  handler : ∀ tid r, s.runners tid = some r → r.handler ≠ NULL
  progress : ∀ tid r, s.runners tid = some r → r.Progress
  serves : ∀ tid r, s.runners tid = some r → ¬r.pc.Over → Serves s tid r

theorem Init.starting (h : Init s) : Starting s := by
  obtain ⟨-, -, -, -, howner, -, hnone⟩ := h
  have hrunner : ∀ {tid r}, s.runners tid ≠ some r := fun {tid r} hr => nomatch (hnone tid).symm.trans hr
  exact ⟨fun p hp => (nomatch howner.symm.trans hp), fun tid r hr => absurd hr hrunner, fun tid r hr => absurd hr hrunner,
    fun tid r hr => absurd hr hrunner⟩

/-! ### Steps of the new thread -/

theorem runnerAdvance_kept (tid : Nat) (detached : Bool) (ret : Ptr) (t : Thread) (r : Runner) :
    (runnerAdvance tid detached ret t r).1.tid = t.tid ∧
    (runnerAdvance tid detached ret t r).1.handlerPtr = t.handlerPtr ∧
    (runnerAdvance tid detached ret t r).1.argsPtr = t.argsPtr ∧
    (runnerAdvance tid detached ret t r).2.handler = r.handler ∧ (runnerAdvance tid detached ret t r).2.args = r.args := by
  unfold runnerAdvance
  cases r.pc <;> exact ⟨rfl, rfl, rfl, rfl, rfl⟩

/-- A thread that is over has no more to do, and any other thread goes on to its handler with what it was started with. -/
theorem runnerAdvance_progress (detached : Bool) (ret : Ptr) (h : r.Progress) (hnull : r.handler ≠ NULL)
    (hserves : ¬r.pc.Over → t.handlerPtr = r.handler ∧ t.argsPtr = r.args) (hself : r.pc = .checkSelf → t.tid = tid) :
    (runnerAdvance tid detached ret t r).2.Progress ∧ (r.pc.Over → (runnerAdvance tid detached ret t r).2.pc.Over) := by
  unfold Runner.Progress at h
  unfold runnerAdvance
  cases hpc : r.pc with
  | checkSelf =>
    rw [hpc] at h
    simp only [hself hpc, ne_eq, not_true_eq_false, ↓reduceIte]
    exact ⟨h, False.elim⟩
  | readDetach =>
    rw [hpc] at h
    dsimp only
    split
    · exact ⟨h, False.elim⟩
    · exact ⟨h, False.elim⟩
  | detach =>
    rw [hpc] at h
    dsimp only
    split
    · exact ⟨h, False.elim⟩
    · exact ⟨h, False.elim⟩
  | readHandler =>
    rw [hpc] at h hserves
    obtain ⟨hhandler, -⟩ := hserves id
    simp only [hhandler, ne_eq, hnull, not_false_eq_true, ↓reduceIte]
    exact ⟨h, False.elim⟩
  | loadHandler =>
    rw [hpc] at h hserves
    exact ⟨⟨(hserves id).1, h⟩, False.elim⟩
  | loadArgs handler =>
    rw [hpc] at h hserves
    exact ⟨⟨h.1, (hserves id).2, h.2⟩, False.elim⟩
  | call handler args =>
    rw [hpc] at h
    obtain ⟨rfl, rfl, hcalls⟩ := h
    refine ⟨?_, False.elim⟩
    show r.calls ++ [(r.handler, r.args)] = [(r.handler, r.args)]
    rw [hcalls]
    rfl
  | unsetRunning =>
    rw [hpc] at h
    exact ⟨h, fun _ => trivial⟩
  | exit =>
    rw [hpc] at h
    exact ⟨h, fun _ => trivial⟩
  | ended =>
    rw [hpc] at h
    exact ⟨by unfold Runner.Progress; simp only [hpc]; exact h, fun _ => by simp only [hpc]; trivial⟩
  | _ =>
    rw [hpc] at h
    exact ⟨h, False.elim⟩

theorem Advanced.storing {other : Nat} (A : Advanced s s' tid detached ret r) : s'.Storing other ↔ s.Storing other := by
  unfold State.Storing
  rw [A.owner]

theorem Advanced.writing (A : Advanced s s' tid detached ret r) (hr : s.runners tid = some r) (h : s.Writing p) :
    s'.Writing p := by
  have hkept := runnerAdvance_kept tid detached ret s.thread r
  unfold State.Writing at h ⊢
  rw [A.thread, hkept.2.1, hkept.2.2.1]
  split at h
  case h_1 | h_2 => exact h
  case h_3 => exact ⟨h.1, A.allOver hr h.2.1, h.2.2⟩
  case h_4 => exact ⟨h.1, A.allOver hr h.2.1, h.2.2⟩
  case h_5 => exact fun other q hne hq => A.over hr hq fun q₀ => h other q₀ hne
  case h_6 => trivial

theorem Runner.Same.progress {r' : Runner} (h : r.Same r') (hr : r.Progress) : r'.Progress := by
  unfold Runner.Progress at hr ⊢
  rw [h.pc, h.handler, h.args, h.calls]
  exact hr

theorem Starting.runner (I : Starting s) (ha : StartsStored s (.runner tid detached ret))
    (h : step s (.runner tid detached ret) = some s') : Starting s' := by
  obtain ⟨r, hr, -, A⟩ := step_runner h
  have hkept := runnerAdvance_kept tid detached ret s.thread r
  have hserves : ¬r.pc.Over → s.thread.handlerPtr = r.handler ∧ s.thread.argsPtr = r.args :=
    fun hover => ⟨(I.serves tid r hr hover).handler, (I.serves tid r hr hover).args⟩
  have hself : r.pc = .checkSelf → s.thread.tid = tid := by
    intro hpc
    have hover : ¬r.pc.Over := by
      rw [hpc]
      exact id
    exact (I.serves tid r hr hover).stored.resolve_right (ha r hr hpc)
  obtain ⟨hprogress, hover⟩ := runnerAdvance_progress detached ret (I.progress tid r hr)
    (I.handler tid r hr) hserves hself
  -- The structure still holds what the threads were started with.
  have hserve : ∀ {other q q'}, Serves s other q → q'.handler = q.handler → q'.args = q.args → Serves s' other q' := by
    intro other q q' S hhandler hargs
    refine ⟨?_, ?_, ?_⟩
    · rw [A.thread, hkept.2.1, hhandler]
      exact S.handler
    · rw [A.thread, hkept.2.2.1, hargs]
      exact S.args
    · rw [A.thread, hkept.1, A.storing]
      exact S.stored
  refine ⟨fun p hp => A.writing hr (I.owner p (A.owner ▸ hp)), fun other q' hq => ?_, fun other q' hq => ?_,
    fun other q' hq hnot => ?_⟩
  · rcases A.back hq with ⟨rfl, hsame⟩ | ⟨-, q, hq₀, hsame⟩
    · rw [hsame.handler, hkept.2.2.2.1]
      exact I.handler other r hr
    · rw [hsame.handler]
      exact I.handler other q hq₀
  · rcases A.back hq with ⟨rfl, hsame⟩ | ⟨-, q, hq₀, hsame⟩
    · exact hsame.progress hprogress
    · exact hsame.progress (I.progress other q hq₀)
  · rcases A.back hq with ⟨rfl, hsame⟩ | ⟨-, q, hq₀, hsame⟩
    · rw [hsame.pc] at hnot
      exact hserve (I.serves other r hr fun hr => hnot (hover hr)) (hsame.handler.trans hkept.2.2.2.1)
        (hsame.args.trans hkept.2.2.2.2)
    · rw [hsame.pc] at hnot
      exact hserve (I.serves other q hq₀ hnot) hsame.handler hsame.args

/-! ### Steps of the owner -/

/-- The owner goes on, or returns, without a write. -/
theorem Starting.moved {owner : Option OwnerPc} {result : Int} {destroyed : Bool} (I : Starting s)
    (hstoring : ∀ tid, ¬s.Storing tid) (hp : ∀ p, owner = some p → s.Writing p) :
    Starting { s with owner := owner, result := result, destroyed := destroyed } := by
  refine ⟨hp, I.handler, I.progress, fun tid r hr hover => ?_⟩
  have S := I.serves tid r hr hover
  exact ⟨S.handler, S.args, .inl (S.stored.resolve_right (hstoring tid))⟩

/-- The owner writes while no new thread has accesses left. -/
theorem Starting.written {thread : Thread} {owner : Option OwnerPc} {result : Int} (I : Starting s) (hover : s.AllOver)
    (hp : ∀ p, owner = some p → ({ s with thread := thread } : State).Writing p) :
    Starting { s with thread := thread, owner := owner, result := result } :=
  ⟨hp, I.handler, I.progress, fun tid r hr hnot => absurd (hover tid r hr) hnot⟩

theorem not_storing (hp : s.owner = some p) (hne : ∀ tid handler args, p ≠ .start (.storeTid tid) handler args) (tid : Nat) :
    ¬s.Storing tid := by
  rintro ⟨handler, args, hstart⟩
  exact hne tid handler args (Option.some.inj (hp.symm.trans hstart))

theorem Starting.created {handler args : Ptr} {result : Int} (I : Starting s)
    (hw : s.Writing (.start .create handler args)) : Starting { s with
      runners := Function.update s.runners tid (some ⟨.checkSelf, handler, args, [], false, false⟩)
      owner := some (.start (.storeTid tid) handler args)
      result := result } := by
  obtain ⟨hnull, hover, hhandler, hargs⟩ := hw
  have hback : ∀ other q, Function.update s.runners tid (some ⟨.checkSelf, handler, args, [], false, false⟩) other = some q →
      other = tid ∧ q = ⟨.checkSelf, handler, args, [], false, false⟩ ∨ other ≠ tid ∧ s.runners other = some q := by
    intro other q hq
    by_cases hother : other = tid
    · rw [hother, Function.update_self] at hq
      exact .inl ⟨hother, (Option.some.inj hq).symm⟩
    · rw [Function.update_of_ne hother] at hq
      exact .inr ⟨hother, hq⟩
  refine ⟨fun p hp => ?_, fun other q hq => ?_, fun other q hq => ?_, fun other q hq hnot => ?_⟩
  · cases hp
    intro other q hne hq
    rcases hback other q hq with ⟨heq, -⟩ | ⟨-, hq₀⟩
    · exact absurd heq hne
    · exact hover other q hq₀
  · rcases hback other q hq with ⟨-, rfl⟩ | ⟨-, hq₀⟩
    · exact hnull
    · exact I.handler other q hq₀
  · rcases hback other q hq with ⟨-, rfl⟩ | ⟨-, hq₀⟩
    · rfl
    · exact I.progress other q hq₀
  · rcases hback other q hq with ⟨rfl, rfl⟩ | ⟨-, hq₀⟩
    · exact ⟨hhandler, hargs, .inr ⟨handler, args, rfl⟩⟩
    · exact absurd (hover other q hq₀) hnot

theorem Starting.stored {handler args : Ptr} {result : Int} (I : Starting s)
    (hp : s.owner = some (.start (.storeTid tid) handler args)) :
    Starting { s with thread := { s.thread with tid := tid }, owner := none, result := result } := by
  have hothers := I.owner _ hp
  refine ⟨fun p hp => (nomatch hp), I.handler, I.progress, fun other q hq hnot => ?_⟩
  have S := I.serves other q hq hnot
  refine ⟨S.handler, S.args, .inl ?_⟩
  by_contra hne
  exact hnot (hothers other q (Ne.symm hne) hq)

theorem Starting.start {created : Option Nat} {handler args : Ptr} {p : StartPc} (I : Starting s)
    (hp : s.owner = some (.start p handler args)) (ha : (OwnerPc.start p handler args).Writes → s.AllOver)
    (h : startAdvance s created handler args p = some s') : Starting s' := by
  have hw := I.owner _ hp
  cases p with
  | readInited =>
    have hstoring := not_storing hp (fun _ _ _ heq => nomatch heq)
    cases h
    split
    · exact I.moved hstoring fun q hq => Option.some.inj hq ▸ hw
    · exact I.moved hstoring fun q hq => (nomatch hq)
  | setHandler =>
    cases h
    exact I.written (ha trivial) fun q hq => Option.some.inj hq ▸ ⟨hw, ha trivial, rfl⟩
  | setArgs =>
    cases h
    exact I.written (ha trivial) fun q hq => Option.some.inj hq ▸ ⟨hw.1, hw.2.1, hw.2.2, rfl⟩
  | create =>
    cases created with
    | none =>
      cases h
      exact I.moved (not_storing hp fun _ _ _ heq => nomatch heq) fun q hq => Option.some.inj hq ▸ trivial
    | some tid =>
      simp only [startAdvance, Option.ite_none_right_eq_some, Option.some.injEq] at h
      obtain ⟨-, rfl⟩ := h
      exact I.created hw
  | storeTid tid =>
    cases h
    exact I.stored hp
  | clearTid =>
    cases h
    exact I.written (ha trivial) fun q hq => Option.some.inj hq ▸ trivial
  | clearHandler =>
    cases h
    exact I.written (ha trivial) fun q hq => Option.some.inj hq ▸ trivial
  | clearArgs =>
    cases h
    exact I.written (ha trivial) fun q hq => (nomatch hq)

theorem Starting.joined (I : Starting s) (hr : s.runners tid = some r) : Starting { s with
    runners := Function.update s.runners tid (some { r with joined := true }) } := by
  have hback : ∀ other q', Function.update s.runners tid (some { r with joined := true }) other = some q' →
      ∃ q, s.runners other = some q ∧ q.Same q' := by
    intro other q' hq
    by_cases hother : other = tid
    · rw [hother, Function.update_self] at hq
      obtain rfl := Option.some.inj hq
      exact ⟨r, hother ▸ hr, ⟨rfl, rfl, rfl, rfl⟩⟩
    · rw [Function.update_of_ne hother] at hq
      exact ⟨q', hq, .refl q'⟩
  have hover : s.AllOver → ∀ other q', Function.update s.runners tid (some { r with joined := true }) other = some q' →
      q'.pc.Over := by
    intro hover other q' hq
    obtain ⟨q, hq₀, hsame⟩ := hback other q' hq
    rw [hsame.pc]
    exact hover other q hq₀
  refine ⟨fun p hp => ?_, fun other q' hq => ?_, fun other q' hq => ?_, fun other q' hq hnot => ?_⟩
  · have hw := I.owner p hp
    unfold State.Writing at hw ⊢
    split at hw
    case h_1 | h_2 => exact hw
    case h_3 => exact ⟨hw.1, hover hw.2.1, hw.2.2⟩
    case h_4 => exact ⟨hw.1, hover hw.2.1, hw.2.2⟩
    case h_5 =>
      intro other q' hne hq
      obtain ⟨q, hq₀, hsame⟩ := hback other q' hq
      rw [hsame.pc]
      exact hw other q hne hq₀
    case h_6 => trivial
  · obtain ⟨q, hq₀, hsame⟩ := hback other q' hq
    rw [hsame.handler]
    exact I.handler other q hq₀
  · obtain ⟨q, hq₀, hsame⟩ := hback other q' hq
    exact hsame.progress (I.progress other q hq₀)
  · obtain ⟨q, hq₀, hsame⟩ := hback other q' hq
    rw [hsame.pc] at hnot
    have S := I.serves other q hq₀ hnot
    exact ⟨S.handler.trans hsame.handler.symm, S.args.trans hsame.args.symm, S.stored⟩

theorem Starting.stop {destroying : Bool} {p : StopPc} (I : Starting s) (hp : s.owner = some (.stop p destroying))
    (ha : (OwnerPc.stop p destroying).Writes → s.AllOver) (h : stopAdvance s destroying p = some s') : Starting s' := by
  have hstoring := not_storing hp (fun _ _ _ heq => nomatch heq)
  cases p with
  | readInited =>
    cases h
    split
    · exact I.moved hstoring fun q hq => Option.some.inj hq ▸ trivial
    · exact I.moved hstoring fun q hq => (nomatch hq)
  | readDetach =>
    cases h
    exact I.moved hstoring fun q hq => Option.some.inj hq ▸ trivial
  | join =>
    simp only [stopAdvance] at h
    split at h
    case h_1 =>
      cases h
      exact I.moved hstoring fun q hq => Option.some.inj hq ▸ trivial
    case h_2 r hr =>
      split at h
      case isTrue =>
        simp only [Option.ite_none_right_eq_some, Option.some.injEq] at h
        obtain ⟨-, rfl⟩ := h
        exact (I.joined hr).moved hstoring fun q hq => Option.some.inj hq ▸ trivial
      case isFalse =>
        cases h
        exact I.moved hstoring fun q hq => Option.some.inj hq ▸ trivial
  | readRunning =>
    cases h
    split
    · exact I.moved hstoring fun q hq => (nomatch hq)
    · exact I.moved hstoring fun q hq => Option.some.inj hq ▸ trivial
  | clearTid =>
    cases h
    cases destroying with
    | false => exact I.written (ha trivial) fun q hq => (nomatch hq)
    | true => exact I.written (ha trivial) fun q hq => Option.some.inj hq ▸ trivial

theorem Starting.destroy {p : DestroyPc} (I : Starting s) (hp : s.owner = some (.destroy p)) :
    Starting (destroyAdvance s p) := by
  have hstoring := not_storing hp (fun _ _ _ heq => nomatch heq)
  cases p with
  | readInited =>
    simp only [destroyAdvance]
    split
    · exact I.moved hstoring fun q hq => Option.some.inj hq ▸ trivial
    · exact I.moved hstoring fun q hq => (nomatch hq)
  | readRunning =>
    refine I.moved hstoring fun q hq => ?_
    obtain rfl := Option.some.inj hq
    split
    · trivial
    · trivial
  | unsetInited =>
    refine ⟨fun q hq => Option.some.inj hq ▸ trivial, I.handler, I.progress, fun tid r hr hnot => ?_⟩
    have S := I.serves tid r hr hnot
    exact ⟨S.handler, S.args, .inl (S.stored.resolve_right (hstoring tid))⟩
  | readAlloced => exact I.moved hstoring fun q hq => (nomatch hq)

theorem Starting.call {c : Call} (I : Starting s) (ha : StartsStored s (.call c)) (h : step s (.call c) = some s') :
    Starting s' := by
  simp only [ThreadSystem.step] at h
  split at h
  case h_2 => cases h
  case h_1 hnone =>
    split at h
    case isTrue => cases h
    cases h
    refine I.moved (fun tid hstoring => ?_) fun q hq => ?_
    · obtain ⟨handler, args, hp⟩ := hstoring
      cases hnone.symm.trans hp
    · obtain rfl := Option.some.inj hq
      cases c with
      | start handler args => exact ha
      | stop => trivial
      | destroy => trivial

theorem Starting.step (I : Starting s) (ha : StartsStored s a) (h : step s a = some s') : Starting s' := by
  cases a with
  | call c => exact I.call ha h
  | owner created =>
    simp only [ThreadSystem.step] at h
    split at h
    case h_1 => cases h
    case h_2 p handler args hp => exact I.start hp (ha _ hp) h
    case h_3 p destroying hp => exact I.stop hp (ha _ hp) h
    case h_4 p hp =>
      cases h
      exact I.destroy hp
  | runner tid detached ret => exact I.runner ha h

theorem Reachable.starting (h : Reachable StartsStored s) : Starting s := by
  refine Trans.Reachable.invariant h (fun s hs => Init.starting hs) fun s s' I hs => ?_
  obtain ⟨a, ha, hstep⟩ := hs
  exact I.step ha hstep

/-! ### Handlers run -/

/-- Every thread that is through has called its handler once, if the ids are stored when the threads begin. -/
theorem started_handlersRan (h : Reachable StartsStored s) : s.HandlersRan := by
  intro tid r hr hover _
  have hprogress := h.starting.progress tid r hr
  unfold RunnerPc.Over at hover
  unfold Runner.Progress at hprogress
  split at hover
  case h_1 hpc =>
    rw [hpc] at hprogress
    exact hprogress
  case h_2 hpc =>
    rw [hpc] at hprogress
    exact hprogress
  case h_3 => exact hover.elim

/-- The new thread begins when `qp_thread_start` has returned. -/
theorem started_handlersRan_stored : ∃ s : State, s.HandlersRan ∧ s.result = QP_SUCCESS ∧
    ∃ r, s.runners 1 = some r ∧ r.pc = .ended ∧ r.calls = [(8, 9)] := by
  let test : State → Label → Bool := fun s a => a matches .runner _ _ _ && s.owner = none
  have htest : ∀ s a, test s a = true → StartsStored s a := by
    intro s a hs
    cases a with
    | call c => cases hs
    | owner created => cases hs
    | runner tid detached ret =>
      rintro r - - ⟨handler, args, hp⟩
      cases (of_decide_eq_true hs).symm.trans hp
  have h₀ : Reachable StartsStored (fresh false) := Trans.Reachable.start (fresh_init false)
  have h₁ := h₀.tail ⟨.call (.start 8 9), Nat.succ_ne_zero 7, rfl⟩
  have h₂ := h₁.tail ⟨.owner none, fun p hp hw => absurd hw (by cases hp; exact id), rfl⟩
  have h₃ := h₂.tail ⟨.owner none, fun p hp hw tid r hr => (nomatch hr), rfl⟩
  have h₄ := h₃.tail ⟨.owner none, fun p hp hw tid r hr => (nomatch hr), rfl⟩
  have h₅ := h₄.tail ⟨.owner (some 1), fun p hp hw => absurd hw (by cases hp; exact id), rfl⟩
  have h₆ := h₅.tail ⟨.owner none, fun p hp hw => absurd hw (by cases hp; exact id), rfl⟩
  have h₇ := Reachable.runs htest (runnerLabels 13) h₆ rfl
  exact ⟨_, started_handlersRan h₇, rfl, _, rfl, rfl, rfl⟩

/-- The new thread runs before `pthread_create` has stored its id. `qp_thread_start` returns success, and no handler was
    called. -/
theorem started_unstored : ∃ s, Reachable (fun _ _ => True) s ∧ s.owner = none ∧ s.result = QP_SUCCESS ∧
    s.thread.tid = 1 ∧ (∃ r, s.runners 1 = some r ∧ r.pc = .ended ∧ r.handler = 8 ∧ r.calls = []) ∧ ¬s.HandlersRan := by
  have h := Reachable.runs_any (ownerLabels (.start 8 9) 4 ++ runnerLabels 3 ++ [.owner none])
    (Trans.Reachable.start (fresh_init false)) rfl
  refine ⟨_, h, rfl, rfl, rfl, ⟨_, rfl, rfl, rfl, rfl⟩, fun hran => ?_⟩
  have hcalls := hran 1 _ rfl trivial (by rintro ⟨handler, args, hp⟩; cases hp)
  cases hcalls

/-- Whenever a new thread does not find its id, it ends without a call. -/
theorem ended_of_unstored (hr : s.runners tid = some r) (hpc : r.pc = .checkSelf) (hstored : s.thread.tid ≠ tid) :
    ∃ s', runs (fun _ _ => true) (List.replicate 3 (.runner tid detached ret)) s = some s' ∧
      s'.runners tid = some { r with pc := .ended } := by
  have hcheck : (runnerAdvance tid detached ret s.thread r) = (s.thread, { r with pc := .unsetRunning }) := by
    simp only [runnerAdvance, hpc, ne_eq, hstored, not_false_eq_true, ↓reduceIte]
  have h₁ := step_plain detached ret hr (by rw [hpc]; decide) (by rw [hpc]; decide)
  rw [hcheck] at h₁
  have h₂ := step_plain detached ret
    (s := { s with runners := Function.update s.runners tid (some { r with pc := .unsetRunning }) })
    (Function.update_self _ _ _) RunnerPc.noConfusion RunnerPc.noConfusion
  have h₃ := step_plain detached ret
    (s := { s with
      thread := { s.thread with isRunning := false }
      runners := Function.update s.runners tid (some { r with pc := .exit }) })
    (Function.update_self _ _ _) RunnerPc.noConfusion RunnerPc.noConfusion
  simp only [runnerAdvance, Function.update_idem] at h₂ h₃
  refine ⟨{ s with
    thread := { s.thread with isRunning := false }
    runners := Function.update s.runners tid (some { r with pc := .ended }) }, ?_, Function.update_self _ _ _⟩
  simp only [List.replicate, runs, ↓reduceIte, h₁, h₂, h₃, Option.bind_some]

end QPHi.ThreadSystem
