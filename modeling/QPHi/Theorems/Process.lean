import QPHi.Process

/-! Process control signals and waits for the process that was started last, as long as no failed start is made over a
    running process and no running process is destroyed that cannot be killed. -/

namespace QPHi

/-! ### Calls -/

/-- The pid that a call signals or waits for. -/
def SysCall.target : SysCall → Option Int
  | .kill pid _ => some pid
  | .waitpid pid => some pid
  | _ => none

def Spawn.pid : Spawn → Option Int
  | .parent pid => some pid
  | _ => none

/-- The pid that a successful start returns. -/
def SysCall.started : SysCall → Option Int
  | .fork spawn => spawn.pid
  | .vfork spawn => spawn.pid
  | .clone _ _ _ _ spawn => spawn.pid
  | _ => none

/-- The pid of the latest successful start. -/
def latestStart (history : List SysCall) : Option Int := (history.filterMap SysCall.started).getLast?

/-- Every call signals or waits for the process that was started last before it. -/
def Aimed (history : List SysCall) : Prop :=
  ∀ before call later, history = before ++ call :: later → ∀ pid ∈ call.target, 0 < pid ∧ latestStart before = some pid

theorem Aimed.snoc {history : List SysCall} {call : SysCall} (h : Aimed history)
    (hcall : ∀ pid ∈ call.target, 0 < pid ∧ latestStart history = some pid) : Aimed (history ++ [call]) := by
  intro before call' later heq
  rcases List.eq_nil_or_concat later with rfl | ⟨later, last, rfl⟩
  · obtain ⟨rfl, hsame⟩ := List.append_inj' heq rfl
    cases hsame
    exact hcall
  · rw [List.concat_eq_append, ← List.cons_append, ← List.append_assoc] at heq
    exact h before call' later (List.append_inj' heq rfl).1

theorem latestStart_append {history calls : List SysCall} (h : ∀ call ∈ calls, call.started = none) :
    latestStart (history ++ calls) = latestStart history := by
  unfold latestStart
  rw [List.filterMap_append, List.filterMap_eq_nil_iff.mpr h, List.append_nil]

theorem latestStart_snoc {history : List SysCall} {call : SysCall} {pid : Int} (h : call.started = some pid) :
    latestStart (history ++ [call]) = some pid := by
  simp [latestStart, h]

/-! ### What the functions keep -/

/-- The calls so far are aimed, and a running process is the one that was started last. -/
structure ProcessInv (history : List SysCall) (process : Option Process) : Prop where
  aimed : Aimed history
  latest : ∀ p ∈ process, p.isRunning = true → 0 < p.pid ∧ latestStart history = some p.pid

namespace ProcessInv

variable {history : List SysCall} {p p' : Process} {process : Option Process} {call : SysCall} {spawn : Spawn}

theorem gone (h : ProcessInv history process) : ProcessInv history none := ⟨h.aimed, fun _ hp => nomatch hp⟩

theorem idle (h : ProcessInv history process) (hp : p.isRunning = false) : ProcessInv history (some p) := by
  refine ⟨h.aimed, ?_⟩
  rintro _ ⟨⟩ hrunning
  rw [hp] at hrunning
  cases hrunning

theorem keep (h : ProcessInv history (some p)) (hpid : p'.pid = p.pid) (hrunning : p'.isRunning = p.isRunning) :
    ProcessInv history (some p') := by
  refine ⟨h.aimed, ?_⟩
  rintro _ ⟨⟩ hp
  rw [hpid]
  exact h.latest p rfl (hrunning ▸ hp)

/-- A call that signals and waits for nobody, and starts nothing. -/
theorem quiet (h : ProcessInv history process) (htarget : call.target = none) (hstarted : call.started = none) :
    ProcessInv (history ++ [call]) process := by
  refine ⟨h.aimed.snoc fun pid hpid => ?_, fun p hp hrunning => ?_⟩
  · rw [htarget] at hpid
    cases hpid
  · rw [latestStart_append (by simpa using hstarted)]
    exact h.latest p hp hrunning

/-- A call that signals or waits for the running process. -/
theorem aim (h : ProcessInv history (some p)) (hrunning : p.isRunning = true) (htarget : call.target = some p.pid)
    (hstarted : call.started = none) : ProcessInv (history ++ [call]) (some p) := by
  refine ⟨h.aimed.snoc fun pid hpid => ?_, fun p hp hrunning => ?_⟩
  · rw [htarget] at hpid
    cases hpid
    exact h.latest p rfl hrunning
  · rw [latestStart_append (by simpa using hstarted)]
    exact h.latest p hp hrunning

/-- A start that is made for a process that is not running may fail; over a running process it must succeed. -/
theorem spawned (h : ProcessInv history (some p)) (htarget : call.target = none) (hstarted : call.started = spawn.pid)
    (hspawn : p.isRunning = true → ∃ pid, spawn = .parent pid) : ProcessInv (history ++ [call]) (p.spawned spawn).1 := by
  refine ⟨h.aimed.snoc fun pid hpid => ?_, fun p' hp' hrunning => ?_⟩
  · rw [htarget] at hpid
    cases hpid
  · cases spawn with
    | failed =>
      cases hp'
      obtain ⟨pid, hpid⟩ := hspawn hrunning
      cases hpid
    | parent pid =>
      cases hp'
      exact ⟨pid.2, latestStart_snoc hstarted⟩
    | child =>
      cases hp'
      obtain ⟨pid, hpid⟩ := hspawn hrunning
      cases hpid

theorem setArgv (h : ProcessInv history (some p)) (type : ProcessType) (argv argv0 : Ptr) :
    ProcessInv (history ++ (p.setArgv type argv argv0).1) (p.setArgv type argv argv0).2.1 := by
  unfold Process.setArgv
  split
  · rw [List.append_nil]
    exact h.keep rfl rfl
  · rw [List.append_nil]
    exact h

theorem setClone (h : ProcessInv history (some p)) (flag : Int) (fn arg : Ptr) (stackSize : Nat) :
    ProcessInv (history ++ (p.setClone flag fn arg stackSize).1) (p.setClone flag fn arg stackSize).2.1 := by
  unfold Process.setClone
  split
  · rw [List.append_nil]
    exact h.keep rfl rfl
  · rw [List.append_nil]
    exact h

theorem kill (h : ProcessInv history (some p)) (sig killed : Int) : ProcessInv (history ++ (p.kill sig killed).1) (some p) := by
  unfold Process.kill
  split
  next hrunning => exact h.aim hrunning rfl rfl
  next =>
    rw [List.append_nil]
    exact h

theorem wait (h : ProcessInv history (some p)) (hrunning : p.isRunning = true) :
    ProcessInv (history ++ p.wait.1) (some p.wait.2) := (h.aim hrunning rfl rfl).idle rfl

theorem stop (h : ProcessInv history (some p)) (force : Bool) (killed : Int) :
    ProcessInv (history ++ (p.stop force killed).1) (some (p.stop force killed).2.1) := by
  unfold Process.stop
  split
  · split
    next hrunning =>
      split
      · have hkill := h.kill SIGKILL killed
        simp only
        split
        · exact hkill
        · rw [← List.append_assoc]
          exact hkill.wait hrunning
      · exact h.wait hrunning
    next hidle =>
      rw [List.append_nil]
      exact h.idle (by simpa using hidle)
  · rw [List.append_nil]
    exact h

end ProcessInv

/-! ### Careful runs -/

/-- No start fails over a running process, and none is continued on the child's side of `fork` with the copy of a
    running process; no running process is destroyed that cannot be killed, unless the structure is freed with it. -/
def ProcessOp.Careful : ProcessOp → Option Process → Prop
  | .start _ stack spawn, some p => p.isInited = true → p.isRunning = true →
    (p.type = .fork → ∃ pid, spawn = .parent pid) ∧ (p.type = .forkExec → p.argv ≠ NULL → spawn ≠ .failed) ∧
      (p.type = .clone → stack ≠ NULL → spawn ≠ .failed)
  | .destroy killed, some p => p.isInited = true → p.isRunning = true → p.isAlloced = true ∨ killed ≠ QP_ERROR
  | _, _ => True

namespace ProcessInv

variable {history : List SysCall} {p : Process} {process : Option Process}

theorem init (h : Aimed history) (process : Option Process) (alloced : Bool) : ProcessInv history (processInit process alloced) := by
  refine ⟨h, fun p hp hrunning => ?_⟩
  unfold processInit processCreate at hp
  cases process with
  | none =>
    cases alloced with
    | false => cases hp
    | true =>
      cases hp
      cases hrunning
  | some =>
    cases hp
    cases hrunning

theorem start (h : ProcessInv history (some p)) {execed : Bool} {stack : Ptr} {spawn : Spawn}
    (hcareful : (ProcessOp.start execed stack spawn).Careful (some p)) :
    ProcessInv (history ++ (p.start execed stack spawn).1) (p.start execed stack spawn).2.1 := by
  unfold Process.start
  split
  next hinited =>
    have hspawn := hcareful hinited
    split
    next htype => exact h.spawned rfl rfl fun hrunning => (hspawn hrunning).1 htype
    next htype =>
      split
      · rw [List.append_nil]
        exact h
      · have hexec : ProcessInv (history ++ [.execv p.argv]) (some p) := h.quiet rfl rfl
        cases execed
        · exact hexec
        · exact hexec.gone
    next htype =>
      split
      · rw [List.append_nil]
        exact h
      next hargv =>
        cases spawn with
        | failed => exact h.spawned rfl rfl fun hrunning => absurd rfl ((hspawn hrunning).2.1 htype hargv)
        | parent pid => exact h.spawned rfl rfl fun _ => ⟨pid, rfl⟩
        | child =>
          have hvfork : ProcessInv (history ++ [.vfork .child]) (some p) := h.quiet rfl rfl
          have hexec : ProcessInv (history ++ [.vfork .child] ++ [.execv p.argv]) (some p) := hvfork.quiet rfl rfl
          rw [List.append_assoc] at hexec
          exact hexec.gone
    next htype =>
      have hstack : ProcessInv history (some (p.replaceStack stack)) := h.keep rfl rfl
      simp only
      split
      · rw [List.append_nil]
        exact hstack
      next hfull =>
        cases spawn with
        | failed => exact hstack.spawned rfl rfl fun hrunning => absurd rfl ((hspawn hrunning).2.2 htype hfull)
        | parent pid => exact hstack.spawned rfl rfl fun _ => ⟨pid, rfl⟩
        | child => exact hstack.quiet rfl rfl
    next =>
      rw [List.append_nil]
      exact h
  next =>
    rw [List.append_nil]
    exact h

theorem stop_isAlloced {force : Bool} {killed : Int} : (p.stop force killed).2.1.isAlloced = p.isAlloced := by
  unfold Process.stop Process.wait
  split
  · split
    · split
      · simp only
        split <;> rfl
      · rfl
    · rfl
  · rfl

/-- A process that can be killed is not running after `qp_process_stop`. -/
theorem stop_idle {killed : Int} (hinited : p.isInited = true) (hkilled : killed ≠ QP_ERROR) :
    (p.stop true killed).2.1.isRunning = false := by
  unfold Process.stop Process.kill
  rw [if_pos hinited]
  split
  next hrunning =>
    simp only [if_true]
    rfl
  next hidle => simpa using hidle

theorem destroy (h : ProcessInv history (some p)) {killed : Int} (hcareful : (ProcessOp.destroy killed).Careful (some p)) :
    ProcessInv (history ++ (p.destroy killed).1) (p.destroy killed).2.1 := by
  unfold Process.destroy
  split
  next hinited =>
    by_cases hrunning : p.isRunning = true
    · have hstop := h.stop true killed
      simp only [if_pos hrunning]
      split
      next => exact hstop.gone
      next halloced =>
        rw [stop_isAlloced] at halloced
        have hkilled := (hcareful hinited hrunning).resolve_left halloced
        exact hstop.idle (stop_idle hinited hkilled)
    · simp only [if_neg hrunning, List.append_nil]
      split
      · exact h.gone
      · exact h.idle (by simpa using hrunning)
  next =>
    rw [List.append_nil]
    exact h

end ProcessInv

theorem ProcessInv.step {s : ProcessState} {op : ProcessOp} (h : ProcessInv s.history s.process) (hcareful : op.Careful s.process) :
    ProcessInv (s.step op).history (s.step op).process := by
  obtain ⟨process, history⟩ := s
  unfold ProcessState.step
  cases process with
  | none =>
    cases op with
    | init alloced =>
      simp only [ProcessOp.run, List.append_nil]
      exact .init h.aimed none alloced
    | _ =>
      simp only [ProcessOp.run, List.append_nil]
      exact h
  | some p =>
    cases op with
    | init alloced =>
      simp only [ProcessOp.run, List.append_nil]
      exact .init h.aimed (some p) alloced
    | setExec argv argv0 => exact h.setArgv .exec argv argv0
    | setVforkExec argv argv0 => exact h.setArgv .forkExec argv argv0
    | setClone flag fn arg stackSize => exact h.setClone flag fn arg stackSize
    | start execed stack spawn => exact h.start hcareful
    | stop force killed => exact h.stop force killed
    | kill sig killed => exact h.kill sig killed
    | destroy killed => exact h.destroy hcareful

theorem Reachable.processInv {s : ProcessState} (h : ProcessState.Reachable ProcessOp.Careful s) :
    ProcessInv s.history s.process := by
  have hinit : ∀ s : ProcessState, (∃ process alloced, s = ⟨processInit process alloced, []⟩) → ProcessInv s.history s.process := by
    rintro s ⟨process, alloced, rfl⟩
    exact .init (fun before call later heq => by simp at heq) process alloced
  have hstep : ∀ s s' : ProcessState, ProcessInv s.history s.process → (∃ op, op.Careful s.process ∧ s' = s.step op) →
      ProcessInv s'.history s'.process := by
    rintro s s' hs ⟨op, hcareful, rfl⟩
    exact hs.step hcareful
  have hinv := Trans.Reachable.invariant h hinit hstep
  exact hinv

theorem spawned_careless {p : Process} {spawn : Spawn} (hrunning : p.isRunning = true) (hspawn : spawn.pid = none) :
    ∃ p', (p.spawned spawn).1 = some p' ∧ p'.isRunning = true ∧ p'.pid ≤ 0 := by
  cases spawn with
  | failed => exact ⟨{ p with pid := -1 }, rfl, hrunning, Int.negSucc_le_zero 0⟩
  | parent pid => cases hspawn
  | child => exact ⟨{ p with pid := 0 }, rfl, hrunning, Int.le_refl 0⟩

/-- A start over a running process that fails, or that goes on in the child of a `fork`. -/
theorem start_careless {p : Process} {execed : Bool} {stack : Ptr} {spawn : Spawn}
    (h : ¬(ProcessOp.start execed stack spawn).Careful (some p)) :
    ∃ p', (p.start execed stack spawn).2.1 = some p' ∧ p'.isRunning = true ∧ p'.pid ≤ 0 := by
  simp only [ProcessOp.Careful, Classical.not_imp] at h
  obtain ⟨hinited, hrunning, h⟩ := h
  unfold Process.start
  rw [if_pos hinited]
  cases htype : p.type with
  | fork =>
    cases spawn with
    | failed => exact spawned_careless hrunning rfl
    | child => exact spawned_careless hrunning rfl
    | parent pid => simp [htype] at h
  | forkExec =>
    obtain ⟨hargv, rfl⟩ : p.argv ≠ NULL ∧ spawn = .failed := by simpa [htype] using h
    simp only [if_neg hargv]
    exact spawned_careless hrunning rfl
  | clone =>
    obtain ⟨hstack, rfl⟩ : stack ≠ NULL ∧ spawn = .failed := by simpa [htype] using h
    simp only [if_neg hstack]
    exact spawned_careless (p := p.replaceStack stack) hrunning rfl
  | exec => simp [htype] at h
  | unknow => simp [htype] at h

/-- A careless operation leaves a running process without a pid. -/
theorem run_careless {op : ProcessOp} {process : Option Process} (h : ¬op.Careful process) :
    ∃ p, (op.run process).2.1 = some p ∧ p.isRunning = true ∧ p.pid ≤ 0 := by
  cases process with
  | none => cases op <;> exact absurd trivial h
  | some p =>
    cases op with
    | start execed stack spawn => exact start_careless h
    | destroy killed =>
      simp only [ProcessOp.Careful, Classical.not_imp, not_or, Decidable.not_not] at h
      obtain ⟨hinited, hrunning, halloced, rfl⟩ := h
      simp only [ProcessOp.run, Process.destroy, Process.stop, Process.kill, if_pos hinited, if_pos hrunning, if_true,
        if_neg halloced]
      exact ⟨_, rfl, hrunning, Int.le_refl 0⟩
    | _ => exact absurd trivial h

/-- In a run of careful operations, every `kill` and `waitpid` has the pid of the latest successful start; and after the
    first operation that is not careful, `qp_process_kill` has another one. -/
theorem runs_aimed (s : ProcessState) (h : ProcessState.Reachable ProcessOp.Careful s) :
    Aimed s.history ∧
      ∀ op, (∀ sig killed, Aimed ((s.step op).step (.kill sig killed)).history) ↔ op.Careful s.process := by
  have hinv := Reachable.processInv h
  refine ⟨hinv.aimed, fun op => ⟨fun hkill => ?_, fun hcareful sig killed => ?_⟩⟩
  · by_cases hcareful : op.Careful s.process
    · exact hcareful
    · obtain ⟨p, hp, hrunning, hpid⟩ := run_careless hcareful
      have hhistory : ((s.step op).step (.kill 15 0)).history = (s.step op).history ++ [.kill p.pid 15] := by
        have hp : (s.step op).process = some p := hp
        simp only [ProcessState.step, ProcessOp.run] at hp ⊢
        rw [hp]
        simp only [Process.kill, if_pos hrunning]
      have haimed := hkill 15 0 _ _ [] hhistory p.pid rfl
      omega
  · have hnext : ProcessInv ((s.step op).step (.kill sig killed)).history ((s.step op).step (.kill sig killed)).process :=
      (hinv.step hcareful).step trivial
    exact hnext.aimed

/-- A process is started, signalled and stopped. -/
theorem runs_aimed_first : Aimed [.fork (.parent ⟨7, by decide⟩), .kill 7 15, .waitpid 7] := by
  have hinit : ProcessState.Reachable ProcessOp.Careful ⟨processInit none true, []⟩ := .start ⟨none, true, rfl⟩
  have hstart := hinit.tail ⟨.start false NULL (.parent ⟨7, by decide⟩), fun _ h => (nomatch h), rfl⟩
  have hkill := hstart.tail ⟨.kill 15 0, trivial, rfl⟩
  have hstop := hkill.tail ⟨.stop false 0, trivial, rfl⟩
  exact (runs_aimed _ hstop).1

/-- A start fails over a running process, and the next signal goes to every process there is. -/
theorem runs_not_aimed : ∃ s, ProcessState.Reachable (fun _ _ => True) s ∧
    s.history = [.fork (.parent ⟨7, by decide⟩), .fork .failed, .kill (-1) 15] ∧ ¬Aimed s.history := by
  have hinit : ProcessState.Reachable (fun _ _ => True) ⟨processInit none true, []⟩ := .start ⟨none, true, rfl⟩
  have hstart := hinit.tail ⟨.start false NULL (.parent ⟨7, by decide⟩), trivial, rfl⟩
  have hfailed := hstart.tail ⟨.start false NULL .failed, trivial, rfl⟩
  have hkill := hfailed.tail ⟨.kill 15 0, trivial, rfl⟩
  refine ⟨_, hkill, rfl, fun h => ?_⟩
  have haimed := h [.fork (.parent ⟨7, by decide⟩), .fork .failed] (.kill (-1) 15) [] rfl (-1) rfl
  exact absurd haimed.1 (by decide)

end QPHi
