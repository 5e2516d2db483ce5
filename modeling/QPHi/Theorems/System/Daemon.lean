import QPHi.System

/-! What `qp_daemonize` leaves behind: one process that returns, in a session that it does not lead, with no descriptors
    but the first three and those beyond the limit. -/

namespace QPHi
namespace Daemon

variable {p q : Daemon} {k : DaemonAnswers} {workdir rootdir : Option String}

/-! ### Descriptors -/

theorem closeFrom_eq (n i : Nat) (p : Daemon) :
    closeFrom n i p = { p with files := fun fd => if i ≤ fd ∧ fd < i + n then none else p.files fd } := by
  induction n generalizing i p with
  | zero =>
    have hfiles : (fun fd => if i ≤ fd ∧ fd < i + 0 then none else p.files fd) = p.files := by
      funext fd
      exact if_neg fun h => absurd h.2 (Nat.not_lt.mpr h.1)
    rw [hfiles]
    rfl
  | succ n ih =>
    have hfiles : (fun fd => if i + 1 ≤ fd ∧ fd < i + 1 + n then none else Function.update p.files i none fd) =
        fun fd => if i ≤ fd ∧ fd < i + (n + 1) then none else p.files fd := by
      funext fd
      by_cases hfd : fd = i
      · subst hfd
        rw [if_neg (by omega), if_pos (by omega), Function.update_self]
      · rw [Function.update_of_ne hfd]
        by_cases hin : i ≤ fd ∧ fd < i + (n + 1)
        · rw [if_pos hin, if_pos (by omega)]
        · rw [if_neg hin, if_neg (by omega)]
    rw [closeFrom, ih, close, hfiles]

/-- The process has `n` of the first three descriptors, all of them for `/dev/null`. -/
structure Nulls (n : Nat) (p q : Daemon) : Prop where
  taken : ∀ fd < n, q.files fd = some "/dev/null"
  free : ∀ fd, n ≤ fd → fd < 3 → q.files fd = none
  high : ∀ fd, 3 ≤ fd → q.files fd = p.files fd
  rest : q = { p with files := q.files }

theorem Nulls.closed (p : Daemon) : Nulls 0 p (((p.close 0).close 1).close 2) where
  taken := fun fd h => absurd h (Nat.not_lt_zero fd)
  free := by
    intro fd _ hfd
    simp only [close, Function.update_apply]
    split
    · rfl
    · split
      · rfl
      · rw [if_pos (by omega)]
  high := by
    intro fd hfd
    simp only [close]
    rw [Function.update_of_ne (by omega), Function.update_of_ne (by omega), Function.update_of_ne (by omega)]
  rest := rfl

/-- One more descriptor is opened, or it is not. -/
theorem Nulls.openFile {n : Nat} (h : Nulls n p q) (hn : n < 3) (grant : Bool) :
    ∃ n', n' ≤ n + 1 ∧ Nulls n' p (q.openFile "/dev/null" grant) ∧ (grant = true → n < p.limit → n' = n + 1) := by
  have hlimit : q.limit = p.limit := by rw [h.rest]
  by_cases hroom : n < p.limit
  · -- The lowest descriptor that is free is `n`.
    have hfind : ((List.range q.limit).find? fun fd => (q.files fd).isNone) = some n := by
      rw [List.find?_range_eq_some]
      refine ⟨?_, List.mem_range.mpr (hlimit ▸ hroom), fun fd hfd => ?_⟩
      · rw [h.free n (Nat.le_refl n) hn]
        rfl
      · rw [h.taken fd hfd]
        rfl
    cases grant with
    | false =>
      refine ⟨n, Nat.le_succ n, ?_, fun h => absurd h Bool.false_ne_true⟩
      simp only [Daemon.openFile, hfind]
      exact h
    | true =>
      refine ⟨n + 1, Nat.le_refl _, ?_, fun _ _ => rfl⟩
      simp only [Daemon.openFile, hfind, if_true]
      refine ⟨fun fd hfd => ?_, fun fd hfd hfd' => ?_, fun fd hfd => ?_, by rw [h.rest]⟩
      · rcases Nat.lt_succ_iff_lt_or_eq.mp hfd with hlt | rfl
        · exact (Function.update_of_ne (Nat.ne_of_lt hlt) _ _).trans (h.taken fd hlt)
        · exact Function.update_self _ _ _
      · exact (Function.update_of_ne (by omega) _ _).trans (h.free fd (by omega) hfd')
      · exact (Function.update_of_ne (by omega) _ _).trans (h.high fd hfd)
  · have hfind : ((List.range q.limit).find? fun fd => (q.files fd).isNone) = none := by
      rw [List.find?_eq_none]
      intro fd hfd
      rw [List.mem_range, hlimit] at hfd
      rw [h.taken fd (by omega)]
      exact Bool.false_ne_true
    refine ⟨n, Nat.le_succ n, ?_, fun _ hroom' => absurd hroom' hroom⟩
    simp only [Daemon.openFile, hfind]
    exact h

theorem Nulls.opens (p : Daemon) (grant : Nat → Bool) :
    ∃ n, Nulls n p ((((((p.close 0).close 1).close 2).openFile "/dev/null" (grant 0)).openFile "/dev/null"
      (grant 1)).openFile "/dev/null" (grant 2)) ∧ ((∀ i < 3, grant i = true) → 3 ≤ p.limit → n = 3) := by
  obtain ⟨n₁, hn₁, h₁, hall₁⟩ := (Nulls.closed p).openFile (by decide) (grant 0)
  obtain ⟨n₂, hn₂, h₂, hall₂⟩ := h₁.openFile (by omega) (grant 1)
  obtain ⟨n₃, hn₃, h₃, hall₃⟩ := h₂.openFile (by omega) (grant 2)
  refine ⟨n₃, h₃, fun hgrant hlimit => ?_⟩
  have hone := hall₁ (hgrant 0 (by decide)) (by omega)
  have htwo := hall₂ (hgrant 1 (by decide)) (by omega)
  have hthree := hall₃ (hgrant 2 (by decide)) (by omega)
  omega

/-! ### Behind the forks -/

/-- Of the descriptors of `p`, those below the limit are closed in `q`, and the first three stand for nothing, or for
    `/dev/null`, if they are not held. -/
structure Cleared (k : DaemonAnswers) (holdfd : Bool) (p q : Daemon) : Prop where
  held : holdfd = true → ∀ fd < 3, q.files fd = p.files fd
  dropped : holdfd = false → ∀ fd < 3, q.files fd = none ∨ q.files fd = some "/dev/null"
  nulls : holdfd = false → (∀ i < 3, k.opens i = true) → 3 ≤ p.limit → ∀ fd < 3, q.files fd = some "/dev/null"
  closed : ∀ fd, 3 ≤ fd → fd < p.closesTo → q.files fd = none
  beyond : ∀ fd, 3 ≤ fd → p.closesTo ≤ fd → q.files fd = p.files fd

theorem closeFrom_high (p : Daemon) {fd : Nat} (hfd : 3 ≤ fd) :
    (closeFrom (p.closesTo - 3) 3 p).files fd = if fd < p.closesTo then none else p.files fd := by
  rw [closeFrom_eq]
  by_cases h : fd < p.closesTo
  · exact (if_pos (by omega)).trans (if_pos h).symm
  · exact (if_neg (by omega)).trans (if_neg h).symm

theorem closeFrom_low (p : Daemon) {fd : Nat} (hfd : fd < 3) : (closeFrom (p.closesTo - 3) 3 p).files fd = p.files fd := by
  rw [closeFrom_eq]
  exact if_neg (by omega)

theorem Cleared.hold (k : DaemonAnswers) (p : Daemon) : Cleared k true p (closeFrom (p.closesTo - 3) 3 p) where
  held := fun _ _ hfd => closeFrom_low p hfd
  dropped := fun h => absurd h.symm Bool.false_ne_true
  nulls := fun h => absurd h.symm Bool.false_ne_true
  closed := fun _ hfd h => (closeFrom_high p hfd).trans (if_pos h)
  beyond := fun _ hfd h => (closeFrom_high p hfd).trans (if_neg (Nat.not_lt.mpr h))

theorem Nulls.cleared {n : Nat} (h : Nulls n (closeFrom (p.closesTo - 3) 3 p) q)
    (hall : (∀ i < 3, k.opens i = true) → 3 ≤ p.limit → n = 3) : Cleared k false p q where
  held := fun h => absurd h Bool.false_ne_true
  dropped := by
    intro _ fd hfd
    by_cases hlt : fd < n
    · exact .inr (h.taken fd hlt)
    · exact .inl (h.free fd (Nat.not_lt.mp hlt) hfd)
  nulls := by
    intro _ hopens hlimit fd hfd
    exact h.taken fd (hall hopens hlimit ▸ hfd)
  closed := fun fd hfd hlt => (h.high fd hfd).trans ((closeFrom_high p hfd).trans (if_pos hlt))
  beyond := fun fd hfd hle => (h.high fd hfd).trans ((closeFrom_high p hfd).trans (if_neg (Nat.not_lt.mpr hle)))

/-- The process in its new directories. -/
def moved (workdir rootdir : Option String) (p : Daemon) : Daemon :=
  { p with rootdir := rootdir.or p.rootdir, workdir := workdir.or p.workdir }

/-- A system call fails that `qp_daemonize` looks at. -/
def Fails (k : DaemonAnswers) (workdir rootdir : Option String) : Prop :=
  rootdir.isSome ∧ !k.chroot ∨ workdir.isSome ∧ !k.chdir ∨ !k.getrlimit

theorem settle_failed (h : Fails k workdir rootdir) (holdfd : Bool) (p : Daemon) :
    (settle k holdfd workdir rootdir p).2 = QP_ERROR := by
  unfold settle
  by_cases hroot : rootdir.isSome ∧ !k.chroot
  · rw [if_pos hroot]
  rw [if_neg hroot]
  by_cases hwork : workdir.isSome ∧ !k.chdir
  · simp only [if_pos hwork]
  simp only [if_neg hwork]
  rw [if_pos ((h.resolve_left hroot).resolve_left hwork)]

theorem settle_done (h : ¬Fails k workdir rootdir) (holdfd : Bool) (p : Daemon) :
    ∃ q, settle k holdfd workdir rootdir p = (q, 1) ∧ Cleared k holdfd p q ∧
      q = { moved workdir rootdir p with files := q.files } := by
  obtain ⟨hroot, hwork, hlimit⟩ : ¬(rootdir.isSome ∧ !k.chroot) ∧ ¬(workdir.isSome ∧ !k.chdir) ∧ ¬!k.getrlimit := by
    rwa [Fails, not_or, not_or] at h
  have hmoved : settle k holdfd workdir rootdir p =
      if !holdfd then
        (((((((closeFrom (p.closesTo - 3) 3 (moved workdir rootdir p)).close 0).close 1).close 2).openFile "/dev/null"
          (k.opens 0)).openFile "/dev/null" (k.opens 1)).openFile "/dev/null" (k.opens 2), 1)
      else (closeFrom (p.closesTo - 3) 3 (moved workdir rootdir p), 1) := by
    unfold settle
    simp only [if_neg hroot, if_neg hwork, if_neg hlimit]
    cases rootdir <;> cases workdir <;> rfl
  rw [hmoved]
  cases holdfd with
  | true =>
    have hcleared := Cleared.hold k (moved workdir rootdir p)
    exact ⟨_, rfl, ⟨hcleared.held, hcleared.dropped, hcleared.nulls, hcleared.closed, hcleared.beyond⟩, by rw [closeFrom_eq]⟩
  | false =>
    obtain ⟨n, hnulls, hall⟩ := Nulls.opens (closeFrom (p.closesTo - 3) 3 (moved workdir rootdir p)) k.opens
    have hlimits : (closeFrom (p.closesTo - 3) 3 (moved workdir rootdir p)).limit = p.limit := by
      rw [closeFrom_eq]
      rfl
    rw [hlimits] at hall
    have hcleared : Cleared k false (moved workdir rootdir p) _ := hnulls.cleared hall
    refine ⟨_, rfl, ⟨hcleared.held, hcleared.dropped, hcleared.nulls, hcleared.closed, hcleared.beyond⟩, ?_⟩
    rw [hnulls.rest, closeFrom_eq]

/-! ### All processes -/

/-- The process `q` is what `p` was to become. -/
structure Daemonized (k : DaemonAnswers) (bg holdfd : Bool) (workdir rootdir : Option String) (p q : Daemon) : Prop where
  files : Cleared k holdfd p q
  mask : q.mask = 0
  rootdir : q.rootdir = rootdir.or p.rootdir
  workdir : q.workdir = workdir.or p.workdir
  stayed : bg = false → q.pid = p.pid ∧ q.session = p.session
  detached : bg = true → some q.pid = k.forkAgain ∧ some q.session = k.fork ∧ q.session ≠ q.pid ∧ q.ignoresHup = true

/-- No system call fails that `qp_daemonize` looks at. -/
def Succeeds (k : DaemonAnswers) (bg : Bool) (workdir rootdir : Option String) : Prop :=
  (bg = true → k.fork.isSome ∧ k.forkAgain.isSome) ∧ ¬Fails k workdir rootdir

/-- The last process of `out` returns `ret`, and all the others exit. -/
def ReturnsOnce (out : List (Daemon × Leave)) (q : Daemon) (ret : Int) : Prop :=
  ∃ gone, out = gone ++ [(q, .returned ret)] ∧ ∀ o ∈ gone, o.2 = .exited 0

/-- The first new process, which leads a session of its own. -/
def leader (pid : Nat) (p : Daemon) : Daemon := { p with mask := 0, pid := pid, session := pid, group := pid, ignoresHup := true }

theorem setsid_leader {pid : Nat} (h : pid ≠ p.group) :
    setsid { { p with mask := 0 } with pid := pid } = { leader pid p with ignoresHup := p.ignoresHup } := if_neg (Ne.symm h)

/-- The part behind the forks, in a process with the ids that the forks have given it. -/
theorem settle_daemonized {bg : Bool} {pid group session : Nat} {ignoresHup : Bool} (h : ¬Fails k workdir rootdir)
    (hstayed : bg = false → pid = p.pid ∧ session = p.session)
    (hdetached : bg = true → some pid = k.forkAgain ∧ some session = k.fork ∧ session ≠ pid ∧ ignoresHup = true) (holdfd : Bool) :
    ∃ q, settle k holdfd workdir rootdir
        { p with mask := 0, pid := pid, group := group, session := session, ignoresHup := ignoresHup } = (q, 1) ∧
      Daemonized k bg holdfd workdir rootdir p q := by
  obtain ⟨q, hsettle, hcleared, hq⟩ :=
    settle_done h holdfd { p with mask := 0, pid := pid, group := group, session := session, ignoresHup := ignoresHup }
  refine ⟨q, hsettle, ⟨hcleared.held, hcleared.dropped, hcleared.nulls, hcleared.closed, hcleared.beyond⟩, ?_, ?_, ?_, ?_, ?_⟩
  · rw [hq]
    rfl
  · rw [hq]
    rfl
  · rw [hq]
    rfl
  · rw [hq]
    exact hstayed
  · rw [hq]
    exact hdetached

theorem settle_foreground (h : ¬Fails k workdir rootdir) (holdfd : Bool) (p : Daemon) :
    ∃ q, settle k holdfd workdir rootdir { p with mask := 0 } = (q, 1) ∧ Daemonized k false holdfd workdir rootdir p q :=
  settle_daemonized h (fun _ => ⟨rfl, rfl⟩) (fun hbg => absurd hbg Bool.false_ne_true) holdfd

theorem settle_background {pid pid' : Nat} (hfork : k.fork = some pid) (hforkAgain : k.forkAgain = some pid') (hne : pid ≠ pid')
    (h : ¬Fails k workdir rootdir) (holdfd : Bool) (p : Daemon) :
    ∃ q, settle k holdfd workdir rootdir { leader pid p with pid := pid' } = (q, 1) ∧
      Daemonized k true holdfd workdir rootdir p q :=
  @settle_daemonized p k workdir rootdir true pid' pid pid true h (fun hbg => absurd hbg.symm Bool.false_ne_true)
    (fun _ => ⟨hforkAgain.symm, hfork.symm, hne, rfl⟩) holdfd

/-- Whatever fails, exactly one process returns from `qp_daemonize`. It has become a daemon if nothing has failed, and
    has an error if something has. The kernel gives no process the id of another one or of its group. -/
theorem daemonize_returns_once (k : DaemonAnswers) (bg holdfd : Bool) (workdir rootdir : Option String) (p : Daemon)
    (hfork : ∀ pid, k.fork = some pid → pid ≠ p.group ∧ k.forkAgain ≠ some pid) :
    ∃ q ret, ReturnsOnce (daemonize k bg holdfd workdir rootdir p) q ret ∧
      (Succeeds k bg workdir rootdir → ret = 1 ∧ Daemonized k bg holdfd workdir rootdir p q) ∧
      (¬Succeeds k bg workdir rootdir → ret = QP_ERROR) := by
  cases bg with
  | false =>
    refine ⟨(settle k holdfd workdir rootdir { p with mask := 0 }).1, (settle k holdfd workdir rootdir { p with mask := 0 }).2,
      ⟨[], rfl, fun _ h => absurd h List.not_mem_nil⟩, fun h => ?_, fun h => ?_⟩
    · obtain ⟨q, hsettle, hdaemon⟩ := settle_foreground h.2 holdfd p
      rw [hsettle]
      exact ⟨rfl, hdaemon⟩
    · have hfails : Fails k workdir rootdir := by
        by_contra hfails
        exact h ⟨fun h => absurd h Bool.false_ne_true, hfails⟩
      exact settle_failed hfails holdfd _
  | true =>
    cases hone : k.fork with
    | none =>
      refine ⟨{ p with mask := 0 }, QP_ERROR, ⟨[], ?_, fun _ h => absurd h List.not_mem_nil⟩, fun h => ?_, fun _ => rfl⟩
      · simp only [daemonize, hone, if_true, List.nil_append]
      · have hsome := (h.1 rfl).1
        rw [hone] at hsome
        cases hsome
    | some pid =>
      obtain ⟨hgroup, hne⟩ := hfork pid hone
      have hchild := setsid_leader hgroup
      cases htwo : k.forkAgain with
      | none =>
        refine ⟨leader pid p, QP_ERROR, ⟨[({ p with mask := 0 }, .exited 0)], ?_, ?_⟩, fun h => ?_, fun _ => rfl⟩
        · simp only [daemonize, hone, htwo, if_true, hchild]
          rfl
        · exact fun o ho => congrArg Prod.snd (List.mem_singleton.mp ho)
        · have hsome := (h.1 rfl).2
          rw [htwo] at hsome
          cases hsome
      | some pid' =>
        rw [htwo] at hne
        refine ⟨(settle k holdfd workdir rootdir { leader pid p with pid := pid' }).1,
          (settle k holdfd workdir rootdir { leader pid p with pid := pid' }).2,
          ⟨[({ p with mask := 0 }, .exited 0), (leader pid p, .exited 0)], ?_, ?_⟩, fun h => ?_, fun h => ?_⟩
        · simp only [daemonize, hone, htwo, if_true, hchild]
          rfl
        · intro o ho
          simp only [List.mem_cons, List.not_mem_nil, or_false] at ho
          rcases ho with rfl | rfl <;> rfl
        · obtain ⟨q, hsettle, hdaemon⟩ := settle_background hone htwo (fun heq => hne (heq ▸ rfl)) h.2 holdfd p
          rw [hsettle]
          exact ⟨rfl, hdaemon⟩
        · have hfails : Fails k workdir rootdir := by
            by_contra hfails
            exact h ⟨fun _ => ⟨by rw [hone]; rfl, by rw [htwo]; rfl⟩, hfails⟩
          exact settle_failed hfails holdfd _

/-- A process that was started from a shell and has opened two files. -/
def started : Daemon :=
  ⟨10, 10, 5, 18, false, none, some "/home",
    fun fd => if fd < 3 then some "/dev/tty" else if fd < 5 then some "log" else none, 1024, some 4096⟩

theorem daemonize_returns_once_started :
    ∃ q ret,
      ReturnsOnce (daemonize ⟨some 11, some 12, true, true, true, fun _ => true⟩ true false (some "/") none started) q ret ∧
      ret = 1 ∧ q.files 0 = some "/dev/null" ∧ q.files 4 = none ∧ q.session ≠ q.pid := by
  obtain ⟨q, ret, hreturns, hdaemon, -⟩ :=
    daemonize_returns_once ⟨some 11, some 12, true, true, true, fun _ => true⟩ true false (some "/") none started (by
      rintro pid ⟨⟩
      exact ⟨by decide, by decide⟩)
  obtain ⟨hret, hq⟩ := hdaemon ⟨fun _ => ⟨rfl, rfl⟩, by simp [Fails]⟩
  exact ⟨q, ret, hreturns, hret, hq.files.nulls rfl (fun _ _ => rfl) (by decide) 0 (by decide),
    hq.files.closed 4 (by decide) (by decide), (hq.detached rfl).2.2.1⟩

end Daemon
end QPHi
