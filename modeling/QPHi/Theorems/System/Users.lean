import QPHi.System

/-! Changing the user. Whatever a process does about its ids, a change that succeeds is complete and cannot be undone; a
    change that fails may have changed the group, and then there is no second one. -/

namespace QPHi

namespace Credentials

/-- The credentials of a process that runs as one user and one group. -/
def user (uid gid : Nat) (groups : List Nat) : Credentials := ⟨.all uid, .all gid, groups⟩

variable {c : Credentials} {uid gid : Nat} {groups : List Nat}

/-! ### The kernel -/

theorem set_all (id id' : Nat) : (Ids3.all id).set false id' = if id' = id then some (.all id) else none := by
  by_cases h : id' = id
  · subst h
    simp [Ids3.set, Ids3.all]
  · simp [Ids3.set, Ids3.all, h]

theorem setgid_root (grant : Bool) (gid' : Nat) :
    (user 0 gid groups).setgid grant gid' = if grant then (user 0 gid' groups, 0) else (user 0 gid groups, -1) := rfl

theorem setuid_root (grant : Bool) (uid : Nat) :
    (user 0 gid groups).setuid grant uid = if grant then (user uid gid groups, 0) else (user 0 gid groups, -1) := rfl

theorem user_unprivileged (huid : uid ≠ 0) : (user uid gid groups).privileged = false := decide_eq_false huid

/-- Without privileges there is no other group to change to. -/
theorem setgid_user (huid : uid ≠ 0) (grant : Bool) (gid' : Nat) :
    ((user uid gid groups).setgid grant gid').1 = user uid gid groups := by
  have hset : (user uid gid groups).gid.set (user uid gid groups).privileged gid' =
      if gid' = gid then some (.all gid) else none := by
    rw [user_unprivileged huid]
    exact set_all gid gid'
  unfold setgid
  rw [hset]
  by_cases h : gid' = gid
  · rw [if_pos h]
    cases grant <;> rfl
  · rw [if_neg h]

theorem setuid_user (huid : uid ≠ 0) (grant : Bool) (uid' : Nat) :
    ((user uid gid groups).setuid grant uid').1 = user uid gid groups := by
  have hset : (user uid gid groups).uid.set (user uid gid groups).privileged uid' =
      if uid' = uid then some (.all uid) else none := by
    rw [user_unprivileged huid]
    exact set_all uid uid'
  unfold setuid
  rw [hset]
  by_cases h : uid' = uid
  · rw [if_pos h]
    cases grant <;> rfl
  · rw [if_neg h]

/-! ### Changing the user -/

theorem checkRoot_user : (user uid gid groups).checkRoot = 0 ↔ uid = 0 ∧ gid = 0 := by
  have hcheck : (user uid gid groups).checkRoot = if 0 = uid ∧ 0 = gid then QP_SUCCESS else QP_ERROR := rfl
  rw [hcheck]
  constructor
  · intro h
    by_cases hroot : 0 = uid ∧ 0 = gid
    · exact ⟨hroot.1.symm, hroot.2.symm⟩
    · rw [if_neg hroot] at h
      cases h
  · rintro ⟨rfl, rfl⟩
    rfl

/-- A process that is not root, or whose group is not, is refused. -/
theorem changeUserById_refused (h : ¬(uid = 0 ∧ gid = 0)) (grantGid grantUid : Bool) (uid' gid' : Nat) :
    (user uid gid groups).changeUserById grantGid grantUid uid' gid' = (user uid gid groups, QP_ERROR) := by
  unfold changeUserById
  rw [if_neg fun hroot => h (checkRoot_user.mp hroot)]

/-- All that a change can come to for root: nothing at all, the group without the user, or both. -/
theorem changeUserById_root (grantGid grantUid : Bool) (uid gid : Nat) :
    (root groups).changeUserById grantGid grantUid uid gid = (root groups, QP_ERROR) ∨
      (root groups).changeUserById grantGid grantUid uid gid = (user 0 gid groups, QP_ERROR) ∨
      ¬(uid = 0 ∧ gid = 0) ∧ (root groups).changeUserById grantGid grantUid uid gid = (user uid gid groups, QP_SUCCESS) := by
  have hroot : (root groups).checkRoot = 0 := rfl
  unfold changeUserById
  rw [if_pos hroot]
  by_cases hasked : 0 = uid ∧ 0 = gid
  · exact .inl (if_pos hasked)
  rw [if_neg hasked]
  have hgroup := @setgid_root 0 groups grantGid gid
  have hboth := @setuid_root gid groups grantUid uid
  change (root groups).setgid grantGid gid = _ at hgroup
  rw [hgroup]
  cases grantGid with
  | false => exact .inl rfl
  | true =>
    simp only [if_true, Int.lt_irrefl, if_false, hboth]
    cases grantUid with
    | false => exact .inr (.inl rfl)
    | true => exact .inr (.inr ⟨fun h => hasked ⟨h.1.symm, h.2.symm⟩, rfl⟩)

/-! ### Histories -/

/-- A call of one of the two functions that change the user, with what the kernel and `getpwnam` answer. -/
inductive UserChange where
  | byId (grantGid grantUid : Bool) (uid gid : Nat)
  | byName (getpwnam : String → Option (Nat × Nat)) (grantGid grantUid : Bool) (uname : String)

/-- The user and the group that are asked for. -/
def UserChange.asked : UserChange → Option (Nat × Nat)
  | .byId _ _ uid gid => some (uid, gid)
  | .byName getpwnam _ _ uname => getpwnam uname

/-- What a process does about its ids: it changes the user, or it makes one of the system calls itself. -/
inductive IdOp where
  | change (call : UserChange)
  | setgid (grant : Bool) (gid : Nat)
  | setuid (grant : Bool) (uid : Nat)

def IdOp.run : IdOp → Credentials → Credentials × Int
  | .change (.byId grantGid grantUid uid gid), c => c.changeUserById grantGid grantUid uid gid
  | .change (.byName getpwnam grantGid grantUid uname), c => c.changeUserByName getpwnam grantGid grantUid uname
  | .setgid grant gid, c => c.setgid grant gid
  | .setuid grant uid, c => c.setuid grant uid

/-- An operation, with the credentials before and after it and what it returned. -/
structure IdEntry where
  before : Credentials
  op : IdOp
  after : Credentials
  ret : Int

def idHistory : List IdOp → Credentials → List IdEntry
  | [], _ => []
  | op :: ops, c => ⟨c, op, (op.run c).1, (op.run c).2⟩ :: idHistory ops (op.run c).1

/-- A change by name is one by id, when there is such a user. -/
theorem UserChange.run_cases (call : UserChange) (c : Credentials) :
    call.asked = none ∧ (IdOp.change call).run c = (c, QP_ERROR) ∨ ∃ grantGid grantUid uid gid, call.asked = some (uid, gid) ∧
      (IdOp.change call).run c = c.changeUserById grantGid grantUid uid gid := by
  cases call with
  | byId grantGid grantUid uid gid => exact .inr ⟨grantGid, grantUid, uid, gid, rfl, rfl⟩
  | byName getpwnam grantGid grantUid uname =>
    cases h : getpwnam uname with
    | none =>
      refine .inl ⟨h, ?_⟩
      simp only [IdOp.run, changeUserByName, h]
    | some ids =>
      obtain ⟨uid, gid⟩ := ids
      refine .inr ⟨grantGid, grantUid, uid, gid, h, ?_⟩
      simp only [IdOp.run, changeUserByName, h]

theorem UserChange.refused (call : UserChange) (h : ¬(uid = 0 ∧ gid = 0)) :
    (IdOp.change call).run (user uid gid groups) = (user uid gid groups, QP_ERROR) := by
  rcases call.run_cases (user uid gid groups) with ⟨-, hrun⟩ | ⟨grantGid, grantUid, uid', gid', -, hrun⟩
  · exact hrun
  · rw [hrun, changeUserById_refused h]

/-! ### A process that is not root any more -/

theorem IdOp.run_user (op : IdOp) (huid : uid ≠ 0) : (op.run (user uid gid groups)).1 = user uid gid groups := by
  cases op with
  | change call => rw [call.refused fun h => huid h.1]
  | setgid grant gid' => exact setgid_user huid grant gid'
  | setuid grant uid' => exact setuid_user huid grant uid'

theorem idHistory_user (huid : uid ≠ 0) (ops : List IdOp) : ∀ e ∈ idHistory ops (user uid gid groups),
    e.after = user uid gid groups ∧ ∀ call, e.op = .change call → e.ret = QP_ERROR := by
  induction ops with
  | nil => exact fun _ h => absurd h List.not_mem_nil
  | cons op ops ih =>
    rintro e (_ | ⟨_, he⟩)
    · refine ⟨op.run_user huid, ?_⟩
      rintro call rfl
      exact congrArg Prod.snd (call.refused fun h => huid h.1)
    · rw [op.run_user huid] at he
      exact ih e he

/-! ### Whole histories -/

/-- From root on every process runs as one user and one group. -/
theorem IdOp.run_uniform (op : IdOp) (uid gid : Nat) (groups : List Nat) :
    ∃ uid' gid', (op.run (user uid gid groups)).1 = user uid' gid' groups := by
  by_cases huid : uid = 0
  · subst huid
    cases op with
    | change call =>
      by_cases hgid : gid = 0
      · subst hgid
        rcases call.run_cases (root groups) with ⟨-, hrun⟩ | ⟨grantGid, grantUid, uid', gid', -, hrun⟩
        · exact ⟨0, 0, congrArg Prod.fst hrun⟩
        · change ∃ uid'' gid'', ((IdOp.change call).run (root groups)).1 = _
          rw [hrun]
          rcases @changeUserById_root groups grantGid grantUid uid' gid' with h | h | ⟨-, h⟩
          · exact ⟨0, 0, congrArg Prod.fst h⟩
          · exact ⟨0, gid', congrArg Prod.fst h⟩
          · exact ⟨uid', gid', congrArg Prod.fst h⟩
      · exact ⟨0, gid, congrArg Prod.fst (call.refused fun h => hgid h.2)⟩
    | setgid grant gid' =>
      cases grant with
      | false => exact ⟨0, gid, rfl⟩
      | true => exact ⟨0, gid', rfl⟩
    | setuid grant uid' =>
      cases grant with
      | false => exact ⟨0, gid, rfl⟩
      | true => exact ⟨uid', gid, rfl⟩
  · exact ⟨uid, gid, op.run_user huid⟩

/-- A successful change gives what was asked for. -/
theorem UserChange.run_success (call : UserChange) (h : ((IdOp.change call).run (user uid gid groups)).2 = QP_SUCCESS) :
    ∃ uid' gid', call.asked = some (uid', gid') ∧ ¬(uid' = 0 ∧ gid' = 0) ∧
      ((IdOp.change call).run (user uid gid groups)).1 = user uid' gid' groups := by
  by_cases hroot : uid = 0 ∧ gid = 0
  · obtain ⟨rfl, rfl⟩ := hroot
    change ((IdOp.change call).run (root groups)).2 = QP_SUCCESS at h
    change ∃ uid' gid', call.asked = some (uid', gid') ∧ _ ∧ ((IdOp.change call).run (root groups)).1 = _
    rcases call.run_cases (root groups) with ⟨-, hrun⟩ | ⟨grantGid, grantUid, uid', gid', hasked, hrun⟩
    · rw [hrun] at h
      cases h
    · rw [hrun] at h ⊢
      rcases @changeUserById_root groups grantGid grantUid uid' gid' with hchange | hchange | ⟨hne, hchange⟩
      · rw [hchange] at h
        cases h
      · rw [hchange] at h
        cases h
      · exact ⟨uid', gid', hasked, hne, congrArg Prod.fst hchange⟩
  · rw [call.refused hroot] at h
    cases h

/-- Whatever a process does about its ids after root has started it: a change of the user that succeeds is complete,
    and if the user is not root, nothing can undo it. -/
theorem changed_for_good (ops : List IdOp) (groups : List Nat) {earlier later : List IdEntry} {e : IdEntry} {call : UserChange}
    (h : idHistory ops (root groups) = earlier ++ e :: later) (hop : e.op = .change call) (hret : e.ret = QP_SUCCESS) :
    ∃ uid gid, call.asked = some (uid, gid) ∧ ¬(uid = 0 ∧ gid = 0) ∧ e.after = user uid gid groups ∧
      (uid ≠ 0 → ∀ e' ∈ later, e'.after = user uid gid groups ∧ ∀ call', e'.op = .change call' → e'.ret = QP_ERROR) := by
  have hrun : ∀ (ops : List IdOp) (uid gid : Nat) (earlier : List IdEntry),
      idHistory ops (user uid gid groups) = earlier ++ e :: later →
      ∃ uid gid, call.asked = some (uid, gid) ∧ ¬(uid = 0 ∧ gid = 0) ∧ e.after = user uid gid groups ∧
        (uid ≠ 0 → ∀ e' ∈ later, e'.after = user uid gid groups ∧ ∀ call', e'.op = .change call' → e'.ret = QP_ERROR) := by
    intro ops
    induction ops with
    | nil => exact fun _ _ earlier h => absurd h.symm (List.append_ne_nil_of_right_ne_nil earlier (List.cons_ne_nil e later))
    | cons op ops ih =>
      rintro uid gid (_ | ⟨first, earlier⟩) h
      · obtain ⟨rfl, rfl⟩ := List.cons.inj h
        subst hop
        obtain ⟨uid', gid', hasked, hne, hafter⟩ := call.run_success hret
        refine ⟨uid', gid', hasked, hne, hafter, fun huid => ?_⟩
        rw [hafter]
        exact idHistory_user huid ops
      · obtain ⟨-, h⟩ := List.cons.inj h
        obtain ⟨uid', gid', hafter⟩ := op.run_uniform uid gid groups
        rw [hafter] at h
        exact ih uid' gid' earlier h
  exact hrun ops 0 0 earlier h

/-- A server gives up root, and then tries to get it back. -/
theorem changed_for_good_server : ((IdOp.setuid true 0).run (user 99 98 [4])).1 = user 99 98 [4] ∧
    ((IdOp.change (.byId true true 0 1)).run (user 99 98 [4])).2 = QP_ERROR := by
  obtain ⟨uid, gid, hasked, -, -, hlater⟩ :=
    @changed_for_good [.change (.byId true true 99 98), .setuid true 0, .change (.byId true true 0 1)] [4] [] _ _
      (.byId true true 99 98) rfl rfl rfl
  obtain ⟨rfl, rfl⟩ := Prod.mk.inj (Option.some.inj hasked)
  have hkept := hlater (by decide)
  exact ⟨(hkept _ List.mem_cons_self).1, (hkept _ (List.mem_cons_of_mem _ List.mem_cons_self)).2 _ rfl⟩

/-! ### Histories of changes alone -/

/-- A process that is not root any more, or whose group is not, stays as it is. -/
theorem idHistory_locked (h : ¬(uid = 0 ∧ gid = 0)) (calls : List UserChange) :
    ∀ e ∈ idHistory (calls.map .change) (user uid gid groups),
      e.before = user uid gid groups ∧ e.after = user uid gid groups ∧ e.ret = QP_ERROR := by
  induction calls with
  | nil => exact fun _ h => absurd h List.not_mem_nil
  | cons call calls ih =>
    have hrun := @UserChange.refused uid gid groups call h
    rintro e (_ | ⟨_, he⟩)
    · exact ⟨rfl, congrArg Prod.fst hrun, congrArg Prod.snd hrun⟩
    · rw [hrun] at he
      exact ih e he

/-- A call did nothing. -/
def IdEntry.Idle (e : IdEntry) : Prop := e.after = e.before ∧ e.ret = QP_ERROR

/-- A call changed root into what was asked for, or it changed the group alone and failed. -/
def IdEntry.Parts (groups : List Nat) (e : IdEntry) : Prop :=
  e.before = root groups ∧ ∃ call uid gid, e.op = .change call ∧ call.asked = some (uid, gid) ∧ ¬(uid = 0 ∧ gid = 0) ∧
    (e.ret = QP_SUCCESS ∧ e.after = user uid gid groups ∨ e.ret = QP_ERROR ∧ gid ≠ 0 ∧ e.after = user 0 gid groups)

theorem UserChange.run_root (call : UserChange) (groups : List Nat) :
    (IdOp.change call).run (root groups) = (root groups, QP_ERROR) ∨ ∃ uid gid, ¬(uid = 0 ∧ gid = 0) ∧
      ((IdOp.change call).run (root groups)).1 = user uid gid groups ∧
      IdEntry.Parts groups ⟨root groups, .change call, user uid gid groups, ((IdOp.change call).run (root groups)).2⟩ := by
  rcases call.run_cases (root groups) with ⟨-, hrun⟩ | ⟨grantGid, grantUid, uid, gid, hasked, hrun⟩
  · exact .inl hrun
  rcases @changeUserById_root groups grantGid grantUid uid gid with h | h | ⟨hne, h⟩
  · exact .inl (hrun.trans h)
  · rw [hrun, h]
    by_cases hgid : gid = 0
    · subst hgid
      exact .inl rfl
    · have hne : ∀ uid, ¬(uid = 0 ∧ gid = 0) := fun _ hzero => hgid hzero.2
      exact .inr ⟨0, gid, hne 0, rfl, rfl, call, uid, gid, rfl, hasked, hne uid, .inr ⟨rfl, hgid, rfl⟩⟩
  · rw [hrun, h]
    exact .inr ⟨uid, gid, hne, rfl, rfl, call, uid, gid, rfl, hasked, hne, .inl ⟨rfl, rfl⟩⟩

/-- In a process that leaves its ids to these functions, at most one call does anything. It may be one that has
    failed: then the group is changed, the process is still root, and it cannot be changed any more. -/
theorem changed_once (calls : List UserChange) (groups : List Nat) {earlier later : List IdEntry} {e : IdEntry}
    (h : idHistory (calls.map .change) (root groups) = earlier ++ e :: later) :
    e.Idle ∨ e.Parts groups ∧ ∀ e' ∈ later, e'.after = e.after ∧ e'.ret = QP_ERROR := by
  induction calls generalizing earlier with
  | nil => exact absurd h.symm (List.append_ne_nil_of_right_ne_nil earlier (List.cons_ne_nil e later))
  | cons call calls ih =>
    rw [List.map_cons, idHistory] at h
    rcases call.run_root groups with hidle | ⟨uid, gid, hne, hafter, hparts⟩
    · rw [hidle] at h
      rcases earlier with _ | ⟨first, earlier⟩
      · obtain ⟨rfl, -⟩ := List.cons.inj h
        exact .inl ⟨rfl, rfl⟩
      · exact ih (List.cons.inj h).2
    · -- From here on the process is not root, or its group is not.
      rw [hafter] at h
      have hlocked := @idHistory_locked uid gid groups hne calls
      rcases earlier with _ | ⟨first, earlier⟩
      · obtain ⟨rfl, rfl⟩ := List.cons.inj h
        exact .inr ⟨hparts, fun e' he' => (hlocked e' he').2⟩
      · obtain ⟨hbefore, hsame, hret⟩ := hlocked e ((List.cons.inj h).2 ▸ List.mem_append_right earlier List.mem_cons_self)
        exact .inl ⟨hsame.trans hbefore.symm, hret⟩

/-- The kernel grants the group and not the user: the next call fails although nothing speaks against it. -/
theorem changed_once_half : IdEntry.Idle ⟨user 0 98 [4], .change (.byId true true 99 98), user 0 98 [4], QP_ERROR⟩ := by
  rcases @changed_once [.byId true false 99 98, .byId true true 99 98] [4]
    [⟨root [4], .change (.byId true false 99 98), user 0 98 [4], QP_ERROR⟩] [] _ rfl with h | ⟨⟨h, -⟩, -⟩
  · exact h
  · cases h

end Credentials
end QPHi
