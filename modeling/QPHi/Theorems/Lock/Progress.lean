import QPHi.Theorems.Lock.Atomic

/-! No history of the lock leaves a thread stuck: a thread that runs alone returns from its call, unless it waits in
    `qp_lock_lock` for a lock that it cannot get. -/

namespace QPHi

/-- The points of `qp_lock_lock` at which a thread has neither got the lock nor found that it has it already. -/
def Pc.Locking : Pc → Prop
  | .enter (.loadCounter .lock) | .enter (.loadThread .lock) | .enter (.loadProcess .lock) | .enter (.acquire .lock) => True
  | _ => False

/-- How many accesses of its own a call needs at most. -/
def Pc.rank : Pc → Nat
  | .enter (.loadCounter _) => 7
  | .enter (.loadThread _) => 6
  | .enter (.loadProcess _) => 5
  | .enter (.acquire _) => 4
  | .enter .setThread => 3
  | .enter .setProcess => 2
  | .enter .count | .enter .reenter => 1
  | .leave .loadCounter => 8
  | .leave .loadThread => 7
  | .leave .loadProcess => 6
  | .leave .uncount => 5
  | .leave .recheck => 4
  | .leave .clearThread => 3
  | .leave .clearProcess => 2
  | .leave .release => 1

namespace LockSystem

/-- The thread `t` is in `qp_lock_lock`, and another thread has the lock, or it has the spin lock itself as often as the
    counter can count. -/
def State.Waits {T : Type} (spin : Bool) (s : State T) (t : T) : Prop :=
  (∃ q, s.pc t = some q ∧ q.Locking) ∧ ∃ u, s.lock.taken = some u ∧ (u ≠ t ∨ spin = true ∧ s.depth t = 2 ^ 64)

variable {T : Type} [DecidableEq T] {spin : Bool} {ids : Ids T} {t u : T} {s s' : State T}
  {a : AtomicLock T}

theorem Reachable.sim (hids : ids.Proper) (hmix : ids.Unmixed) (h : Reachable spin ids s) : ∃ a, Sim ids s a := by
  refine @Trans.Reachable.invariant _ _ _ s (fun s => ∃ a, Sim ids s a) h (fun s h₀ => ⟨_, h₀.sim⟩) ?_
  rintro s s' ⟨a, M⟩ ⟨t, hs⟩
  obtain ⟨-, b, -, -, M'⟩ := M.step hids hmix hs
  exact ⟨b, M'⟩

theorem waits_entered {p' : LockPc} {l : Lock T} (I : Inv ids s) (hl : l.taken = s.lock.taken) :
    (s.entered t l (.goto p')).Waits spin t ↔ Pc.Locking (.enter p') ∧
      ∃ u, s.lock.taken = some u ∧ (u ≠ t ∨ spin = true ∧ s.depth t = 2 ^ 64) := by
  have hpc : (s.entered t l (.goto p')).pc t = some (.enter p') := Function.update_self _ _ _
  have hd : (s.entered t l (.goto p')).depth t = s.depth t := depth_entered I
  rw [State.Waits, hpc, hd]
  show _ ∧ (∃ u, l.taken = some u ∧ _) ↔ _
  rw [hl]
  exact and_congr_left fun _ => ⟨fun ⟨q, hq, hlocking⟩ => Option.some.inj hq ▸ hlocking, fun h => ⟨_, rfl, h⟩⟩

/-! ### A thread that does not wait -/

/-- The thread `t` returns with its next access, or it comes closer to that. -/
def Nears (spin : Bool) (ids : Ids T) (t : T) (s : State T) (q : Pc) : Prop :=
  ∃ s', Step spin ids t s s' ∧ (s'.pc t = none ∨ ∃ q', s'.pc t = some q' ∧ q'.rank < q.rank ∧ ¬s'.Waits spin t)

theorem nears_ret {p : LockPc} {l : Lock T} {r : Int} (hpc : s.pc t = some (.enter p))
    (hadv : lockAdvance spin ids t s.lock p = some (l, .ret r)) : Nears spin ids t s (.enter p) :=
  ⟨s.entered t l (.ret r), .enter hpc hadv, .inl (Function.update_self _ _ _)⟩

theorem nears_goto {p p' : LockPc} {l : Lock T} (I : Inv ids s) (hpc : s.pc t = some (.enter p))
    (hadv : lockAdvance spin ids t s.lock p = some (l, .goto p')) (hl : l.taken = s.lock.taken)
    (hrank : Pc.rank (.enter p') < Pc.rank (.enter p)) (hlocking : Pc.Locking (.enter p') → Pc.Locking (.enter p))
    (hwaits : ¬s.Waits spin t) : Nears spin ids t s (.enter p) := by
  refine ⟨s.entered t l (.goto p'), .enter hpc hadv, .inr ⟨_, Function.update_self _ _ _, hrank, fun h => hwaits ?_⟩⟩
  obtain ⟨hat, htaken⟩ := (waits_entered I hl).mp h
  exact ⟨⟨_, hpc, hlocking hat⟩, htaken⟩

theorem Sim.nears_enter {p : LockPc} (M : Sim ids s a) (hpc : s.pc t = some (.enter p)) (hwaits : ¬s.Waits spin t) :
    Nears spin ids t s (.enter p) := by
  have hgoes : ∀ p', lockAdvance spin ids t s.lock p = some (s.lock, .goto p') →
      Pc.rank (.enter p') < Pc.rank (.enter p) → (Pc.Locking (.enter p') → Pc.Locking (.enter p)) →
      Nears spin ids t s (.enter p) :=
    fun _ hadv hrank hlocking => nears_goto M.inv hpc hadv rfl hrank hlocking hwaits
  cases p with
  | loadCounter call =>
    by_cases hzero : s.lock.holdCounter ≠ 0
    · refine hgoes (.loadThread call) ?_ (by simp [Pc.rank]) ?_
      · rw [lockAdvance, if_pos hzero]
      · cases call <;> exact id
    · refine hgoes (.acquire call) ?_ (by simp [Pc.rank]) ?_
      · rw [lockAdvance, if_neg hzero]
      · cases call <;> exact id
  | loadThread call =>
    by_cases hself : s.lock.holdThread = ids.thread t
    · refine hgoes (.loadProcess call) ?_ (by simp [Pc.rank]) ?_
      · rw [lockAdvance, if_pos hself]
      · cases call <;> exact id
    · refine hgoes (.acquire call) ?_ (by simp [Pc.rank]) ?_
      · rw [lockAdvance, if_neg hself]
      · cases call <;> exact id
  | loadProcess call =>
    by_cases hself : s.lock.holdProcess = ids.process t
    · refine hgoes .reenter ?_ (by simp [Pc.rank]) fun h => h.elim
      rw [lockAdvance, if_pos hself]
    · refine hgoes (.acquire call) ?_ (by simp [Pc.rank]) ?_
      · rw [lockAdvance, if_neg hself]
      · cases call <;> exact id
  | reenter => exact nears_ret hpc rfl
  | acquire call =>
    cases htaken : s.lock.taken with
    | none =>
      have hadv : lockAdvance spin ids t s.lock (.acquire call) = some ({ s.lock with taken := some t }, .goto .setThread) := by
        simp only [lockAdvance, htaken]
      refine ⟨s.entered t _ _, .enter hpc hadv, .inr ⟨_, Function.update_self _ _ _, by simp [Pc.rank], ?_⟩⟩
      rintro ⟨⟨q, hq, hlocking⟩, -⟩
      obtain rfl := Option.some.inj ((Function.update_self t _ s.pc).symm.trans hq)
      exact hlocking
    | some u =>
      cases call with
      | trylock =>
        refine nears_ret (l := s.lock) (r := QP_ERROR) hpc ?_
        simp only [lockAdvance, htaken]
      | lock =>
        -- A thread that has the lock comes here with a full counter, and then only the mutex says so.
        have hown : u = t := by
          by_contra hut
          exact hwaits ⟨⟨_, hpc, trivial⟩, u, htaken, .inl hut⟩
        have hmutex : ¬spin = true := fun hspin =>
          hwaits ⟨⟨_, hpc, trivial⟩, u, htaken, .inr ⟨hspin, M.full t .lock hpc (hown ▸ htaken)⟩⟩
        refine nears_ret (l := s.lock) (r := QP_ERROR) hpc ?_
        simp only [lockAdvance, htaken, if_neg hmutex, if_pos hown]
  | setThread => exact nears_goto M.inv hpc rfl rfl (by simp [Pc.rank]) id hwaits
  | setProcess => exact nears_goto M.inv hpc rfl rfl (by simp [Pc.rank]) id hwaits
  | count => exact nears_ret hpc rfl

theorem unlockAdvance_rank {p p' : UnlockPc} {l l' : Lock T} (hadv : unlockAdvance spin ids t l p = (l', .goto p')) :
    Pc.rank (.leave p') < Pc.rank (.leave p) := by
  cases p with
  | loadCounter | loadThread | loadProcess | recheck =>
    simp only [unlockAdvance, Prod.mk.injEq] at hadv
    obtain ⟨-, ho⟩ := hadv
    split at ho <;> cases ho
    simp [Pc.rank]
  | uncount | clearThread | clearProcess =>
    cases hadv
    simp [Pc.rank]
  | release =>
    simp only [unlockAdvance] at hadv
    split at hadv <;> split at hadv <;> cases hadv

theorem nears_leave {p : UnlockPc} (hpc : s.pc t = some (.leave p)) : Nears spin ids t s (.leave p) := by
  cases hadv : unlockAdvance spin ids t s.lock p with
  | mk l o =>
    refine ⟨s.left t l o, .leave hpc hadv, ?_⟩
    cases o with
    | ret r => exact .inl (Function.update_self _ _ _)
    | goto p' =>
      refine .inr ⟨_, Function.update_self _ _ _, unlockAdvance_rank hadv, ?_⟩
      rintro ⟨⟨q, hq, hlocking⟩, -⟩
      obtain rfl := Option.some.inj ((Function.update_self t _ s.pc).symm.trans hq)
      exact hlocking

theorem returns_alone (hids : ids.Proper) (hmix : ids.Unmixed) (h : Reachable spin ids s) (hwaits : ¬s.Waits spin t) :
    ∃ s', Relation.ReflTransGen (Step spin ids t) s s' ∧ s'.pc t = none := by
  cases hpc : s.pc t with
  | none => exact ⟨s, .refl, hpc⟩
  | some q =>
    induction hn : q.rank using Nat.strongRecOn generalizing s q with
    | _ n ih =>
      subst hn
      have hnears : Nears spin ids t s q := by
        cases q with
        | enter p =>
          obtain ⟨a, M⟩ := h.sim hids hmix
          exact M.nears_enter hpc hwaits
        | leave p => exact nears_leave hpc
      obtain ⟨s', hs, hnone | ⟨q', hpc', hrank, hwaits'⟩⟩ := hnears
      · exact ⟨s', .single hs, hnone⟩
      · obtain ⟨s'', hrun, hnone⟩ := ih _ hrank (h.tail ⟨t, hs⟩) hwaits' _ hpc' rfl
        exact ⟨s'', .head hs hrun, hnone⟩

/-! ### A thread that waits -/

theorem Sim.waits_step (M : Sim ids s a) (hids : ids.Proper) (hmix : ids.Unmixed) (hwaits : s.Waits spin t)
    (hs : Step spin ids t s s') : s'.Waits spin t := by
  obtain ⟨⟨q, hq, hlocking⟩, hheld⟩ := hwaits
  cases hs with
  | lock call hpc | unlock hpc =>
    rw [hq] at hpc
    cases hpc
  | leave hpc hadv =>
    obtain rfl := Option.some.inj (hq.symm.trans hpc)
    exact hlocking.elim
  | @enter p l o hpc hadv =>
    obtain rfl := Option.some.inj (hq.symm.trans hpc)
    have hgoes : ∀ {p'}, l = s.lock → o = .goto p' → Pc.Locking (.enter p') → (s.entered t l o).Waits spin t := by
      rintro p' rfl rfl hat
      exact (waits_entered M.inv rfl).mpr ⟨hat, hheld⟩
    obtain ⟨u, htaken, hu⟩ := hheld
    cases p with
    | loadCounter call | loadThread call =>
      cases call with
      | trylock => exact hlocking.elim
      | lock =>
        simp only [lockAdvance, Option.some.injEq, Prod.mk.injEq] at hadv
        refine hgoes hadv.1.symm hadv.2.symm ?_
        split <;> trivial
    | loadProcess call =>
      cases call with
      | trylock => exact hlocking.elim
      | lock =>
        by_cases hself : s.lock.holdProcess = ids.process t
        · -- It would have the lock, and less often than the counter can count.
          exfalso
          by_cases ht : s.lock.taken = some t
          · have H := M.inv.lock.owner t ht
            rw [hpc] at H
            rcases hu with hut | ⟨-, hfull⟩
            · exact hut (Option.some.inj (htaken.symm.trans ht))
            · exact absurd hfull (Nat.ne_of_lt H.2.2)
          · have hout := (M.inv.lock.outside t ht).2
            rw [hpc] at hout
            exact M.inv.lock.process_foreign hids hmix ht hout hself
        · simp only [lockAdvance, if_neg hself, Option.some.injEq, Prod.mk.injEq] at hadv
          exact hgoes hadv.1.symm hadv.2.symm trivial
    | acquire call =>
      cases call with
      | trylock => exact hlocking.elim
      | lock =>
        simp only [lockAdvance, htaken] at hadv
        by_cases hspin : spin = true
        · simp only [if_pos hspin, Option.some.injEq, Prod.mk.injEq] at hadv
          exact hgoes hadv.1.symm hadv.2.symm trivial
        · rcases hu with hut | ⟨hspin', -⟩
          · simp only [if_neg hspin, if_neg hut] at hadv
            cases hadv
          · exact absurd hspin' hspin
    | reenter | setThread | setProcess | count => exact hlocking.elim

/-- A thread in a call returns from it when it runs alone, exactly when it does not wait. -/
theorem returns_alone_iff (hids : ids.Proper) (hmix : ids.Unmixed) (h : Reachable spin ids s) :
    (∃ s', Relation.ReflTransGen (Step spin ids t) s s' ∧ s'.pc t = none) ↔ ¬s.Waits spin t := by
  refine ⟨fun ⟨s', hrun, hnone⟩ hwaits => ?_, returns_alone hids hmix h⟩
  have hstill : Reachable spin ids s' ∧ s'.Waits spin t := by
    clear hnone
    induction hrun with
    | refl => exact ⟨h, hwaits⟩
    | tail _ hs ih =>
      obtain ⟨a, M⟩ := ih.1.sim hids hmix
      exact ⟨ih.1.tail ⟨t, hs⟩, M.waits_step hids hmix ih.2 hs⟩
  obtain ⟨⟨q, hq, -⟩, -⟩ := hstill.2
  rw [hnone] at hq
  cases hq

/-- A thread has the lock, and another one waits for it. -/
theorem returns_alone_iff_taken : ∃ s : State (Fin 2), Reachable false twoThreads s ∧ s.lock.taken = some 0 ∧
    s.pc 1 = some (.enter (.loadCounter .lock)) ∧
      ¬∃ s', Relation.ReflTransGen (Step false twoThreads 1) s s' ∧ s'.pc 1 = none := by
  have h₀ : History false twoThreads [] ⟨Lock.init (Fin 2), fun _ => none, fun _ => 0, fun _ => 0, fun _ => 0⟩ :=
    .start ⟨rfl, fun _ => ⟨rfl, rfl, rfl⟩⟩
  have h₁ := (((h₀.call 0 .lock rfl).enter 0 rfl rfl).enter 0 rfl rfl).call 1 .lock rfl
  refine ⟨_, h₁.reachable, rfl, rfl, fun hrun => ?_⟩
  have hmix : twoThreads.Unmixed := Ids.unmixed_of_injective twoThreads_injective
  exact (returns_alone_iff twoThreads_proper hmix h₁.reachable).mp hrun ⟨⟨_, rfl, trivial⟩, 0, rfl, .inl (by decide)⟩

end LockSystem

end QPHi
