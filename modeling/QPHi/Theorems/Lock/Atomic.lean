import QPHi.Lib.Linear
import QPHi.Theorems.Lock.Run

/-! The lock is linearizable: its threads see what they would see of a lock whose functions are atomic. A call that takes
    the lock takes effect as it gets the spin word or the mutex, and every other call as it returns. -/

namespace QPHi

variable {T : Type}

/-- The functions of a lock. -/
inductive LockOp where
  | enter (call : LockCall)
  | leave
deriving DecidableEq, Repr

/-- What is seen of the threads that use a lock. -/
abbrev LockAction (T : Type) := Linear.Action T LockOp Int

/-- The atomic lock and its threads. -/
abbrev AtomicLock (T : Type) := Linear.Atomic T LockOp Int (Option (T × Nat))

section
variable [DecidableEq T]

/-- A re-entrant lock with atomic functions: what `op` of the thread `t` answers, and who has the lock then, and how often.
    A thread that has it `2 ^ 64` times gets no further, in either direction; nothing is answered to a thread that waits. -/
def atomicLock (spin : Bool) (t : T) : LockOp → Option (T × Nat) → Option (Int × Option (T × Nat))
  | .enter _, none => some (QP_SUCCESS, some (t, 1))
  | .enter call, some (u, d) =>
    if u = t ∧ d < 2 ^ 64 then some (QP_SUCCESS, some (t, d + 1))
    else if call = .trylock ∨ spin = false ∧ u = t then some (QP_ERROR, some (u, d))
    else none
  | .leave, none => some (QP_ERROR, none)
  | .leave, some (u, d) =>
    if u = t ∧ d < 2 ^ 64 then some (QP_SUCCESS, if d = 1 then none else some (t, d - 1))
    else some (QP_ERROR, some (u, d))

def reentrant (spin : Bool) : Linear.Object T LockOp Int (Option (T × Nat)) where
  init := none
  apply t op held r held' := atomicLock spin t op held = some (r, held')

end

namespace LockSystem

/-- What is seen of a step of `t`. -/
def State.action (t : T) (s s' : State T) : Option (LockAction T) :=
  match s.pc t, s'.pc t with
  | none, some (.enter (.loadCounter call)) => some (.call t (.enter call))
  | none, some (.leave _) => some (.call t .leave)
  | some _, none => some (.ret t (s'.result t))
  | _, _ => none

/-- The runs of the threads with what is seen of them. -/
def History [DecidableEq T] (spin : Bool) (ids : Ids T) : List (LockAction T) → State T → Prop :=
  Linear.Run Init fun s e s' => ∃ t, Step spin ids t s s' ∧ e = s.action t s'

/-! ### What the atomic lock is in a state -/

/-- A thread that has got the spin word or the mutex, and has not counted itself yet. -/
def entering : Option Pc → Nat
  | some (.enter .setThread) | some (.enter .setProcess) | some (.enter .count) => 1
  | _ => 0

def State.held (s : State T) : Option (T × Nat) := s.lock.taken.map fun t => (t, s.depth t + entering (s.pc t))

/-- Where a thread is in its call, for a point of the function. -/
def Stands : Option Pc → Linear.Status LockOp Int → Prop
  | none, st => st = .idle
  | some (.enter (.loadCounter call)), st | some (.enter (.loadThread call)), st | some (.enter (.loadProcess call)), st
  | some (.enter (.acquire call)), st => st = .called (.enter call)
  | some (.enter .reenter), st => ∃ call, st = .called (.enter call)
  | some (.enter .setThread), st | some (.enter .setProcess), st | some (.enter .count), st => st = .done QP_SUCCESS
  | some (.leave _), st => st = .called .leave

structure Sim (ids : Ids T) (s : State T) (a : AtomicLock T) : Prop where
  inv : Inv ids s
  held : a.object = s.held
  stands : ∀ t, Stands (s.pc t) (a.status t)
  full : ∀ t call, s.pc t = some (.enter (.acquire call)) → s.lock.taken = some t → s.depth t = 2 ^ 64

variable {spin : Bool} {ids : Ids T} {t u : T} {s s' : State T} {a b : AtomicLock T}
  {q : Option Pc} {st : Linear.Status LockOp Int} {r : Int} {op : LockOp}

theorem held_taken (h : s.lock.taken = some t) : s.held = some (t, s.depth t + entering (s.pc t)) := by
  rw [State.held, h]
  rfl

theorem held_free (h : s.lock.taken = none) : s.held = none := by
  rw [State.held, h]
  rfl

theorem Init.sim (h : Init s) : Sim ids s ⟨none, fun _ => .idle⟩ := by
  refine ⟨h.inv, ?_, fun t => ?_, fun t call hpc => ?_⟩
  · rw [held_free (by rw [h.1]; rfl)]
  · rw [(h.2 t).1]
    rfl
  · rw [(h.2 t).1] at hpc
    cases hpc

section
variable [DecidableEq T]

/-- A step of `t` leaves the other threads where they are, and takes the lock from none of them. -/
structure Only (t : T) (s s' : State T) (q : Option Pc) : Prop where
  pc : s'.pc = Function.update s.pc t q
  depth : ∀ u ≠ t, s'.depth u = s.depth u
  taken : ∀ u ≠ t, s'.lock.taken = some u ↔ s.lock.taken = some u

namespace Only

/-- What the others have is what they had. -/
theorem held_eq (O : Only t s s' q) (hout : s.lock.taken ≠ some t) (hout' : s'.lock.taken ≠ some t) : s'.held = s.held := by
  have htaken : s'.lock.taken = s.lock.taken := by
    refine Option.ext fun u => ?_
    by_cases hut : u = t
    · subst hut
      exact ⟨fun h => absurd h hout', fun h => absurd h hout⟩
    · exact O.taken u hut
  cases hu : s.lock.taken with
  | none => rw [held_free hu, held_free (htaken.trans hu)]
  | some u =>
    have hut : u ≠ t := fun heq => hout (heq ▸ hu)
    rw [held_taken hu, held_taken (htaken.trans hu), O.depth u hut, O.pc, Function.update_of_ne hut]

theorem held_keep (O : Only t s s' q) (htaken : s'.lock.taken = s.lock.taken)
    (hsame : s'.depth t + entering q = s.depth t + entering (s.pc t)) : s'.held = s.held := by
  by_cases ht : s.lock.taken = some t
  · rw [held_taken ht, held_taken (htaken.trans ht), O.pc, Function.update_self, hsame]
  · exact O.held_eq ht fun h => ht (htaken.symm.trans h)

theorem sim (O : Only t s s' q) (M : Sim ids s a) (I : Inv ids s') (hst : Stands q st)
    (hfull : ∀ call, q = some (.enter (.acquire call)) → s'.lock.taken = some t → s'.depth t = 2 ^ 64) :
    Sim ids s' ⟨s'.held, Function.update a.status t st⟩ := by
  refine ⟨I, rfl, fun u => ?_, fun u call hpc htaken => ?_⟩
  · show Stands (s'.pc u) (Function.update a.status t st u)
    rw [O.pc]
    by_cases hut : u = t
    · subst hut
      rw [Function.update_self, Function.update_self]
      exact hst
    · rw [Function.update_of_ne hut, Function.update_of_ne hut]
      exact M.stands u
  · rw [O.pc] at hpc
    by_cases hut : u = t
    · subst hut
      rw [Function.update_self] at hpc
      exact hfull call hpc htaken
    · rw [Function.update_of_ne hut] at hpc
      rw [O.depth u hut]
      exact M.full u call hpc ((O.taken u hut).mp htaken)

end Only

/-- The atomic lock answers the step of `t` that leads to `s'`. -/
def Answers (spin : Bool) (ids : Ids T) (a : AtomicLock T) (e : Option (LockAction T))
    (s' : State T) : Prop :=
  ∃ ms b, Linear.Goes (reentrant spin) a ms b ∧ ms.filterMap Linear.Mark.action? = e.toList ∧ Sim ids s' b

/-- The thread goes on in its call, and the lock is as it was. -/
theorem Only.goes (O : Only t s s' q) (M : Sim ids s a) (I : Inv ids s') (hst : Stands q (a.status t)) (hheld : s'.held = s.held)
    (hfull : ∀ call, q = some (.enter (.acquire call)) → s'.lock.taken = some t → s'.depth t = 2 ^ 64) :
    Answers spin ids a none s' := by
  have h := O.sim M I hst hfull
  rw [Function.update_eq_self, hheld, ← M.held] at h
  exact ⟨[], a, .refl, rfl, h⟩

/-- The call takes effect as it returns. -/
theorem Only.returns (O : Only t s s' none) (M : Sim ids s a) (I : Inv ids s') (hst : a.status t = .called op)
    (happ : atomicLock spin t op s.held = some (r, s'.held)) : Answers spin ids a (some (.ret t r)) s' := by
  refine ⟨_, _, .effect_ret hst ?_, rfl, O.sim M I rfl fun call h => ?_⟩
  · rw [M.held]
    exact happ
  · cases h

/-! ### The steps -/

theorem Sim.call (M : Sim ids s a) (hids : ids.Proper) (hmix : ids.Unmixed) {p : Pc} (hpc : s.pc t = none)
    (hs : Step spin ids t s { s with pc := Function.update s.pc t (some p) }) (hst : Stands (some p) (.called op))
    (hp : entering (some p) = 0 ∧ ∀ call, p ≠ .enter (.acquire call)) :
    Answers spin ids a (some (.call t op)) { s with pc := Function.update s.pc t (some p) } := by
  have O : Only t s { s with pc := Function.update s.pc t (some p) } (some p) := ⟨rfl, fun _ _ => rfl, fun _ _ => Iff.rfl⟩
  have hheld : State.held { s with pc := Function.update s.pc t (some p) } = s.held :=
    O.held_keep rfl (by rw [hp.1, hpc]; rfl)
  have hidle : a.status t = .idle := by
    have h := M.stands t
    rw [hpc] at h
    exact h
  have h := O.sim M (hs.inv hids hmix M.inv) hst fun call h => absurd (Option.some.inj h) (hp.2 call)
  rw [hheld, ← M.held] at h
  exact ⟨_, _, Linear.Goes.refl.call hidle, rfl, h⟩

/-- The state after an access of `t` in `qp_lock_lock` or `qp_lock_trylock`. -/
def State.entered (s : State T) (t : T) (l : Lock T) (o : Outcome LockPc) : State T :=
  { s with
    lock := l
    pc := Function.update s.pc t o.enterPc
    locked := Function.update s.locked t (s.locked t + o.successes)
    result := Function.update s.result t (o.result (s.result t)) }

/-- What is seen of an access. -/
def returned {P : Type} (t : T) : Outcome P → Option (LockAction T)
  | .goto _ => none
  | .ret r => some (.ret t r)

theorem action_entered {p : LockPc} {l : Lock T} {o : Outcome LockPc} (hpc : s.pc t = some (.enter p)) :
    s.action t (s.entered t l o) = returned t o := by
  have hpc' : (s.entered t l o).pc t = o.enterPc := Function.update_self _ _ _
  have hresult : (s.entered t l o).result t = o.result (s.result t) := Function.update_self _ _ _
  unfold State.action
  rw [hpc, hpc', hresult]
  cases o with
  | goto p' => rfl
  | ret r => rfl

theorem depth_entered {l : Lock T} {o : Outcome LockPc} (I : Inv ids s) :
    (s.entered t l o).depth t = s.depth t + o.successes := by
  have hle := I.le t
  simp only [State.depth, State.entered, Function.update_self]
  omega

theorem held_entered {l : Lock T} {o : Outcome LockPc} (I : Inv ids s) (ht : l.taken = some t) :
    (s.entered t l o).held = some (t, s.depth t + o.successes + entering o.enterPc) := by
  rw [held_taken (s := s.entered t l o) ht, depth_entered I]
  show some (t, _ + entering (Function.update s.pc t o.enterPc t)) = _
  rw [Function.update_self]

theorem lockAdvance_taken {p : LockPc} {l l' : Lock T} {o : Outcome LockPc} (hadv : lockAdvance spin ids t l p = some (l', o))
    (hut : u ≠ t) : l'.taken = some u ↔ l.taken = some u := by
  cases p with
  | acquire call =>
    cases htaken : l.taken with
    | none =>
      simp only [lockAdvance, htaken, Option.some.injEq, Prod.mk.injEq] at hadv
      obtain ⟨rfl, rfl⟩ := hadv
      exact ⟨fun h => absurd (Option.some.inj h).symm hut, fun h => by cases h⟩
    | some v =>
      rw [← htaken]
      cases call with
      | trylock =>
        simp only [lockAdvance, htaken, Option.some.injEq, Prod.mk.injEq] at hadv
        rw [hadv.1]
      | lock =>
        simp only [lockAdvance, htaken] at hadv
        split at hadv
        · rw [(Prod.mk.inj (Option.some.inj hadv)).1]
        · split at hadv
          · rw [(Prod.mk.inj (Option.some.inj hadv)).1]
          · cases hadv
  | loadCounter call | loadThread call | loadProcess call =>
    simp only [lockAdvance, Option.some.injEq, Prod.mk.injEq] at hadv
    rw [hadv.1]
  | reenter | setThread | setProcess | count =>
    simp only [lockAdvance, Option.some.injEq, Prod.mk.injEq] at hadv
    rw [← hadv.1]

theorem Sim.enter (M : Sim ids s a) (hids : ids.Proper) (hmix : ids.Unmixed) {p : LockPc} {l : Lock T} {o : Outcome LockPc}
    (hpc : s.pc t = some (.enter p)) (hadv : lockAdvance spin ids t s.lock p = some (l, o)) :
    Answers spin ids a (returned t o) (s.entered t l o) := by
  have hs : Step spin ids t s (s.entered t l o) := .enter hpc hadv
  have I : Inv ids (s.entered t l o) := hs.inv hids hmix M.inv
  have O : Only t s (s.entered t l o) o.enterPc :=
    ⟨rfl, fun u hut => by simp only [State.depth, State.entered, Function.update_of_ne hut],
      fun u hut => lockAdvance_taken hadv hut⟩
  have hd := depth_entered (t := t) (l := l) (o := o) M.inv
  have hst := M.stands t
  have hout : s.lock.taken ≠ some t → Outside ids t (some (.enter p)) := fun ht => hpc ▸ (M.inv.lock.outside t ht).2
  have hown : s.lock.taken = some t → OwnerAt ids t s.lock (s.depth t) (some (.enter p)) :=
    fun ht => hpc ▸ M.inv.lock.owner t ht
  rw [hpc] at hst
  have hgoes : ∀ {p'}, l.taken = s.lock.taken → o = .goto p' → entering (some (.enter p')) = entering (some (.enter p)) →
      Stands (some (.enter p')) (a.status t) →
      (∀ call, p' = .acquire call → s.lock.taken = some t → s.depth t = 2 ^ 64) →
      Answers spin ids a (returned t o) (s.entered t l o) := by
    rintro p' hl rfl hsame hst' hfull
    refine O.goes M I hst' (O.held_keep hl ?_) fun call hc ht => ?_
    · rw [hd, hpc]
      exact congrArg (s.depth t + ·) hsame
    · rw [hd]
      exact hfull call (Pc.enter.inj (Option.some.inj hc)) (hl.symm.trans ht)
  cases p with
  | loadCounter call =>
    by_cases hzero : s.lock.holdCounter ≠ 0
    · simp only [lockAdvance, if_pos hzero, Option.some.injEq, Prod.mk.injEq] at hadv
      exact hgoes (congrArg Lock.taken hadv.1.symm) hadv.2.symm rfl hst fun c hc => by cases hc
    · simp only [lockAdvance, if_neg hzero, Option.some.injEq, Prod.mk.injEq] at hadv
      refine hgoes (congrArg Lock.taken hadv.1.symm) hadv.2.symm rfl hst fun c _ ht => ?_
      -- Only a full counter is zero here.
      obtain ⟨⟨-, -, hcounter⟩, hd₁, hd₂⟩ := hown ht
      omega
  | loadThread call =>
    by_cases hself : s.lock.holdThread = ids.thread t
    · simp only [lockAdvance, if_pos hself, Option.some.injEq, Prod.mk.injEq] at hadv
      exact hgoes (congrArg Lock.taken hadv.1.symm) hadv.2.symm rfl hst fun c hc => by cases hc
    · simp only [lockAdvance, if_neg hself, Option.some.injEq, Prod.mk.injEq] at hadv
      exact hgoes (congrArg Lock.taken hadv.1.symm) hadv.2.symm rfl hst fun c _ ht => absurd (hown ht).1.1 hself
  | loadProcess call =>
    by_cases hself : s.lock.holdProcess = ids.process t
    · simp only [lockAdvance, if_pos hself, Option.some.injEq, Prod.mk.injEq] at hadv
      exact hgoes (congrArg Lock.taken hadv.1.symm) hadv.2.symm rfl ⟨call, hst⟩ fun c hc => by cases hc
    · simp only [lockAdvance, if_neg hself, Option.some.injEq, Prod.mk.injEq] at hadv
      exact hgoes (congrArg Lock.taken hadv.1.symm) hadv.2.symm rfl hst fun c _ ht => absurd (hown ht).1.2.1 hself
  | reenter =>
    by_cases ht : s.lock.taken = some t
    · obtain ⟨call, hst⟩ := hst
      obtain ⟨-, -, hd₂⟩ := hown ht
      simp only [lockAdvance, Option.some.injEq, Prod.mk.injEq] at hadv
      obtain ⟨hl, rfl⟩ := hadv
      have ht' : l.taken = some t := by
        rw [← hl]
        exact ht
      refine O.returns M I hst ?_
      rw [held_taken ht, hpc, held_entered M.inv ht']
      exact if_pos ⟨rfl, hd₂⟩
    · exact (hout ht).elim
  | acquire call =>
    cases htaken : s.lock.taken with
    | none =>
      simp only [lockAdvance, htaken, Option.some.injEq, Prod.mk.injEq] at hadv
      obtain ⟨rfl, rfl⟩ := hadv
      refine ⟨_, _, Linear.Goes.refl.effect hst ?_, rfl, O.sim M I rfl fun c hc => ?_⟩
      · have hfree : s.lock.taken ≠ some t := fun h => by rw [htaken] at h; cases h
        have hheld := held_entered (t := t) (o := .goto .setThread) M.inv (l := { s.lock with taken := some t }) rfl
        rw [(M.inv.lock.outside t hfree).1] at hheld
        rw [M.held, held_free htaken, hheld]
        rfl
      · cases hc
    | some u =>
      have hheld : s.held = some (u, s.depth u + entering (s.pc u)) := held_taken htaken
      have hfull : ¬(u = t ∧ s.depth u + entering (s.pc u) < 2 ^ 64) := by
        rintro ⟨rfl, hlt⟩
        rw [M.full u call hpc htaken] at hlt
        omega
      cases call with
      | trylock =>
        simp only [lockAdvance, htaken, Option.some.injEq, Prod.mk.injEq] at hadv
        obtain ⟨rfl, rfl⟩ := hadv
        refine O.returns M I hst ?_
        rw [O.held_keep rfl (by rw [hd, hpc]; rfl), hheld, atomicLock, if_neg hfull, if_pos (.inl rfl)]
      | lock =>
        by_cases hspin : spin = true
        · simp only [lockAdvance, htaken, if_pos hspin, Option.some.injEq, Prod.mk.injEq] at hadv
          exact hgoes (congrArg Lock.taken hadv.1.symm) hadv.2.symm rfl hst fun c _ ht => M.full t .lock hpc ht
        · by_cases hut : u = t
          · simp only [lockAdvance, htaken, if_neg hspin, if_pos hut, Option.some.injEq, Prod.mk.injEq] at hadv
            obtain ⟨rfl, rfl⟩ := hadv
            refine O.returns M I hst ?_
            rw [O.held_keep rfl (by rw [hd, hpc]; rfl), hheld, atomicLock, if_neg hfull,
              if_pos (.inr ⟨Bool.not_eq_true _ ▸ hspin, hut⟩)]
          · simp only [lockAdvance, htaken, if_neg hspin, if_neg hut] at hadv
            cases hadv
  | setThread =>
    simp only [lockAdvance, Option.some.injEq, Prod.mk.injEq] at hadv
    exact hgoes (by rw [← hadv.1]) hadv.2.symm rfl hst fun c hc => by cases hc
  | setProcess =>
    simp only [lockAdvance, Option.some.injEq, Prod.mk.injEq] at hadv
    exact hgoes (by rw [← hadv.1]) hadv.2.symm rfl hst fun c hc => by cases hc
  | count =>
    simp only [lockAdvance, Option.some.injEq, Prod.mk.injEq] at hadv
    obtain ⟨rfl, rfl⟩ := hadv
    have hheld : (s.entered t _ _).held = s.held := O.held_keep rfl (by rw [hd, hpc]; rfl)
    have hsim := O.sim M I rfl fun c hc => by cases hc
    rw [hheld, ← M.held] at hsim
    exact ⟨_, _, Linear.Goes.refl.ret hst, rfl, hsim⟩

/-- The state after an access of `t` in `qp_lock_unlock`. -/
def State.left (s : State T) (t : T) (l : Lock T) (o : Outcome UnlockPc) : State T :=
  { s with
    lock := l
    pc := Function.update s.pc t o.leavePc
    unlocked := Function.update s.unlocked t (s.unlocked t + o.successes)
    result := Function.update s.result t (o.result (s.result t)) }

theorem action_left {p : UnlockPc} {l : Lock T} {o : Outcome UnlockPc} (hpc : s.pc t = some (.leave p)) :
    s.action t (s.left t l o) = returned t o := by
  have hpc' : (s.left t l o).pc t = o.leavePc := Function.update_self _ _ _
  have hresult : (s.left t l o).result t = o.result (s.result t) := Function.update_self _ _ _
  unfold State.action
  rw [hpc, hpc', hresult]
  cases o with
  | goto p' => rfl
  | ret r => rfl

theorem depth_left {l : Lock T} {o : Outcome UnlockPc} : (s.left t l o).depth t = s.depth t - o.successes := by
  simp only [State.depth, State.left, Function.update_self]
  omega

theorem Sim.leave (M : Sim ids s a) (hids : ids.Proper) (hmix : ids.Unmixed) {p : UnlockPc} {l : Lock T} {o : Outcome UnlockPc}
    (hpc : s.pc t = some (.leave p)) (hadv : unlockAdvance spin ids t s.lock p = (l, o)) :
    Answers spin ids a (returned t o) (s.left t l o) := by
  have hs : Step spin ids t s (s.left t l o) := .leave hpc hadv
  have I : Inv ids (s.left t l o) := hs.inv hids hmix M.inv
  have hd := depth_left (s := s) (t := t) (l := l) (o := o)
  have hst := M.stands t
  rw [hpc] at hst
  have hdepth : ∀ u ≠ t, (s.left t l o).depth u = s.depth u := fun u hut => by
    simp only [State.depth, State.left, Function.update_of_ne hut]
  by_cases ht : s.lock.taken = some t
  · have H : OwnerAt ids t s.lock (s.depth t) (some (.leave p)) := hpc ▸ M.inv.lock.owner t ht
    have htaken : ∀ u ≠ t, l.taken = some u ↔ s.lock.taken = some u := by
      intro u hut
      refine ⟨fun h => ?_, fun h => absurd (Option.some.inj (h.symm.trans ht)) hut⟩
      rcases H.unlockAdvance ht hadv with ⟨ht', -⟩ | ⟨ht', -⟩
      · exact absurd (Option.some.inj (h.symm.trans ht')) hut
      · rw [ht'] at h
        cases h
    have O : Only t s (s.left t l o) o.leavePc := ⟨rfl, hdepth, htaken⟩
    have hheld : s.held = some (t, s.depth t) := by
      rw [held_taken ht, hpc]
      rfl
    have hgoes : ∀ {p'}, l.taken = s.lock.taken → o = .goto p' → Answers spin ids a (returned t o) (s.left t l o) := by
      rintro p' hl rfl
      refine O.goes M I hst (O.held_keep hl ?_) fun call hc => by cases hc
      rw [hd, hpc]
      rfl
    cases p with
    | loadCounter =>
      by_cases hzero : s.lock.holdCounter < 1
      · simp only [unlockAdvance, if_pos hzero, Prod.mk.injEq] at hadv
        obtain ⟨rfl, rfl⟩ := hadv
        refine O.returns M I hst ?_
        rw [O.held_keep rfl (by rw [hd, hpc]; rfl), hheld]
        -- Only a full counter is zero here.
        obtain ⟨⟨-, -, hcounter⟩, hd₁, hd₂⟩ := H
        have hfull : ¬(t = t ∧ s.depth t < 2 ^ 64) := fun h => by omega
        exact if_neg hfull
      · simp only [unlockAdvance, if_neg hzero, Prod.mk.injEq] at hadv
        exact hgoes (congrArg Lock.taken hadv.1.symm) hadv.2.symm
    | loadThread =>
      simp only [unlockAdvance, if_pos H.1.1, Prod.mk.injEq] at hadv
      exact hgoes (congrArg Lock.taken hadv.1.symm) hadv.2.symm
    | loadProcess =>
      simp only [unlockAdvance, if_pos H.1.2.1, Prod.mk.injEq] at hadv
      exact hgoes (congrArg Lock.taken hadv.1.symm) hadv.2.symm
    | uncount | clearThread | clearProcess =>
      simp only [unlockAdvance, Prod.mk.injEq] at hadv
      exact hgoes (by rw [← hadv.1]) hadv.2.symm
    | recheck =>
      obtain ⟨⟨-, -, hcounter⟩, hd₁, hd₂⟩ := H
      by_cases hmore : s.lock.holdCounter ≠ 0
      · simp only [unlockAdvance, if_pos hmore, Prod.mk.injEq] at hadv
        obtain ⟨rfl, rfl⟩ := hadv
        refine O.returns M I hst ?_
        rw [hheld, held_taken (s := s.left t s.lock _) ht, hd, O.pc, Function.update_self]
        refine (if_pos ⟨rfl, hd₂⟩).trans ?_
        rw [if_neg (by omega)]
        rfl
      · simp only [unlockAdvance, if_neg hmore, Prod.mk.injEq] at hadv
        exact hgoes (congrArg Lock.taken hadv.1.symm) hadv.2.symm
    | release =>
      obtain ⟨-, hone⟩ := H
      simp only [unlockAdvance, ht, Option.isSome_some, ↓reduceIte, ite_self, Prod.mk.injEq] at hadv
      obtain ⟨rfl, rfl⟩ := hadv
      refine O.returns M I hst ?_
      rw [hheld, held_free (s := s.left t _ _) rfl, hone]
      exact if_pos ⟨rfl, by decide⟩
  · obtain ⟨rfl, -, ho⟩ := M.inv.lock.unlockAdvance_outside hids hmix ht hpc hadv
    have O : Only t s (s.left t s.lock o) o.leavePc := ⟨rfl, hdepth, fun _ _ => Iff.rfl⟩
    rcases ho with rfl | ⟨p', rfl⟩
    · refine O.returns M I hst ?_
      rw [O.held_eq ht ht]
      cases hu : s.lock.taken with
      | none =>
        rw [held_free hu]
        rfl
      | some u =>
        have hother : ¬(u = t ∧ s.depth u + entering (s.pc u) < 2 ^ 64) := fun h => ht (h.1 ▸ hu)
        rw [held_taken hu]
        exact if_neg hother
    · exact O.goes M I hst (O.held_eq ht ht) fun call hc => by cases hc

theorem Sim.step (M : Sim ids s a) (hids : ids.Proper) (hmix : ids.Unmixed) (hs : Step spin ids t s s') :
    Answers spin ids a (s.action t s') s' := by
  cases hs with
  | lock call hpc =>
    have h : Answers spin ids a (some (.call t (.enter call))) _ :=
      M.call hids hmix hpc (.lock call hpc) rfl ⟨rfl, fun c hc => by cases hc⟩
    rw [State.action, hpc]
    simp only [Function.update_self]
    exact h
  | unlock hpc =>
    have h : Answers spin ids a (some (.call t .leave)) _ :=
      M.call hids hmix hpc (.unlock hpc) rfl ⟨rfl, fun c hc => by cases hc⟩
    rw [State.action, hpc]
    simp only [Function.update_self]
    exact h
  | enter hpc hadv =>
    have h := M.enter hids hmix hpc hadv
    rw [← action_entered hpc] at h
    exact h
  | leave hpc hadv =>
    have h := M.leave hids hmix hpc hadv
    rw [← action_left hpc] at h
    exact h

/-! ### Histories -/

theorem history_linearizable {h : List (LockAction T)} (hids : ids.Proper) (hmix : ids.Unmixed)
    (run : History spin ids h s) : Linear.Linearizable (reentrant spin) h := by
  refine Linear.Run.linearizable (Sim ids) (fun s h₀ => h₀.sim) (fun M hs => ?_) run
  obtain ⟨t, hs, rfl⟩ := hs
  exact M.step hids hmix hs

theorem History.reachable {h : List (LockAction T)} (run : History spin ids h s) : Reachable spin ids s := by
  induction run with
  | start h₀ => exact .start h₀
  | tail _ hs ih =>
    obtain ⟨t, hs, -⟩ := hs
    exact ih.tail ⟨t, hs⟩

theorem History.call {h : List (LockAction T)} (run : History spin ids h s) (t : T) (call : LockCall) (hpc : s.pc t = none) :
    History spin ids (h ++ [.call t (.enter call)])
      { s with pc := Function.update s.pc t (some (.enter (.loadCounter call))) } := by
  refine run.tail (e := some _) ⟨t, .lock call hpc, ?_⟩
  rw [State.action, hpc]
  simp only [Function.update_self]

theorem History.enter {h : List (LockAction T)} (run : History spin ids h s) (t : T) {p : LockPc} {l : Lock T}
    {o : Outcome LockPc} (hpc : s.pc t = some (.enter p)) (hadv : lockAdvance spin ids t s.lock p = some (l, o)) :
    History spin ids (h ++ (returned t o).toList) (s.entered t l o) :=
  run.tail ⟨t, .enter hpc hadv, (action_entered hpc).symm⟩

/-- A thread takes the lock, and another one finds it taken. -/
theorem history_linearizable_taken : Linear.Linearizable (reentrant true)
    [.call (0 : Fin 2) (.enter .lock), .ret 0 QP_SUCCESS, .call 1 (.enter .trylock), .ret 1 QP_ERROR] := by
  have h₀ : History true twoThreads [] ⟨Lock.init (Fin 2), fun _ => none, fun _ => 0, fun _ => 0, fun _ => 0⟩ :=
    .start ⟨rfl, fun _ => ⟨rfl, rfl, rfl⟩⟩
  have h₁ := ((((((h₀.call 0 .lock rfl).enter 0 rfl rfl).enter 0 rfl rfl).enter 0 rfl rfl).enter 0 rfl rfl).enter 0 rfl rfl)
  have h₂ := (((h₁.call 1 .trylock rfl).enter 1 rfl rfl).enter 1 rfl rfl).enter 1 rfl rfl
  exact history_linearizable twoThreads_proper (Ids.unmixed_of_injective twoThreads_injective) h₂

end

end LockSystem

end QPHi
