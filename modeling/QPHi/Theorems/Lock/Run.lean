import QPHi.Theorems.Lock.Invariant

/-! Every interleaving of the threads that share a lock keeps the invariant; and the runs of a thread that
    nobody disturbs. -/

namespace QPHi.LockSystem

variable {T : Type} {spin : Bool} {ids : Ids T} {t u : T} {s s' : State T}

/-! ### The invariant along a run -/

structure Inv (ids : Ids T) (s : State T) : Prop where
  lock : LockInv ids s.lock.taken s.lock s.pc s.depth
  le : ∀ t, s.unlocked t ≤ s.locked t

theorem Init.inv (h : Init s) : Inv ids s := by
  obtain ⟨hl, h⟩ := h
  refine ⟨⟨fun _ => ?_, fun t ht => ?_, fun t _ => ⟨?_, ?_⟩⟩, fun t => ?_⟩
  · rw [hl]
    exact ⟨rfl, rfl, rfl⟩
  · rw [hl] at ht
    cases ht
  · rw [State.depth, (h t).2.1, Nat.zero_sub]
  · rw [(h t).1]
    trivial
  · rw [(h t).2.2]
    exact Nat.zero_le _

variable [DecidableEq T]

/-- A thread that calls a lock function has done nothing yet. -/
theorem Inv.call (I : Inv ids s) {q : Pc} (hpc : s.pc t = none)
    (hq : (∃ call, q = .enter (.loadCounter call)) ∨ q = .leave .loadCounter) :
    Inv ids { s with pc := Function.update s.pc t (some q) } := by
  refine ⟨?_, I.le⟩
  by_cases ht : s.lock.taken = some t
  · have H := I.lock.owner t ht
    rw [hpc] at H
    have H' : OwnerAt ids t s.lock (s.depth t) (some q) := by
      rcases hq with ⟨call, rfl⟩ | rfl
      · exact H
      · exact H
    have K := I.lock.hold (.inr ht) H'
    rw [Function.update_eq_self] at K
    show LockInv ids s.lock.taken s.lock _ s.depth
    rw [ht]
    exact K
  · have hq' : Outside ids t (some q) := by
      rcases hq with ⟨call, rfl⟩ | rfl
      · trivial
      · trivial
    have K := I.lock.roam ht hq'
    rw [← (I.lock.outside t ht).1, Function.update_eq_self] at K
    exact K

theorem Inv.enter (I : Inv ids s) (hids : ids.Proper) (hmix : ids.Unmixed) {p : LockPc} {l : Lock T}
    {o : Outcome LockPc} {r : T → Int} (hpc : s.pc t = some (.enter p))
    (hadv : lockAdvance spin ids t s.lock p = some (l, o)) :
    Inv ids ⟨l, Function.update s.pc t o.enterPc, Function.update s.locked t (s.locked t + o.successes),
      s.unlocked, r⟩ := by
  have hle := I.le t
  refine ⟨?_, fun u => ?_⟩
  · have hdepth : State.depth ⟨l, Function.update s.pc t o.enterPc,
        Function.update s.locked t (s.locked t + o.successes), s.unlocked, r⟩ =
        Function.update s.depth t (s.depth t + o.successes) := by
      funext u
      by_cases hut : u = t
      · subst hut
        simp only [State.depth, Function.update_self]
        omega
      · simp only [State.depth, Function.update_of_ne hut]
    rw [hdepth]
    by_cases ht : s.lock.taken = some t
    · have H := I.lock.owner t ht
      rw [hpc] at H
      obtain ⟨ht', H'⟩ := H.lockAdvance ht hadv
      simpa only [ht'] using I.lock.hold (.inr ht) H'
    · rcases I.lock.lockAdvance_outside hids hmix ht hpc hadv with ⟨rfl, ho, hq⟩ | ⟨hfree, -, rfl, rfl⟩
      · have hd : s.depth t + o.successes = 0 := by
          rw [ho, (I.lock.outside t ht).1]
        rw [hd]
        exact I.lock.roam ht hq
      · refine I.lock.hold (.inl hfree) ⟨I.lock.free hfree, ?_⟩
        exact (I.lock.outside t ht).1
  · by_cases hut : u = t
    · subst hut
      simp only [Function.update_self]
      omega
    · simpa only [Function.update_of_ne hut] using I.le u

theorem Inv.leave (I : Inv ids s) (hids : ids.Proper) (hmix : ids.Unmixed) {p : UnlockPc} {l : Lock T}
    {o : Outcome UnlockPc} {r : T → Int} (hpc : s.pc t = some (.leave p))
    (hadv : unlockAdvance spin ids t s.lock p = (l, o)) :
    Inv ids ⟨l, Function.update s.pc t o.leavePc, s.locked,
      Function.update s.unlocked t (s.unlocked t + o.successes), r⟩ := by
  have hdepth : State.depth ⟨l, Function.update s.pc t o.leavePc, s.locked,
      Function.update s.unlocked t (s.unlocked t + o.successes), r⟩ =
      Function.update s.depth t (s.depth t - o.successes) := by
    funext u
    by_cases hut : u = t
    · subst hut
      simp only [State.depth, Function.update_self]
      omega
    · simp only [State.depth, Function.update_of_ne hut]
  by_cases ht : s.lock.taken = some t
  · have H := I.lock.owner t ht
    rw [hpc] at H
    have hlock := H.unlockAdvance ht hadv
    refine ⟨?_, fun u => ?_⟩
    · rw [hdepth]
      have IH := I.lock
      rw [ht] at IH
      rcases hlock with ⟨ht', -, -, H'⟩ | ⟨ht', hd, rfl, hf⟩
      · simpa only [ht'] using IH.hold (.inr rfl) H'
      · show LockInv ids l.taken l _ _
        rw [ht', hd]
        exact IH.drop (q := none) hf trivial
    · have hsucc : o.successes ≤ s.depth t := by
        rcases hlock with ⟨-, hlt, -, -⟩ | ⟨-, hd, rfl, -⟩
        · exact Nat.le_of_lt hlt
        · rw [hd]
          exact Nat.le_refl 1
      by_cases hut : u = t
      · subst hut
        have hle := I.le u
        simp only [State.depth] at hsucc
        simp only [Function.update_self]
        omega
      · simpa only [Function.update_of_ne hut] using I.le u
  · obtain ⟨rfl, hq, ho⟩ := I.lock.unlockAdvance_outside hids hmix ht hpc hadv
    have ho : o.successes = 0 := by
      rcases ho with rfl | ⟨p', rfl⟩
      · rfl
      · rfl
    refine ⟨?_, fun u => ?_⟩
    · rw [hdepth, ho, (I.lock.outside t ht).1]
      exact I.lock.roam ht hq
    · simpa only [ho, Nat.add_zero, Function.update_eq_self] using I.le u

theorem Step.inv (hids : ids.Proper) (hmix : ids.Unmixed) (I : Inv ids s) (h : Step spin ids t s s') : Inv ids s' := by
  cases h with
  | lock call hpc => exact I.call hpc (.inl ⟨call, rfl⟩)
  | unlock hpc => exact I.call hpc (.inr rfl)
  | enter hpc hadv => exact I.enter hids hmix hpc hadv
  | leave hpc hadv => exact I.leave hids hmix hpc hadv

theorem Reachable.inv (hids : ids.Proper) (hmix : ids.Unmixed) (h : Reachable spin ids s) : Inv ids s := by
  refine Trans.Reachable.invariant h (fun _ => Init.inv) fun s s' I hs => ?_
  obtain ⟨t, hs⟩ := hs
  exact hs.inv hids hmix I

/-! ### Runs of one thread -/

/-- The thread `t` moves and the lock changes; nobody's calls return. -/
def State.move (s : State T) (t : T) (q : Pc) (l : Lock T) : State T :=
  { s with lock := l, pc := Function.update s.pc t (some q) }

theorem step_enter {l l' : Lock T} {p p' : LockPc} (hadv : lockAdvance spin ids t l p = some (l', .goto p')) :
    Step spin ids t (s.move t (.enter p) l) (s.move t (.enter p') l') := by
  have h : Step spin ids t (s.move t (.enter p) l) _ := .enter (Function.update_self _ _ _) hadv
  simp only [Outcome.enterPc, Outcome.successes, Outcome.result, State.move, Function.update_idem, Nat.add_zero,
    Function.update_eq_self] at h
  exact h

theorem step_leave {l l' : Lock T} {p p' : UnlockPc} (hadv : unlockAdvance spin ids t l p = (l', .goto p')) :
    Step spin ids t (s.move t (.leave p) l) (s.move t (.leave p') l') := by
  have h : Step spin ids t (s.move t (.leave p) l) _ := .leave (Function.update_self _ _ _) hadv
  simp only [Outcome.leavePc, Outcome.successes, Outcome.result, State.move, Function.update_idem, Nat.add_zero,
    Function.update_eq_self] at h
  exact h

theorem move_enter {l l' : Lock T} {p p' : LockPc} (hadv : lockAdvance spin ids t l p = some (l', .goto p')) :
    Next spin ids (s.move t (.enter p) l) (s.move t (.enter p') l') := ⟨t, step_enter hadv⟩

theorem move_leave {l l' : Lock T} {p p' : UnlockPc} (hadv : unlockAdvance spin ids t l p = (l', .goto p')) :
    Next spin ids (s.move t (.leave p) l) (s.move t (.leave p') l') := ⟨t, step_leave hadv⟩

/-- The call of `t` has returned, and the lock is `l` then. -/
structure Returned (s s' : State T) (t : T) (l : Lock T) (locks unlocks : Nat) : Prop where
  lock : s'.lock = l
  pc : s'.pc = Function.update s.pc t none
  locked : s'.locked = Function.update s.locked t (s.locked t + locks)
  unlocked : s'.unlocked = Function.update s.unlocked t (s.unlocked t + unlocks)

theorem return_enter {l l' : Lock T} {p : LockPc} (hadv : lockAdvance spin ids t l p = some (l', .ret QP_SUCCESS)) :
    ∃ s', Next spin ids (s.move t (.enter p) l) s' ∧ Returned s s' t l' 1 0 := by
  refine ⟨_, ⟨t, .enter (Function.update_self _ _ _) hadv⟩, rfl, ?_, rfl, ?_⟩
  · simp only [Outcome.enterPc, State.move, Function.update_idem]
  · simp only [State.move, Nat.add_zero, Function.update_eq_self]

theorem return_leave {l l' : Lock T} {p : UnlockPc} (hadv : unlockAdvance spin ids t l p = (l', .ret QP_SUCCESS)) :
    ∃ s', Next spin ids (s.move t (.leave p) l) s' ∧ Returned s s' t l' 0 1 := by
  refine ⟨_, ⟨t, .leave (Function.update_self _ _ _) hadv⟩, rfl, ?_, ?_, rfl⟩
  · simp only [Outcome.leavePc, State.move, Function.update_idem]
  · simp only [State.move, Nat.add_zero, Function.update_eq_self]

/-- A thread that nobody disturbs takes a free lock. -/
theorem lock_alone (hr : Reachable spin ids s) (hpc : s.pc t = none) (hfree : s.lock = Lock.init T) :
    ∃ s', Reachable spin ids s' ∧ Returned s s' t ⟨some t, ids.thread t, ids.process t, 1⟩ 1 0 := by
  have h₁ : Reachable spin ids (s.move t (.enter (.loadCounter .lock)) (Lock.init T)) := by
    rw [← hfree]
    exact hr.tail ⟨t, .lock .lock hpc⟩
  have h₂ : Reachable spin ids (s.move t (.enter (.acquire .lock)) (Lock.init T)) := h₁.tail (move_enter rfl)
  have h₃ : Reachable spin ids (s.move t (.enter .setThread) ⟨some t, 0, 0, 0⟩) := h₂.tail (move_enter rfl)
  have h₄ : Reachable spin ids (s.move t (.enter .setProcess) ⟨some t, ids.thread t, 0, 0⟩) := h₃.tail (move_enter rfl)
  have h₅ : Reachable spin ids (s.move t (.enter .count) ⟨some t, ids.thread t, ids.process t, 0⟩) :=
    h₄.tail (move_enter rfl)
  have hadv : lockAdvance spin ids t ⟨some t, ids.thread t, ids.process t, 0⟩ .count =
    some (⟨some t, ids.thread t, ids.process t, 1⟩, .ret QP_SUCCESS) := rfl
  obtain ⟨s', h₆, R⟩ := return_enter hadv
  exact ⟨s', h₅.tail h₆, R⟩

/-- A thread that finds its own identity in the lock is let in. -/
theorem reenter_alone {l : Lock T} {call : LockCall} (hr : Reachable spin ids (s.move t (.enter (.loadProcess call)) l))
    (hpr : l.holdProcess = ids.process t) :
    ∃ s', Reachable spin ids s' ∧ Returned s s' t { l with holdCounter := addWord l.holdCounter 1 } 1 0 := by
  have h₁ : Reachable spin ids (s.move t (.enter .reenter) l) :=
    hr.tail (move_enter (by simp only [lockAdvance, hpr, ↓reduceIte]))
  have hadv : lockAdvance spin ids t l .reenter =
    some ({ l with holdCounter := addWord l.holdCounter 1 }, .ret QP_SUCCESS) := rfl
  obtain ⟨s', h₂, R⟩ := return_enter hadv
  exact ⟨s', h₁.tail h₂, R⟩

/-- A thread reads its own `pthread_self` from a lock that is held. -/
theorem load_alone (hr : Reachable spin ids s) (hpc : s.pc t = none) (hc : s.lock.holdCounter ≠ 0)
    (hth : s.lock.holdThread = ids.thread t) :
    Reachable spin ids (s.move t (.enter (.loadProcess .lock)) s.lock) := by
  have h₁ : Reachable spin ids (s.move t (.enter (.loadCounter .lock)) s.lock) := hr.tail ⟨t, .lock .lock hpc⟩
  have h₂ : Reachable spin ids (s.move t (.enter (.loadThread .lock)) s.lock) :=
    h₁.tail (move_enter (by simp only [lockAdvance, ne_eq, hc, not_false_eq_true, ↓reduceIte]))
  exact h₂.tail (move_enter (by simp only [lockAdvance, hth, ↓reduceIte]))

/-- The thread that has the lock once gives it up. -/
theorem unlock_alone (hr : Reachable spin ids s) (hpc : s.pc t = none)
    (hlock : s.lock = ⟨some t, ids.thread t, ids.process t, 1⟩) :
    ∃ s', Reachable spin ids s' ∧ Returned s s' t (Lock.init T) 0 1 := by
  have h₁ : Reachable spin ids (s.move t (.leave .loadCounter) ⟨some t, ids.thread t, ids.process t, 1⟩) := by
    rw [← hlock]
    exact hr.tail ⟨t, .unlock hpc⟩
  have h₂ : Reachable spin ids (s.move t (.leave .loadThread) ⟨some t, ids.thread t, ids.process t, 1⟩) :=
    h₁.tail (move_leave rfl)
  have h₃ : Reachable spin ids (s.move t (.leave .loadProcess) ⟨some t, ids.thread t, ids.process t, 1⟩) :=
    h₂.tail (move_leave (by simp only [unlockAdvance, ↓reduceIte]))
  have h₄ : Reachable spin ids (s.move t (.leave .uncount) ⟨some t, ids.thread t, ids.process t, 1⟩) :=
    h₃.tail (move_leave (by simp only [unlockAdvance, ↓reduceIte]))
  have h₅ : Reachable spin ids (s.move t (.leave .recheck) ⟨some t, ids.thread t, ids.process t, 0⟩) :=
    h₄.tail (move_leave (by simp only [unlockAdvance, subWord_one (Nat.le_refl 1) (by omega), Nat.sub_self]))
  have h₆ : Reachable spin ids (s.move t (.leave .clearThread) ⟨some t, ids.thread t, ids.process t, 0⟩) :=
    h₅.tail (move_leave rfl)
  have h₇ : Reachable spin ids (s.move t (.leave .clearProcess) ⟨some t, 0, ids.process t, 0⟩) :=
    h₆.tail (move_leave rfl)
  have h₈ : Reachable spin ids (s.move t (.leave .release) ⟨some t, 0, 0, 0⟩) := h₇.tail (move_leave rfl)
  have hadv : unlockAdvance spin ids t ⟨some t, 0, 0, 0⟩ .release = (Lock.init T, .ret QP_SUCCESS) := by
    simp only [unlockAdvance, Option.isSome_some, ↓reduceIte, ite_self, Lock.init]
  obtain ⟨s', h₉, R⟩ := return_leave hadv
  exact ⟨s', h₈.tail h₉, R⟩

/-- A thread can take the lock as often as the counter counts. -/
theorem lock_nested (spin : Bool) (ids : Ids T) (t : T) {n : Nat} (h₁ : 1 ≤ n) (hn : n ≤ 2 ^ 64) :
    ∃ s, Reachable spin ids s ∧ s.lock = ⟨some t, ids.thread t, ids.process t, n % 2 ^ 64⟩ ∧ s.pc t = none ∧
      s.locked t = n ∧ s.unlocked t = 0 := by
  induction n, h₁ using Nat.le_induction with
  | base =>
    have hr : Reachable spin ids ⟨Lock.init T, fun _ => none, fun _ => 0, fun _ => 0, fun _ => 0⟩ :=
      Trans.Reachable.start ⟨rfl, fun _ => ⟨rfl, rfl, rfl⟩⟩
    obtain ⟨s', hr', R⟩ := lock_alone (t := t) hr rfl rfl
    refine ⟨s', hr', R.lock, ?_, ?_, ?_⟩
    · rw [R.pc, Function.update_self]
    · rw [R.locked, Function.update_self]
    · rw [R.unlocked, Function.update_self]
  | succ n h₁ ih =>
    obtain ⟨s, hr, hlock, hpc, hl, hu⟩ := ih (by omega)
    have hmod : n % 2 ^ 64 = n := Nat.mod_eq_of_lt (by omega)
    rw [hmod] at hlock
    have hr₁ := load_alone hr hpc (by rw [hlock]; simp only; omega) (by rw [hlock])
    obtain ⟨s', hr', R⟩ := reenter_alone hr₁ (by rw [hlock])
    refine ⟨s', hr', ?_, ?_, ?_, ?_⟩
    · rw [R.lock, hlock]
      rfl
    · rw [R.pc, Function.update_self]
    · rw [R.locked, Function.update_self, hl]
    · rw [R.unlocked, Function.update_self, hu]

end QPHi.LockSystem
