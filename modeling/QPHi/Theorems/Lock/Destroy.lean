import QPHi.Theorems.Lock.Run

/-! Destroying a lock: `qp_lock_destroy` takes the lock and gives it up again before it looks at the mutex. A spin lock is
    destroyed whoever holds it. -/

namespace QPHi

variable {T : Type} [DecidableEq T] {spin : Bool} {ids : Ids T} {t : T} {l l' : Lock T}

/-! ### The counter is a word -/

theorem lockAdvance_counter {p : LockPc} {o : Outcome LockPc} (hadv : lockAdvance spin ids t l p = some (l', o))
    (h : l.holdCounter < 2 ^ 64) : l'.holdCounter < 2 ^ 64 := by
  unfold lockAdvance at hadv
  split at hadv
  case h_4 => cases hadv; exact Nat.mod_lt _ (Nat.two_pow_pos 64)
  case h_5 =>
    split at hadv
    · cases hadv; exact h
    · cases hadv; exact h
    · split at hadv
      · cases hadv; exact h
      · split at hadv
        · cases hadv; exact h
        · cases hadv
  case h_8 => cases hadv; exact Nat.mod_lt _ (Nat.two_pow_pos 64)
  all_goals cases hadv; exact h

theorem unlockAdvance_counter {p : UnlockPc} {o : Outcome UnlockPc} (hadv : unlockAdvance spin ids t l p = (l', o))
    (h : l.holdCounter < 2 ^ 64) : l'.holdCounter < 2 ^ 64 := by
  unfold unlockAdvance at hadv
  split at hadv
  case h_4 => cases hadv; exact Nat.mod_lt _ (Nat.two_pow_pos 64)
  case h_8 =>
    split at hadv
    · split at hadv
      · cases hadv; exact h
      · cases hadv; exact h
    · split at hadv
      · cases hadv; exact h
      · cases hadv; exact h
  all_goals cases hadv; exact h

theorem LockSystem.Reachable.counter {s : LockSystem.State T} (h : LockSystem.Reachable spin ids s) :
    s.lock.holdCounter < 2 ^ 64 := by
  have hinit : ∀ s : LockSystem.State T, LockSystem.Init s → s.lock.holdCounter < 2 ^ 64 := by
    intro s hs
    rw [hs.1]
    exact Nat.two_pow_pos 64
  have hkept : ∀ s s' : LockSystem.State T, s.lock.holdCounter < 2 ^ 64 → LockSystem.Next spin ids s s' →
      s'.lock.holdCounter < 2 ^ 64 := by
    rintro s s' hs ⟨t, hstep⟩
    cases hstep with
    | lock call hpc => exact hs
    | unlock hpc => exact hs
    | enter hpc hadv => exact lockAdvance_counter hadv hs
    | leave hpc hadv => exact unlockAdvance_counter hadv hs
  have hcounter := Trans.Reachable.invariant h hinit hkept
  exact hcounter

/-! ### Taking the lock and giving it up -/

/-- The lock that `qp_lock_destroy` looks at. -/
def Lock.tried (ids : Ids T) (t : T) (spin : Bool) (l : Lock T) : Lock T := (lockUnlock ids t spin (lockTrylock ids t l).1).1

/-- The holder is let in once more and leaves again. A counter that is full starts again at 0. -/
theorem Lock.tried_held (h : l.HeldBy ids t) (hc : l.holdCounter < 2 ^ 64) :
    (l.holdCounter + 1 < 2 ^ 64 → l.tried ids t spin = l) ∧
      (l.holdCounter + 1 = 2 ^ 64 → l.tried ids t spin = { l with holdCounter := 0 }) := by
  unfold tried lockTrylock
  rw [if_pos h]
  constructor
  · intro hlt
    have hadd : addWord l.holdCounter 1 = l.holdCounter + 1 := Nat.mod_eq_of_lt hlt
    have hsub : subWord (l.holdCounter + 1) 1 = l.holdCounter := subWord_one (Nat.le_add_left _ _) hlt
    have hpos : ¬l.holdCounter + 1 < 1 := by omega
    simp only [hadd, lockUnlock, if_neg hpos, if_pos h.2, hsub, if_pos h.1]
  · intro hfull
    have hadd : addWord l.holdCounter 1 = 0 := by
      rw [addWord, hfull, Nat.mod_self]
    simp only [hadd, lockUnlock, if_pos Nat.one_pos]

/-- Another thread is kept out, and has nothing to give up. -/
theorem Lock.tried_busy (h : ¬l.HeldBy ids t) (hbusy : l.taken ≠ none) : l.tried ids t spin = l := by
  have hsome : ¬l.taken.isNone = true := fun hnone => hbusy (Option.isNone_iff_eq_none.mp hnone)
  unfold tried lockTrylock
  rw [if_neg h, if_neg hsome]
  by_cases hc : l.holdCounter < 1
  · simp only [lockUnlock, if_pos hc]
  · have hids : ¬(l.holdThread = ids.thread t ∧ l.holdProcess = ids.process t) := fun hids => h ⟨by omega, hids⟩
    simp only [lockUnlock, if_neg hc, if_neg hids]

/-- A free lock is taken, and given up again if nobody was counted. -/
theorem Lock.tried_free (h : ¬l.HeldBy ids t) (hfree : l.taken = none) (hc : l.holdCounter < 2 ^ 64) :
    (l.tried ids t spin).taken = if l.holdCounter = 0 then none else some t := by
  have hnone : l.taken.isNone = true := Option.isNone_iff_eq_none.mpr hfree
  unfold tried lockTrylock
  rw [if_neg h, if_pos hnone]
  by_cases hzero : l.holdCounter = 0
  · have hadd : addWord l.holdCounter 1 = 1 := by
      rw [hzero]
      rfl
    have hsub : subWord 1 1 = 0 := rfl
    rw [if_pos hzero]
    cases spin with
    | true => simp [hadd, lockUnlock, hsub]
    | false => simp [hadd, lockUnlock, hsub]
  · rw [if_neg hzero]
    by_cases hfull : l.holdCounter + 1 = 2 ^ 64
    · have hadd : addWord l.holdCounter 1 = 0 := by rw [addWord, hfull, Nat.mod_self]
      simp only [hadd, lockUnlock, if_pos Nat.one_pos]
    · have hadd : addWord l.holdCounter 1 = l.holdCounter + 1 := Nat.mod_eq_of_lt (by omega)
      have hsub : subWord (l.holdCounter + 1) 1 = l.holdCounter := subWord_one (Nat.le_add_left _ _) (by omega)
      have hpos : ¬l.holdCounter + 1 < 1 := by omega
      simp [hadd, lockUnlock, hsub, hzero]

omit [DecidableEq T] in
theorem lockTrylock_ne_busy : EBUSY ≠ (lockTrylock ids t l).2 := by
  have hsuccess : EBUSY ≠ QP_SUCCESS := by decide
  have herror : EBUSY ≠ QP_ERROR := by decide
  unfold lockTrylock
  split
  · exact hsuccess
  · split
    · exact hsuccess
    · exact herror

omit [DecidableEq T] in
theorem mutexDestroy_success : QP_SUCCESS = mutexDestroy l ↔ l.taken = none := by
  unfold mutexDestroy
  cases l.taken with
  | none => exact ⟨fun _ => rfl, fun _ => rfl⟩
  | some u =>
    have hbusy : QP_SUCCESS ≠ EBUSY := by decide
    exact ⟨fun h => absurd h hbusy, fun h => nomatch h⟩

theorem lockDestroy_eq (alloced shared : Bool) : lockDestroy ids t ⟨l, true, alloced, shared, spin⟩ =
    if spin = false ∧ (l.tried ids t spin).taken ≠ none then (some ⟨l.tried ids t spin, true, alloced, shared, spin⟩, QP_ERROR)
    else (if alloced then none else some ⟨l.tried ids t spin, false, alloced, false, false⟩, QP_SUCCESS) := by
  unfold lockDestroy
  rw [if_pos rfl]
  simp only [if_neg lockTrylock_ne_busy]
  refine if_congr ?_ rfl rfl
  rw [Bool.not_eq_true', Ne, mutexDestroy_success]
  rfl

namespace LockSystem

variable {s : State T}

/-! ### Refusing to destroy a held lock -/

/-- A lock that is held is left as it is, with an error; a free lock is destroyed. -/
structure RefusesHeld (ids : Ids T) (t : T) (o : LockObject T) : Prop where
  held : o.lock.taken ≠ none → lockDestroy ids t o = (some o, QP_ERROR)
  free : o.lock.taken = none → (lockDestroy ids t o).2 = QP_SUCCESS

theorem lockDestroy_held (hc : l.holdCounter < 2 ^ 64) (hbusy : l.taken ≠ none) (alloced shared : Bool) :
    lockDestroy ids t ⟨l, true, alloced, shared, spin⟩ = (some ⟨l, true, alloced, shared, spin⟩, QP_ERROR) ↔
      spin = false ∧ ¬(l.HeldBy ids t ∧ l.holdCounter + 1 = 2 ^ 64) := by
  have hret : QP_SUCCESS ≠ QP_ERROR := by decide
  rw [lockDestroy_eq]
  by_cases hheld : l.HeldBy ids t
  · by_cases hfull : l.holdCounter + 1 = 2 ^ 64
    · -- The counter starts again at 0, so the lock is not left as it was.
      rw [(Lock.tried_held hheld hc).2 hfull]
      refine iff_of_false (fun heq => ?_) fun hcond => hcond.2 ⟨hheld, hfull⟩
      split at heq
      · have hzero : 0 = l.holdCounter :=
          congrArg (fun o => o.lock.holdCounter) (Option.some.inj (Prod.mk.inj heq).1)
        exact hheld.1 hzero.symm
      · exact hret (Prod.mk.inj heq).2
    · rw [(Lock.tried_held hheld hc).1 (by omega)]
      cases spin with
      | false => exact iff_of_true (if_pos ⟨rfl, hbusy⟩) ⟨rfl, fun hcond => hfull hcond.2⟩
      | true =>
        refine iff_of_false (fun heq => ?_) fun hcond => nomatch hcond.1
        rw [if_neg fun hcond => nomatch hcond.1] at heq
        exact hret (Prod.mk.inj heq).2
  · rw [Lock.tried_busy hheld hbusy]
    cases spin with
    | false => exact iff_of_true (if_pos ⟨rfl, hbusy⟩) ⟨rfl, fun hcond => hheld hcond.1⟩
    | true =>
      refine iff_of_false (fun heq => ?_) fun hcond => nomatch hcond.1
      rw [if_neg fun hcond => nomatch hcond.1] at heq
      exact hret (Prod.mk.inj heq).2

theorem lockDestroy_free (hc : l.holdCounter < 2 ^ 64) (hfree : l.taken = none) (alloced shared : Bool) :
    (lockDestroy ids t ⟨l, true, alloced, shared, spin⟩).2 = QP_SUCCESS ↔
      spin = true ∨ l.HeldBy ids t ∨ l.holdCounter = 0 := by
  have hret : QP_ERROR ≠ QP_SUCCESS := by decide
  have htaken : (l.tried ids t spin).taken = none ↔ l.HeldBy ids t ∨ l.holdCounter = 0 := by
    by_cases hheld : l.HeldBy ids t
    · refine iff_of_true ?_ (.inl hheld)
      by_cases hfull : l.holdCounter + 1 = 2 ^ 64
      · rw [(Lock.tried_held hheld hc).2 hfull]
        exact hfree
      · rw [(Lock.tried_held hheld hc).1 (by omega)]
        exact hfree
    · rw [Lock.tried_free hheld hfree hc, or_iff_right hheld]
      split
      case isTrue hzero => exact iff_of_true rfl hzero
      case isFalse hzero => exact iff_of_false (fun h => nomatch h) hzero
  rw [lockDestroy_eq, ← htaken]
  cases spin with
  | true =>
    rw [if_neg fun hcond => nomatch hcond.1]
    exact iff_of_true rfl (.inl rfl)
  | false =>
    by_cases h : (l.tried ids t false).taken = none
    · rw [if_neg fun hcond => hcond.2 h]
      exact iff_of_true rfl (.inr h)
    · rw [if_pos ⟨rfl, h⟩]
      exact iff_of_false hret fun hcond => hcond.elim (fun hspin => nomatch hspin) h

/-- A held lock is not destroyed exactly if it is a mutex that the caller does not hold as often as the counter counts. -/
theorem destroy_refusesHeld_iff (h : Reachable spin ids s) (alloced shared : Bool) :
    RefusesHeld ids t ⟨s.lock, true, alloced, shared, spin⟩ ↔
      (s.lock.taken ≠ none → spin = false ∧ ¬(s.lock.HeldBy ids t ∧ s.lock.holdCounter + 1 = 2 ^ 64)) ∧
      (s.lock.taken = none → spin = true ∨ s.lock.HeldBy ids t ∨ s.lock.holdCounter = 0) := by
  have hc := h.counter
  constructor
  · intro hrefuses
    exact ⟨fun hbusy => (lockDestroy_held hc hbusy alloced shared).mp (hrefuses.held hbusy),
      fun hfree => (lockDestroy_free hc hfree alloced shared).mp (hrefuses.free hfree)⟩
  · rintro ⟨hheld, hfree⟩
    exact ⟨fun hbusy => (lockDestroy_held hc hbusy alloced shared).mpr (hheld hbusy),
      fun hnone => (lockDestroy_free hc hnone alloced shared).mpr (hfree hnone)⟩

/-- A mutex that another thread holds. -/
theorem destroy_refusesHeld_iff_mutex : ∃ s : State (Fin 2), Reachable false twoThreads s ∧ s.lock.taken = some 1 ∧
    RefusesHeld twoThreads 0 ⟨s.lock, true, true, false, false⟩ := by
  obtain ⟨s, hr, hlock, -, -, -⟩ := lock_nested false twoThreads 1 (n := 1) (Nat.le_refl 1) (by omega)
  refine ⟨s, hr, by rw [hlock], (destroy_refusesHeld_iff hr true false).mpr ?_⟩
  rw [hlock]
  exact ⟨fun _ => ⟨rfl, by decide⟩, fun hfree => nomatch hfree⟩

/-- The spin lock of another thread is destroyed and freed. -/
theorem destroy_held_spin : ∃ s : State (Fin 2), Reachable true twoThreads s ∧ s.lock.taken = some 1 ∧
    s.unlocked 1 < s.locked 1 ∧ lockDestroy twoThreads 0 ⟨s.lock, true, true, false, true⟩ = (none, QP_SUCCESS) ∧
    ¬RefusesHeld twoThreads 0 ⟨s.lock, true, true, false, true⟩ := by
  obtain ⟨s, hr, hlock, -, hl, hu⟩ := lock_nested true twoThreads 1 (n := 1) (Nat.le_refl 1) (by omega)
  have hdestroy : lockDestroy twoThreads 0 ⟨s.lock, true, true, false, true⟩ = (none, QP_SUCCESS) := by
    rw [hlock]
    rfl
  refine ⟨s, hr, by rw [hlock], by omega, hdestroy, fun hrefuses => ?_⟩
  have hheld := hrefuses.held (by rw [hlock]; exact Option.some_ne_none _)
  rw [hdestroy] at hheld
  exact Option.some_ne_none _ (Prod.mk.inj hheld).1.symm

/-- With proper identities no thread is named by a free lock, so that it is always destroyed. -/
theorem Reachable.destroy_free (hids : ids.Proper) (hmix : ids.Unmixed) (h : Reachable spin ids s)
    (hfree : s.lock.taken = none) (alloced shared : Bool) :
    (lockDestroy ids t ⟨s.lock, true, alloced, shared, spin⟩).2 = QP_SUCCESS :=
  (lockDestroy_free h.counter hfree alloced shared).mpr (.inr (.inr ((h.inv hids hmix).lock.free hfree).2.2))

/-! ### The functions as a whole and their accesses -/

/-- The accesses of `qp_lock_trylock` by `t`, one after the other, are `lockTrylock`. -/
theorem trylock_whole (hpc : s.pc t = none) : ∃ s', Relation.ReflTransGen (Step spin ids t) s s' ∧
    s'.lock = (lockTrylock ids t s.lock).1 ∧ s'.pc t = none ∧ s'.result t = (lockTrylock ids t s.lock).2 := by
  have h₁ : Relation.ReflTransGen (Step spin ids t) s (s.move t (.enter (.loadCounter .trylock)) s.lock) :=
    .single (.lock .trylock hpc)
  have hacquire (h : Relation.ReflTransGen (Step spin ids t) s (s.move t (.enter (.acquire .trylock)) s.lock))
      (hheld : ¬s.lock.HeldBy ids t) : ∃ s', Relation.ReflTransGen (Step spin ids t) s s' ∧
      s'.lock = (lockTrylock ids t s.lock).1 ∧ s'.pc t = none ∧ s'.result t = (lockTrylock ids t s.lock).2 := by
    unfold lockTrylock
    rw [if_neg hheld]
    cases htaken : s.lock.taken with
    | none =>
      have h₂ : Relation.ReflTransGen (Step spin ids t) s (s.move t (.enter .setThread) { s.lock with taken := some t }) :=
        h.tail (step_enter (by simp only [lockAdvance, htaken]))
      have h₃ := h₂.tail (step_enter rfl)
      have h₄ := h₃.tail (step_enter rfl)
      exact ⟨_, h₄.tail (.enter (Function.update_self _ _ _) rfl), rfl, Function.update_self _ _ _,
        Function.update_self _ _ _⟩
    | some u =>
      refine ⟨_, h.tail (.enter (l := s.lock) (o := .ret QP_ERROR) (Function.update_self _ _ _) ?_), rfl,
        Function.update_self _ _ _, Function.update_self _ _ _⟩
      simp only [State.move, lockAdvance, htaken]
  by_cases hc : s.lock.holdCounter = 0
  · refine hacquire (h₁.tail (step_enter ?_)) fun hheld => hheld.1 hc
    simp only [lockAdvance, hc, ne_eq, not_true_eq_false, ↓reduceIte]
  · have h₂ : Relation.ReflTransGen (Step spin ids t) s (s.move t (.enter (.loadThread .trylock)) s.lock) :=
      h₁.tail (step_enter (by simp only [lockAdvance, ne_eq, hc, not_false_eq_true, ↓reduceIte]))
    by_cases hth : s.lock.holdThread = ids.thread t
    · have h₃ : Relation.ReflTransGen (Step spin ids t) s (s.move t (.enter (.loadProcess .trylock)) s.lock) :=
        h₂.tail (step_enter (by simp only [lockAdvance, hth, ↓reduceIte]))
      by_cases hpr : s.lock.holdProcess = ids.process t
      · have h₄ : Relation.ReflTransGen (Step spin ids t) s (s.move t (.enter .reenter) s.lock) :=
          h₃.tail (step_enter (by simp only [lockAdvance, hpr, ↓reduceIte]))
        unfold lockTrylock
        rw [if_pos ⟨hc, hth, hpr⟩]
        exact ⟨_, h₄.tail (.enter (Function.update_self _ _ _) rfl), rfl, Function.update_self _ _ _,
          Function.update_self _ _ _⟩
      · refine hacquire (h₃.tail (step_enter ?_)) fun hheld => hpr hheld.2.2
        simp only [lockAdvance, hpr, ↓reduceIte]
    · refine hacquire (h₂.tail (step_enter ?_)) fun hheld => hth hheld.2.1
      simp only [lockAdvance, hth, ↓reduceIte]

/-- The accesses of `qp_lock_unlock` by `t`, one after the other, are `lockUnlock`. -/
theorem unlock_whole (hpc : s.pc t = none) : ∃ s', Relation.ReflTransGen (Step spin ids t) s s' ∧
    s'.lock = (lockUnlock ids t spin s.lock).1 ∧ s'.pc t = none ∧ s'.result t = (lockUnlock ids t spin s.lock).2 := by
  have h₁ : Relation.ReflTransGen (Step spin ids t) s (s.move t (.leave .loadCounter) s.lock) :=
    .single (.unlock hpc)
  have hret {s₀ : State T} {p : UnlockPc} {l l' : Lock T} {r : Int}
      (h : Relation.ReflTransGen (Step spin ids t) s (s₀.move t (.leave p) l))
      (hadv : unlockAdvance spin ids t l p = (l', .ret r)) :
      ∃ s', Relation.ReflTransGen (Step spin ids t) s s' ∧ s'.lock = l' ∧ s'.pc t = none ∧ s'.result t = r :=
    ⟨_, h.tail (.leave (Function.update_self _ _ _) hadv), rfl, Function.update_self _ _ _, Function.update_self _ _ _⟩
  unfold lockUnlock
  by_cases hc : s.lock.holdCounter < 1
  · rw [if_pos hc]
    exact hret h₁ (by simp only [unlockAdvance, hc, ↓reduceIte])
  · rw [if_neg hc]
    have h₂ : Relation.ReflTransGen (Step spin ids t) s (s.move t (.leave .loadThread) s.lock) :=
      h₁.tail (step_leave (by simp only [unlockAdvance, hc, ↓reduceIte]))
    by_cases hth : s.lock.holdThread = ids.thread t
    · have h₃ : Relation.ReflTransGen (Step spin ids t) s (s.move t (.leave .loadProcess) s.lock) :=
        h₂.tail (step_leave (by simp only [unlockAdvance, hth, ↓reduceIte]))
      by_cases hpr : s.lock.holdProcess = ids.process t
      · rw [if_pos ⟨hth, hpr⟩]
        have h₄ : Relation.ReflTransGen (Step spin ids t) s (s.move t (.leave .uncount) s.lock) :=
          h₃.tail (step_leave (by simp only [unlockAdvance, hpr, ↓reduceIte]))
        have h₅ := h₄.tail (step_leave rfl)
        by_cases hleft : subWord s.lock.holdCounter 1 = 0
        · rw [hleft] at h₅
          have h₆ : Relation.ReflTransGen (Step spin ids t) s
              (s.move t (.leave .clearThread) { s.lock with holdCounter := 0 }) := h₅.tail (step_leave rfl)
          have h₇ := h₆.tail (step_leave rfl)
          have h₈ := h₇.tail (step_leave rfl)
          simp only [hleft, ne_eq, not_true_eq_false, ↓reduceIte]
          refine hret h₈ ?_
          rw [unlockAdvance]
          split
          · split
            · rfl
            · rfl
          · split
            · rfl
            · rfl
        · simp only [hleft, ne_eq, not_false_eq_true, ↓reduceIte]
          exact hret h₅ (by simp only [unlockAdvance, ne_eq, hleft, not_false_eq_true, ↓reduceIte])
      · rw [if_neg fun hids => hpr hids.2]
        exact hret h₃ (by simp only [unlockAdvance, hpr, ↓reduceIte])
    · rw [if_neg fun hids => hth hids.1]
      exact hret h₂ (by simp only [unlockAdvance, hth, ↓reduceIte])

end LockSystem

end QPHi
