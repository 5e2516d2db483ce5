import QPHi.Theorems.Lock.Run

/-! What every interleaving of the threads that share a lock promises: who has it, what its counter says, and
    which identities the threads need for it to exclude them. -/

namespace QPHi.LockSystem

variable {T : Type} [DecidableEq T] {spin : Bool} {ids : Ids T} {t u : T} {s s' : State T}

/-! ### One process -/

/-- What a re-entrant lock promises in the state `s` of a run. -/
structure Reentrant (spin : Bool) (ids : Ids T) (s : State T) : Prop where
  exclusive : ∀ t u, s.unlocked t < s.locked t → s.unlocked u < s.locked u → t = u
  counter : ∀ t, s.unlocked t < s.locked t → s.pc t = none →
    s.lock.holdThread = ids.thread t ∧ s.lock.holdCounter = (s.locked t - s.unlocked t) % 2 ^ 64
  released : ∀ s', Next spin ids s s' → s.lock.taken ≠ none → s'.lock.taken = none →
    ∃ t, s.lock.taken = some t ∧ s.locked t = s.unlocked t + 1 ∧ s'.locked t = s'.unlocked t
  refused : ∀ t p, s.pc t = some (.leave p) → s.locked t ≤ s.unlocked t →
    (∃ s', Step spin ids t s s') ∧ ∀ s', Step spin ids t s s' → s'.lock = s.lock ∧
      (s'.pc t = none ∧ s'.result t = QP_ERROR ∨ p = .loadCounter ∧ s'.pc t = some (.leave .loadThread))

theorem Inv.taken_of_lt (I : Inv ids s) (h : s.unlocked t < s.locked t) : s.lock.taken = some t := by
  by_contra ht
  have hd := (I.lock.outside t ht).1
  simp only [State.depth] at hd
  omega

theorem Inv.exclusive (I : Inv ids s) (ht : s.unlocked t < s.locked t) (hu : s.unlocked u < s.locked u) : t = u :=
  Option.some.inj ((I.taken_of_lt ht).symm.trans (I.taken_of_lt hu))

/-- Only the thread that has the lock frees it, when it holds the lock once. -/
theorem Inv.released (I : Inv ids s) (hids : ids.Proper) (hmix : ids.Unmixed) (hs : Step spin ids t s s')
    (htaken : s.lock.taken ≠ none) (hfree : s'.lock.taken = none) :
    s.lock.taken = some t ∧ s.locked t = s.unlocked t + 1 ∧ s'.locked t = s'.unlocked t := by
  cases hs with
  | lock call hpc => exact absurd hfree htaken
  | unlock hpc => exact absurd hfree htaken
  | enter hpc hadv =>
    by_cases ht : s.lock.taken = some t
    · have H := I.lock.owner t ht
      rw [hpc] at H
      exact absurd (hfree.symm.trans (H.lockAdvance ht hadv).1) (by simp)
    · rcases I.lock.lockAdvance_outside hids hmix ht hpc hadv with ⟨rfl, -, -⟩ | ⟨hf, -, -, -⟩
      · exact absurd hfree htaken
      · exact absurd hf htaken
  | leave hpc hadv =>
    by_cases ht : s.lock.taken = some t
    · have H := I.lock.owner t ht
      rw [hpc] at H
      rcases H.unlockAdvance ht hadv with ⟨ht', -, -⟩ | ⟨-, hd, rfl, -⟩
      · exact absurd (hfree.symm.trans ht') (by simp)
      · have hle := I.le t
        simp only [State.depth] at hd
        refine ⟨ht, by omega, ?_⟩
        simp only [Outcome.successes, ↓reduceIte, Function.update_self]
        omega
    · obtain ⟨rfl, -, -⟩ := I.lock.unlockAdvance_outside hids hmix ht hpc hadv
      exact absurd hfree htaken

/-- An unlock by a thread that does not have the lock fails at its first or second test. -/
theorem Inv.refused (I : Inv ids s) (hids : ids.Proper) (hinj : Function.Injective ids.thread) {p : UnlockPc}
    (hpc : s.pc t = some (.leave p)) (hle : s.locked t ≤ s.unlocked t) (hs : Step spin ids t s s') :
    s'.lock = s.lock ∧
      (s'.pc t = none ∧ s'.result t = QP_ERROR ∨ p = .loadCounter ∧ s'.pc t = some (.leave .loadThread)) := by
  have ht : s.lock.taken ≠ some t := by
    intro ht
    have H := I.lock.owner t ht
    rw [hpc, State.depth, Nat.sub_eq_zero_of_le hle] at H
    cases p <;> simp [OwnerAt] at H
  cases hs with
  | lock call hpc' => simp [hpc] at hpc'
  | unlock hpc' => simp [hpc] at hpc'
  | enter hpc' hadv => simp [hpc] at hpc'
  | @leave p' l o hpc' hadv =>
    obtain rfl : p = p' := by simpa [hpc] using hpc'
    obtain ⟨rfl, hq, ho⟩ := I.lock.unlockAdvance_outside hids (Ids.unmixed_of_injective hinj) ht hpc hadv
    refine ⟨rfl, ?_⟩
    simp only [Function.update_self]
    rcases ho with rfl | ⟨p', rfl⟩
    · exact .inl ⟨rfl, rfl⟩
    · have hout := (I.lock.outside t ht).2
      rw [hpc] at hout
      right
      cases p with
      | loadCounter =>
        refine ⟨rfl, ?_⟩
        simp only [unlockAdvance, Prod.mk.injEq, true_and] at hadv
        split at hadv
        · cases hadv
        · cases hadv
          rfl
      | loadThread =>
        simp only [unlockAdvance, Prod.mk.injEq, true_and] at hadv
        split at hadv
        · cases hadv
          exact absurd hq (Ids.unshared_of_injective hinj)
        · cases hadv
      | loadProcess => exact absurd hout (Ids.unshared_of_injective hinj)
      | uncount => exact hout.elim
      | recheck => exact hout.elim
      | clearThread => exact hout.elim
      | clearProcess => exact hout.elim
      | release => exact hout.elim

theorem reachable_reentrant (hinj : Function.Injective ids.thread) (hids : ids.Proper) (h : Reachable spin ids s) :
    Reentrant spin ids s := by
  have hmix := Ids.unmixed_of_injective hinj
  have I := h.inv hids hmix
  refine ⟨fun t u ht hu => I.exclusive ht hu, fun t ht hpc => ?_, fun s' hs htaken hfree => ?_,
    fun t p hpc hle => ⟨?_, fun s' hs => I.refused hids hinj hpc hle hs⟩⟩
  · have H := I.lock.owner t (I.taken_of_lt ht)
    rw [hpc] at H
    exact ⟨H.1.1, H.1.2.2⟩
  · obtain ⟨t, hs⟩ := hs
    exact ⟨t, I.released hids hmix hs htaken hfree⟩
  · exact ⟨_, .leave hpc rfl⟩

theorem reachable_reentrant_twice : ∃ s : State (Fin 2), s.unlocked 0 + 2 = s.locked 0 ∧ Reentrant true twoThreads s := by
  obtain ⟨s, hr, -, -, hl, hu⟩ := lock_nested true twoThreads 0 (n := 2) (by omega) (by omega)
  exact ⟨s, by rw [hl, hu], reachable_reentrant twoThreads_injective twoThreads_proper hr⟩

/-- The counter of a thread that has locked `2 ^ 64` times is 0 again. -/
theorem reachable_reentrant_overflow : ∃ s : State (Fin 2), Reachable true twoThreads s ∧ s.pc 0 = none ∧
    s.unlocked 0 < s.locked 0 ∧ s.lock.holdCounter ≠ s.locked 0 - s.unlocked 0 := by
  obtain ⟨s, hr, hlock, hpc, hl, hu⟩ := lock_nested true twoThreads 0 (n := 2 ^ 64) (by omega) (Nat.le_refl _)
  refine ⟨s, hr, hpc, by omega, ?_⟩
  rw [hlock, hl, hu, Nat.mod_self]
  simp only
  omega

/-! ### Several processes -/

/-- No two threads hold the lock, in any state that the threads reach. -/
def Excludes (spin : Bool) (ids : Ids T) : Prop :=
  ∀ s, Reachable spin ids s → ∀ t u, s.unlocked t < s.locked t → s.unlocked u < s.locked u → t = u

/-- While `a` has the lock, `b` finds its `pthread_self` there; `a` gives the lock to `c`, and `b` finds its
    process there. -/
theorem reachable_both (spin : Bool) {a b c : T} (hab : a ≠ b) (hac : a ≠ c) (hbc : b ≠ c)
    (hth : ids.thread a = ids.thread b) (hpr : ids.process c = ids.process b) :
    ∃ s, Reachable spin ids s ∧ s.unlocked b < s.locked b ∧ s.unlocked c < s.locked c := by
  have hr₀ : Reachable spin ids ⟨Lock.init T, fun _ => none, fun _ => 0, fun _ => 0, fun _ => 0⟩ :=
    Trans.Reachable.start ⟨rfl, fun _ => ⟨rfl, rfl, rfl⟩⟩
  obtain ⟨s₁, hr₁, A⟩ := lock_alone (t := a) hr₀ rfl rfl
  have hpc₁ : ∀ u, s₁.pc u = none := fun u => by
    rw [A.pc, Function.update_apply]
    exact ite_self _
  have hr₂ := load_alone hr₁ (hpc₁ b) (by rw [A.lock]; exact Nat.one_ne_zero) (by rw [A.lock]; exact hth)
  obtain ⟨s₃, hr₃, B⟩ := unlock_alone hr₂ ((Function.update_of_ne hab _ _).trans (hpc₁ a)) A.lock
  have hpc₃ : s₃.pc = Function.update s₁.pc b (some (.enter (.loadProcess .lock))) := by
    rw [B.pc]
    refine Function.update_eq_self_iff.mpr ?_
    simp only [State.move, Function.update_of_ne hab, hpc₁]
  have hpc₃c : s₃.pc c = none := by
    rw [hpc₃, Function.update_of_ne hbc.symm, hpc₁]
  obtain ⟨s₄, hr₄, C⟩ := lock_alone hr₃ hpc₃c B.lock
  -- The thread `b` is still between its two tests.
  have hmid : s₄ = s₄.move b (.enter (.loadProcess .lock)) s₄.lock := by
    have hpc : s₄.pc = Function.update s₄.pc b (some (.enter (.loadProcess .lock))) := by
      refine (Function.update_eq_self_iff.mpr ?_).symm
      rw [C.pc, Function.update_of_ne hbc, hpc₃, Function.update_self]
    rw [State.move, ← hpc]
  rw [hmid] at hr₄
  obtain ⟨s₅, hr₅, D⟩ := reenter_alone hr₄ (by rw [C.lock]; exact hpr)
  refine ⟨s₅, hr₅, ?_, ?_⟩
  · rw [D.locked, D.unlocked, Function.update_self, Function.update_self, C.unlocked, Function.update_of_ne hbc,
      B.unlocked, Function.update_of_ne hab.symm]
    simp only [State.move, A.unlocked, Function.update_of_ne hab.symm]
    omega
  · rw [D.locked, D.unlocked, Function.update_of_ne hbc.symm, Function.update_of_ne hbc.symm, C.locked, C.unlocked,
      Function.update_self, Function.update_self, B.unlocked, Function.update_of_ne hac.symm]
    simp only [State.move, A.unlocked, Function.update_of_ne hac.symm]
    omega

/-- A lock shared by processes excludes its threads exactly if no thread shares its `pthread_self` with one
    thread and its process with another. -/
theorem excludes_iff_unmixed (spin : Bool) (hids : ids.Proper)
    (hunique : ∀ t u, ids.thread t = ids.thread u → ids.process t = ids.process u → t = u) :
    Excludes spin ids ↔ ids.Unmixed := by
  constructor
  · intro hex a b c hab hcb hth hpr
    have hac : a ≠ c := fun heq => hab (hunique a b hth (by rw [heq, hpr]))
    obtain ⟨s, hr, hb, hc⟩ := reachable_both spin hab hac hcb.symm hth hpr
    exact hcb (hex s hr c b hc hb)
  · intro hmix s hr t u ht hu
    exact (hr.inv hids hmix).exclusive ht hu

theorem excludes_iff_unmixed_distinct : Excludes true twoThreads :=
  (excludes_iff_unmixed true twoThreads_proper fun _ _ h _ => twoThreads_injective h).mpr
    (Ids.unmixed_of_injective twoThreads_injective)

/-- The only thread of a process; a thread of a process made by `fork`, which kept its `pthread_self`; another
    thread of that process. -/
def forked : Ids (Fin 3) := ⟨fun t => if t = 2 then 9 else 8, fun t => if t = 0 then 100 else 101⟩

theorem excludes_iff_unmixed_forked : ((∀ t, forked.thread t ≠ 0 ∧ forked.process t ≠ 0) ∧
    (∀ t u, forked.thread t = forked.thread u → forked.process t = forked.process u → t = u)) ∧
    ¬ Excludes true forked := by
  refine ⟨⟨by decide, by decide⟩, fun hex => ?_⟩
  obtain ⟨s, hr, hb, hc⟩ : ∃ s, Reachable true forked s ∧ s.unlocked 1 < s.locked 1 ∧ s.unlocked 2 < s.locked 2 :=
    reachable_both true (a := 0) (by decide) (by decide) (by decide) rfl rfl
  exact absurd (hex s hr 1 2 hb hc) (by decide)

end QPHi.LockSystem
