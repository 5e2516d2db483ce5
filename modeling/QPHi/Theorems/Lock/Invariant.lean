import QPHi.Lock

/-! The invariant of the re-entrant lock: what its fields are at each point of the thread that has it, and how
    far a thread that does not have it can get. The lock may be the mutex of a condition, which a sleeping
    thread gives up without the fields; so the holder is a parameter here. -/

namespace QPHi

variable {T : Type} {spin : Bool} {ids : Ids T} {t : T} {l l' : Lock T} {d : Nat}
  {holder : Option T} {pc : T → Option Pc} {depth : T → Nat}

/-- No thread shares its `pthread_self` with one thread and its `getpid` with another. -/
def Ids.Unmixed (ids : Ids T) : Prop :=
  ∀ a b c, a ≠ b → c ≠ b → ids.thread a = ids.thread b → ids.process c ≠ ids.process b

/-- No thread has an identity that stands for a lock nobody has. -/
def Ids.Proper (ids : Ids T) : Prop := ∀ t, ids.thread t ≠ 0 ∧ ids.process t ≠ 0

theorem Ids.unshared_of_injective (hinj : Function.Injective ids.thread) : ¬ ∃ a ≠ t, ids.thread a = ids.thread t := by
  rintro ⟨a, hat, ha⟩
  exact hat (hinj ha)

theorem Ids.unmixed_of_injective (hinj : Function.Injective ids.thread) : ids.Unmixed := by
  intro a b c hab _ ha
  exact absurd (hinj ha) hab

/-- Two threads of one process. -/
def twoThreads : Ids (Fin 2) := ⟨fun t => t.val + 1, fun _ => 7⟩

theorem twoThreads_injective : Function.Injective twoThreads.thread := by
  intro t u h
  exact Fin.ext (Nat.succ.inj h)

theorem twoThreads_proper : twoThreads.Proper := fun _ => ⟨Nat.succ_ne_zero _, by simp [twoThreads]⟩

def Lock.Fields (l : Lock T) (thread process counter : Nat) : Prop :=
  l.holdThread = thread ∧ l.holdProcess = process ∧ l.holdCounter = counter

/-- The fields of the lock while the holder `t` is at a point, with its depth. The counter is as long as a
    word, and a full one keeps the thread out. -/
def OwnerAt (ids : Ids T) (t : T) (l : Lock T) (d : Nat) : Option Pc → Prop
  | none | some (.enter (.loadCounter _)) | some (.enter (.acquire _)) | some (.leave .loadCounter) =>
    l.Fields (ids.thread t) (ids.process t) (d % 2 ^ 64) ∧ 1 ≤ d ∧ d ≤ 2 ^ 64
  | some (.enter (.loadThread _)) | some (.enter (.loadProcess _)) | some (.enter .reenter)
  | some (.leave .loadThread) | some (.leave .loadProcess) | some (.leave .uncount) =>
    l.Fields (ids.thread t) (ids.process t) d ∧ 1 ≤ d ∧ d < 2 ^ 64
  | some (.enter .setThread) => l.Fields 0 0 0 ∧ d = 0
  | some (.enter .setProcess) => l.Fields (ids.thread t) 0 0 ∧ d = 0
  | some (.enter .count) => l.Fields (ids.thread t) (ids.process t) 0 ∧ d = 0
  | some (.leave .recheck) => l.Fields (ids.thread t) (ids.process t) (d - 1) ∧ 1 ≤ d ∧ d < 2 ^ 64
  | some (.leave .clearThread) => l.Fields (ids.thread t) (ids.process t) 0 ∧ d = 1
  | some (.leave .clearProcess) => l.Fields 0 (ids.process t) 0 ∧ d = 1
  | some (.leave .release) => l.Fields 0 0 0 ∧ d = 1

/-- Where a thread can be that does not have the lock. It has read its own `pthread_self` from the lock only if
    another thread has the same one. -/
def Outside (ids : Ids T) (t : T) : Option Pc → Prop
  | none | some (.enter (.loadCounter _)) | some (.enter (.loadThread _)) | some (.enter (.acquire _))
  | some (.leave .loadCounter) | some (.leave .loadThread) => True
  | some (.enter (.loadProcess _)) | some (.leave .loadProcess) => ∃ a ≠ t, ids.thread a = ids.thread t
  | _ => False

theorem OwnerAt.holdThread {q : Option Pc} (H : OwnerAt ids t l d q) :
    l.holdThread = 0 ∨ l.holdThread = ids.thread t := by
  unfold OwnerAt at H
  split at H <;> first | exact .inr H.1.1 | exact .inl H.1.1

theorem OwnerAt.holdProcess {q : Option Pc} (H : OwnerAt ids t l d q) :
    l.holdProcess = 0 ∨ l.holdProcess = ids.process t := by
  unfold OwnerAt at H
  split at H <;> first | exact .inr H.1.2.1 | exact .inl H.1.2.1

structure LockInv (ids : Ids T) (holder : Option T) (l : Lock T) (pc : T → Option Pc) (depth : T → Nat) : Prop where
  free : holder = none → l.Fields 0 0 0
  owner : ∀ t, holder = some t → OwnerAt ids t l (depth t) (pc t)
  outside : ∀ t, holder ≠ some t → depth t = 0 ∧ Outside ids t (pc t)

namespace LockInv

/-- A thread outside finds its `pthread_self` in the lock only if it shares it with the holder. -/
theorem thread_shared (I : LockInv ids holder l pc depth) (hids : ids.Proper) (ht : holder ≠ some t)
    (hth : l.holdThread = ids.thread t) : ∃ a ≠ t, ids.thread a = ids.thread t := by
  cases hh : holder with
  | none => exact absurd (hth.symm.trans (I.free hh).1) (hids t).1
  | some a =>
    have hat : a ≠ t := fun heq => ht (by rw [hh, heq])
    rcases (I.owner a hh).holdThread with h0 | ha
    · exact absurd (hth.symm.trans h0) (hids t).1
    · exact ⟨a, hat, ha.symm.trans hth⟩

theorem process_shared (I : LockInv ids holder l pc depth) (hids : ids.Proper) (ht : holder ≠ some t)
    (hpr : l.holdProcess = ids.process t) : ∃ c ≠ t, ids.process c = ids.process t := by
  cases hh : holder with
  | none => exact absurd (hpr.symm.trans (I.free hh).2.1) (hids t).2
  | some c =>
    have hct : c ≠ t := fun heq => ht (by rw [hh, heq])
    rcases (I.owner c hh).holdProcess with h0 | hc
    · exact absurd (hpr.symm.trans h0) (hids t).2
    · exact ⟨c, hct, hc.symm.trans hpr⟩

/-- A thread outside that finds its own `pthread_self` in the lock does not find its own process there. -/
theorem process_foreign (I : LockInv ids holder l pc depth) (hids : ids.Proper) (hmix : ids.Unmixed) (ht : holder ≠ some t)
    (hself : ∃ a ≠ t, ids.thread a = ids.thread t) : l.holdProcess ≠ ids.process t := by
  intro hpr
  obtain ⟨a, hat, ha⟩ := hself
  obtain ⟨c, hct, hc⟩ := I.process_shared hids ht hpr
  exact hmix a t c hat hct ha hc

end LockInv

variable [DecidableEq T]

/-! ### The holder's own accesses -/

theorem OwnerAt.lockAdvance {p : LockPc} {o : Outcome LockPc} (H : OwnerAt ids t l d (some (.enter p)))
    (ht : l.taken = some t) (hadv : lockAdvance spin ids t l p = some (l', o)) :
    l'.taken = some t ∧ OwnerAt ids t l' (d + o.successes) o.enterPc := by
  cases p with
  | loadCounter call =>
    obtain ⟨⟨hth, hpr, hc⟩, hd, hd'⟩ := H
    simp only [QPHi.lockAdvance, Option.some.injEq, Prod.mk.injEq] at hadv
    obtain ⟨rfl, rfl⟩ := hadv
    refine ⟨ht, ?_⟩
    split
    · exact ⟨⟨hth, hpr, by simp only [Outcome.successes]; omega⟩, hd, by simp only [Outcome.successes]; omega⟩
    · exact ⟨⟨hth, hpr, hc⟩, hd, hd'⟩
  | loadThread call =>
    obtain ⟨⟨hth, hpr, hc⟩, hd, hd'⟩ := H
    simp only [QPHi.lockAdvance, if_pos hth, Option.some.injEq, Prod.mk.injEq] at hadv
    obtain ⟨rfl, rfl⟩ := hadv
    exact ⟨ht, ⟨hth, hpr, hc⟩, hd, hd'⟩
  | loadProcess call =>
    obtain ⟨⟨hth, hpr, hc⟩, hd, hd'⟩ := H
    simp only [QPHi.lockAdvance, if_pos hpr, Option.some.injEq, Prod.mk.injEq] at hadv
    obtain ⟨rfl, rfl⟩ := hadv
    exact ⟨ht, ⟨hth, hpr, hc⟩, hd, hd'⟩
  | reenter =>
    obtain ⟨⟨hth, hpr, hc⟩, hd, hd'⟩ := H
    simp only [QPHi.lockAdvance, Option.some.injEq, Prod.mk.injEq] at hadv
    obtain ⟨rfl, rfl⟩ := hadv
    refine ⟨ht, ⟨hth, hpr, ?_⟩, Nat.le_add_left _ _, hd'⟩
    simp only [addWord, hc]
    rfl
  | acquire call =>
    -- Only a thread whose counter is full comes here with the lock, and it is turned away.
    obtain ⟨hf, hd, hd'⟩ := H
    simp only [QPHi.lockAdvance, ht] at hadv
    cases call with
    | trylock =>
      simp only [Option.some.injEq, Prod.mk.injEq] at hadv
      obtain ⟨rfl, rfl⟩ := hadv
      exact ⟨ht, hf, hd, hd'⟩
    | lock =>
      simp only [↓reduceIte] at hadv
      split at hadv
      · simp only [Option.some.injEq, Prod.mk.injEq] at hadv
        obtain ⟨rfl, rfl⟩ := hadv
        exact ⟨ht, hf, hd, hd'⟩
      · simp only [Option.some.injEq, Prod.mk.injEq] at hadv
        obtain ⟨rfl, rfl⟩ := hadv
        exact ⟨ht, hf, hd, hd'⟩
  | setThread =>
    obtain ⟨⟨hth, hpr, hc⟩, hd⟩ := H
    simp only [QPHi.lockAdvance, Option.some.injEq, Prod.mk.injEq] at hadv
    obtain ⟨rfl, rfl⟩ := hadv
    exact ⟨ht, ⟨rfl, hpr, hc⟩, hd⟩
  | setProcess =>
    obtain ⟨⟨hth, hpr, hc⟩, hd⟩ := H
    simp only [QPHi.lockAdvance, Option.some.injEq, Prod.mk.injEq] at hadv
    obtain ⟨rfl, rfl⟩ := hadv
    exact ⟨ht, ⟨hth, rfl, hc⟩, hd⟩
  | count =>
    obtain ⟨⟨hth, hpr, hc⟩, hd⟩ := H
    simp only [QPHi.lockAdvance, Option.some.injEq, Prod.mk.injEq] at hadv
    obtain ⟨rfl, rfl⟩ := hadv
    subst hd
    refine ⟨ht, ⟨hth, hpr, ?_⟩, Nat.le_refl 1, by simp [Outcome.successes]⟩
    simp only [addWord, hc]
    rfl

theorem subWord_one {n : Nat} (h₁ : 1 ≤ n) (h₂ : n < 2 ^ 64) : subWord n 1 = n - 1 := by
  simp only [subWord]
  omega

/-- An access of the holder in `qp_lock_unlock` keeps the lock, or gives it up with the fields cleared. A call
    that returns without giving the lock up leaves it held more than once. -/
theorem OwnerAt.unlockAdvance {p : UnlockPc} {o : Outcome UnlockPc} (H : OwnerAt ids t l d (some (.leave p)))
    (ht : l.taken = some t) (hadv : unlockAdvance spin ids t l p = (l', o)) :
    (l'.taken = some t ∧ o.successes < d ∧ ((∃ p', o = .goto p') ∨ 1 < d) ∧
      OwnerAt ids t l' (d - o.successes) o.leavePc) ∨
    (l'.taken = none ∧ d = 1 ∧ o = .ret QP_SUCCESS ∧ l'.Fields 0 0 0) := by
  cases p with
  | loadCounter =>
    obtain ⟨⟨hth, hpr, hc⟩, hd, hd'⟩ := H
    simp only [QPHi.unlockAdvance, Prod.mk.injEq] at hadv
    obtain ⟨rfl, rfl⟩ := hadv
    left
    split
    · exact ⟨ht, hd, .inr (by omega), ⟨hth, hpr, hc⟩, hd, hd'⟩
    · exact ⟨ht, hd, .inl ⟨_, rfl⟩, ⟨hth, hpr, by simp only [Outcome.successes]; omega⟩, hd,
        by simp only [Outcome.successes]; omega⟩
  | loadThread =>
    obtain ⟨⟨hth, hpr, hc⟩, hd, hd'⟩ := H
    simp only [QPHi.unlockAdvance, if_pos hth, Prod.mk.injEq] at hadv
    obtain ⟨rfl, rfl⟩ := hadv
    exact .inl ⟨ht, hd, .inl ⟨_, rfl⟩, ⟨hth, hpr, hc⟩, hd, hd'⟩
  | loadProcess =>
    obtain ⟨⟨hth, hpr, hc⟩, hd, hd'⟩ := H
    simp only [QPHi.unlockAdvance, if_pos hpr, Prod.mk.injEq] at hadv
    obtain ⟨rfl, rfl⟩ := hadv
    exact .inl ⟨ht, hd, .inl ⟨_, rfl⟩, ⟨hth, hpr, hc⟩, hd, hd'⟩
  | uncount =>
    obtain ⟨⟨hth, hpr, hc⟩, hd, hd'⟩ := H
    simp only [QPHi.unlockAdvance, hc, subWord_one hd hd', Prod.mk.injEq] at hadv
    obtain ⟨rfl, rfl⟩ := hadv
    exact .inl ⟨ht, hd, .inl ⟨_, rfl⟩, ⟨hth, hpr, rfl⟩, hd, hd'⟩
  | recheck =>
    obtain ⟨⟨hth, hpr, hc⟩, hd, hd'⟩ := H
    simp only [QPHi.unlockAdvance, Prod.mk.injEq] at hadv
    obtain ⟨rfl, rfl⟩ := hadv
    left
    split
    next hne =>
      have hd₁ : 1 < d := by omega
      refine ⟨ht, hd₁, .inr hd₁, ⟨hth, hpr, ?_⟩, ?_, ?_⟩ <;> simp only [Outcome.successes, ↓reduceIte] <;> omega
    next hz =>
      have hd₁ : d = 1 := by omega
      exact ⟨ht, hd, .inl ⟨_, rfl⟩, ⟨hth, hpr, by omega⟩, hd₁⟩
  | clearThread =>
    obtain ⟨⟨hth, hpr, hc⟩, rfl⟩ := H
    simp only [QPHi.unlockAdvance, Prod.mk.injEq] at hadv
    obtain ⟨rfl, rfl⟩ := hadv
    exact .inl ⟨ht, Nat.one_pos, .inl ⟨_, rfl⟩, ⟨rfl, hpr, hc⟩, rfl⟩
  | clearProcess =>
    obtain ⟨⟨hth, hpr, hc⟩, rfl⟩ := H
    simp only [QPHi.unlockAdvance, Prod.mk.injEq] at hadv
    obtain ⟨rfl, rfl⟩ := hadv
    exact .inl ⟨ht, Nat.one_pos, .inl ⟨_, rfl⟩, ⟨hth, rfl, hc⟩, rfl⟩
  | release =>
    obtain ⟨hf, rfl⟩ := H
    simp only [QPHi.unlockAdvance, ht, Option.isSome_some, ↓reduceIte, ite_self, Prod.mk.injEq] at hadv
    obtain ⟨rfl, rfl⟩ := hadv
    exact .inr ⟨rfl, rfl, rfl, hf⟩

/-! ### The accesses of a thread outside -/

namespace LockInv

/-- A thread outside changes nothing in `qp_lock_lock` and does not succeed, or it takes the lock. -/
theorem lockAdvance_outside {p : LockPc} {o : Outcome LockPc} (I : LockInv ids holder l pc depth)
    (hids : ids.Proper) (hmix : ids.Unmixed) (ht : holder ≠ some t) (hpc : pc t = some (.enter p))
    (hadv : lockAdvance spin ids t l p = some (l', o)) :
    (l' = l ∧ o.successes = 0 ∧ Outside ids t o.enterPc) ∨
    (l.taken = none ∧ (∃ call, p = .acquire call) ∧ l' = { l with taken := some t } ∧ o = .goto .setThread) := by
  obtain ⟨-, hout⟩ := I.outside t ht
  rw [hpc] at hout
  cases p with
  | loadCounter call =>
    simp only [lockAdvance, Option.some.injEq, Prod.mk.injEq] at hadv
    obtain ⟨rfl, rfl⟩ := hadv
    refine .inl ⟨rfl, rfl, ?_⟩
    split <;> trivial
  | loadThread call =>
    simp only [lockAdvance, Option.some.injEq, Prod.mk.injEq] at hadv
    obtain ⟨rfl, rfl⟩ := hadv
    refine .inl ⟨rfl, rfl, ?_⟩
    split
    next hth => exact I.thread_shared hids ht hth
    next => trivial
  | loadProcess call =>
    simp only [lockAdvance, Option.some.injEq, Prod.mk.injEq] at hadv
    obtain ⟨rfl, rfl⟩ := hadv
    refine .inl ⟨rfl, rfl, ?_⟩
    split
    next hpr => exact absurd hpr (I.process_foreign hids hmix ht hout)
    next => trivial
  | acquire call =>
    cases htaken : l.taken with
    | none =>
      simp only [lockAdvance, htaken, Option.some.injEq, Prod.mk.injEq] at hadv
      obtain ⟨rfl, rfl⟩ := hadv
      exact .inr ⟨rfl, ⟨call, rfl⟩, rfl, rfl⟩
    | some u =>
      simp only [lockAdvance, htaken] at hadv
      cases call with
      | trylock =>
        simp only [Option.some.injEq, Prod.mk.injEq] at hadv
        obtain ⟨rfl, rfl⟩ := hadv
        exact .inl ⟨rfl, rfl, trivial⟩
      | lock =>
        simp only at hadv
        split at hadv
        · simp only [Option.some.injEq, Prod.mk.injEq] at hadv
          obtain ⟨rfl, rfl⟩ := hadv
          exact .inl ⟨rfl, rfl, trivial⟩
        · split at hadv
          · simp only [Option.some.injEq, Prod.mk.injEq] at hadv
            obtain ⟨rfl, rfl⟩ := hadv
            exact .inl ⟨rfl, rfl, trivial⟩
          · exact absurd hadv (by simp)
  | reenter => exact hout.elim
  | setThread => exact hout.elim
  | setProcess => exact hout.elim
  | count => exact hout.elim

/-- A thread outside changes nothing in `qp_lock_unlock`, and gets `QP_ERROR`. -/
theorem unlockAdvance_outside {p : UnlockPc} {o : Outcome UnlockPc} (I : LockInv ids holder l pc depth)
    (hids : ids.Proper) (hmix : ids.Unmixed) (ht : holder ≠ some t) (hpc : pc t = some (.leave p))
    (hadv : unlockAdvance spin ids t l p = (l', o)) :
    l' = l ∧ Outside ids t o.leavePc ∧ (o = .ret QP_ERROR ∨ ∃ p', o = .goto p') := by
  obtain ⟨-, hout⟩ := I.outside t ht
  rw [hpc] at hout
  cases p with
  | loadCounter =>
    simp only [unlockAdvance, Prod.mk.injEq] at hadv
    obtain ⟨rfl, rfl⟩ := hadv
    refine ⟨rfl, ?_⟩
    split
    · exact ⟨trivial, .inl rfl⟩
    · exact ⟨trivial, .inr ⟨_, rfl⟩⟩
  | loadThread =>
    simp only [unlockAdvance, Prod.mk.injEq] at hadv
    obtain ⟨rfl, rfl⟩ := hadv
    refine ⟨rfl, ?_⟩
    split
    next hth => exact ⟨I.thread_shared hids ht hth, .inr ⟨_, rfl⟩⟩
    next => exact ⟨trivial, .inl rfl⟩
  | loadProcess =>
    simp only [unlockAdvance, Prod.mk.injEq] at hadv
    obtain ⟨rfl, rfl⟩ := hadv
    refine ⟨rfl, ?_⟩
    split
    next hpr => exact absurd hpr (I.process_foreign hids hmix ht hout)
    next => exact ⟨trivial, .inl rfl⟩
  | uncount => exact hout.elim
  | recheck => exact hout.elim
  | clearThread => exact hout.elim
  | clearProcess => exact hout.elim
  | release => exact hout.elim

/-! ### The invariant after an access -/

/-- A thread takes a free lock, or makes an access and keeps the lock. -/
theorem hold (I : LockInv ids holder l pc depth) (hh : holder = none ∨ holder = some t) {q : Option Pc}
    (H : OwnerAt ids t l' d q) :
    LockInv ids (some t) l' (Function.update pc t q) (Function.update depth t d) := by
  refine ⟨by simp, fun u hu => ?_, fun u hu => ?_⟩
  · obtain rfl := Option.some.inj hu
    simpa only [Function.update_self] using H
  · have hut : u ≠ t := fun heq => hu (by rw [heq])
    have hu' : holder ≠ some u := by
      rcases hh with rfl | rfl
      · simp
      · exact hu
    simpa only [Function.update_of_ne hut] using I.outside u hu'

/-- The holder gives the lock up. -/
theorem drop (I : LockInv ids (some t) l pc depth) {q : Option Pc} (hf : l'.Fields 0 0 0) (hq : Outside ids t q) :
    LockInv ids none l' (Function.update pc t q) (Function.update depth t 0) := by
  refine ⟨fun _ => hf, by simp, fun u _ => ?_⟩
  by_cases hut : u = t
  · subst hut
    rw [Function.update_self, Function.update_self]
    exact ⟨rfl, hq⟩
  · simpa only [Function.update_of_ne hut] using I.outside u (fun heq => hut (Option.some.inj heq).symm)

/-- A thread outside moves. -/
theorem roam (I : LockInv ids holder l pc depth) (ht : holder ≠ some t) {q : Option Pc} (hq : Outside ids t q) :
    LockInv ids holder l (Function.update pc t q) (Function.update depth t 0) := by
  refine ⟨I.free, fun u hu => ?_, fun u hu => ?_⟩
  · have hut : u ≠ t := fun heq => ht (by rw [← heq, hu])
    simpa only [Function.update_of_ne hut] using I.owner u hu
  · by_cases hut : u = t
    · subst hut
      rw [Function.update_self, Function.update_self]
      exact ⟨rfl, hq⟩
    · simpa only [Function.update_of_ne hut] using I.outside u hu

end LockInv

end QPHi
