import Mathlib.Data.Nat.Notation

/-! Loops with fuel. A loop body either goes on with a new state or leaves with a result; `none` is a
    body that is stuck. Running out of fuel is `none` as well, so a result is a run that ended. -/

namespace Loop

/-- What one round of a loop decides. -/
inductive Next (σ β : Type) where
  | again (s : σ)
  | done (b : β)

variable {σ β γ : Type}

/-- Rounds of `body` from `s` until one of them leaves, at most `fuel` of them. -/
def iterate (body : σ → Option (Next σ β)) : Nat → σ → Option β
  | 0, _ => none
  | fuel + 1, s =>
    match body s with
    | none => none
    | some (.again s') => iterate body fuel s'
    | some (.done b) => some b

variable {body : σ → Option (Next σ β)} {s s' : σ} {b : β}

theorem iterate_again {fuel : Nat} (h : body s = some (.again s')) :
    iterate body (fuel + 1) s = iterate body fuel s' := by
  simp [iterate, h]

theorem iterate_done {fuel : Nat} (h : body s = some (.done b)) : iterate body (fuel + 1) s = some b := by
  simp [iterate, h]

/-- The states in which `iterate` makes its rounds, one after the other. -/
def visits (body : σ → Option (Next σ β)) : Nat → σ → List σ
  | 0, _ => []
  | fuel + 1, s =>
    s :: match body s with
    | some (.again s') => visits body fuel s'
    | _ => []

theorem visits_again {fuel : Nat} (h : body s = some (.again s')) :
    visits body (fuel + 1) s = s :: visits body fuel s' := by
  simp [visits, h]

theorem visits_last {fuel : Nat} (h : ∀ s', body s ≠ some (.again s')) : visits body (fuel + 1) s = [s] := by
  unfold visits
  split
  next s' hs' => exact absurd hs' (h s')
  next => rfl

/-- A computation with fuel returns `b`: every sufficient amount of fuel gives `b`. -/
def Returns (f : Nat → Option β) (b : β) : Prop := ∃ n₀, ∀ n, n₀ ≤ n → f n = some b

namespace Returns

theorem unique {f : Nat → Option β} {b b' : β} (h : Returns f b) (h' : Returns f b') : b = b' := by
  obtain ⟨n, hn⟩ := h
  obtain ⟨m, hm⟩ := h'
  have h₁ := hn (max n m) (Nat.le_max_left n m)
  have h₂ := hm (max n m) (Nat.le_max_right n m)
  rw [h₁] at h₂
  exact Option.some.inj h₂

theorem of_eq {f : Nat → Option β} (h : ∀ n, f n = some b) : Returns f b := ⟨0, fun n _ => h n⟩

theorem congr {f g : Nat → Option β} (h : ∀ n, g n = f n) (hf : Returns f b) : Returns g b := by
  obtain ⟨n, hn⟩ := hf
  exact ⟨n, fun m hm => (h m).trans (hn m hm)⟩

/-- Sequencing two computations that share their fuel. -/
theorem bind {f : Nat → Option β} {g : Nat → β → Option γ} {c : γ} (hf : Returns f b)
    (hg : Returns (fun n => g n b) c) : Returns (fun n => f n >>= g n) c := by
  obtain ⟨n, hn⟩ := hf
  obtain ⟨m, hm⟩ := hg
  refine ⟨max n m, fun k hk => ?_⟩
  show (f k).bind (g k) = some c
  rw [hn k (Nat.le_trans (Nat.le_max_left n m) hk)]
  exact hm k (Nat.le_trans (Nat.le_max_right n m) hk)

end Returns

theorem returns_again (h : body s = some (.again s')) (hs : Returns (fun fuel => iterate body fuel s') b) :
    Returns (fun fuel => iterate body fuel s) b := by
  obtain ⟨n, hn⟩ := hs
  refine ⟨n + 1, fun m hm => ?_⟩
  obtain ⟨m, rfl⟩ := Nat.exists_eq_succ_of_ne_zero (Nat.ne_of_gt (Nat.lt_of_lt_of_le (Nat.succ_pos n) hm))
  exact (iterate_again h).trans (hn m (Nat.le_of_succ_le_succ hm))

theorem returns_done (h : body s = some (.done b)) : Returns (fun fuel => iterate body fuel s) b := by
  refine ⟨1, fun m hm => ?_⟩
  obtain ⟨m, rfl⟩ := Nat.exists_eq_succ_of_ne_zero (Nat.ne_of_gt hm)
  exact iterate_done h

/-- The rule for loops: an invariant, indexed by a bound on the rounds to come, that every round lowers or
    leaves with the postcondition. -/
theorem iterate_returns (Inv : Nat → σ → Prop) (Post : β → Prop)
    (round : ∀ m s, Inv m s → (∃ b, body s = some (.done b) ∧ Post b) ∨
      (∃ s' m', body s = some (.again s') ∧ m' < m ∧ Inv m' s'))
    {m : Nat} {s : σ} (hs : Inv m s) : ∃ b, Post b ∧ Returns (fun fuel => iterate body fuel s) b := by
  induction m using Nat.strongRecOn generalizing s with
  | _ m ih =>
    rcases round m s hs with ⟨b, hb, hpost⟩ | ⟨s', m', hs', hlt, hinv⟩
    · exact ⟨b, hpost, returns_done hb⟩
    · obtain ⟨b, hpost, hb⟩ := ih m' hlt hinv
      exact ⟨b, hpost, returns_again hs' hb⟩

end Loop
