import QPHi.Lib.Loop

/-! Commands on a state, and rules of pre- and postconditions for them. A command may end, get stuck, or run out of
    the fuel of its loops; a rule promises its postcondition when the command ends, and that it never gets stuck. -/

namespace Command

/-- Why a command does not end: it does something that has no meaning, or its loops need more fuel. -/
inductive Halt where
  | stuck
  | fuel
deriving DecidableEq, Repr

abbrev Cmd (σ α : Type) := StateT σ (Except Halt) α

variable {σ α β : Type} {P P' : σ → Prop} {I : σ → Prop}

def stuck : Cmd σ α := fun _ => .error .stuck

/-- A command that is run under a condition only. -/
def when (c : Prop) [Decidable c] (m : Cmd σ Unit) : Cmd σ Unit := if c then m else pure ()

/-- What one round of a loop decides. -/
inductive Next (α β : Type) where
  | again (a : α)
  | done (b : β)

/-- Rounds of `body` until one of them is done. -/
def loop (body : α → Cmd σ (Next α β)) : Nat → α → Cmd σ β
  | 0, _ => fun _ => .error .fuel
  | fuel + 1, a => do
    match ← body a with
    | .again a' => loop body fuel a'
    | .done b => return b

theorem run_bind {m : Cmd σ α} {f : α → Cmd σ β} {s s' : σ} {a : α} (h : m s = .ok (a, s')) :
    (m >>= f) s = f a s' := by
  show Except.bind (m s) (fun x => f x.1 x.2) = f a s'
  rw [h]
  rfl

theorem run_halt {m : Cmd σ α} {f : α → Cmd σ β} {s : σ} {halt : Halt} (h : m s = .error halt) :
    (m >>= f) s = .error halt := by
  show Except.bind (m s) (fun x => f x.1 x.2) = .error halt
  rw [h]
  rfl

theorem run_when {c : Prop} [Decidable c] {m : Cmd σ Unit} (h : c) : when c m = m := if_pos h

theorem when_skip {c : Prop} [Decidable c] {m : Cmd σ Unit} (h : ¬ c) : when c m = pure () := if_neg h

theorem run_skip {c : Prop} [Decidable c] {m : Cmd σ Unit} {s : σ} (h : ¬ c) : when c m s = .ok ((), s) := by
  unfold when
  rw [if_neg h]
  rfl

theorem loop_done {body : α → Cmd σ (Next α β)} {fuel : Nat} {a : α} {b : β} {s s' : σ} (h : body a s = .ok (.done b, s')) :
    loop body (fuel + 1) a s = .ok (b, s') := run_bind h

theorem loop_again {body : α → Cmd σ (Next α β)} {fuel : Nat} {a a' : α} {s s' : σ} (h : body a s = .ok (.again a', s')) :
    loop body (fuel + 1) a s = loop body fuel a' s' := run_bind h

/-! ### Triples -/

def Meets (Q : α → σ → Prop) : Except Halt (α × σ) → Prop
  | .ok (a, s) => Q a s
  | .error .fuel => True
  | .error .stuck => False

theorem Meets.of_ok {Q : α → σ → Prop} {r : Except Halt (α × σ)} {a : α} {s : σ} (h : Meets Q r) (hr : r = .ok (a, s)) :
    Q a s := by
  rw [hr] at h
  exact h

theorem Meets.ne_stuck {Q : α → σ → Prop} {r : Except Halt (α × σ)} (h : Meets Q r) : r ≠ .error .stuck := by
  rintro rfl
  exact h

/-- From a state with `P` the command `m` does not get stuck, and if it ends then with `Q`. -/
def Triple (P : σ → Prop) (m : Cmd σ α) (Q : α → σ → Prop) : Prop := ∀ s, P s → Meets Q (m s)

/-- The command keeps the invariant `I`. -/
def Keeps (I : σ → Prop) (m : Cmd σ α) : Prop := Triple I m fun _ => I

namespace Triple
variable {m : Cmd σ α} {Q Q' : α → σ → Prop}

theorem conseq (h : Triple P' m Q') (hP : ∀ s, P s → P' s) (hQ : ∀ a s, Q' a s → Q a s) : Triple P m Q := by
  intro s hs
  have hm := h s (hP s hs)
  match hr : m s with
  | .ok (a, s') =>
    rw [hr] at hm
    exact hQ a s' hm
  | .error .fuel => trivial
  | .error .stuck =>
    rw [hr] at hm
    exact hm.elim

/-- What holds after a run from one state. -/
theorem start {s₀ : σ} (h : Meets Q (m s₀)) : Triple (fun s => s = s₀) m Q := by
  rintro s rfl
  exact h

theorem pure {a : α} (h : ∀ s, P s → Q a s) : Triple P (Pure.pure a) Q := h

theorem bind {f : α → Cmd σ β} {R : α → σ → Prop} {Q : β → σ → Prop} (hm : Triple P m R)
    (hf : ∀ a, Triple (R a) (f a) Q) : Triple P (m >>= f) Q := by
  intro s hs
  have hm := hm s hs
  show Meets Q (Except.bind (m s) fun x => f x.1 x.2)
  match hr : m s with
  | .ok (a, s') =>
    rw [hr] at hm
    exact hf a s' hm
  | .error .fuel => trivial
  | .error .stuck =>
    rw [hr] at hm
    exact hm.elim

theorem ite {c : Prop} [Decidable c] {m' : Cmd σ α} (hm : c → Triple P m Q) (hm' : ¬ c → Triple P m' Q) :
    Triple P (if c then m else m') Q := by
  split
  next h => exact hm h
  next h => exact hm' h

theorem when {c : Prop} [Decidable c] {m : Cmd σ Unit} {Q : Unit → σ → Prop} (hm : c → Triple P m Q)
    (hskip : ¬ c → ∀ s, P s → Q () s) : Triple P (Command.when c m) Q := by
  unfold Command.when
  split
  next h => exact hm h
  next h => exact hskip h

/-- A fact about the start that does not speak of the state. -/
theorem given {c : Prop} (h : c → Triple P m Q) : Triple (fun s => c ∧ P s) m Q := fun s hs => h hs.1 s hs.2

/-- The rule for loops: an invariant that holds at the start of every round. -/
theorem loop {body : α → Cmd σ (Next α β)} {J : α → σ → Prop} {Q : β → σ → Prop}
    (hbody : ∀ a, Triple (J a) (body a) fun x s =>
      match x with
      | .again a' => J a' s
      | .done b => Q b s) (fuel : Nat) (a : α) : Triple (J a) (Command.loop body fuel a) Q := by
  induction fuel generalizing a with
  | zero => exact fun _ _ => trivial
  | succ fuel ih =>
    refine (hbody a).bind fun x => ?_
    cases x with
    | again a' => exact ih a'
    | done b => exact Triple.pure fun _ h => h

end Triple

/-! ### Invariants -/

namespace Keeps

theorem pure (a : α) : Keeps I (Pure.pure a : Cmd σ α) := Triple.pure fun _ h => h

theorem bind {m : Cmd σ α} {f : α → Cmd σ β} (hm : Keeps I m) (hf : ∀ a, Keeps I (f a)) : Keeps I (m >>= f) :=
  Triple.bind hm hf

theorem get : Keeps I (MonadState.get : Cmd σ σ) := fun _ h => h

theorem modify {f : σ → σ} (h : ∀ s, I s → I (f s)) : Keeps I (MonadStateOf.modifyGet fun s => ((), f s) : Cmd σ Unit) := h

theorem ite {c : Prop} [Decidable c] {m m' : Cmd σ α} (hm : Keeps I m) (hm' : Keeps I m') :
    Keeps I (if c then m else m') := Triple.ite (fun _ => hm) fun _ => hm'

theorem when {c : Prop} [Decidable c] {m : Cmd σ Unit} (hm : Keeps I m) : Keeps I (Command.when c m) :=
  Triple.when (fun _ => hm) fun _ _ h => h

theorem loop {body : α → Cmd σ (Next α β)} (hbody : ∀ a, Keeps I (body a)) (fuel : Nat) (a : α) :
    Keeps I (Command.loop body fuel a) := by
  refine Triple.loop (J := fun _ => I) (fun a => (hbody a).conseq (fun _ h => h) fun x s h => ?_) fuel a
  cases x <;> exact h

end Keeps

/-! ### Commands that end -/

/-- From a state with `P` the command `m` ends, and with `Q`. -/
def Total (P : σ → Prop) (m : Cmd σ α) (Q : α → σ → Prop) : Prop := ∀ s, P s → ∃ a s', m s = .ok (a, s') ∧ Q a s'

/-- If `m` ends from `s`, then with `Q`. -/
def After (m : Cmd σ α) (Q : α → σ → Prop) (s : σ) : Prop := ∀ a s', m s = .ok (a, s') → Q a s'

instance (m : Cmd σ α) (Q : α → σ → Prop) [∀ a s, Decidable (Q a s)] (s : σ) : Decidable (After m Q s) :=
  match h : m s with
  | .ok (a, s') =>
    decidable_of_iff (Q a s') ⟨fun hQ _ _ hrun => by cases h.symm.trans hrun; exact hQ, fun hafter => hafter a s' h⟩
  | .error _ => isTrue fun _ _ hrun => by cases h.symm.trans hrun

namespace Total
variable {m : Cmd σ α} {Q Q' : α → σ → Prop}

theorem conseq (h : Total P' m Q') (hP : ∀ s, P s → P' s) (hQ : ∀ a s, Q' a s → Q a s) : Total P m Q := by
  intro s hs
  obtain ⟨a, s', hrun, hQ'⟩ := h s (hP s hs)
  exact ⟨a, s', hrun, hQ a s' hQ'⟩

theorem pure {a : α} (h : ∀ s, P s → Q a s) : Total P (Pure.pure a) Q := fun s hs => ⟨a, s, rfl, h s hs⟩

theorem bind {f : α → Cmd σ β} {R : α → σ → Prop} {Q : β → σ → Prop} (hm : Total P m R)
    (hf : ∀ a, Total (R a) (f a) Q) : Total P (m >>= f) Q := by
  intro s hs
  obtain ⟨a, s', hrun, hR⟩ := hm s hs
  rw [run_bind hrun]
  exact hf a s' hR

theorem ite {c : Prop} [Decidable c] {m' : Cmd σ α} (hm : c → Total P m Q) (hm' : ¬ c → Total P m' Q) :
    Total P (if c then m else m') Q := by
  split
  next h => exact hm h
  next h => exact hm' h

theorem given {c : Prop} (h : c → Total P m Q) : Total (fun s => c ∧ P s) m Q := fun s hs => h hs.1 s hs.2

/-- The rule for loops: an invariant, indexed by a bound on the rounds to come, that every round lowers. -/
theorem loop {body : α → Cmd σ (Next α β)} {J : Nat → α → σ → Prop} {Q : β → σ → Prop}
    (hbody : ∀ n a, Total (J n a) (body a) fun x s =>
      match x with
      | .again a' => ∃ n' < n, J n' a' s
      | .done b => Q b s) {fuel n : Nat} (hfuel : n < fuel) (a : α) : Total (J n a) (Command.loop body fuel a) Q := by
  induction fuel generalizing n a with
  | zero => exact absurd hfuel (Nat.not_lt_zero n)
  | succ fuel ih =>
    refine (hbody n a).bind fun x => ?_
    cases x with
    | again a' =>
      rintro s ⟨n', hn', hJ⟩
      exact ih (by omega) a' s hJ
    | done b => exact pure fun _ h => h

end Total

/-! ### Commands that have enough fuel -/

def Settles (Q : α → σ → Prop) : Except Halt (α × σ) → Prop
  | .ok (a, s) => Q a s
  | .error .fuel => False
  | .error .stuck => True

theorem Settles.of_ok {Q : α → σ → Prop} {r : Except Halt (α × σ)} {a : α} {s : σ} (h : Settles Q r) (hr : r = .ok (a, s)) :
    Q a s := by
  rw [hr] at h
  exact h

theorem Settles.ne_fuel {Q : α → σ → Prop} {r : Except Halt (α × σ)} (h : Settles Q r) : r ≠ .error .fuel := by
  rintro rfl
  exact h

theorem Settles.mono {Q Q' : α → σ → Prop} {r : Except Halt (α × σ)} (h : Settles Q r) (hQ : ∀ a s, Q a s → Q' a s) :
    Settles Q' r := by
  match r with
  | .ok (a, s) => exact hQ a s h
  | .error .fuel => exact h
  | .error .stuck => trivial

/-- What holds after a round that goes on, and after one that is done. -/
def Next.Either (J : α → σ → Prop) (Q : β → σ → Prop) : Next α β → σ → Prop
  | .again a, s => J a s
  | .done b, s => Q b s

/-- From a state with `P` the command `m` does not run out of fuel, and if it ends then with `Q`. -/
def Fueled (P : σ → Prop) (m : Cmd σ α) (Q : α → σ → Prop) : Prop := ∀ s, P s → Settles Q (m s)

/-- The command keeps the invariant `I`, and has enough fuel for it. -/
def Stays (I : σ → Prop) (m : Cmd σ α) : Prop := Fueled I m fun _ => I

namespace Fueled
variable {m : Cmd σ α} {Q Q' : α → σ → Prop}

theorem conseq (h : Fueled P' m Q') (hP : ∀ s, P s → P' s) (hQ : ∀ a s, Q' a s → Q a s) : Fueled P m Q :=
  fun s hs => (h s (hP s hs)).mono hQ

theorem pure {a : α} (h : ∀ s, P s → Q a s) : Fueled P (Pure.pure a) Q := h

theorem stuck : Fueled P (Command.stuck : Cmd σ α) Q := fun _ _ => trivial

theorem bind {f : α → Cmd σ β} {R : α → σ → Prop} {Q : β → σ → Prop} (hm : Fueled P m R)
    (hf : ∀ a, Fueled (R a) (f a) Q) : Fueled P (m >>= f) Q := by
  intro s hs
  have hm := hm s hs
  show Settles Q (Except.bind (m s) fun x => f x.1 x.2)
  match hr : m s with
  | .ok (a, s') =>
    rw [hr] at hm
    exact hf a s' hm
  | .error .fuel =>
    rw [hr] at hm
    exact hm.elim
  | .error .stuck => trivial

theorem ite {c : Prop} [Decidable c] {m' : Cmd σ α} (hm : c → Fueled P m Q) (hm' : ¬ c → Fueled P m' Q) :
    Fueled P (if c then m else m') Q := by
  split
  next h => exact hm h
  next h => exact hm' h

theorem when {c : Prop} [Decidable c] {m : Cmd σ Unit} {Q : Unit → σ → Prop} (hm : c → Fueled P m Q)
    (hskip : ¬ c → ∀ s, P s → Q () s) : Fueled P (Command.when c m) Q := by
  unfold Command.when
  split
  next h => exact hm h
  next h => exact hskip h

/-- A fact about the start that does not speak of the state. -/
theorem given {c : Prop} (h : c → Fueled P m Q) : Fueled (fun s => c ∧ P s) m Q := fun s hs => h hs.1 s hs.2

theorem and (h : Fueled P m Q) (h' : Fueled P' m Q') : Fueled (fun s => P s ∧ P' s) m fun a s => Q a s ∧ Q' a s := by
  rintro s ⟨hP, hP'⟩
  have hm := h s hP
  have hm' := h' s hP'
  match hr : m s with
  | .ok (a, s') =>
    rw [hr] at hm hm'
    exact ⟨hm, hm'⟩
  | .error .fuel =>
    rw [hr] at hm
    exact hm.elim
  | .error .stuck => trivial

/-- The rule for loops: an invariant, indexed by a bound on the rounds to come, that every round lowers. -/
theorem loop {body : α → Cmd σ (Next α β)} {J : Nat → α → σ → Prop} {Q : β → σ → Prop}
    (hbody : ∀ n a, Fueled (J n a) (body a) (Next.Either (fun a' s => ∃ n' < n, J n' a' s) Q)) {fuel n : Nat}
    (hfuel : n < fuel) (a : α) : Fueled (J n a) (Command.loop body fuel a) Q := by
  induction fuel generalizing n a with
  | zero => exact absurd hfuel (Nat.not_lt_zero n)
  | succ fuel ih =>
    refine (hbody n a).bind fun x => ?_
    cases x with
    | again a' =>
      rintro s ⟨n', hn', hJ⟩
      exact ih (by omega) a' s hJ
    | done b => exact Fueled.pure fun _ h => h

/-- A loop whose rounds have a measure of their own, next to what is known of them. -/
theorem loop_within {body : α → Cmd σ (Next α β)} {J : Nat → α → σ → Prop} {K : α → σ → Prop} {Q : β → σ → Prop}
    (hround : ∀ n a, Fueled (J n a) (body a) (Next.Either (fun a' s => ∃ n' < n, J n' a' s) fun _ _ => True))
    (hbody : ∀ a, Fueled (K a) (body a) (Next.Either K Q)) {fuel n : Nat} (hfuel : n < fuel) (a : α) :
    Fueled (fun s => J n a s ∧ K a s) (Command.loop body fuel a) Q := by
  refine loop (J := fun n a s => J n a s ∧ K a s) (fun n a => ?_) hfuel a
  refine ((hround n a).and (hbody a)).conseq (fun _ h => h) fun x s h => ?_
  cases x with
  | again a' =>
    obtain ⟨⟨n', hn', hJ⟩, hK⟩ := h
    exact ⟨n', hn', hJ, hK⟩
  | done b => exact h.2

/-- A command that neither gets stuck nor runs out of fuel ends. -/
theorem total (h : Triple P m Q) (h' : Fueled P m Q') : Total P m fun a s => Q a s ∧ Q' a s := by
  intro s hs
  have hm := h s hs
  have hm' := h' s hs
  match hr : m s with
  | .ok (a, s') =>
    rw [hr] at hm hm'
    exact ⟨a, s', rfl, hm, hm'⟩
  | .error .fuel =>
    rw [hr] at hm'
    exact hm'.elim
  | .error .stuck =>
    rw [hr] at hm
    exact hm.elim

end Fueled

namespace Stays

theorem pure (a : α) : Stays I (Pure.pure a : Cmd σ α) := Fueled.pure fun _ h => h

theorem bind {m : Cmd σ α} {f : α → Cmd σ β} (hm : Stays I m) (hf : ∀ a, Stays I (f a)) : Stays I (m >>= f) :=
  Fueled.bind hm hf

theorem get : Stays I (MonadState.get : Cmd σ σ) := fun _ h => h

theorem modify {f : σ → σ} (h : ∀ s, I s → I (f s)) : Stays I (MonadStateOf.modifyGet fun s => ((), f s) : Cmd σ Unit) := h

theorem ite {c : Prop} [Decidable c] {m m' : Cmd σ α} (hm : Stays I m) (hm' : Stays I m') :
    Stays I (if c then m else m') := Fueled.ite (fun _ => hm) fun _ => hm'

theorem when {c : Prop} [Decidable c] {m : Cmd σ Unit} (hm : Stays I m) : Stays I (Command.when c m) :=
  Fueled.when (fun _ => hm) fun _ _ h => h

/-- A loop whose rounds have a measure of their own. -/
theorem loop {body : α → Cmd σ (Next α β)} {J : Nat → α → σ → Prop} (hbody : ∀ a, Stays I (body a))
    (hround : ∀ n a, Fueled (J n a) (body a) (Next.Either (fun a' s => ∃ n' < n, J n' a' s) fun _ _ => True))
    {fuel n : Nat} (hfuel : n < fuel) (a : α) :
    Fueled (fun s => J n a s ∧ I s) (Command.loop body fuel a) fun _ => I := by
  refine Fueled.loop_within (K := fun _ => I) hround (fun a => (hbody a).conseq (fun _ h => h) fun x s h => ?_) hfuel a
  cases x <;> exact h

end Stays

/-! ### Commands that do the same -/

/-- From a state with `P` the two commands do the same, and if they end then with `Q`. -/
def Alike (P : σ → Prop) (m m' : Cmd σ α) (Q : α → σ → Prop) : Prop := ∀ s, P s → m s = m' s ∧ After m Q s

/-- If `m` ends from a state with `P`, then with `Q`. -/
abbrev Leaves (P : σ → Prop) (m : Cmd σ α) (Q : α → σ → Prop) : Prop := Alike P m m Q

namespace Alike
variable {m m' : Cmd σ α} {Q Q' : α → σ → Prop}

theorem leaves (h : ∀ s, P s → After m Q s) : Leaves P m Q := fun s hs => ⟨rfl, h s hs⟩

/-- Commands that do the same, one of which has enough fuel. -/
theorem of_eq (hsame : ∀ s, P s → m s = m' s) (h : Fueled P m' Q) : Alike P m m' Q :=
  fun s hs => ⟨hsame s hs, fun _ _ hr => (h s hs).of_ok ((hsame s hs).symm.trans hr)⟩

theorem of_fueled (h : Fueled P m Q) : Leaves P m Q := of_eq (fun _ _ => rfl) h

theorem conseq (h : Alike P' m m' Q') (hP : ∀ s, P s → P' s) (hQ : ∀ a s, Q' a s → Q a s) : Alike P m m' Q :=
  fun s hs => ⟨(h s (hP s hs)).1, fun a s' hr => hQ a s' ((h s (hP s hs)).2 a s' hr)⟩

theorem pure {a : α} (h : ∀ s, P s → Q a s) : Leaves P (Pure.pure a) Q :=
  leaves fun s hs _ _ hr => by cases hr; exact h s hs

theorem stuck : Leaves P (Command.stuck : Cmd σ α) Q := leaves fun _ _ _ _ hr => nomatch hr

theorem bind {f f' : α → Cmd σ β} {R : α → σ → Prop} {Q : β → σ → Prop} (hm : Alike P m m' R)
    (hf : ∀ a, Alike (R a) (f a) (f' a) Q) : Alike P (m >>= f) (m' >>= f') Q := by
  intro s hs
  obtain ⟨hsame, hafter⟩ := hm s hs
  match hr : m s with
  | .ok (a, s') =>
    have h := hf a s' (hafter a s' hr)
    unfold After at h ⊢
    rw [run_bind hr, run_bind (hsame.symm.trans hr)]
    exact h
  | .error halt =>
    have hm : (m >>= f) s = .error halt := run_halt hr
    refine ⟨hm.trans (run_halt (hsame.symm.trans hr)).symm, fun _ _ h => ?_⟩
    cases hm.symm.trans h

theorem ite {c : Prop} [Decidable c] {m₁ m₁' : Cmd σ α} (hm : c → Alike P m m' Q) (hm₁ : ¬ c → Alike P m₁ m₁' Q) :
    Alike P (if c then m else m₁) (if c then m' else m₁') Q := by
  split
  next h => exact hm h
  next h => exact hm₁ h

theorem when {c : Prop} [Decidable c] {m m' : Cmd σ Unit} {Q : Unit → σ → Prop} (hm : c → Alike P m m' Q)
    (hskip : ¬ c → ∀ s, P s → Q () s) : Alike P (Command.when c m) (Command.when c m') Q := by
  unfold Command.when
  exact ite hm fun h => pure (hskip h)

/-- A fact about the start that does not speak of the state. -/
theorem given {c : Prop} (h : c → Alike P m m' Q) : Alike (fun s => c ∧ P s) m m' Q := fun s hs => h hs.1 s hs.2

/-- The rule for loops: an invariant that holds at the start of every round, from which the rounds do the same. -/
theorem loop {body body' : α → Cmd σ (Next α β)} {J : α → σ → Prop} {Q : β → σ → Prop}
    (hbody : ∀ a, Alike (J a) (body a) (body' a) (Next.Either J Q)) (fuel : Nat) (a : α) :
    Alike (J a) (Command.loop body fuel a) (Command.loop body' fuel a) Q := by
  induction fuel generalizing a with
  | zero => exact leaves fun _ _ _ _ hr => nomatch hr
  | succ fuel ih =>
    refine (hbody a).bind fun x => ?_
    cases x with
    | again a' => exact ih a'
    | done b => exact pure fun _ h => h

end Alike

/-! ### Commands as functions -/

/-- What is seen of a result through `f`. A command that halts has none. -/
def outcome {γ : Type} (f : α → σ → γ) : Except Halt (α × σ) → Option γ
  | .ok (a, s) => some (f a s)
  | .error _ => none

/-- What is seen of a round. -/
def Next.seen {γ δ : Type} (again : α → σ → γ) (done : β → σ → δ) (s : σ) : Next α β → Loop.Next γ δ
  | .again a => .again (again a s)
  | .done b => .done (done b s)

/-- A run of a command is seen as the result `o` of a function. It does not get stuck, and if it ends then with `Q`. -/
structure Mirrors {γ : Type} (f : α → σ → γ) (Q : α → σ → Prop) (r : Except Halt (α × σ)) (o : Option γ) : Prop where
  outcome : outcome f r = o
  meets : Meets Q r

namespace Mirrors
variable {γ δ : Type} {f : α → σ → γ} {Q : α → σ → Prop} {o : Option γ}

theorem ok {r : Except Halt (α × σ)} {a : α} {s : σ} (hr : r = .ok (a, s)) (ho : o = some (f a s)) (hQ : Q a s) :
    Mirrors f Q r o := by
  rw [hr, ho]
  exact ⟨rfl, hQ⟩

theorem fuel (ho : o = none) : Mirrors f Q (.error .fuel) o := by
  rw [ho]
  exact ⟨rfl, trivial⟩

/-- A function that returns is seen of a run that ends. -/
theorem of_some {r : Except Halt (α × σ)} {c : γ} (h : Mirrors f Q r (some c)) : ∃ a s, r = .ok (a, s) ∧ f a s = c ∧ Q a s := by
  match r with
  | .error halt => cases h.outcome
  | .ok (a, s) => exact ⟨a, s, rfl, Option.some.inj h.outcome, h.meets⟩

theorem bind {m : Cmd σ α} {k : α → Cmd σ β} {g : β → σ → δ} {R : β → σ → Prop} {next : γ → Option δ} {s : σ}
    (hm : Mirrors f Q (m s) o) (hk : ∀ a s', Q a s' → Mirrors g R (k a s') (next (f a s'))) :
    Mirrors g R ((m >>= k) s) (o >>= next) := by
  match hr : m s with
  | .ok (a, s') =>
    rw [hr] at hm
    rw [run_bind hr, ← hm.outcome]
    exact hk a s' hm.meets
  | .error .fuel =>
    rw [hr] at hm
    rw [run_halt hr, ← hm.outcome]
    exact fuel rfl
  | .error .stuck =>
    rw [hr] at hm
    exact hm.meets.elim

/-- The rule for loops: if the rounds are seen as those of an iteration, then so is the loop. -/
theorem loop (again : α → σ → γ) (done : β → σ → δ) {body : α → Cmd σ (Next α β)} {round : γ → Option (Loop.Next γ δ)}
    {J : α → σ → Prop} {Q : β → σ → Prop}
    (hround : ∀ a s, J a s → ∃ x s', body a s = .ok (x, s') ∧ Next.Either J Q x s' ∧
      round (again a s) = some (x.seen again done s')) (fuel : Nat) {a : α} {s : σ} (hJ : J a s) :
    Mirrors done Q (Command.loop body fuel a s) (Loop.iterate round fuel (again a s)) := by
  induction fuel generalizing a s with
  | zero => exact Mirrors.fuel rfl
  | succ fuel ih =>
    obtain ⟨x, s', hbody, hnext, hseen⟩ := hround a s hJ
    cases x with
    | again a' =>
      rw [loop_again hbody, Loop.iterate_again hseen]
      exact ih hnext
    | done b =>
      rw [loop_done hbody, Loop.iterate_done hseen]
      exact ⟨rfl, hnext⟩

end Mirrors

end Command
