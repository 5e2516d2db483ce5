import QPHi.Theorems.RBTree.Rotate

/-! `qp_rbtree_insert_fix`: from a tree that is red-black but for a red node that may stand below a red
    node, or at the root, the loop leaves a red-black tree with the same nodes in the same order. -/

namespace QPHi.RBTree
open BinTree Loop

variable {t t' t₀ : RBTree} {c : Context Ptr} {s u w : BinTree Ptr} {d e : Side} {k k' : Color} {a p g x : Ptr}
  {ls : List Ptr} {n : Nat}

/-- `t'` holds the nodes `ls` of `t` in the same order, in a red-black tree. -/
structure Repaired (ls : List Ptr) (t t' : RBTree) (w : BinTree Ptr) : Prop where
  shape : Shape t' w
  redBlack : w.RedBlack
  order : w.toList = ls
  relinked : Relinked ls t t'

theorem Shape.setBlack_root (h : Shape t w) :
    Shape (t.setBlack t.root) w.blacken ∧ Relinked w.toList t (t.setBlack t.root) := by
  have hroot : t.root = t.addr w := h.context
  cases w with
  | nil =>
    have hsame : t.setBlack t.root = t := by
      rw [hroot, addr_nil, setBlack, setColor_of_ne h.nil_ne]
      have : (t.mem t.nil).setColor .black = t.mem t.nil := by
        rw [Node.setColor, ← h.nil_black]
      rw [this, write, Function.update_eq_self]
    rw [hsame]
    exact ⟨h, Relinked.refl _ _⟩
  | node k l a r =>
    rw [hroot]
    exact At.setColor (d := .left) .black h

/-! ### Reading the neighbours of the focus -/

namespace At

theorem grandpa (h : At t (⟨d, k, p, u⟩ :: c) s) (hs : s ≠ .nil) : t.grandpa (t.addr s) = t.up c := by
  rw [RBTree.grandpa, h.parent_addr hs]
  exact h.up.parent_branch

theorem uncle (h : At t (⟨d, k, p, w⟩ :: ⟨e, k', g, u⟩ :: c) s) (hs : s ≠ .nil) :
    t.uncle (t.addr s) = some (t.addr u) := by
  have hp := h.parent_addr hs
  have hg := h.grandpa hs
  have hleft := (h.up.isChild_addr (e := .left) (h.up.parent_addr (by cases d <;> simp [branch]))
    (Or.inl (by cases d <;> simp [branch])))
  rw [addr_branch] at hleft
  obtain ⟨hg0, -, -, hflip, -⟩ := h.up.context
  have hload : t.load g = some (t.mem g) := load_of_ne hg0
  simp only [RBTree.up] at hp hg
  cases e with
  | left =>
    have hflip : (t.mem g).right = t.addr u := hflip
    simp [RBTree.uncle, isLeft, h.addr_ne_null, hp, hg, hleft, hload, hflip]
  | right =>
    have hflip : (t.mem g).left = t.addr u := hflip
    simp [RBTree.uncle, isLeft, h.addr_ne_null, hp, hg, hleft, hload, hflip]

end At

/-! ### One round -/

/-- Before a round of the loop: the red node `node`, in a context that is red-black but for the colour above
    it. -/
structure InsertInv (ls : List Ptr) (t₀ t : RBTree) (node : Ptr) (c : Context Ptr) (s : BinTree Ptr) : Prop where
  held : Held ls t₀ t c s
  node : t.addr s = node
  red : s.color = .red
  balanced : ∃ n, s.Balanced n ∧ Expects c n

theorem ne_nil_of_red (h : s.color = .red) : s ≠ .nil := by
  rintro rfl
  cases h

theorem above_black (h : above c = .black) : ∃ d p u c', c = ⟨d, .black, p, u⟩ :: c' := by
  cases c with
  | nil => cases h
  | cons f c =>
    obtain ⟨d, k, p, u⟩ := f
    have hk : k = .black := h
    exact ⟨d, p, u, c, by rw [hk]⟩

theorem At.isRed_label (h : At t (⟨d, k, p, u⟩ :: c) s) : t.isRed p = decide (k = .red) := by
  have := h.up.isRed_addr
  rwa [addr_branch, color_branch] at this

namespace InsertInv
variable {ps : BinTree Ptr} {node : Ptr}

/-- What a round reads below a red parent. -/
theorem reads (I : InsertInv ls t₀ t node (⟨d, .red, p, ps⟩ :: ⟨e, .black, g, u⟩ :: c) s) :
    node ≠ t.root ∧ t.parent node = p ∧ t.isRed p = true ∧ t.uncle node = some (t.addr u) ∧
      t.isLeft p = some (decide (Side.left = e)) := by
  have hs := ne_nil_of_red I.red
  have h := I.held.focus
  have hne : branch d .red s p ps ≠ .nil := ne_nil_of_red color_branch
  refine ⟨?_, ?_, ?_, ?_, ?_⟩
  · rw [← I.node]
    exact fun e => absurd (h.addr_eq_root_iff.mp e) (by simp)
  · rw [← I.node, h.parent_addr hs]
    rfl
  · rw [h.isRed_label]
    rfl
  · rw [← I.node, h.uncle hs]
  · have := h.up.isChild_addr (e := .left) (h.up.parent_addr hne) (Or.inl hne)
    rwa [addr_branch] at this

/-- A red uncle: the parent and the uncle become black, and the grandparent the red node to go on with. -/
theorem round_red (I : InsertInv ls t₀ t node (⟨d, .red, p, ps⟩ :: ⟨e, .black, g, u⟩ :: c) s)
    (hu : u.color = .red) : ∃ t' s', insertFixRound (t, node) = some (.again (t', g)) ∧ InsertInv ls t₀ t' g c s' := by
  have hs := ne_nil_of_red I.red
  obtain ⟨hroot, hparent, hpred, huncle, -⟩ := I.reads
  obtain ⟨n, hbal, hps, hpsk, -, hbu, hctx⟩ := I.balanced
  obtain ⟨ul, ua, ur, rfl⟩ := exists_branch_of_red e hu
  rw [addr_branch] at huncle
  have hured : t.isRed ua = true := by
    have := I.held.up.up.down_flip.focus.isRed_addr
    rw [addr_branch] at this
    simpa using this
  -- The parent, then the uncle become black, then the grandparent red.
  have h₁ := I.held.up.setColor .black
  have hn₁ := (I.held.addr_eq h₁ s).trans I.node
  have huncle₁ := h₁.down.focus.uncle hs
  rw [hn₁, addr_branch] at huncle₁
  have h₂ := (h₁.up.down_flip.setColor .black).up_flip
  have hn₂ := (I.held.addr_eq h₂ s).trans I.node
  have hgrand₂ := h₂.down.down.focus.grandpa hs
  rw [hn₂] at hgrand₂
  have h₃ := h₂.setColor .red
  have hn₃ := (I.held.addr_eq h₃ s).trans I.node
  have hgrand₃ := h₃.down.down.focus.grandpa hs
  rw [hn₃] at hgrand₃
  refine ⟨_, _, ?_, h₃, addr_branch, color_branch, n + 1, ?_, hctx⟩
  · simp only [insertFixRound, hroot, ne_eq, not_false_eq_true, hparent, hpred, and_self, ↓reduceIte, huncle,
      Option.bind_eq_bind, Option.bind_some, hured, setBlack, huncle₁, setRed, hgrand₂, up, hgrand₃, Option.pure_def]
  · rw [balanced_red] at hbu
    simp only [balanced_red, color_branch, balanced_black, true_and]
    exact ⟨⟨hbal, hps⟩, hbu.2.2⟩

/-- An inner red node is rotated to the outside. -/
theorem inner (I : InsertInv ls t₀ t node (⟨d, .red, p, ps⟩ :: ⟨e, .black, g, u⟩ :: c) s) :
    ∃ t' node' p' ps' s', t.insertFixInner e node = some (t', node') ∧
      InsertInv ls t₀ t' node' (⟨e, .red, p', ps'⟩ :: ⟨e, .black, g, u⟩ :: c) s' := by
  have hs := ne_nil_of_red I.red
  obtain ⟨-, hparent, -⟩ := I.reads
  have hchild := I.held.focus.isChild_addr (e := e.flip) (by rw [I.node, hparent]) (Or.inl hs)
  rw [I.node] at hchild
  rcases Side.eq_or_eq_flip d e with rfl | rfl
  · refine ⟨t, node, p, ps, s, ?_, I⟩
    simp [insertFixInner, hchild]
  · obtain ⟨n, hbal, hps, hpsk, hab, hctx⟩ := I.balanced
    obtain ⟨s₁, x, s₂, rfl⟩ := exists_branch_of_red e I.red
    obtain ⟨hs₁, hs₂, hb₁, hb₂⟩ := balanced_red.mp hbal
    obtain ⟨t', hrot, h'⟩ := I.held.up_flip.rotate
    refine ⟨t', p, x, s₂, branch e .red ps p s₁, ?_, h'.down, addr_branch, color_branch, n, ?_, hb₂, hs₂, hab, hctx⟩
    · simp [insertFixInner, hchild, hparent, hrot]
    · exact balanced_red.mpr ⟨hpsk, hs₁, hps, hb₁⟩

/-- A black uncle: after one or two rotations the parent is black, with the red node and the red former
    grandparent below it. -/
theorem round_black (I : InsertInv ls t₀ t node (⟨d, .red, p, ps⟩ :: ⟨e, .black, g, u⟩ :: c) s)
    (hu : u.color = .black) : ∃ t' node' f s', insertFixRound (t, node) = some (.again (t', node')) ∧
      InsertInv ls t₀ t' node' (f :: c) s' := by
  obtain ⟨hroot, hparent, hpred, huncle, hleft⟩ := I.reads
  have hublack : t.isRed (t.addr u) = false := by
    rw [I.held.up.up.down_flip.focus.isRed_addr, hu]
    rfl
  have hside : (if decide (Side.left = e) = true then Side.left else Side.right) = e := by cases e <;> simp
  obtain ⟨t₁, node', p', ps', s', hinner, J⟩ := I.inner
  have hs' := ne_nil_of_red J.red
  obtain ⟨-, hparent', -⟩ := J.reads
  obtain ⟨n, hbal, hps, hpsk, -, hbu, hctx⟩ := J.balanced
  have h₂ := J.held.up.setColor .black
  have hn₂ := (J.held.addr_eq h₂ s').trans J.node
  have hgrand₂ := h₂.down.focus.grandpa hs'
  rw [hn₂] at hgrand₂
  have h₃ := h₂.up.setColor .red
  have hn₃ := (J.held.addr_eq h₃ s').trans J.node
  have hgrand₃ := h₃.down.down.focus.grandpa hs'
  rw [hn₃] at hgrand₃
  -- Seen from the other side, the parent is the outer child to be rotated up.
  rw [← branch_flip e .red u g, ← branch_flip e .black ps' p' s'] at h₃
  obtain ⟨t₄, hrot, h₄⟩ := h₃.rotate
  rw [branch_flip, branch_flip] at h₄
  refine ⟨t₄, node', _, s', ?_, h₄.down, (J.held.addr_eq h₄ s').trans J.node, J.red, n, hbal, ?_, hctx⟩
  · simp only [insertFixRound, hroot, ne_eq, not_false_eq_true, hparent, hpred, and_self, ↓reduceIte, huncle,
      Option.bind_eq_bind, Option.bind_some, hublack, Bool.false_eq_true, hleft, hside, insertFixRotate, hinner, hparent',
      setBlack, setRed, hgrand₂, up, hgrand₃, hrot, Option.pure_def]
  · exact balanced_red.mpr ⟨hpsk, hu, hps, hbu⟩

/-- The loop leaves at a black parent, or at the root. -/
theorem round_done (I : InsertInv ls t₀ t node c s) (hc : c = [] ∨ above c = .black) :
    ∃ t' w, insertFixRound (t, node) = some (.done t') ∧ Repaired ls t₀ t' w := by
  have hstop : ¬(node ≠ t.root ∧ t.isRed (t.parent node) = true) := by
    rcases hc with rfl | hc
    · rw [← I.node, I.held.focus.addr_eq_root_iff.mpr rfl]
      simp
    · obtain ⟨d, p, u, c', rfl⟩ := above_black hc
      rw [← I.node, I.held.focus.parent_addr (ne_nil_of_red I.red)]
      simp [up, I.held.focus.isRed_label]
  obtain ⟨hshape, R⟩ := Shape.setBlack_root (at_plug.mp I.held.focus)
  rw [I.held.order] at R
  refine ⟨_, (plug c s).blacken, by simp only [insertFixRound, if_neg hstop, Option.pure_def], hshape, ?_, ?_,
    I.held.relinked.trans R⟩
  · refine ⟨color_blacken _, ?_⟩
    obtain ⟨n, hbal, hctx⟩ := I.balanced
    rcases hc with rfl | hc
    · exact hbal.blacken
    · obtain ⟨hblack, m, hm⟩ := redBlack_plug.mpr ⟨n, hctx, hbal, Or.inl hc⟩
      exact ⟨m, by rwa [blacken_of_black hblack]⟩
  · rw [toList_blacken, I.held.order]

end InsertInv

theorem insertFix_returns {node : Ptr} (I : InsertInv ls t₀ t node c s) :
    ∃ t', (∃ w, Repaired ls t₀ t' w) ∧ Returns (fun fuel => t.insertFix fuel node) t' := by
  -- The context loses a frame in every round.
  refine iterate_returns (fun m st => ∃ c s, c.length = m ∧ InsertInv ls t₀ st.1 st.2 c s) _ ?_ ⟨c, s, rfl, I⟩
  rintro m ⟨t, node⟩ ⟨c, s, rfl, I⟩
  cases c with
  | nil =>
    obtain ⟨t', w, hdone, hw⟩ := I.round_done (Or.inl rfl)
    exact Or.inl ⟨t', hdone, w, hw⟩
  | cons f c =>
    obtain ⟨d, k, p, ps⟩ := f
    cases k with
    | black =>
      obtain ⟨t', w, hdone, hw⟩ := I.round_done (Or.inr rfl)
      exact Or.inl ⟨t', hdone, w, hw⟩
    | red =>
      obtain ⟨n, -, -, -, hab, -⟩ := I.balanced
      obtain ⟨e, g, u, c', rfl⟩ := above_black hab
      cases hu : u.color with
      | red =>
        obtain ⟨t', s', hround, J⟩ := I.round_red hu
        exact Or.inr ⟨(t', g), c'.length, hround, by simp only [List.length_cons]; omega, c', s', rfl, J⟩
      | black =>
        obtain ⟨t', node', f, s', hround, J⟩ := I.round_black hu
        exact Or.inr ⟨(t', node'), c'.length + 1, hround, by simp, f :: c', s', rfl, J⟩

end QPHi.RBTree
