import QPHi.Theorems.RBTree.InsertFix

/-! `qp_rbtree_delete_fix`: from a tree whose subtree at `node` is one black node short, the loop leaves a
    red-black tree with the same nodes in the same order. `node` may be the sentinel, whose parent field
    then tells where it stands. -/

namespace QPHi.RBTree
open BinTree Loop

variable {t t' t₀ : RBTree} {c c' : Context Ptr} {s u w : BinTree Ptr} {d e : Side} {k k' g : Color} {a p x node : Ptr}
  {ls : List Ptr} {n : Nat}

theorem At.brother (h : At t (⟨d, k, p, w⟩ :: c) s) (hp : t.parent (t.addr s) = p) (hw : w ≠ .nil) :
    t.brother (t.addr s) = some (t.addr w) := by
  have hleft := h.isChild_addr (e := .left) hp (Or.inr hw)
  obtain ⟨hp0, -, -, hflip, -⟩ := h.context
  have hload : t.load p = some (t.mem p) := load_of_ne hp0
  cases d with
  | left =>
    have hflip : (t.mem p).right = t.addr w := hflip
    simp [RBTree.brother, isLeft, h.addr_ne_null, hp, hleft, hload, hflip]
  | right =>
    have hflip : (t.mem p).left = t.addr w := hflip
    simp [RBTree.brother, isLeft, h.addr_ne_null, hp, hleft, hload, hflip]

/-- The sentinel is not written during a repair, so it keeps its parent field. -/
theorem Held.parent_addr (h : Held ls t₀ t c s) (h' : Held ls t₀ t' c' s) (hup : t'.up c' = t.up c)
    (hp : t.parent (t.addr s) = t.up c) : t'.parent (t'.addr s) = t'.up c' := by
  cases s with
  | nil =>
    have hnil : t'.nil = t.nil := h'.relinked.nil.trans h.relinked.nil.symm
    have hout : t.nil ∉ ls := fun hmem => (h.focus.mem_ne (h.order ▸ hmem)).2 rfl
    have hmem : t'.mem t.nil = t.mem t.nil := (h'.relinked.outside _ hout).trans (h.relinked.outside _ hout).symm
    rw [hup, ← hp, addr_nil, addr_nil, hnil, RBTree.parent, RBTree.parent, hmem]
  | node k l a r => exact h'.focus.parent_addr (by simp)

/-- Before a round of the loop: the subtree at `node` is black and one black node short, or red. -/
structure DeleteInv (ls : List Ptr) (t₀ t : RBTree) (node : Ptr) (c : Context Ptr) (s : BinTree Ptr) (n : Nat) :
    Prop where
  held : Held ls t₀ t c s
  node : t.addr s = node
  parent : t.parent (t.addr s) = t.up c
  expects : Expects c (n + 1)
  black : s.color = .black → s.Balanced n
  red : s.color = .red → s.blacken.Balanced (n + 1)

namespace DeleteInv

/-- The invariant carries over to a later state with the same subtree below the same node. -/
theorem move (I : DeleteInv ls t₀ t node c s n) (h' : Held ls t₀ t' c' s) (hup : t'.up c' = t.up c)
    (hc : Expects c' (n + 1)) : DeleteInv ls t₀ t' node c' s n :=
  ⟨h', (I.held.addr_eq h' s).trans I.node, I.held.parent_addr h' hup I.parent, hc, I.black, I.red⟩

theorem parent_eq (I : DeleteInv ls t₀ t node (⟨d, k, p, w⟩ :: c) s n) : t.parent node = p := by
  rw [← I.node]
  exact I.parent

theorem sibling (I : DeleteInv ls t₀ t node (⟨d, k, p, w⟩ :: c) s n) : w.Balanced (n + 1) := by
  have := I.expects
  cases k with
  | black => exact this.1
  | red => exact this.1

theorem brother_eq (I : DeleteInv ls t₀ t node (⟨d, k, p, w⟩ :: c) s n) : t.brother node = some (t.addr w) := by
  have hw : w ≠ .nil := by
    rintro rfl
    exact absurd I.sibling (by simp)
  have := I.held.focus.brother I.parent hw
  rwa [I.node] at this

/-- After painting and rotating in the brother or above, `node` still stands below `p`. -/
theorem neighbours (I : DeleteInv ls t₀ t node (⟨d, k, p, w⟩ :: c) s n) {a : Ptr} {u₁ u₂ : BinTree Ptr}
    (h' : Held ls t₀ t' (⟨d, k', p, branch e g u₁ a u₂⟩ :: c') s) :
    t'.parent node = p ∧ t'.brother node = some (t'.addr (branch e g u₁ a u₂)) := by
  have hn : t'.addr s = node := (I.held.addr_eq h' s).trans I.node
  have hp := I.held.parent_addr h' rfl I.parent
  have hbr := h'.focus.brother hp (by cases e <;> simp [branch])
  rw [hn] at hp hbr
  exact ⟨hp, hbr⟩

/-- After the first step of a round the brother is black. -/
theorem red_brother (I : DeleteInv ls t₀ t node (⟨d, k, p, w⟩ :: c) s n) :
    ∃ t' k' w' c', t.deleteFixRed d node = some t' ∧ DeleteInv ls t₀ t' node (⟨d, k', p, w'⟩ :: c') s n ∧
      w'.color = .black ∧ (k' = .red ∨ c'.length = c.length) := by
  have hbr := I.brother_eq
  have hred := I.held.up.down_flip.focus.isRed_addr
  cases hw : w.color with
  | black =>
    refine ⟨t, k, w, c, ?_, I, hw, Or.inr rfl⟩
    simp [deleteFixRed, hbr, hred, hw]
  | red =>
    obtain ⟨w₁, b, w₂, rfl⟩ := exists_branch_of_red d hw
    rw [addr_branch] at hbr hred
    obtain ⟨hk₁, hk₂, hb₁, hb₂⟩ := balanced_red.mp I.sibling
    -- A red brother has a black parent.
    cases k with
    | red =>
      have := I.expects.2.1
      rw [hw] at this
      cases this
    | black =>
      have h₁ := (I.held.up.down_flip.setColor .black).up_flip
      have hn₁ := I.held.parent_addr h₁.down rfl I.parent
      rw [I.held.addr_eq h₁ s, I.node] at hn₁
      have h₂ := h₁.setColor .red
      have hn₂ := I.held.parent_addr h₂.down rfl I.parent
      rw [I.held.addr_eq h₂ s, I.node] at hn₂
      obtain ⟨t₃, hrot, h₃⟩ := h₂.rotate
      refine ⟨t₃, .red, w₁, ⟨d, .black, b, w₂⟩ :: c, ?_, I.move h₃.down.down rfl ?_, hk₁, Or.inl rfl⟩
      · simp only [deleteFixRed, hbr, Option.bind_eq_bind, Option.bind_some, hred, hw, decide_true, ↓reduceIte, setBlack,
          hn₁, up, setRed, hn₂, hrot]
      · exact ⟨hb₁, hk₁, rfl, hb₂, I.expects.2⟩

section BlackBrother
variable {w₁ w₂ : BinTree Ptr} {b : Ptr}

/-- What a round reads at a black brother. -/
theorem reads (I : DeleteInv ls t₀ t node (⟨d, k, p, branch d .black w₁ b w₂⟩ :: c) s n) :
    t.brother node = some b ∧ t.load b = some (t.mem b) ∧ (t.mem b).child d = t.addr w₁ ∧
      (t.mem b).child d.flip = t.addr w₂ ∧ t.isBlack (t.addr w₁) = decide (w₁.color = .black) ∧
      t.isBlack (t.addr w₂) = decide (w₂.color = .black) ∧ w₁.Balanced n ∧ w₂.Balanced n := by
  have hb := I.held.up.down_flip
  obtain ⟨hb0, -, h₁, h₂, -⟩ := linked_branch.mp hb.focus.focus
  have hbal := balanced_black.mp I.sibling
  refine ⟨by rw [I.brother_eq, addr_branch], load_of_ne hb0, h₁, h₂, hb.down.focus.isBlack_addr,
    hb.down_flip.focus.isBlack_addr, hbal.1, hbal.2⟩

/-- Both children of the brother are black: the brother becomes red and the parent is one short instead. -/
theorem black_children (I : DeleteInv ls t₀ t node (⟨d, k, p, branch d .black w₁ b w₂⟩ :: c) s n)
    (hs : s.color = .black) (hk₁ : w₁.color = .black) (hk₂ : w₂.color = .black) :
    (t.setRed b).parent node = p ∧ ∃ s' m, s'.color = k ∧ DeleteInv ls t₀ (t.setRed b) p c s' m := by
  obtain ⟨-, -, -, -, -, -, hb₁, hb₂⟩ := I.reads
  have h₁ := (I.held.up.down_flip.setColor .red).up_flip
  have hn₁ := I.held.parent_addr h₁.down rfl I.parent
  rw [I.held.addr_eq h₁ s, I.node] at hn₁
  refine ⟨hn₁, branch d k s p (branch d .red w₁ b w₂), ?_⟩
  have hpar : (t.setRed b).parent p = (t.setRed b).up c := h₁.focus.parent_branch
  have hred : (branch d .red w₁ b w₂).Balanced n := balanced_red.mpr ⟨hk₁, hk₂, hb₁, hb₂⟩
  cases k with
  | black =>
    refine ⟨n + 1, color_branch, h₁, addr_branch, by rw [addr_branch, hpar], I.expects.2, fun _ => ?_, fun h => ?_⟩
    · exact balanced_black.mpr ⟨I.black hs, hred⟩
    · rw [color_branch] at h
      cases h
  | red =>
    refine ⟨n, color_branch, h₁, addr_branch, by rw [addr_branch, hpar], I.expects.2.2.2, fun h => ?_, fun _ => ?_⟩
    · rw [color_branch] at h
      cases h
    · rw [blacken_branch, balanced_black]
      exact ⟨I.black hs, hred⟩

/-- After the second step of a round the child of the brother away from `node` is red. -/
theorem inner (I : DeleteInv ls t₀ t node (⟨d, k, p, branch d .black w₁ b w₂⟩ :: c) s n)
    (hk : ¬(w₁.color = .black ∧ w₂.color = .black)) :
    ∃ t' w₁' b' w₂', t.deleteFixInner d node = some t' ∧
      DeleteInv ls t₀ t' node (⟨d, k, p, branch d .black w₁' b' w₂'⟩ :: c) s n ∧ w₂'.color = .red := by
  obtain ⟨hbr, hload, hc₁, hc₂, -, hbl₂, hb₁, hb₂⟩ := I.reads
  cases hk₂ : w₂.color with
  | red =>
    refine ⟨t, w₁, b, w₂, ?_, I, hk₂⟩
    simp [deleteFixInner, hbr, hload, hc₂, hbl₂, hk₂]
  | black =>
    have hk₁ : w₁.color = .red := Color.eq_red_of_ne fun h => hk ⟨h, hk₂⟩
    obtain ⟨x₁, y, x₂, rfl⟩ := exists_branch_of_red d hk₁
    rw [addr_branch] at hc₁
    obtain ⟨hx₁, hx₂, hbx₁, hbx₂⟩ := balanced_red.mp hb₁
    have h₁ := (I.held.up.down_flip.down.setColor .black).up
    have hbr₁ := (I.neighbours h₁.up_flip.down).2
    rw [addr_branch] at hbr₁
    have h₂ := h₁.setColor .red
    have hbr₂ := (I.neighbours h₂.up_flip.down).2
    rw [addr_branch] at hbr₂
    -- Seen from the other side, the red child is the outer one to be rotated up.
    rw [← branch_flip d .red w₂ b, ← branch_flip d .black x₂ y x₁] at h₂
    obtain ⟨t₃, hrot, h₃⟩ := h₂.rotate
    rw [branch_flip, branch_flip] at h₃
    have hbal : (branch d .black x₁ y (branch d .red x₂ b w₂)).Balanced (n + 1) :=
      balanced_black.mpr ⟨hbx₁, balanced_red.mpr ⟨hx₂, hk₂, hbx₂, hb₂⟩⟩
    refine ⟨t₃, x₁, y, branch d .red x₂ b w₂, ?_, I.move h₃.up_flip.down rfl (I.expects.sib hbal color_branch),
      color_branch⟩
    simp only [deleteFixInner, hbr, hload, hc₁, hc₂, hbl₂, hk₂, decide_true, ↓reduceIte, setBlack, setRed, hbr₁, hbr₂,
      hrot, Option.bind_eq_bind, Option.bind_some]

/-- A red child of the brother away from `node`: the brother takes the place of the parent, with as many
    black nodes on both sides, and the loop is sent to the root. -/
theorem outer (I : DeleteInv ls t₀ t node (⟨d, k, p, branch d .black w₁ b w₂⟩ :: c) s n) (hs : s.color = .black)
    (hk₂ : w₂.color = .red) :
    ∃ t' s' m, t.deleteFixOuter d node = some t' ∧ DeleteInv ls t₀ t' t'.root [] s' m := by
  obtain ⟨hbr, -, -, -, -, -, hb₁, hb₂⟩ := I.reads
  obtain ⟨z₁, z, z₂, rfl⟩ := exists_branch_of_red d hk₂
  obtain ⟨hz₁, hz₂, hbz₁, hbz₂⟩ := balanced_red.mp hb₂
  have hpar := I.parent_eq
  have hpk : (if t.isBlack p = true then Color.black else .red) = k := by
    have := I.held.up.focus.isBlack_addr
    rw [addr_branch, color_branch] at this
    rw [this]
    cases k <;> simp
  have h₁ := (I.held.up.down_flip.setColor k).up_flip
  have hpar₁ := (I.neighbours h₁.down).1
  have h₂ := h₁.setColor .black
  have hbr₂ := (I.neighbours h₂.down).2
  rw [addr_branch] at hbr₂
  obtain ⟨hb0, -, -, hfar, -⟩ := linked_branch.mp h₂.down_flip.focus.focus
  rw [addr_branch] at hfar
  have h₃ := (h₂.down_flip.down_flip.setColor .black).up_flip.up_flip
  have hpar₃ := (I.neighbours h₃.down).1
  obtain ⟨t₄, hrot, h₄⟩ := h₃.rotate
  have hshape : Shape t₄ (plug c _) := at_plug.mp h₄.focus
  have hne : plug c (branch d k (branch d .black s p w₁) b (branch d .black z₁ z z₂)) ≠ .nil := by
    intro e
    have hb : b ∈ (plug c (branch d k (branch d .black s p w₁) b (branch d .black z₁ z z₂))).toList :=
      mem_toList_plug.mpr (Or.inl (by simp))
    rw [e] at hb
    cases hb
  have hrb : (plug c (branch d k (branch d .black s p w₁) b (branch d .black z₁ z z₂))).RedBlack := by
    have hl : (branch d .black s p w₁).Balanced (n + 1) := balanced_black.mpr ⟨I.black hs, hb₁⟩
    have hr : (branch d .black z₁ z z₂).Balanced (n + 1) := balanced_black.mpr ⟨hbz₁, hbz₂⟩
    rw [redBlack_plug]
    cases k with
    | black => exact ⟨n + 2, I.expects.2, balanced_black.mpr ⟨hl, hr⟩, Or.inr color_branch⟩
    | red =>
      obtain ⟨-, -, hab, hc⟩ := I.expects
      exact ⟨n + 1, hc, balanced_red.mpr ⟨color_branch, color_branch, hl, hr⟩, Or.inl hab⟩
  obtain ⟨hblack, m, hm⟩ := hrb
  refine ⟨t₄, _, m, ?_, ⟨hshape, h₄.order, h₄.relinked⟩, hshape.context.symm, hshape.parent_addr hne, trivial,
    fun _ => hm, fun h => ?_⟩
  · simp only [deleteFixOuter, hbr, hpar, hpk, hpar₁, hbr₂, load_of_ne hb0, hfar, hpar₃, setBlack, hrot,
      Option.bind_eq_bind, Option.bind_some]
  · rw [hblack] at h
    cases h

end BlackBrother

/-- One round: the loop goes on with a red node, or higher up. -/
theorem round (I : DeleteInv ls t₀ t node (⟨d, k, p, w⟩ :: c) s n) (hs : s.color = .black) :
    ∃ t' node' c' s' m, deleteFixRound (t, node) = some (.again (t', node')) ∧ DeleteInv ls t₀ t' node' c' s' m ∧
      (s'.color = .red ∨ c'.length ≤ c.length) := by
  have hroot : node ≠ t.root := by
    rw [← I.node]
    exact fun e => absurd (I.held.focus.addr_eq_root_iff.mp e) (by simp)
  have hblack : t.isBlack node = true := by
    rw [← I.node, I.held.focus.isBlack_addr, hs]
    rfl
  have hleft : t.isLeft node = some (decide (Side.left = d)) := by
    have hw : w ≠ .nil := by
      rintro rfl
      exact absurd I.sibling (by simp)
    have := I.held.focus.isChild_addr (e := .left) I.parent (Or.inr hw)
    rwa [I.node] at this
  have hside : (if decide (Side.left = d) = true then Side.left else Side.right) = d := by cases d <;> simp
  suffices key : ∃ t' node' c' s' m, t.deleteFixSide d node = some (t', node') ∧ DeleteInv ls t₀ t' node' c' s' m ∧
      (s'.color = .red ∨ c'.length ≤ c.length) by
    obtain ⟨t', node', c', s', m, hstep, J, hm⟩ := key
    refine ⟨t', node', c', s', m, ?_, J, hm⟩
    simp only [deleteFixRound, hroot, hblack, ne_eq, not_false_eq_true, and_self, ↓reduceIte, hleft, hside, hstep,
      Option.bind_eq_bind, Option.bind_some, Option.pure_def]
  obtain ⟨t₁, k₁, w', c₁, hred, J, hw', hlen⟩ := I.red_brother
  obtain ⟨kw, w₁, b, w₂, rfl⟩ := exists_branch_of_balanced_succ d J.sibling
  rw [color_branch] at hw'
  subst hw'
  obtain ⟨hbr, hload, hc₁, hc₂, hbl₁, hbl₂, -⟩ := J.reads
  by_cases hk : w₁.color = .black ∧ w₂.color = .black
  · obtain ⟨hpar, s', m, hs', K⟩ := J.black_children hs hk.1 hk.2
    refine ⟨t₁.setRed b, p, c₁, s', m, ?_, K, ?_⟩
    · simp only [deleteFixSide, hred, hbr, hload, hc₁, hc₂, hbl₁, hbl₂, hk, decide_true, and_self, ↓reduceIte, hpar,
        Option.bind_eq_bind, Option.bind_some, Option.pure_def]
    · rcases hlen with rfl | hlen
      · exact Or.inl hs'
      · exact Or.inr (Nat.le_of_eq hlen)
  · obtain ⟨t₂, w₁', b', w₂', hinner, K, hk₂⟩ := J.inner hk
    obtain ⟨t₃, s', m, houter, L⟩ := K.outer hs hk₂
    refine ⟨t₃, t₃.root, [], s', m, ?_, L, Or.inr (Nat.zero_le _)⟩
    have hnot : ¬(t₁.isBlack (t₁.addr w₁) = true ∧ t₁.isBlack (t₁.addr w₂) = true) := by
      rw [hbl₁, hbl₂]
      simpa using hk
    simp only [deleteFixSide, hred, hbr, hload, hc₁, hc₂, if_neg hnot, hinner, houter, Option.bind_eq_bind,
      Option.bind_some, Option.pure_def]

/-- The loop leaves at a red node, or at the root. -/
theorem round_done (I : DeleteInv ls t₀ t node c s n) (h : c = [] ∨ s.color = .red) :
    ∃ t' w, deleteFixRound (t, node) = some (.done t') ∧ Repaired ls t₀ t' w := by
  have hstop : ¬(node ≠ t.root ∧ t.isBlack node = true) := by
    rcases h with rfl | h
    · rw [← I.node, I.held.focus.addr_eq_root_iff.mpr rfl]
      simp
    · rw [← I.node, I.held.focus.isBlack_addr, h]
      simp
  have hbal : ∃ m, s.blacken.Balanced m ∧ Expects c m := by
    cases hs : s.color with
    | red => exact ⟨n + 1, I.red hs, I.expects⟩
    | black =>
      rcases h with rfl | h
      · exact ⟨n, by rw [blacken_of_black hs]; exact I.black hs, trivial⟩
      · rw [hs] at h
        cases h
  obtain ⟨m, hm, hc⟩ := hbal
  suffices key : At (t.setBlack node) c s.blacken ∧ Relinked ls t (t.setBlack node) by
    refine ⟨_, plug c s.blacken, by simp only [deleteFixRound, if_neg hstop, Option.pure_def], at_plug.mp key.1, ?_, ?_,
      I.held.relinked.trans key.2⟩
    · exact redBlack_plug.mpr ⟨m, hc, hm, Or.inr (color_blacken s)⟩
    · rw [toList_plug_congr (toList_blacken s), I.held.order]
  have hls := I.held.order
  rcases h with rfl | h
  · have hroot : t.root = node := by rw [← I.node]; exact I.held.focus.context
    rw [← hroot, ← hls]
    exact Shape.setBlack_root I.held.focus
  · obtain ⟨s₁, a, s₂, rfl⟩ := exists_branch_of_red .left h
    rw [← I.node, addr_branch, blacken_branch, ← hls]
    exact I.held.focus.setColor .black

end DeleteInv

theorem deleteFix_returns (I : DeleteInv ls t₀ t node c s n) :
    ∃ t', (∃ w, Repaired ls t₀ t' w) ∧ Returns (fun fuel => t.deleteFix fuel node) t' := by
  -- A round that does not end at a red node goes on higher up.
  refine iterate_returns (fun m st => ∃ c s n, (s.color = .red ∨ c.length ≤ m) ∧ DeleteInv ls t₀ st.1 st.2 c s n) _ ?_
    ⟨c, s, n, Or.inr (Nat.le_refl _), I⟩
  rintro m ⟨t, node⟩ ⟨c, s, n, hm, I⟩
  by_cases h : c = [] ∨ s.color = .red
  · obtain ⟨t', w, hdone, hw⟩ := I.round_done h
    exact Or.inl ⟨t', hdone, w, hw⟩
  · rw [not_or] at h
    obtain ⟨⟨d, k, p, w⟩, c, rfl⟩ := List.exists_cons_of_ne_nil h.1
    have hlen := hm.resolve_left h.2
    rw [List.length_cons] at hlen
    obtain ⟨t', node', c', s', n', hround, J, hm'⟩ := I.round (Color.eq_black_of_ne h.2)
    exact Or.inr ⟨(t', node'), m - 1, hround, by omega, c', s', n', hm'.imp_right fun h => by omega, J⟩

end QPHi.RBTree
