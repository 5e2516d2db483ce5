import QPHi.RBTree

/-! The tree that the links in memory spell out, seen from a subtree in its context. `At t c s` says that
    the memory of `t` holds the tree `plug c s`: every link between two nodes is there in both directions,
    the addresses are distinct, and the sentinel stands at every leaf and above the root. -/

namespace QPHi.RBTree
open BinTree

variable {t t' : RBTree} {c : Context Ptr} {s u : BinTree Ptr} {d : Side} {k : Color} {a p x : Ptr}

/-- The address a subtree is linked by. -/
def addr (t : RBTree) : BinTree Ptr → Ptr
  | .nil => t.nil
  | .node _ _ a _ => a

@[simp] theorem addr_nil : t.addr .nil = t.nil := rfl
@[simp] theorem addr_node {l r : BinTree Ptr} : t.addr (.node k l a r) = a := rfl
@[simp] theorem addr_branch : t.addr (branch d k s a u) = a := by cases d <;> rfl

theorem addr_eq (h : t'.nil = t.nil) (s : BinTree Ptr) : t'.addr s = t.addr s := by
  cases s with
  | nil => exact h
  | node k l a r => rfl

theorem addr_eq_nil_or_mem (t : RBTree) (s : BinTree Ptr) : s = .nil ∨ t.addr s ∈ s.toList := by
  cases s with
  | nil => exact Or.inl rfl
  | node k l a r => exact Or.inr (by simp)

/-- The links of the subtree `s` below the node `p`. -/
def Linked (t : RBTree) (p : Ptr) : BinTree Ptr → Prop
  | .nil => True
  | .node k l a r => a ≠ NULL ∧ a ≠ t.nil ∧ (t.mem a).left = t.addr l ∧ (t.mem a).right = t.addr r ∧
      (t.mem a).parent = p ∧ (t.mem a).color = k ∧ Linked t a l ∧ Linked t a r

theorem linked_branch : Linked t p (branch d k s a u) ↔ a ≠ NULL ∧ a ≠ t.nil ∧ (t.mem a).child d = t.addr s ∧
    (t.mem a).child d.flip = t.addr u ∧ (t.mem a).parent = p ∧ (t.mem a).color = k ∧ Linked t a s ∧
    Linked t a u := by
  cases d
  · exact Iff.rfl
  · simp only [branch, Linked, Node.child, Side.flip]
    tauto

/-- The node above the hole. -/
def up (t : RBTree) : Context Ptr → Ptr
  | [] => t.nil
  | f :: _ => f.label

/-- The links of a context whose hole is linked by the address `a`. -/
def LinkedIn (t : RBTree) : Context Ptr → Ptr → Prop
  | [], a => t.root = a
  | f :: c, a => f.label ≠ NULL ∧ f.label ≠ t.nil ∧ (t.mem f.label).child f.side = a ∧
      (t.mem f.label).child f.side.flip = t.addr f.sib ∧ (t.mem f.label).parent = t.up c ∧
      (t.mem f.label).color = f.color ∧ Linked t f.label f.sib ∧ LinkedIn t c f.label

structure At (t : RBTree) (c : Context Ptr) (s : BinTree Ptr) : Prop where
  nil_ne : t.nil ≠ NULL
  nil_black : (t.mem t.nil).color = .black
  context : LinkedIn t c (t.addr s)
  focus : Linked t (t.up c) s
  nodup : (plug c s).toList.Nodup

/-- The whole tree. -/
abbrev Shape (t : RBTree) (s : BinTree Ptr) : Prop := At t [] s

/-! ### Moving the focus -/

theorem at_cons {f : Frame Ptr} : At t (f :: c) s ↔ At t c (f.fill s) := by
  obtain ⟨d, k, a, u⟩ := f
  constructor
  · rintro ⟨h1, h2, ⟨ha, hn, hd, hf, hp, hk, hu, hc⟩, hs, hnd⟩
    exact ⟨h1, h2, by simpa [Frame.fill] using hc,
      by simpa only [Frame.fill] using linked_branch.mpr ⟨ha, hn, hd, hf, hp, hk, hs, hu⟩, hnd⟩
  · rintro ⟨h1, h2, hc, hs, hnd⟩
    obtain ⟨ha, hn, hd, hf, hp, hk, hs, hu⟩ := linked_branch.mp hs
    exact ⟨h1, h2, ⟨ha, hn, hd, hf, hp, hk, hu, by simpa [Frame.fill] using hc⟩, hs, hnd⟩

theorem at_plug : At t c s ↔ Shape t (plug c s) := by
  induction c generalizing s with
  | nil => exact Iff.rfl
  | cons f c ih => rw [at_cons, ih, plug_cons]

/-- Going down into the subtree on side `d`. -/
theorem At.down (h : At t c (branch d k s a u)) : At t (⟨d, k, a, u⟩ :: c) s := at_cons.mpr h

theorem At.up (h : At t (⟨d, k, a, u⟩ :: c) s) : At t c (branch d k s a u) := at_cons.mp h

theorem At.down_flip (h : At t c (branch d k s a u)) : At t (⟨d.flip, k, a, s⟩ :: c) u :=
  at_cons.mpr (by rw [Frame.fill, branch_flip]; exact h)

theorem At.up_flip (h : At t (⟨d.flip, k, a, s⟩ :: c) u) : At t c (branch d k s a u) := by
  have h' := at_cons.mp h
  rwa [Frame.fill, branch_flip] at h'

/-! ### Frames -/

theorem Linked.congr (hn : t'.nil = t.nil) (hm : ∀ a ∈ s.toList, t'.mem a = t.mem a) (h : Linked t p s) :
    Linked t' p s := by
  induction s generalizing p with
  | nil => trivial
  | node k l a r ihl ihr =>
    obtain ⟨h1, h2, h3, h4, h5, h6, h7, h8⟩ := h
    have ha := hm a (by simp)
    refine ⟨h1, by rwa [hn], by rw [ha, addr_eq hn, h3], by rw [ha, addr_eq hn, h4], by rw [ha, h5],
      by rw [ha, h6], ihl (fun b hb => hm b (by simp [hb])) h7, ihr (fun b hb => hm b (by simp [hb])) h8⟩

theorem up_eq (hn : t'.nil = t.nil) (c : Context Ptr) : t'.up c = t.up c := by
  cases c with
  | nil => exact hn
  | cons f c => rfl

theorem LinkedIn.congr (hn : t'.nil = t.nil) (hr : t'.root = t.root)
    (hm : ∀ a ∈ labels c, t'.mem a = t.mem a) (h : LinkedIn t c a) : LinkedIn t' c a := by
  induction c generalizing a with
  | nil => exact hr.trans h
  | cons f c ih =>
    obtain ⟨h1, h2, h3, h4, h5, h6, h7, h8⟩ := h
    have hf := hm f.label (by simp [labels])
    refine ⟨h1, by rwa [hn], by rw [hf, h3], by rw [hf, addr_eq hn, h4], by rw [hf, up_eq hn, h5], by rw [hf, h6],
      h7.congr hn fun b hb => hm b (by simp [labels, hb]), ih (fun b hb => hm b (by simp [labels, hb])) h8⟩

/-- Hanging a subtree below another node changes the parent of its root only. -/
theorem Linked.reparent {q : Ptr} (hn : t'.nil = t.nil) (hnd : s.toList.Nodup)
    (ha : s ≠ .nil → t'.mem (t.addr s) = { t.mem (t.addr s) with parent := q })
    (hm : ∀ a ∈ s.toList, a ≠ t.addr s → t'.mem a = t.mem a) (h : Linked t p s) : Linked t' q s := by
  cases s with
  | nil => trivial
  | node k l a r =>
    obtain ⟨h1, h2, h3, h4, -, h6, h7, h8⟩ := h
    have ha : t'.mem a = { t.mem a with parent := q } := ha (by simp)
    have hnd : (branch .left k l a r).toList.Nodup := hnd
    rw [nodup_toList_branch] at hnd
    refine ⟨h1, by rwa [hn], by rw [ha, addr_eq hn]; exact h3, by rw [ha, addr_eq hn]; exact h4, by rw [ha],
      by rw [ha]; exact h6, h7.congr hn fun b hb => ?_, h8.congr hn fun b hb => ?_⟩
    · exact hm b (by simp [hb]) fun e => hnd.1 ((show b = a from e) ▸ hb)
    · exact hm b (by simp [hb]) fun e => hnd.2.1 ((show b = a from e) ▸ hb)

/-- Linking another subtree at the hole changes the root pointer, or one link of the node above. -/
theorem LinkedIn.repoint {b : Ptr} (hn : t'.nil = t.nil) (hnd : (labels c).Nodup)
    (hroot : c = [] → t'.root = b) (hroot' : c ≠ [] → t'.root = t.root)
    (hup : ∀ f c', c = f :: c' → t'.mem f.label = (t.mem f.label).setChild b f.side)
    (hm : ∀ x ∈ labels c, x ≠ t.up c → t'.mem x = t.mem x) (h : LinkedIn t c a) : LinkedIn t' c b := by
  cases c with
  | nil => exact hroot rfl
  | cons f c =>
    obtain ⟨h1, h2, h3, h4, h5, h6, h7, h8⟩ := h
    have hf := hup f c rfl
    simp only [labels, List.nodup_cons, List.mem_append, not_or] at hnd
    have hsame : ∀ x ∈ f.sib.toList ++ labels c, t'.mem x = t.mem x := by
      intro x hx
      refine hm x (by simp only [labels, List.mem_cons]; exact Or.inr hx) ?_
      rintro rfl
      rcases List.mem_append.mp hx with hx | hx
      · exact hnd.1.1 hx
      · exact hnd.1.2 hx
    refine ⟨h1, by rwa [hn], by rw [hf]; simp, by rw [hf, addr_eq hn]; simpa using h4, ?_, ?_,
      h7.congr hn fun x hx => hsame x (by simp [hx]),
      h8.congr hn (hroot' (by simp)) fun x hx => hsame x (by simp [hx])⟩
    · rw [hf, up_eq hn, ← h5]; cases f.side <;> rfl
    · rw [hf, ← h6]; cases f.side <;> rfl

/-! ### Reading links -/

theorem Linked.mem_ne (h : Linked t p s) (ha : a ∈ s.toList) : a ≠ NULL ∧ a ≠ t.nil := by
  induction s generalizing p with
  | nil => exact absurd ha List.not_mem_nil
  | node k l b r ihl ihr =>
    obtain ⟨hb, hbn, -, -, -, -, hl, hr⟩ := h
    rw [toList_node, List.mem_append, List.mem_cons] at ha
    rcases ha with ha | rfl | ha
    · exact ihl hl ha
    · exact ⟨hb, hbn⟩
    · exact ihr hr ha

theorem Linked.parent_addr (h : Linked t p s) (hs : s ≠ .nil) : (t.mem (t.addr s)).parent = p := by
  cases s with
  | nil => exact absurd rfl hs
  | node k l a r => exact h.2.2.2.2.1

namespace At

theorem addr_ne_null (h : At t c s) : t.addr s ≠ NULL := by
  cases s with
  | nil => exact h.nil_ne
  | node k l a r => exact h.focus.1

theorem addr_ne_nil (h : At t c s) (hs : s ≠ .nil) : t.addr s ≠ t.nil := by
  cases s with
  | nil => exact absurd rfl hs
  | node k l a r => exact h.focus.2.1

theorem mem_ne (h : At t c s) (hx : x ∈ (plug c s).toList) : x ≠ NULL ∧ x ≠ t.nil := (at_plug.mp h).focus.mem_ne hx

theorem color_addr (h : At t c s) : (t.mem (t.addr s)).color = s.color := by
  cases s with
  | nil => exact h.nil_black
  | node k l a r => exact h.focus.2.2.2.2.2.1

theorem isRed_addr (h : At t c s) : t.isRed (t.addr s) = decide (s.color = .red) := by
  simp [isRed, hasColor, h.addr_ne_null, h.color_addr]

theorem isBlack_addr (h : At t c s) : t.isBlack (t.addr s) = decide (s.color = .black) := by
  simp [isBlack, hasColor, h.addr_ne_null, h.color_addr]

theorem root_mem_labels (h : LinkedIn t c a) (hc : c ≠ []) : t.root ∈ labels c := by
  induction c generalizing a with
  | nil => exact absurd rfl hc
  | cons f c ih =>
    cases c with
    | nil =>
      have hroot : t.root = f.label := h.2.2.2.2.2.2.2
      simp [labels, hroot]
    | cons g c =>
      have := ih h.2.2.2.2.2.2.2 (by simp)
      simp only [labels, List.mem_cons, List.mem_append] at this ⊢
      exact Or.inr (Or.inr this)

theorem addr_eq_root_iff (h : At t c s) : t.addr s = t.root ↔ c = [] := by
  constructor
  · intro e
    by_contra hc
    have hr := root_mem_labels h.context hc
    rcases addr_eq_nil_or_mem t s with rfl | hs
    · exact (h.mem_ne (mem_toList_plug.mpr (Or.inr hr))).2 e.symm
    · exact (nodup_toList_plug.mp h.nodup).2.2 hs (e ▸ hr)
  · rintro rfl
    exact h.context.symm

theorem parent_addr (h : At t c s) (hs : s ≠ .nil) : t.parent (t.addr s) = t.up c := by
  rw [parent, if_neg h.addr_ne_null]
  exact h.focus.parent_addr hs

theorem parent_branch (h : At t c (branch d k s a u)) : t.parent a = t.up c := by
  have := h.parent_addr (by cases d <;> simp [branch])
  rwa [addr_branch] at this

/-- Whether a focus below a node is its child on side `e`, for a focus that is not the same leaf as its
    sibling. -/
theorem isChild_addr {e : Side} (h : At t (⟨d, k, a, u⟩ :: c) s) (hp : t.parent (t.addr s) = a)
    (hne : s ≠ .nil ∨ u ≠ .nil) : t.isChild e (t.addr s) = some (decide (e = d)) := by
  obtain ⟨ha, -, hd, hf, -⟩ := h.context
  have hload : t.load a = some (t.mem a) := if_neg ha
  have hsu : t.addr s ≠ t.addr u := by
    have hnd := h.nodup
    rw [plug_cons, nodup_toList_plug] at hnd
    have hdis := (nodup_toList_branch.mp hnd.1).2.2.2.2
    rcases addr_eq_nil_or_mem t s with rfl | hs
    · have hu : At t (⟨d.flip, k, a, .nil⟩ :: c) u := At.down_flip h.up
      exact (hu.addr_ne_nil (hne.resolve_left (by simp))).symm
    · rcases addr_eq_nil_or_mem t u with rfl | hu
      · exact h.addr_ne_nil (hne.resolve_right (by simp))
      · exact fun e => hdis hs (e ▸ hu)
  simp only [isChild, h.addr_ne_null, ↓reduceIte, hp, hload, Option.bind_eq_bind, Option.bind_some, Option.pure_def,
    Option.some.injEq, decide_eq_decide]
  rcases Side.eq_or_eq_flip e d with rfl | rfl
  · simp [hd]
  · simp only [hf, Side.flip_ne, iff_false]
    exact hsu

end At

end QPHi.RBTree
