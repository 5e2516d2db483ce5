import QPHi.Theorems.RBTree.Insert

/-! `qp_rbtree_min` and `qp_rbtree_max`, and `qp_rbtree_delete`: cutting out the node or its successor,
    moving the content of the successor, and the repair. -/

namespace QPHi.RBTree
open BinTree Loop

variable {t t' : RBTree} {c : Context Ptr} {s u w : BinTree Ptr} {d : Side} {k : Color} {node a b : Ptr}
  {ls : List Ptr}

/-! ### The first and the last node of a subtree -/

theorem extreme_loop (d : Side) (h : At t c s) (hs : s ≠ .nil) :
    ∃ c' k x u, s = plug c' (branch d k .nil x u) ∧ Spine d c' ∧
      Returns (fun fuel => iterate (extremeRound d t) fuel (t.addr s)) x := by
  induction s using branch_induction d generalizing c with
  | nil => exact absurd rfl hs
  | node k near a far ih _ =>
    obtain ⟨ha, -, hchild, -⟩ := linked_branch.mp h.focus
    rw [addr_branch]
    by_cases hnil : near = .nil
    · subst hnil
      refine ⟨[], k, a, far, rfl, by simp [Spine], returns_done ?_⟩
      simp [extremeRound, load_of_ne ha, hchild]
    · obtain ⟨c', k', x, u, hsplit, hspine, hret⟩ := ih h.down hnil
      refine ⟨c' ++ [⟨d, k, a, far⟩], k', x, u, ?_, ?_, returns_again ?_ hret⟩
      · rw [plug_append, ← hsplit]
        rfl
      · intro f hf
        rcases List.mem_append.mp hf with hf | hf
        · exact hspine f hf
        · rw [List.mem_singleton.mp hf]
      · simp [extremeRound, load_of_ne ha, hchild, h.down.addr_ne_nil hnil]

theorem extreme_returns (d : Side) (h : At t c s) (hs : s ≠ .nil) :
    ∃ c' k x u, s = plug c' (branch d k .nil x u) ∧ Spine d c' ∧
      Returns (fun fuel => t.extreme d fuel (t.addr s)) x := by
  obtain ⟨c', k, x, u, hsplit, hspine, hret⟩ := extreme_loop d h hs
  refine ⟨c', k, x, u, hsplit, hspine, hret.congr fun fuel => ?_⟩
  have hroot : t.root ≠ t.nil := by
    intro e
    by_cases hc : c = []
    · exact h.addr_ne_nil hs ((h.addr_eq_root_iff.mpr hc).trans e)
    · exact (h.mem_ne (mem_toList_plug.mpr (Or.inr (At.root_mem_labels h.context hc)))).2 e
  simp [extreme, isEmpty, hroot, h.addr_ne_null]

/-! ### Cutting out a node with at most one child -/

/-- The memory after the node `b` in the context `c` is cut out and the subtree `s` takes its place. -/
structure Cut (c : Context Ptr) (s : BinTree Ptr) (t t' : RBTree) : Prop where
  nil : t'.nil = t.nil
  root : c = [] → t'.root = t.addr s
  root_ne : c ≠ [] → t'.root = t.root
  moved : t'.mem (t.addr s) = (t.mem (t.addr s)).setParent (t.up c)
  above : ∀ f c', c = f :: c' → t'.mem f.label = (t.mem f.label).setChild (t.addr s) f.side
  outside : ∀ a, a ≠ t.addr s → (c ≠ [] → a ≠ t.up c) → t'.mem a = t.mem a

theorem At.cutOut (h : At t c (branch d k s b .nil)) :
    ∃ t', t.cutOut b = some (t', t.addr s) ∧ Cut c s t t' := by
  obtain ⟨hb, hbn, hnear, hfar, hparent, -⟩ := linked_branch.mp h.focus
  obtain ⟨hnd, -, hdis⟩ := nodup_toList_plug.mp h.nodup
  have hs0 := h.down.addr_ne_null
  have hbs : b ≠ t.addr s := by
    rcases addr_eq_nil_or_mem t s with rfl | hs
    · exact hbn
    · exact fun e => (nodup_toList_branch.mp hnd).1 (e ▸ hs)
  have htmp : (if t.nil ≠ (t.mem b).left then (t.mem b).left else (t.mem b).right) = t.addr s := by
    cases d with
    | left =>
      have hnear : (t.mem b).left = t.addr s := hnear
      have hfar : (t.mem b).right = t.nil := hfar
      by_cases hs : t.nil = t.addr s
      · rw [if_neg (by rw [hnear]; exact not_not.mpr hs), hfar, hs]
      · rw [if_pos (by rwa [hnear]), hnear]
    | right =>
      have hfar : (t.mem b).left = t.nil := hfar
      rw [if_neg (by rw [hfar]; simp)]
      exact hnear
  have hpar : t.parent b = t.up c := by rw [RBTree.parent, if_neg hb, hparent]
  obtain ⟨t₁, ht₁⟩ : ∃ t₁, t₁ = t.write (t.addr s) ((t.mem (t.addr s)).setParent (t.up c)) := ⟨_, rfl⟩
  have hpar₁ : t₁.parent b = t.up c := by
    rw [← hpar, RBTree.parent, RBTree.parent, ht₁, write_mem, Function.update_of_ne hbs]
  have hcut : t.cutOut b = (t₁.unlink b (t.addr s)).map fun t' => (t', t.addr s) := by
    simp only [RBTree.cutOut, load_of_ne hb, Option.bind_eq_bind, Option.bind_some, htmp, modify_of_ne hs0, hpar, ← ht₁]
    cases t₁.unlink b (t.addr s) <;> rfl
  rw [hcut]
  cases c with
  | nil =>
    refine ⟨{ t₁ with root := t.addr s }, ?_, by simp [ht₁], fun _ => rfl, by simp, by simp [ht₁], by simp, ?_⟩
    · have hroot : t₁.nil = t₁.parent b := by rw [hpar₁, ht₁]; rfl
      rw [unlink, if_pos hroot]
      rfl
    · intro a ha _
      simp [ht₁, Function.update_of_ne ha]
  | cons f c =>
    obtain ⟨hf, hfn, hside, hsib, -⟩ := h.context
    have hfs : f.label ≠ t.addr s := by
      rcases addr_eq_nil_or_mem t s with rfl | hs
      · exact hfn
      · intro e
        exact hdis (by simp [hs]) (show t.addr s ∈ _ by simp [labels, e])
    have hmem : t₁.mem f.label = t.mem f.label := by rw [ht₁, write_mem, Function.update_of_ne hfs]
    have hpar₁ : t₁.parent b = f.label := hpar₁
    have hne := h.sib_ne (by cases d <;> simp [branch])
    rw [addr_branch] at hside hne
    have hlink := relink_of_child (t.addr s) hb hpar₁ hf (hmem ▸ hside) (by rw [hmem, hsib]; exact hne)
    refine ⟨t₁.write f.label ((t₁.mem f.label).setChild (t.addr s) f.side), ?_, by simp [ht₁], by simp, by simp [ht₁],
      ?_, ?_, ?_⟩
    · have hroot : t₁.nil ≠ t₁.parent b := by rw [hpar₁, ht₁]; exact hfn.symm
      rw [unlink, if_neg hroot]
      exact congrArg (Option.map _) hlink
    · rw [write_mem, Function.update_of_ne hfs.symm, ht₁, write_mem, Function.update_self]
    · rintro f' c' ⟨rfl, rfl⟩
      rw [write_mem, Function.update_self, hmem]
    · intro a ha hac
      have haf : a ≠ f.label := hac (by simp)
      rw [write_mem, Function.update_of_ne haf, ht₁, write_mem, Function.update_of_ne ha]

theorem At.cut (h : At t c (branch d k s b .nil)) (C : Cut c s t t') :
    At t' c s ∧ t'.parent (t'.addr s) = t'.up c := by
  obtain ⟨-, -, -, -, -, -, hs, -⟩ := linked_branch.mp h.focus
  obtain ⟨hnd, hndc, hdis⟩ := nodup_toList_plug.mp h.nodup
  have hnds := (nodup_toList_branch.mp hnd).2.2.1
  have hcmem : c ≠ [] → t.up c ∈ labels c := by
    intro hc
    obtain ⟨f, c', rfl⟩ := List.exists_cons_of_ne_nil hc
    simp [RBTree.up, labels]
  refine ⟨⟨C.nil ▸ h.nil_ne, ?_, ?_, ?_, ?_⟩, ?_⟩
  · rw [C.nil]
    rcases addr_eq_nil_or_mem t s with rfl | hmem
    · have hmoved : t'.mem t.nil = _ := C.moved
      rw [hmoved]
      exact h.nil_black
    · rw [C.outside t.nil]
      · exact h.nil_black
      · intro e
        exact (h.mem_ne (mem_toList_plug.mpr (Or.inl (by simp [hmem])))).2 e.symm
      · intro hc e
        exact (h.mem_ne (mem_toList_plug.mpr (Or.inr (hcmem hc)))).2 e.symm
  · rw [addr_eq C.nil]
    refine LinkedIn.repoint C.nil hndc C.root C.root_ne C.above (fun a ha hne => ?_) h.context
    refine C.outside a ?_ fun _ => hne
    rcases addr_eq_nil_or_mem t s with rfl | hmem
    · exact (h.mem_ne (mem_toList_plug.mpr (Or.inr ha))).2
    · rintro rfl
      exact hdis (by simp [hmem]) ha
  · rw [up_eq C.nil]
    refine hs.reparent C.nil hnds (fun _ => C.moved) fun a ha hne => C.outside a hne fun hc e => ?_
    exact hdis (by simp [ha]) (e ▸ hcmem hc)
  · exact nodup_toList_plug.mpr ⟨hnds, hndc, fun a ha => hdis (by simp [ha])⟩
  · rw [addr_eq C.nil, up_eq C.nil, RBTree.parent, if_neg h.down.addr_ne_null, C.moved, Node.setParent_parent]

theorem Cut.content (C : Cut c s t t') (a : Ptr) :
    (t'.mem a).key = (t.mem a).key ∧ (t'.mem a).data = (t.mem a).data := by
  by_cases hs : a = t.addr s
  · rw [hs, C.moved]
    simp
  cases c with
  | nil => rw [C.outside a hs (by simp)]; exact ⟨rfl, rfl⟩
  | cons f c =>
    by_cases hf : a = f.label
    · rw [hf, C.above f c rfl]
      simp
    · rw [C.outside a hs fun _ => hf]
      exact ⟨rfl, rfl⟩

/-! ### Moving the content -/

/-- Keys and data do not matter for the shape. -/
theorem At.congr_links (hn : t'.nil = t.nil) (hr : t'.root = t.root)
    (hm : ∀ a, (t'.mem a).left = (t.mem a).left ∧ (t'.mem a).right = (t.mem a).right ∧
      (t'.mem a).parent = (t.mem a).parent ∧ (t'.mem a).color = (t.mem a).color) (h : At t c s) : At t' c s := by
  rw [at_plug] at h ⊢
  generalize plug c s = w at h
  have hlinked : ∀ (w : BinTree Ptr) (p : Ptr), Linked t p w → Linked t' p w := by
    intro w
    induction w with
    | nil => exact fun _ _ => trivial
    | node k l a r ihl ihr =>
      rintro p ⟨h1, h2, h3, h4, h5, h6, h7, h8⟩
      obtain ⟨m1, m2, m3, m4⟩ := hm a
      exact ⟨h1, by rwa [hn], by rw [m1, addr_eq hn, h3], by rw [m2, addr_eq hn, h4], by rw [m3, h5], by rw [m4, h6],
        ihl a h7, ihr a h8⟩
  refine ⟨hn ▸ h.nil_ne, ?_, ?_, up_eq hn [] ▸ hlinked w _ h.focus, h.nodup⟩
  · rw [hn, (hm t.nil).2.2.2, h.nil_black]
  · rw [addr_eq hn]
    exact hr.trans h.context

def entry (t : RBTree) (a : Ptr) : UInt64 × Ptr := ((t.mem a).key, (t.mem a).data)

/-- `node` takes the content of `b`, which stands outside the tree. -/
theorem takeContent_eq (h : At t c s) (hb : b ≠ NULL) (hnode : node ≠ NULL) :
    ∃ t', t.takeContent node b = some t' ∧ At t' c s ∧ t'.nil = t.nil ∧
      (∀ a, (t'.mem a).parent = (t.mem a).parent ∧ (t'.mem a).color = (t.mem a).color) ∧
      (∀ a, t'.entry a = if a = node then t.entry b else t.entry a) := by
  by_cases hne : node = b
  · refine ⟨t, by simp [takeContent, hne], h, rfl, fun a => ⟨rfl, rfl⟩, fun a => ?_⟩
    by_cases ha : a = node
    · rw [if_pos ha, ha, hne]
    · rw [if_neg ha]
  · refine ⟨t.write node ((t.mem node).setContent (t.mem b).key (t.mem b).data), ?_, ?_, rfl, fun a => ?_, fun a => ?_⟩
    · simp [takeContent, hne, load_of_ne hb, modify_of_ne hnode]
    · refine h.congr_links (write_nil t node _) (write_root t node _) fun a => ?_
      by_cases ha : a = node
      · rw [ha, write_mem, Function.update_self]
        exact ⟨rfl, rfl, rfl, rfl⟩
      · rw [write_mem, Function.update_of_ne ha]
        exact ⟨rfl, rfl, rfl, rfl⟩
    · by_cases ha : a = node
      · rw [ha, write_mem, Function.update_self]
        exact ⟨rfl, rfl⟩
      · rw [write_mem, Function.update_of_ne ha]
        exact ⟨rfl, rfl⟩
    · by_cases ha : a = node
      · rw [if_pos ha, ha, entry, write_mem, Function.update_self]
        rfl
      · rw [if_neg ha, entry, write_mem, Function.update_of_ne ha]
        rfl

/-! ### The repair -/

theorem deleteRepair_returns (h : At t c s) (hpar : t.parent (t.addr s) = t.up c)
    (hrb : (plug c (branch d k s b .nil)).RedBlack) (hk : t.isBlack b = decide (k = .black)) :
    ∃ t', (∃ w, Repaired (plug c s).toList t t' w) ∧ Returns (fun fuel => t.deleteRepair fuel b (t.addr s)) t' := by
  obtain ⟨n, he, hbal, hcol⟩ := redBlack_plug.mp hrb
  cases k with
  | red =>
    obtain ⟨hs, -, hbs, -⟩ := balanced_red.mp hbal
    refine ⟨t, ⟨_, at_plug.mp h, redBlack_plug.mpr ⟨n, he, hbs, Or.inr hs⟩, rfl, Relinked.refl _ _⟩, ?_⟩
    exact Returns.of_eq fun fuel => by simp [deleteRepair, hk]
  | black =>
    -- The node that is missing was black, with a leaf on one side.
    obtain ⟨m, rfl, hbs, hm⟩ := balanced_black_iff.mp hbal
    obtain rfl : m = 0 := hm
    have I : DeleteInv (plug c s).toList t t (t.addr s) c s 0 := by
      refine ⟨⟨h, rfl, Relinked.refl _ _⟩, rfl, hpar, he, fun _ => hbs, fun hred => ?_⟩
      obtain ⟨s₁, a, s₂, rfl⟩ := exists_branch_of_red .left hred
      rw [blacken_branch]
      obtain ⟨-, -, h₁, h₂⟩ := balanced_red.mp hbs
      exact balanced_black.mpr ⟨h₁, h₂⟩
    obtain ⟨t', hw, hret⟩ := deleteFix_returns I
    exact ⟨t', hw, hret.congr fun fuel => by simp [deleteRepair, hk]⟩

/-! ### The whole deletion -/

/-- What `qp_rbtree_delete` does once it knows the node `b` that leaves. -/
def deleteSubst (fuel : Nat) (t : RBTree) (node b : Ptr) : Option RBTree := do
  let (t, tmp) ← t.cutOut b
  let t ← t.takeContent node b
  t.deleteRepair fuel b tmp

theorem deleteSubst_returns (h : At t c (branch d k s b .nil)) (hrb : (plug c (branch d k s b .nil)).RedBlack)
    (hnode : node = b ∨ node ∈ labels c) :
    ∃ t' w, Shape t' w ∧ w.RedBlack ∧ w.toList = (plug c s).toList ∧ t'.nil = t.nil ∧
      (∀ a, t'.entry a = if a = node then t.entry b else t.entry a) ∧
      (w = .nil → (t'.mem t'.nil).parent = t'.nil) ∧ Returns (fun fuel => t.deleteSubst fuel node b) t' := by
  obtain ⟨hb, hbn, -, -, -, hbk, -⟩ := linked_branch.mp h.focus
  have hnode0 : node ≠ NULL := by
    rcases hnode with rfl | hnode
    · exact hb
    · exact (h.mem_ne (mem_toList_plug.mpr (Or.inr hnode))).1
  obtain ⟨t₁, hcut, C⟩ := h.cutOut
  obtain ⟨hat₁, hpar₁⟩ := h.cut C
  obtain ⟨t₂, htake, hat₂, hnil₂, hmem₂, hentry₂⟩ := takeContent_eq hat₁ hb hnode0
  have haddr₂ : t₂.addr s = t.addr s := (addr_eq hnil₂ s).trans (addr_eq C.nil s)
  have hpar₂ : t₂.parent (t₂.addr s) = t₂.up c := by
    rw [haddr₂, up_eq hnil₂, ← hpar₁, addr_eq C.nil, RBTree.parent, RBTree.parent, (hmem₂ _).1]
  have hk₂ : t₂.isBlack b = decide (k = .black) := by
    have hbs : b ≠ t.addr s ∧ (c ≠ [] → b ≠ t.up c) := by
      obtain ⟨hnd, -, hdis⟩ := nodup_toList_plug.mp h.nodup
      constructor
      · rcases addr_eq_nil_or_mem t s with rfl | hs
        · exact hbn
        · exact fun e => (nodup_toList_branch.mp hnd).1 (e ▸ hs)
      · intro hc e
        obtain ⟨f, c', rfl⟩ := List.exists_cons_of_ne_nil hc
        exact hdis (show b ∈ _ by simp) (by simp [labels, e, RBTree.up])
    rw [isBlack, hasColor, if_neg hb, (hmem₂ b).2, C.outside b hbs.1 hbs.2, hbk]
  obtain ⟨t₃, ⟨w, hw⟩, hret⟩ := deleteRepair_returns hat₂ hpar₂ hrb hk₂
  have hcontent : ∀ a, t₁.entry a = t.entry a := fun a => Prod.ext (C.content a).1 (C.content a).2
  refine ⟨t₃, w, hw.shape, hw.redBlack, hw.order, hw.relinked.nil.trans (hnil₂.trans C.nil), fun a => ?_, ?_, ?_⟩
  · have : t₃.entry a = t₂.entry a := Prod.ext (hw.relinked.key a) (hw.relinked.data a)
    rw [this, hentry₂, hcontent, hcontent]
  · rintro rfl
    -- An empty tree: the sentinel took the place of the root, and its parent is above the root.
    have hls : (plug c s).toList = [] := hw.order.symm
    have hc : c = [] := by
      cases c with
      | nil => rfl
      | cons f c =>
        have hf : f.label ∈ (plug (f :: c) s).toList := mem_toList_plug.mpr (Or.inr (by simp [labels]))
        rw [hls] at hf
        cases hf
    subst hc
    obtain rfl : s = .nil := by
      cases s with
      | nil => rfl
      | node k l a r => simp at hls
    rw [hw.relinked.nil, hw.relinked.outside t₂.nil (by rw [hls]; simp)]
    have := hpar₂
    rwa [addr_nil, RBTree.parent, if_neg hat₂.nil_ne] at this
  · refine hret.congr fun fuel => ?_
    simp only [deleteSubst, hcut, htake, haddr₂, Option.bind_eq_bind, Option.bind_some]

/-- What `qp_rbtree_delete` leaves and returns, in a tree with the nodes `pre ++ node :: post`. -/
structure Deleted (pre post : List Ptr) (node : Ptr) (t t' : RBTree) (r : Ptr) (w : BinTree Ptr) : Prop where
  shape : Shape t' w
  redBlack : w.RedBlack
  nil : t'.nil = t.nil
  entries : w.toList.map t'.entry = (pre ++ post).map t.entry
  nodes : ∀ a, a ∈ w.toList ↔ a ∈ pre ++ node :: post ∧ a ≠ r
  gone : r ∈ pre ++ node :: post
  sentinel : w = .nil → (t'.mem t'.nil).parent = t'.nil

/-- A node with at most one child leaves itself. -/
theorem delete_self (h : At t c (branch d k s node .nil)) (hrb : (plug c (branch d k s node .nil)).RedBlack) :
    ∃ pre post t' w, (plug c (branch d k s node .nil)).toList = pre ++ node :: post ∧
      Deleted pre post node t t' node w ∧ (∀ a, a ≠ node → t'.entry a = t.entry a) ∧
      Returns (fun fuel => t.deleteSubst fuel node node) t' := by
  obtain ⟨t', w, hshape, hrb', hls, hnil, hentry, hsent, hret⟩ := deleteSubst_returns h hrb (Or.inl rfl)
  obtain ⟨pre, post, hsplit, hrest⟩ : ∃ pre post, (plug c (branch d k s node .nil)).toList = pre ++ node :: post ∧
      (plug c s).toList = pre ++ post := by
    rw [toList_plug, toList_plug]
    cases d with
    | left => exact ⟨before c ++ s.toList, after c, by simp [branch], by simp⟩
    | right => exact ⟨before c, s.toList ++ after c, by simp [branch], by simp⟩
  have hnd := h.nodup
  rw [hsplit] at hnd
  have hnot : node ∉ pre ++ post := (List.nodup_cons.mp (List.perm_middle.nodup_iff.mp hnd)).1
  refine ⟨pre, post, t', w, hsplit, ⟨hshape, hrb', hnil, ?_, fun a => ?_, by simp, hsent⟩,
    fun a ha => by rw [hentry, if_neg ha], hret⟩
  · rw [hls, hrest]
    refine List.map_congr_left fun a ha => ?_
    have hne : a ≠ node := fun e => hnot (e ▸ ha)
    rw [hentry, if_neg hne]
  · rw [hls, hrest]
    constructor
    · intro ha
      exact ⟨List.perm_middle.symm.subset (List.mem_cons_of_mem node ha), fun e => hnot (e ▸ ha)⟩
    · rintro ⟨ha, hne⟩
      exact (List.mem_cons.mp (List.perm_middle.subset ha)).resolve_left hne

/-- A node with two children takes the content of its successor, which leaves instead. -/
theorem delete_succ {l r : BinTree Ptr} (h : At t c (.node k l node r)) (hr : r ≠ .nil)
    (hrb : (plug c (.node k l node r)).RedBlack) :
    ∃ b pre post t' w, (plug c (.node k l node r)).toList = pre ++ node :: post ∧ Deleted pre post node t t' b w ∧
      b ≠ node ∧ (∀ a, a ≠ node → t'.entry a = t.entry a) ∧ Returns (fun fuel => t.min fuel (t.addr r)) b ∧
      Returns (fun fuel => t.deleteSubst fuel node b) t' := by
  have hdown : At t (⟨.right, k, node, l⟩ :: c) r := At.down (d := .right) h
  obtain ⟨c', k', b, u, hsplit, hspine, hmin⟩ := extreme_returns .left hdown hr
  obtain ⟨cs, hcs⟩ : ∃ cs, cs = c' ++ ⟨.right, k, node, l⟩ :: c := ⟨_, rfl⟩
  have hwhole : plug c (.node k l node r) = plug cs (branch .right k' u b .nil) := by
    rw [hcs, plug_append, plug_cons, hsplit]
    rfl
  have hat : At t cs (branch .right k' u b .nil) := by rw [at_plug, ← hwhole, ← at_plug]; exact h
  have hmem : node ∈ labels cs := by
    rw [hcs]
    clear hcs hspine hsplit
    induction c' with
    | nil => simp [labels]
    | cons f c' ih =>
      simp only [List.cons_append, labels, List.mem_cons, List.mem_append]
      exact Or.inr (Or.inr ih)
  obtain ⟨t', w, hshape, hrb', hls, hnil, hentry, hsent, hret⟩ :=
    deleteSubst_returns hat (hwhole ▸ hrb) (Or.inr hmem)
  have hbefore : before cs = before c ++ l.toList ++ [node] := by
    rw [hcs, before_append, hspine.before_nil, List.append_nil]
    rfl
  have hold : (plug c (.node k l node r)).toList = before c ++ l.toList ++ node :: (b :: u.toList ++ after cs) := by
    rw [hwhole, toList_plug, hbefore]
    simp [branch]
  have hnew : w.toList = before c ++ l.toList ++ node :: (u.toList ++ after cs) := by
    rw [hls, toList_plug, hbefore]
    simp
  have hnd := h.nodup
  rw [hold] at hnd
  obtain ⟨hnot, hnd'⟩ := List.nodup_cons.mp (List.perm_middle.nodup_iff.mp hnd)
  have hnotb : b ∉ before c ++ l.toList ++ (u.toList ++ after cs) :=
    (List.nodup_cons.mp (List.perm_middle.nodup_iff.mp hnd')).1
  have hne : b ≠ node := fun e => hnot (List.mem_append_right _ (e ▸ List.mem_cons_self))
  refine ⟨b, _, _, t', w, hold, ⟨hshape, hrb', hnil, ?_, fun a => ?_, by simp, hsent⟩, hne,
    fun a ha => by rw [hentry, if_neg ha], hmin, hret⟩
  · have hsame : ∀ a ∈ before c ++ l.toList ++ (b :: u.toList ++ after cs), t'.entry a = t.entry a := by
      intro a ha
      have hne : a ≠ node := fun e => hnot (e ▸ ha)
      rw [hentry, if_neg hne]
    have hleft : (before c ++ l.toList).map t'.entry = (before c ++ l.toList).map t.entry :=
      List.map_congr_left fun a ha => hsame a (List.mem_append_left _ ha)
    have hright : (u.toList ++ after cs).map t'.entry = (u.toList ++ after cs).map t.entry :=
      List.map_congr_left fun a ha => hsame a (List.mem_append_right _ (List.mem_cons_of_mem b ha))
    calc w.toList.map t'.entry
        = (before c ++ l.toList).map t'.entry ++ t'.entry node :: (u.toList ++ after cs).map t'.entry := by
          rw [hnew, List.map_append, List.map_cons]
      _ = (before c ++ l.toList).map t.entry ++ (b :: (u.toList ++ after cs)).map t.entry := by
          rw [hleft, hright, hentry node, if_pos rfl, List.map_cons]
      _ = (before c ++ l.toList ++ (b :: u.toList ++ after cs)).map t.entry := by
          rw [← List.map_append, List.cons_append]
  · have hleaves : b ∉ w.toList := by
      rw [hnew, List.perm_middle.mem_iff, List.mem_cons]
      exact not_or.mpr ⟨hne, hnotb⟩
    have hperm : (before c ++ l.toList ++ node :: (b :: u.toList ++ after cs)).Perm (b :: w.toList) := by
      rw [hnew, List.append_cons, List.append_cons (before c ++ l.toList) node (u.toList ++ after cs)]
      exact List.perm_middle
    rw [hperm.mem_iff, List.mem_cons]
    constructor
    · exact fun ha => ⟨.inr ha, fun e => hleaves (e ▸ ha)⟩
    · exact fun ha => ha.1.resolve_left ha.2

/-- The node itself leaves if and only if it has at most one child; the content of the other nodes stays. -/
theorem delete_returns (h : Shape t s) (hrb : s.RedBlack) (hnode : node ∈ s.toList) :
    ∃ pre post t' r w, s.toList = pre ++ node :: post ∧ Deleted pre post node t t' r w ∧
      (r = node ↔ (t.mem node).left = t.nil ∨ (t.mem node).right = t.nil) ∧ (∀ a, a ≠ node → t'.entry a = t.entry a) ∧
      Returns (fun fuel => t.delete fuel node) (t', r) := by
  obtain ⟨c, k, l, r, rfl⟩ := exists_plug_of_mem hnode
  have hat : At t c (.node k l node r) := at_plug.mpr h
  obtain ⟨h0, hn, hl, hr, -⟩ := hat.focus
  have hroot : t.root ≠ t.nil := by
    have hroot : t.root = t.addr (plug c (.node k l node r)) := h.context
    rw [hroot]
    refine h.addr_ne_nil fun e => ?_
    rw [e] at hnode
    cases hnode
  have hdelete : ∀ fuel b t', t.substOf fuel node = some b → t.deleteSubst fuel node b = some t' →
      t.delete fuel node = some (t', b) := by
    intro fuel b t' hsub hrest
    simp only [deleteSubst, Option.bind_eq_bind, Option.bind_eq_some_iff] at hrest
    obtain ⟨⟨t₁, tmp⟩, hcut, t₂, htake, hrep⟩ := hrest
    simp [delete, h0, isEmpty, hroot, hsub, hcut, htake, hrep]
  by_cases hnil : l = .nil ∨ r = .nil
  · have hleaf : (t.mem node).left = t.nil ∨ (t.mem node).right = t.nil := by
      rcases hnil with rfl | rfl
      · exact Or.inl hl
      · exact Or.inr hr
    have hself : ∀ fuel, t.substOf fuel node = some node := by
      intro fuel
      simp [substOf, load_of_ne h0, hleaf.imp Eq.symm Eq.symm]
    obtain ⟨d, s, hbranch⟩ : ∃ d s, BinTree.node k l node r = branch d k s node .nil := by
      rcases hnil with rfl | rfl
      · exact ⟨.right, r, rfl⟩
      · exact ⟨.left, l, rfl⟩
    rw [hbranch] at hat hrb ⊢
    obtain ⟨pre, post, t', w, hsplit, D, hcontent, n₀, hret⟩ := delete_self hat hrb
    exact ⟨pre, post, t', node, w, hsplit, D, iff_of_true rfl hleaf, hcontent, n₀,
      fun fuel hle => hdelete fuel node t' (hself fuel) (hret fuel hle)⟩
  · rw [not_or] at hnil
    obtain ⟨b, pre, post, t', w, hsplit, D, hne, hcontent, ⟨n₀, hmin⟩, n₁, hret⟩ := delete_succ hat hnil.2 hrb
    have hleft : ¬t.nil = (t.mem node).left := by
      rw [hl]
      exact (At.addr_ne_nil (At.down (d := .left) hat) hnil.1).symm
    have hright : ¬t.nil = (t.mem node).right := by
      rw [hr]
      exact (At.addr_ne_nil (At.down (d := .right) hat) hnil.2).symm
    refine ⟨pre, post, t', b, w, hsplit, D, iff_of_false hne (not_or.mpr ⟨Ne.symm hleft, Ne.symm hright⟩), hcontent,
      Nat.max n₀ n₁, fun fuel hle => hdelete fuel b t' ?_ ?_⟩
    · simp only [substOf, load_of_ne h0, Option.bind_eq_bind, Option.bind_some, hleft, hright, or_self, ↓reduceIte]
      rw [hr]
      exact hmin fuel (Nat.le_trans (Nat.le_max_left n₀ n₁) hle)
    · exact hret fuel (Nat.le_trans (Nat.le_max_right n₀ n₁) hle)

end QPHi.RBTree
