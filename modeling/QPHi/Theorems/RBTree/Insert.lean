import QPHi.Theorems.RBTree.DeleteFix

/-! `qp_rbtree_insert`: the search for the place of the new node, hanging it there as a red leaf, and the
    repair. -/

namespace QPHi.RBTree
open BinTree Loop

variable {t t' : RBTree} {c : Context Ptr} {s u w : BinTree Ptr} {d : Side} {k : Color} {node cur : Ptr}
  {ls : List Ptr}

def key (t : RBTree) (a : Ptr) : UInt64 := (t.mem a).key

/-- The in-order walk gives strictly increasing keys. -/
def Sorted (t : RBTree) (ls : List Ptr) : Prop := ls.Pairwise fun a b => t.key a < t.key b

/-! ### The search -/

/-- Every key left of the hole is smaller than `x`, and every key right of it is greater. -/
structure Around (t : RBTree) (x : UInt64) (c : Context Ptr) : Prop where
  before : ∀ a ∈ before c, t.key a < x
  after : ∀ a ∈ after c, x < t.key a

theorem Around.left {x : UInt64} {l r : BinTree Ptr} (h : Around t x c) (hs : Sorted t (BinTree.node k l cur r).toList)
    (hlt : x < t.key cur) : Around t x (⟨.left, k, cur, r⟩ :: c) where
  before := h.before
  after a ha := by
    simp only [BinTree.after, List.cons_append, List.mem_cons, List.mem_append] at ha
    rcases ha with rfl | ha | ha
    · exact hlt
    · rw [toList_node, Sorted, List.pairwise_append, List.pairwise_cons] at hs
      exact UInt64.lt_trans hlt (hs.2.1.1 a ha)
    · exact h.after a ha

theorem Around.right {x : UInt64} {l r : BinTree Ptr} (h : Around t x c) (hs : Sorted t (BinTree.node k l cur r).toList)
    (hlt : t.key cur < x) : Around t x (⟨.right, k, cur, l⟩ :: c) where
  before a ha := by
    simp only [BinTree.before, List.mem_append, List.mem_singleton] at ha
    rcases ha with (ha | ha) | rfl
    · exact h.before a ha
    · rw [toList_node, Sorted, List.pairwise_append] at hs
      exact UInt64.lt_trans (hs.2.2 a ha cur (by simp)) hlt
    · exact hlt
  after := h.after

theorem Sorted.focus (hsort : Sorted t (plug c s).toList) : Sorted t s.toList := by
  rw [toList_plug, Sorted, List.append_assoc, List.pairwise_append, List.pairwise_append] at hsort
  exact hsort.2.1.1

/-- What the search in the tree `w` leaves with: `none` for a key that is taken, else the hole the new node
    belongs into. -/
def Found (t : RBTree) (x : UInt64) (w : BinTree Ptr) : Option Ptr → Prop
  | none => ∃ a ∈ w.toList, t.key a = x
  | some cur => ∃ d k u c, w = plug (⟨d, k, cur, u⟩ :: c) .nil ∧ Around t x (⟨d, k, cur, u⟩ :: c) ∧
      (x < t.key cur ↔ d = .left)

theorem descend_returns (hnode : node ≠ NULL) (h : At t c s) (hs : s ≠ .nil) (hsort : Sorted t (plug c s).toList)
    (ha : Around t (t.key node) c) :
    ∃ r, Found t (t.key node) (plug c s) r ∧ Returns (fun fuel => iterate (t.descendRound node) fuel (t.addr s)) r := by
  induction s generalizing c with
  | nil => exact absurd rfl hs
  | node k l cur r ihl ihr =>
    obtain ⟨hcur, -, hl, hr, -⟩ := h.focus
    have hsub : Sorted t (BinTree.node k l cur r).toList := hsort.focus
    have hround : t.descendRound node cur = if t.key node = t.key cur then some (.done none) else
        let next := if t.key node < t.key cur then t.addr l else t.addr r
        if next = t.nil then some (.done (some cur)) else some (.again next) := by
      simp only [descendRound, load_of_ne hnode, load_of_ne hcur, key, hl, hr, Option.bind_eq_bind, Option.bind_some,
        Option.pure_def]
      rfl
    rw [addr_node]
    by_cases heq : t.key node = t.key cur
    · exact ⟨none, ⟨cur, mem_toList_plug.mpr (Or.inl (by simp)), heq.symm⟩, returns_done (by rw [hround, if_pos heq])⟩
    rw [if_neg heq] at hround
    by_cases hlt : t.key node < t.key cur
    · simp only [if_pos hlt] at hround
      have hat : At t (⟨.left, k, cur, r⟩ :: c) l := At.down (d := .left) h
      have haround := ha.left hsub hlt
      by_cases hnil : l = .nil
      · subst hnil
        refine ⟨some cur, ⟨.left, k, r, c, rfl, haround, by simp [hlt]⟩, returns_done ?_⟩
        rw [hround, addr_nil, if_pos rfl]
      · obtain ⟨res, hres, hret⟩ := ihl hat hnil hsort haround
        refine ⟨res, hres, returns_again ?_ hret⟩
        rw [hround, if_neg (hat.addr_ne_nil hnil)]
    · simp only [if_neg hlt] at hround
      have hgt : t.key cur < t.key node := UInt64.lt_of_le_of_ne (UInt64.not_lt.mp hlt) fun e => heq e.symm
      have hat : At t (⟨.right, k, cur, l⟩ :: c) r := At.down (d := .right) h
      have haround := ha.right hsub hgt
      by_cases hnil : r = .nil
      · subst hnil
        refine ⟨some cur, ⟨.right, k, l, c, rfl, haround, by simp [hlt]⟩, returns_done ?_⟩
        rw [hround, addr_nil, if_pos rfl]
      · obtain ⟨res, hres, hret⟩ := ihr hat hnil hsort haround
        refine ⟨res, hres, returns_again ?_ hret⟩
        rw [hround, if_neg (hat.addr_ne_nil hnil)]

/-! ### Hanging the new node -/

/-- The memory after `node` is hung below `cur` on side `d`. -/
structure Hung (d : Side) (node cur : Ptr) (t t' : RBTree) : Prop where
  nil : t'.nil = t.nil
  root : t'.root = t.root
  leaf : (t'.mem node).left = t.nil ∧ (t'.mem node).right = t.nil ∧ (t'.mem node).parent = cur ∧
    (t'.mem node).color = .red ∧ (t'.mem node).key = (t.mem node).key ∧ (t'.mem node).data = (t.mem node).data
  above : t'.mem cur = (t.mem cur).setChild node d
  outside : ∀ a, a ≠ node → a ≠ cur → t'.mem a = t.mem a

theorem Hung.relinked (ls : List Ptr) (h : Hung d node cur t t') (hnode : node ∈ ls) (hcur : cur ∈ ls) : Relinked ls t t' where
  nil := h.nil
  key a := by
    by_cases hn : a = node
    · rw [hn, h.leaf.2.2.2.2.1]
    by_cases hc : a = cur
    · rw [hc, h.above, Node.setChild_key]
    · rw [h.outside a hn hc]
  data a := by
    by_cases hn : a = node
    · rw [hn, h.leaf.2.2.2.2.2]
    by_cases hc : a = cur
    · rw [hc, h.above, Node.setChild_data]
    · rw [h.outside a hn hc]
  outside a ha := h.outside a (fun e => ha (e ▸ hnode)) fun e => ha (e ▸ hcur)

theorem At.hung (h : At t (⟨d, k, cur, u⟩ :: c) .nil) (H : Hung d node cur t t') (h0 : node ≠ NULL)
    (hn : node ≠ t.nil) (hout : node ∉ (plug (⟨d, k, cur, u⟩ :: c) .nil).toList) :
    At t' (⟨d, k, cur, u⟩ :: c) (.node .red .nil node .nil) := by
  have hnd := (nodup_toList_plug.mp h.nodup).2.1
  have hlabels : node ∉ labels (⟨d, k, cur, u⟩ :: c) := fun hm => hout (mem_toList_plug.mpr (Or.inr hm))
  have hcur : cur ≠ t.nil := h.context.2.1
  refine ⟨H.nil ▸ h.nil_ne, ?_, ?_, ?_, ?_⟩
  · rw [H.nil, H.outside t.nil hn.symm hcur.symm]
    exact h.nil_black
  · refine LinkedIn.repoint H.nil hnd (by simp) (fun _ => H.root) ?_ ?_ h.context
    · rintro f c' ⟨rfl, rfl⟩
      exact H.above
    · intro a ha hne
      exact H.outside a (fun e => hlabels (e ▸ ha)) hne
  · obtain ⟨hl, hr, hp, hk, -⟩ := H.leaf
    exact ⟨h0, by rwa [H.nil], by rw [hl, addr_nil, H.nil], by rw [hr, addr_nil, H.nil], hp, hk, trivial, trivial⟩
  · refine nodup_toList_plug.mpr ⟨by simp, hnd, ?_⟩
    simpa using hlabels

/-! ### The repair -/

theorem insertRepair_returns (h : At t c (.node .red .nil node .nil)) (hc : c ≠ []) (he : Expects c 0) :
    ∃ t', (∃ w, Repaired (plug c (.node .red .nil node .nil)).toList t t' w) ∧
      Returns (fun fuel => t.insertRepair fuel node) t' := by
  obtain ⟨⟨d, k, p, u⟩, c, rfl⟩ := List.exists_cons_of_ne_nil hc
  have hbal : (BinTree.node .red .nil node .nil).Balanced 0 := by simp [BinTree.Balanced]
  have hpar : t.isRed (t.parent node) = decide (k = .red) := by
    have hp : t.parent node = p := h.parent_addr (by simp)
    rw [hp, h.isRed_label]
  cases k with
  | red =>
    have I : InsertInv (plug (⟨d, .red, p, u⟩ :: c) (.node .red .nil node .nil)).toList t t node
        (⟨d, .red, p, u⟩ :: c) (.node .red .nil node .nil) :=
      ⟨⟨h, rfl, Relinked.refl _ _⟩, rfl, rfl, 0, hbal, he⟩
    obtain ⟨t', hw, hret⟩ := insertFix_returns I
    exact ⟨t', hw, hret.congr fun fuel => by simp [insertRepair, hpar]⟩
  | black =>
    refine ⟨t, ⟨_, at_plug.mp h, ?_, rfl, Relinked.refl _ _⟩, Returns.of_eq fun fuel => by simp [insertRepair, hpar]⟩
    exact redBlack_plug.mpr ⟨0, he, hbal, Or.inl rfl⟩

/-! ### The whole insertion -/

/-- What `qp_rbtree_insert` leaves and returns, in a tree with the nodes `ls`. -/
inductive Inserted (ls : List Ptr) (node : Ptr) (t : RBTree) : RBTree → Ptr → Prop
  | taken {a : Ptr} (ha : a ∈ ls) (hkey : t.key a = t.key node) : Inserted ls node t t NULL
  | added {t' : RBTree} {pre post : List Ptr} {w : BinTree Ptr} (hls : ls = pre ++ post)
      (hpre : ∀ a ∈ pre, t.key a < t.key node) (hpost : ∀ a ∈ post, t.key node < t.key a)
      (repaired : Repaired (pre ++ node :: post) t t' w) : Inserted ls node t t' node

/-- The first node of a tree. -/
theorem insert_empty (hnil : t.nil ≠ NULL) (hblack : (t.mem t.nil).color = .black) (hroot : t.root = t.nil)
    (h0 : node ≠ NULL) (hn : node ≠ t.nil) :
    ∃ t', (∀ fuel, t.insert fuel node = some (t', node)) ∧ Repaired [node] t t' (.node .black .nil node .nil) := by
  obtain ⟨n, hself⟩ : ∃ n : Node, n = { t.mem node with left := t.nil, right := t.nil, parent := t.nil, color := .black } :=
    ⟨_, rfl⟩
  refine ⟨{ t.write node n with root := node }, fun fuel => ?_, ?_⟩
  · simp [RBTree.insert, h0, isEmpty, hroot, setBlack, setColor_of_ne h0, modify_of_ne h0, write, hself, Node.setColor,
      Node.setChild, Node.setParent]
  · have hmem : ∀ a, a ≠ node → (t.write node n).mem a = t.mem a := fun a ha => Function.update_of_ne ha _ _
    have hnode : (t.write node n).mem node = n := Function.update_self _ _ _
    refine ⟨⟨hnil, ?_, rfl, ⟨h0, hn, ?_, ?_, ?_, ?_, trivial, trivial⟩, by simp⟩, ⟨rfl, 1, 0, rfl, rfl, rfl⟩, rfl,
      rfl, fun a => ?_, fun a => ?_, fun a ha => hmem a (by simpa using ha)⟩
    · exact (congrArg Node.color (hmem t.nil hn.symm)).trans hblack
    · exact (congrArg Node.left hnode).trans (by rw [hself]; rfl)
    · exact (congrArg Node.right hnode).trans (by rw [hself]; rfl)
    · exact (congrArg Node.parent hnode).trans (by rw [hself]; rfl)
    · exact (congrArg Node.color hnode).trans (by rw [hself])
    · by_cases ha : a = node
      · rw [ha]
        exact (congrArg Node.key hnode).trans (by rw [hself])
      · exact congrArg Node.key (hmem a ha)
    · by_cases ha : a = node
      · rw [ha]
        exact (congrArg Node.data hnode).trans (by rw [hself])
      · exact congrArg Node.data (hmem a ha)

/-- Below a node: the search leaves with `cur`, and the new node is hung there and repaired. -/
theorem insert_below (h0 : node ≠ NULL) (hroot : t.root ≠ t.nil) (hne : node ≠ cur)
    (h : At t (⟨d, k, cur, u⟩ :: c) .nil) (hd : t.key node < t.key cur ↔ d = .left) :
    ∃ t', Hung d node cur t t' ∧ ∀ fuel t'', iterate (t.descendRound node) fuel t.root = some (some cur) →
      t'.insertRepair fuel node = some t'' → t.insert fuel node = some (t'', node) := by
  obtain ⟨hcur, hcurn, hchild, -⟩ := h.context
  have hside : (if (t.mem node).key < (t.mem cur).key then Side.left else Side.right) = d := by
    have hd : (t.mem node).key < (t.mem cur).key ↔ d = .left := hd
    by_cases hlt : (t.mem node).key < (t.mem cur).key
    · rw [if_pos hlt, hd.mp hlt]
    · rw [if_neg hlt]
      cases d with
      | left => exact absurd (hd.mpr rfl) hlt
      | right => rfl
  obtain ⟨n, hn⟩ : ∃ n, n = ((t.mem node).setChild t.nil d).setChild t.nil d.flip := ⟨_, rfl⟩
  refine ⟨((t.write node n).write cur ((t.mem cur).setChild node d)).write node ((n.setParent cur).setColor .red),
    ⟨rfl, rfl, ?_, ?_, ?_⟩, ?_⟩
  · rw [write_mem, Function.update_self, hn]
    cases d <;> exact ⟨rfl, rfl, rfl, rfl, rfl, rfl⟩
  · rw [write_mem, Function.update_of_ne hne.symm, write_mem, Function.update_self]
  · intro a ha hac
    rw [write_mem, Function.update_of_ne ha, write_mem, Function.update_of_ne hac, write_mem, Function.update_of_ne ha]
  · intro fuel t'' hfound hrepair
    rw [hn] at hrepair
    simp only [write] at hrepair
    simp [RBTree.insert, h0, isEmpty, hroot, hfound, load_of_ne h0, load_of_ne hcur, hside, hchild, modify_of_ne h0,
      modify_of_ne hcur, setRed, setColor_of_ne h0, write, Function.update_of_ne hne, Function.update_of_ne hne.symm,
      hrepair]

theorem insert_returns (h : Shape t s) (hsort : Sorted t s.toList) (hrb : s.RedBlack) (h0 : node ≠ NULL)
    (hn : node ≠ t.nil) (hout : node ∉ s.toList) :
    ∃ t' r, Inserted s.toList node t t' r ∧ Returns (fun fuel => t.insert fuel node) (t', r) := by
  have hroot : t.root = t.addr s := h.context
  by_cases hs : s = .nil
  · subst hs
    obtain ⟨t', hins, hrep⟩ := insert_empty h.nil_ne h.nil_black hroot h0 hn
    exact ⟨t', node, @Inserted.added [] node t t' [] [] _ rfl (by simp) (by simp) hrep, Returns.of_eq hins⟩
  obtain ⟨res, hres, hret⟩ := descend_returns h0 h hs hsort ⟨by simp [before], by simp [after]⟩
  have hroot' : t.root ≠ t.nil := hroot ▸ h.addr_ne_nil hs
  rw [← hroot] at hret
  cases res with
  | none =>
    obtain ⟨a, ha, hkey⟩ := hres
    obtain ⟨n₀, hfuel⟩ := hret
    refine ⟨t, NULL, .taken ha hkey, n₀, fun fuel hle => ?_⟩
    simp [RBTree.insert, h0, isEmpty, hroot', hfuel fuel hle]
  | some cur =>
    obtain ⟨d, k, u, c, hsplit, haround, hd⟩ := hres
    rw [plug_nil] at hsplit
    subst hsplit
    have hat : At t (⟨d, k, cur, u⟩ :: c) .nil := at_plug.mpr h
    have hne : node ≠ cur := fun e => hout (mem_toList_plug.mpr (Or.inr (by simp [labels, e])))
    obtain ⟨m, he, hm, -⟩ := redBlack_plug.mp hrb
    obtain rfl : m = 0 := hm
    obtain ⟨t', H, hins⟩ := insert_below h0 hroot' hne hat hd
    obtain ⟨t'', ⟨w, hw⟩, hret'⟩ := insertRepair_returns (hat.hung H h0 hn hout) (by simp) he
    have hls : (plug (⟨d, k, cur, u⟩ :: c) (.node .red .nil node .nil)).toList =
        before (⟨d, k, cur, u⟩ :: c) ++ node :: after (⟨d, k, cur, u⟩ :: c) := by
      simp [toList_plug]
    have H' := H.relinked (plug (⟨d, k, cur, u⟩ :: c) (.node .red .nil node .nil)).toList
      (mem_toList_plug.mpr (Or.inl (by simp))) (mem_toList_plug.mpr (Or.inr (by simp [labels])))
    have hw' : Repaired _ t t'' w := ⟨hw.shape, hw.redBlack, hw.order, H'.trans hw.relinked⟩
    rw [hls] at hw'
    refine ⟨t'', node, .added (by simp [toList_plug]) haround.before haround.after hw', ?_⟩
    obtain ⟨n₀, hfuel⟩ := hret
    obtain ⟨n₁, hfuel'⟩ := hret'
    refine ⟨Nat.max n₀ n₁, fun fuel hle => hins fuel t'' ?_ ?_⟩
    · exact hfuel fuel (Nat.le_trans (Nat.le_max_left n₀ n₁) hle)
    · exact hfuel' fuel (Nat.le_trans (Nat.le_max_right n₀ n₁) hle)

end QPHi.RBTree
