import Mathlib.Data.UInt
import QPHi.Theorems.RBTree.Run

/-! `qp_rbtree_find`, which gets its key in 32 bits although the keys of the nodes have 64, and the node that
    `qp_rbtree_delete` takes out of the tree. -/

namespace QPHi.RBTree
open BinTree Loop

variable {t : RBTree} {c : Context Ptr} {s : BinTree Ptr} {node p : Ptr}

/-! ### Looking up a key -/

/-- `r` is what a lookup of the key `x` is to return. -/
def Finds (t : RBTree) (x : UInt64) (r : Ptr) : Prop :=
  t.InTree r ∧ t.key r = x ∨ r = NULL ∧ ∀ p, t.InTree p → t.key p ≠ x

/-- No key of the tree is `x` if a leaf is where `x` belongs. -/
theorem Around.absent {x : UInt64} (ha : Around t x c) (hp : p ∈ (plug c .nil).toList) : t.key p ≠ x := by
  rw [toList_plug, toList_nil, List.append_nil, List.mem_append] at hp
  rcases hp with hp | hp
  · exact UInt64.ne_of_lt (ha.before p hp)
  · exact (UInt64.ne_of_lt (ha.after p hp)).symm

theorem find_loop {key : UInt32} (h : At t c s) (hsort : Sorted t (plug c s).toList) (ha : Around t key.toUInt64 c) :
    ∃ r, (r ∈ (plug c s).toList ∧ t.key r = key.toUInt64 ∨
        r = NULL ∧ ∀ p ∈ (plug c s).toList, t.key p ≠ key.toUInt64) ∧
      Returns (fun fuel => iterate (t.findRound key) fuel (t.addr s)) r := by
  induction s generalizing c with
  | nil => exact ⟨NULL, .inr ⟨rfl, fun p hp => ha.absent hp⟩, returns_done (by simp [findRound])⟩
  | node k l cur r ihl ihr =>
    obtain ⟨hcur, hcurn, hl, hr, -⟩ := h.focus
    have hround : t.findRound key cur = if key.toUInt64 = t.key cur then some (.done cur)
        else some (.again (if key.toUInt64 < t.key cur then t.addr l else t.addr r)) := by
      simp only [findRound, if_neg hcurn, load_of_ne hcur, RBTree.key, hl, hr, Option.bind_eq_bind, Option.bind_some,
        Option.pure_def]
      rfl
    rw [addr_node]
    by_cases heq : key.toUInt64 = t.key cur
    · exact ⟨cur, .inl ⟨mem_toList_plug.mpr (.inl (by simp)), heq.symm⟩, returns_done (by rw [hround, if_pos heq])⟩
    rw [if_neg heq] at hround
    by_cases hlt : key.toUInt64 < t.key cur
    · rw [if_pos hlt] at hround
      have hat : At t (⟨.left, k, cur, r⟩ :: c) l := At.down (d := .left) h
      obtain ⟨res, hres, hret⟩ := ihl hat hsort (ha.left hsort.focus hlt)
      exact ⟨res, hres, returns_again hround hret⟩
    · rw [if_neg hlt] at hround
      have hgt : t.key cur < key.toUInt64 := UInt64.lt_of_le_of_ne (UInt64.not_lt.mp hlt) fun e => heq e.symm
      have hat : At t (⟨.right, k, cur, l⟩ :: c) r := At.down (d := .right) h
      obtain ⟨res, hres, hret⟩ := ihr hat hsort (ha.right hsort.focus hgt)
      exact ⟨res, hres, returns_again hround hret⟩

/-- `qp_rbtree_find` returns, and what it returns is right for the key of 32 bits that it gets. -/
theorem find_returns (h : Reachable t) (key : UInt32) :
    ∃ r, Finds t key.toUInt64 r ∧ Returns (fun fuel => t.find fuel key) r := by
  obtain ⟨s, W⟩ := h.wellFormed
  have hroot : t.root = t.addr s := W.shape.context
  have haround : Around t key.toUInt64 [] := ⟨by simp [before], by simp [after]⟩
  obtain ⟨r, hr, hret⟩ := find_loop (c := []) W.shape W.sorted haround
  refine ⟨r, ?_, hret.congr fun fuel => by rw [find, hroot]⟩
  simp only [Finds, W.shape.inTree_iff]
  exact hr

theorem Reachable.inTree_ne_null (h : Reachable t) (hp : t.InTree p) : p ≠ NULL := by
  obtain ⟨s, W⟩ := h.wellFormed
  exact (W.shape.mem_ne (W.shape.inTree_iff.mp hp)).1

/-- A lookup of two keys at once finds neither of them. -/
theorem Finds.absent {x y : UInt64} {r : Ptr} (ht : Reachable t) (hx : Finds t x r) (hy : Finds t y r) (hne : x ≠ y) :
    ∀ p, t.InTree p → t.key p ≠ x ∧ t.key p ≠ y := by
  rcases hx with ⟨hin, rfl⟩ | ⟨rfl, hx⟩
  · rcases hy with ⟨-, rfl⟩ | ⟨rfl, -⟩
    · exact absurd rfl hne
    · exact absurd rfl (ht.inTree_ne_null hin)
  · rcases hy with ⟨hin, -⟩ | ⟨-, hy⟩
    · exact absurd rfl (ht.inTree_ne_null hin)
    · exact fun p hp => ⟨hx p hp, hy p hp⟩

/-- A lookup of a key of 64 bits is right if and only if the key is below 2^32, or the tree holds neither the key nor
    what is left of it in 32 bits. -/
theorem find_exact_iff (h : Reachable t) (k : UInt64) :
    (∃ r, Returns (fun fuel => t.find fuel k.toUInt32) r ∧ Finds t k r) ↔
      k < 2 ^ 32 ∨ ∀ p, t.InTree p → t.key p ≠ k ∧ t.key p ≠ k % 2 ^ 32 := by
  obtain ⟨r, hfinds, hret⟩ := find_returns h k.toUInt32
  have hcut : k.toUInt32.toUInt64 = k % 2 ^ 32 := UInt64.toUInt64_toUInt32 k
  have hmod : k % 2 ^ 32 = k ↔ k < 2 ^ 32 := by
    rw [← UInt64.toNat_inj, UInt64.lt_iff_toNat_lt, UInt64.toNat_mod]
    exact Nat.mod_eq_iff_lt (by decide)
  rw [hcut] at hfinds
  constructor
  · rintro ⟨r', hret', hfinds'⟩
    obtain rfl := hret.unique hret'
    by_cases hk : k < 2 ^ 32
    · exact .inl hk
    · exact .inr (hfinds'.absent h hfinds fun e => hk (hmod.mp e.symm))
  · rintro (hk | habsent)
    · exact ⟨r, hret, hmod.mpr hk ▸ hfinds⟩
    · refine ⟨r, hret, ?_⟩
      rcases hfinds with ⟨hin, hkey⟩ | ⟨rfl, -⟩
      · exact absurd hkey (habsent r hin).2
      · exact .inr ⟨rfl, fun p hp => (habsent p hp).1⟩

theorem find_exact_iff_three : ∃ t, Reachable t ∧ (∀ p ∈ [3, 2, 4], t.InTree p) ∧ t.key 4 = 8 ∧
    ∃ r, Returns (fun fuel => t.find fuel (8 : UInt64).toUInt32) r ∧ Finds t 8 r := by
  obtain ⟨t, kl, kr, ht, W, -, -, h8⟩ := exists_reachable_three
  exact ⟨t, ht, fun p hp => W.shape.inTree_iff.mpr hp, congrArg Prod.fst h8, (find_exact_iff ht 8).mpr (.inl (by decide))⟩

/-- The node with the key 2^32 + 5 is looked up under the key 5. -/
theorem find_not_exact : ∃ t, Reachable t ∧ t.InTree 2 ∧ t.key 2 = 2 ^ 32 + 5 ∧
    Returns (fun fuel => t.find fuel (2 ^ 32 + 5 : UInt64).toUInt32) NULL := by
  obtain ⟨t, s, ht, W, -, hs, hentry⟩ := exists_reachable_single ⟨0, 0, 0, 7, 2 ^ 32 + 5, .red⟩
  have hin : ∀ p, t.InTree p ↔ p = 2 := by
    intro p
    rw [W.shape.inTree_iff, hs, List.mem_singleton]
  have hkey : t.key 2 = 2 ^ 32 + 5 := congrArg Prod.fst hentry
  refine ⟨t, ht, (hin 2).mpr rfl, hkey, ?_⟩
  obtain ⟨r, ⟨hr, hfound⟩ | ⟨rfl, -⟩, hret⟩ := find_returns ht (2 ^ 32 + 5 : UInt64).toUInt32
  · rw [(hin r).mp hr, hkey] at hfound
    exact absurd hfound (by decide)
  · exact hret

/-! ### Deleting a node -/

/-- A deletion that takes the node itself out of the tree, returns it and leaves the others alone. -/
structure TakesOut (t t' : RBTree) (node r : Ptr) : Prop where
  gone : ¬t'.InTree node
  returned : r = node
  others : ∀ p, t.InTree p → p ≠ node → t'.InTree p ∧ t'.entry p = t.entry p

theorem delete_takes (h : Reachable t) (hin : t.InTree node) :
    ∃ t' r, Returns (fun fuel => t.delete fuel node) (t', r) ∧
      (r = node ↔ (t.mem node).left = t.nil ∨ (t.mem node).right = t.nil) ∧
      t.InTree r ∧ (∀ p, t'.InTree p ↔ t.InTree p ∧ p ≠ r) ∧ ∀ p, p ≠ node → t'.entry p = t.entry p := by
  obtain ⟨s, W⟩ := h.wellFormed
  obtain ⟨pre, post, t', r, w, hs, D, hself, hcontent, hret⟩ :=
    delete_returns W.shape W.redBlack (W.shape.inTree_iff.mp hin)
  refine ⟨t', r, hret, hself, ?_, fun p => ?_, hcontent⟩
  · rw [W.shape.inTree_iff, hs]
    exact D.gone
  · rw [D.shape.inTree_iff, W.shape.inTree_iff, D.nodes, hs]

/-- `qp_rbtree_delete` takes out the node that it is asked for if and only if that node has at most one child. -/
theorem delete_exact_iff (h : Reachable t) (hin : t.InTree node) :
    (∃ t' r, Returns (fun fuel => t.delete fuel node) (t', r) ∧ TakesOut t t' node r) ↔
      (t.mem node).left = t.nil ∨ (t.mem node).right = t.nil := by
  obtain ⟨t', r, hret, hself, -, hnodes, hcontent⟩ := delete_takes h hin
  rw [← hself]
  constructor
  · rintro ⟨t'', r', hret', T⟩
    obtain ⟨-, rfl⟩ := Prod.mk.inj (hret.unique hret')
    exact T.returned
  · rintro rfl
    exact ⟨t', r, hret, fun hp => ((hnodes r).mp hp).2 rfl, rfl, fun p hp hne => ⟨(hnodes p).mpr ⟨hp, hne⟩, hcontent p hne⟩⟩

/-- A leaf of three nodes is deleted. -/
theorem delete_exact_iff_leaf : ∃ t, Reachable t ∧ (∀ p ∈ [3, 2, 4], t.InTree p) ∧
    ∃ t' r, Returns (fun fuel => t.delete fuel 3) (t', r) ∧ TakesOut t t' 3 r := by
  obtain ⟨t, kl, kr, ht, W, -⟩ := exists_reachable_three
  have hin : ∀ p ∈ [3, 2, 4], t.InTree p := fun p hp => W.shape.inTree_iff.mpr hp
  obtain ⟨-, -, -, -, -, -, hlinked, -⟩ := W.shape.focus
  have hleaf : (t.mem 3).left = t.nil := hlinked.2.2.1
  exact ⟨t, ht, hin, (delete_exact_iff ht (hin 3 (by simp))).mpr (.inl hleaf)⟩

/-- Three nodes with the keys 5, 3 and 8: the deletion of the first one returns another node, which has left the tree
    instead of it. -/
theorem delete_not_exact : ∃ t, Reachable t ∧ t.InTree 2 ∧ t.InTree 3 ∧ t.InTree 4 ∧ t.key 2 = 5 ∧ t.key 3 = 3 ∧ t.key 4 = 8 ∧
    ∃ t' r, Returns (fun fuel => t.delete fuel 2) (t', r) ∧ t'.InTree 2 ∧ r ≠ 2 ∧ t.InTree r ∧ ¬t'.InTree r := by
  obtain ⟨t, kl, kr, ht, W, h3, h5, h8⟩ := exists_reachable_three
  have hkey : t.key 2 = 5 ∧ t.key 3 = 3 ∧ t.key 4 = 8 := ⟨congrArg Prod.fst h5, congrArg Prod.fst h3, congrArg Prod.fst h8⟩
  have hin : ∀ p ∈ [3, 2, 4], t.InTree p := fun p hp => W.shape.inTree_iff.mpr hp
  obtain ⟨t', r', hret, hleaf, hr', hnodes, -⟩ := delete_takes ht (hin 2 (by simp))
  have hne : r' ≠ 2 := by
    rw [Ne, hleaf, not_or]
    obtain ⟨-, -, hleft, hright, -⟩ := W.shape.focus
    rw [hleft, hright]
    exact ⟨(At.down (d := .left) W.shape).addr_ne_nil (by simp), (At.down (d := .right) W.shape).addr_ne_nil (by simp)⟩
  refine ⟨t, ht, hin 2 (by simp), hin 3 (by simp), hin 4 (by simp), hkey.1, hkey.2.1, hkey.2.2, t', r', hret,
    (hnodes 2).mpr ⟨hin 2 (by simp), hne.symm⟩, hne, hr', fun h => ((hnodes r').mp h).2 rfl⟩

end QPHi.RBTree
