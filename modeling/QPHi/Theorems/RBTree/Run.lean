import Mathlib.Data.List.Sort
import QPHi.Theorems.RBTree.Delete

/-! Whole runs of the red-black tree: every tree that inserts and deletes can reach is a red-black search
    tree, every call on it returns, and the calls act on its in-order list of keys and data as a finite map. -/

namespace QPHi.RBTree
open BinTree Loop

variable {t t' : RBTree} {c : Context Ptr} {s w : BinTree Ptr} {k : Color} {node p : Ptr} {n : Node}

/-- The nodes that the root leads to through `left` and `right`. -/
inductive InTree (t : RBTree) : Ptr → Prop
  | root : t.root ≠ t.nil → InTree t t.root
  | left {p : Ptr} : InTree t p → (t.mem p).left ≠ t.nil → InTree t (t.mem p).left
  | right {p : Ptr} : InTree t p → (t.mem p).right ≠ t.nil → InTree t (t.mem p).right

/-- The trees of every run. The caller fills a node that is not in the tree and inserts it, or deletes a
    node that is in the tree. -/
inductive Reachable : RBTree → Prop
  | init {nil : Ptr} {mem : Ptr → Node} (hnil : nil ≠ NULL) : Reachable (init nil mem)
  | insert {t t' : RBTree} {node r : Ptr} (n : Node) (ht : Reachable t) (h0 : node ≠ NULL) (hn : node ≠ t.nil)
      (hout : ¬t.InTree node) (hrun : Returns (fun fuel => (t.write node n).insert fuel node) (t', r)) : Reachable t'
  | delete {t t' : RBTree} {node r : Ptr} (ht : Reachable t) (hin : t.InTree node)
      (hrun : Returns (fun fuel => t.delete fuel node) (t', r)) : Reachable t'

/-! ### The shape is determined by the memory -/

theorem Linked.unique {p p' : Ptr} (h : Linked t p s) (h' : Linked t p' w) (he : t.addr s = t.addr w) : s = w := by
  induction s generalizing p p' w with
  | nil =>
    cases w with
    | nil => rfl
    | node k l a r => exact absurd he.symm h'.2.1
  | node k l a r ihl ihr =>
    cases w with
    | nil => exact absurd he h.2.1
    | node k' l' a' r' =>
      obtain rfl : a = a' := he
      obtain ⟨-, -, hl, hr, -, hk, hls, hrs⟩ := h
      obtain ⟨-, -, hl', hr', -, hk', hls', hrs'⟩ := h'
      rw [ihl hls hls' (hl.symm.trans hl'), ihr hrs hrs' (hr.symm.trans hr'), hk.symm.trans hk']

theorem Shape.unique (h : Shape t s) (h' : Shape t w) : s = w :=
  h.focus.unique h'.focus (h.context.symm.trans h'.context)

theorem At.inTree (h : At t c s) (haddr : s ≠ .nil → t.InTree (t.addr s)) : ∀ p ∈ s.toList, t.InTree p := by
  induction s generalizing c with
  | nil => simp
  | node k l a r ihl ihr =>
    obtain ⟨-, -, hl, hr, -⟩ := h.focus
    have ha : t.InTree a := haddr (by simp)
    have hleft : At t (⟨.left, k, a, r⟩ :: c) l := At.down (d := .left) h
    have hright : At t (⟨.right, k, a, l⟩ :: c) r := At.down (d := .right) h
    intro p hp
    rw [toList_node, List.mem_append, List.mem_cons] at hp
    rcases hp with hp | rfl | hp
    · refine ihl hleft (fun hne => ?_) p hp
      rw [← hl]
      exact .left ha (hl ▸ hleft.addr_ne_nil hne)
    · exact ha
    · refine ihr hright (fun hne => ?_) p hp
      rw [← hr]
      exact .right ha (hr ▸ hright.addr_ne_nil hne)

theorem Shape.inTree_iff (h : Shape t s) : t.InTree p ↔ p ∈ s.toList := by
  have hroot : t.root = t.addr s := h.context
  constructor
  · intro hp
    have hchild : ∀ {q k l r} {c : Context Ptr}, s = plug c (.node k l q r) →
        (t.addr l ≠ t.nil → t.addr l ∈ s.toList) ∧ (t.addr r ≠ t.nil → t.addr r ∈ s.toList) := by
      rintro q k l r c rfl
      refine ⟨fun hne => ?_, fun hne => ?_⟩
      · have := (addr_eq_nil_or_mem t l).resolve_left fun e => hne (by rw [e]; rfl)
        exact mem_toList_plug.mpr (Or.inl (by simp [this]))
      · have := (addr_eq_nil_or_mem t r).resolve_left fun e => hne (by rw [e]; rfl)
        exact mem_toList_plug.mpr (Or.inl (by simp [this]))
    induction hp with
    | root hne =>
      rw [hroot] at hne ⊢
      exact (addr_eq_nil_or_mem t s).resolve_left fun e => hne (by rw [e]; rfl)
    | left _ hne ih =>
      obtain ⟨c, k, l, r, hs⟩ := exists_plug_of_mem ih
      have hat : At t c _ := at_plug.mpr (hs ▸ h)
      rw [hat.focus.2.2.1] at hne ⊢
      exact (hchild hs).1 hne
    | right _ hne ih =>
      obtain ⟨c, k, l, r, hs⟩ := exists_plug_of_mem ih
      have hat : At t c _ := at_plug.mpr (hs ▸ h)
      rw [hat.focus.2.2.2.1] at hne ⊢
      exact (hchild hs).2 hne
  · refine h.inTree (fun hne => ?_) p
    rw [← hroot]
    exact .root (hroot ▸ h.addr_ne_nil hne)

/-! ### The invariant -/

/-- A red-black search tree in memory. -/
structure WellFormed (t : RBTree) (s : BinTree Ptr) : Prop where
  shape : Shape t s
  redBlack : s.RedBlack
  sorted : Sorted t s.toList
  sentinel : s = .nil → (t.mem t.nil).parent = t.nil

theorem init_wellFormed {nil : Ptr} {mem : Ptr → Node} (hnil : nil ≠ NULL) : WellFormed (init nil mem) .nil := by
  have hself : (init nil mem).mem nil = { mem nil with left := nil, right := nil, parent := nil, color := .black } :=
    Function.update_self _ _ _
  refine ⟨⟨hnil, ?_, rfl, trivial, by simp⟩, ⟨rfl, 0, rfl⟩, List.Pairwise.nil, fun _ => ?_⟩
  · exact congrArg Node.color hself
  · exact congrArg Node.parent hself

namespace WellFormed

/-- The caller writes a node outside the tree. -/
theorem write (W : WellFormed t s) (hn : node ≠ t.nil) (hout : node ∉ s.toList) : WellFormed (t.write node n) s := by
  have hmem : ∀ a, a ≠ node → (t.write node n).mem a = t.mem a := fun a ha => Function.update_of_ne ha _ _
  have hin : ∀ a ∈ s.toList, (t.write node n).mem a = t.mem a := fun a ha => hmem a fun e => hout (e ▸ ha)
  refine ⟨⟨W.shape.nil_ne, ?_, ?_, ?_, W.shape.nodup⟩, W.redBlack, ?_, fun hs => ?_⟩
  · rw [write_nil, hmem t.nil hn.symm]
    exact W.shape.nil_black
  · rw [write_addr]
    exact W.shape.context
  · exact W.shape.focus.congr (write_nil t node n) hin
  · refine W.sorted.imp_of_mem fun {a b} ha hb hlt => ?_
    rw [key, key, hin a ha, hin b hb]
    exact hlt
  · rw [write_nil, hmem t.nil hn.symm]
    exact W.sentinel hs

theorem of_repaired {ls : List Ptr} (R : Repaired ls t t' w) (hsort : Sorted t ls) (hls : ls ≠ []) :
    WellFormed t' w := by
  refine ⟨R.shape, R.redBlack, ?_, ?_⟩
  · rw [R.order]
    refine hsort.imp fun {a b} hlt => ?_
    rw [key, key, R.relinked.key, R.relinked.key]
    exact hlt
  · rintro rfl
    exact absurd R.order.symm hls

theorem inserted {r : Ptr} (W : WellFormed t s) (I : Inserted s.toList node t t' r) : ∃ w, WellFormed t' w := by
  cases I with
  | taken ha hkey => exact ⟨s, W⟩
  | @added t' pre post w hls hpre hpost R =>
    refine ⟨w, of_repaired R ?_ (by simp)⟩
    have hsort := W.sorted
    rw [hls, Sorted, List.pairwise_append] at hsort
    refine List.pairwise_append.mpr ⟨hsort.1, List.pairwise_cons.mpr ⟨hpost, hsort.2.1⟩, fun a ha b hb => ?_⟩
    rcases List.mem_cons.mp hb with rfl | hb
    · exact hpre a ha
    · exact hsort.2.2 a ha b hb

theorem deleted {pre post : List Ptr} {r : Ptr} (W : WellFormed t s) (hs : s.toList = pre ++ node :: post)
    (D : Deleted pre post node t t' r w) : WellFormed t' w := by
  refine ⟨D.shape, D.redBlack, ?_, D.sentinel⟩
  have hsort := W.sorted
  rw [hs] at hsort
  have hkeys : ((pre ++ post).map t.entry).Pairwise (·.1 < ·.1) := by
    rw [List.pairwise_map]
    exact hsort.sublist ((List.sublist_cons_self node post).append_left pre)
  rw [← D.entries, List.pairwise_map] at hkeys
  exact hkeys

end WellFormed

theorem insert_total (W : WellFormed t s) (h0 : node ≠ NULL) (hn : node ≠ t.nil) (hout : ¬t.InTree node) (n : Node) :
    WellFormed (t.write node n) s ∧ ∃ t' r, Inserted s.toList node (t.write node n) t' r ∧
      Returns (fun fuel => (t.write node n).insert fuel node) (t', r) := by
  rw [W.shape.inTree_iff] at hout
  have W' : WellFormed (t.write node n) s := W.write hn hout
  exact ⟨W', insert_returns W'.shape W'.sorted W'.redBlack h0 hn hout⟩

theorem Reachable.wellFormed (h : Reachable t) : ∃ s, WellFormed t s := by
  induction h with
  | init hnil => exact ⟨.nil, init_wellFormed hnil⟩
  | insert n _ h0 hn hout hrun ih =>
    obtain ⟨s, W⟩ := ih
    obtain ⟨W', t', r, I, hret⟩ := insert_total W h0 hn hout n
    obtain ⟨rfl, rfl⟩ := Prod.mk.inj (hret.unique hrun)
    exact W'.inserted I
  | delete _ hin hrun ih =>
    obtain ⟨s, W⟩ := ih
    obtain ⟨pre, post, t', r, w, hs, D, -, -, hret⟩ := delete_returns W.shape W.redBlack (W.shape.inTree_iff.mp hin)
    obtain ⟨rfl, rfl⟩ := Prod.mk.inj (hret.unique hrun)
    exact ⟨w, W.deleted hs D⟩

/-- Every reachable tree is a red-black search tree whose links agree in both directions, and every insert
    and delete on it returns. -/
theorem reachable_redBlack (h : Reachable t) :
    (∃ s, Shape t s ∧ (∀ p, t.InTree p ↔ p ∈ s.toList) ∧ (t.mem t.root).parent = t.nil ∧
      (s.toList.map t.key).Pairwise (· < ·) ∧ (t.mem t.root).color = .black ∧ (t.mem t.nil).color = .black ∧
      s.NoRedRed ∧ ∃ n, ∀ path ∈ s.paths, path.count .black = n) ∧
    (∀ node n, node ≠ NULL → node ≠ t.nil → ¬t.InTree node →
      ∃ res, Returns (fun fuel => (t.write node n).insert fuel node) res) ∧
    (∀ node, t.InTree node → ∃ res, Returns (fun fuel => t.delete fuel node) res) := by
  obtain ⟨s, W⟩ := h.wellFormed
  have hroot : t.root = t.addr s := W.shape.context
  obtain ⟨hblack, n, hbal⟩ := W.redBlack
  refine ⟨⟨s, W.shape, fun p => W.shape.inTree_iff, ?_, ?_, ?_, W.shape.nil_black, hbal.noRedRed, n, hbal.count_black⟩,
    fun node n h0 hn hout => ?_, fun node hin => ?_⟩
  · by_cases hs : s = .nil
    · rw [hroot, hs, addr_nil]
      exact W.sentinel hs
    · have hpar := W.shape.parent_addr hs
      rwa [RBTree.parent, if_neg W.shape.addr_ne_null, ← hroot] at hpar
  · rw [List.pairwise_map]
    exact W.sorted
  · rw [hroot, W.shape.color_addr, hblack]
  · obtain ⟨-, t', r, -, hret⟩ := insert_total W h0 hn hout n
    exact ⟨(t', r), hret⟩
  · obtain ⟨pre, post, t', r, w, -, -, -, -, hret⟩ := delete_returns W.shape W.redBlack (W.shape.inTree_iff.mp hin)
    exact ⟨(t', r), hret⟩

/-- A run that goes on with a node whose key is new. -/
theorem WellFormed.add (W : WellFormed t s) (ht : Reachable t) (n : Node) (h0 : node ≠ NULL) (hn : node ≠ t.nil)
    (hout : node ∉ s.toList) (hfresh : ∀ a ∈ s.toList, t.key a ≠ n.key) :
    ∃ t' w, Reachable t' ∧ WellFormed t' w ∧ t'.nil = t.nil ∧ w.toList.Perm (node :: s.toList) ∧
      t'.entry node = (n.key, n.data) ∧ ∀ a, a ≠ node → t'.entry a = t.entry a := by
  have hin : ¬t.InTree node := fun h => hout (W.shape.inTree_iff.mp h)
  obtain ⟨W', t', r, I, hret⟩ := insert_total W h0 hn hin n
  have hself : (t.write node n).mem node = n := by rw [write_mem, Function.update_self]
  have hmem : ∀ a, a ≠ node → (t.write node n).mem a = t.mem a := fun a ha => Function.update_of_ne ha _ _
  obtain ⟨w, W''⟩ := W'.inserted I
  cases I with
  | taken ha hkey =>
    refine absurd ?_ (hfresh _ ha)
    rw [key, key, hself, hmem _ fun e => hout (e ▸ ha)] at hkey
    exact hkey
  | @added t' pre post w' hls hpre hpost R =>
    obtain rfl := W''.shape.unique R.shape
    refine ⟨t', w, .insert n ht h0 hn hin hret, W'', R.relinked.nil, ?_, ?_, fun a ha => ?_⟩
    · rw [R.order, hls]
      exact List.perm_middle
    · rw [entry, R.relinked.key, R.relinked.data, hself]
    · rw [entry, R.relinked.key, R.relinked.data, hmem a ha, entry]

/-- A run of one insert. -/
theorem exists_reachable_single (n : Node) :
    ∃ t s, Reachable t ∧ WellFormed t s ∧ t.nil = 1 ∧ s.toList = [2] ∧ t.entry 2 = (n.key, n.data) := by
  have hempty : Reachable (init 1 fun _ => ⟨0, 0, 0, 0, 0, .red⟩) := .init (by decide)
  have W : WellFormed (init 1 fun _ => ⟨0, 0, 0, 0, 0, .red⟩) .nil := init_wellFormed (by decide)
  obtain ⟨t, s, ht, W', hnil, hperm, hentry, -⟩ := W.add hempty n (show (2 : Ptr) ≠ NULL by decide)
    (show (2 : Ptr) ≠ 1 by decide) (by simp) (by simp)
  exact ⟨t, s, ht, W', hnil, List.perm_singleton.mp hperm, hentry⟩

/-- A run of three inserts in the order of the keys, so that a rotation puts the second node at the root. -/
theorem exists_reachable_three : ∃ t kl kr, Reachable t ∧
    WellFormed t (.node .black (.node kl .nil 3 .nil) 2 (.node kr .nil 4 .nil)) ∧
    t.entry 3 = (3, 7) ∧ t.entry 2 = (5, 7) ∧ t.entry 4 = (8, 7) := by
  have hempty : Reachable (init 1 fun _ => ⟨0, 0, 0, 0, 0, .red⟩) := .init (by decide)
  have W₀ : WellFormed (init 1 fun _ => ⟨0, 0, 0, 0, 0, .red⟩) .nil := init_wellFormed (by decide)
  obtain ⟨t₁, s₁, ht₁, W₁, hnil₁, hs₁, hself₁, -⟩ := W₀.add hempty ⟨0, 0, 0, 7, 3, .red⟩ (show (3 : Ptr) ≠ NULL by decide)
    (show (3 : Ptr) ≠ 1 by decide) (by simp) (by simp)
  have hkey₁ : t₁.key 3 = 3 := congrArg Prod.fst hself₁
  obtain ⟨t₂, s₂, ht₂, W₂, hnil₂, hs₂, hself₂, hentry₂⟩ := W₁.add ht₁ ⟨0, 0, 0, 7, 5, .red⟩ (show (2 : Ptr) ≠ NULL by decide)
    (by rw [hnil₁]; decide) (by simp [hs₁.mem_iff]) (by simp [hs₁.mem_iff, hkey₁])
  have hthree₂ : t₂.entry 3 = (3, 7) := (hentry₂ 3 (by decide)).trans hself₁
  have hkey₂ : t₂.key 3 = 3 ∧ t₂.key 2 = 5 := ⟨congrArg Prod.fst hthree₂, congrArg Prod.fst hself₂⟩
  have hmem₂ : ∀ a, a ∈ s₂.toList ↔ a = 2 ∨ a = 3 := fun a => by simp [hs₂.mem_iff, hs₁.mem_iff]
  obtain ⟨t, s, ht, W, -, hs, hself, hentry⟩ := W₂.add ht₂ ⟨0, 0, 0, 7, 8, .red⟩ (show (4 : Ptr) ≠ NULL by decide)
    (by rw [hnil₂, hnil₁]; decide) (by simp [hmem₂]) (by simp [hmem₂, hkey₂])
  have hentries : t.entry 3 = (3, 7) ∧ t.entry 2 = (5, 7) := ⟨(hentry 3 (by decide)).trans hthree₂, (hentry 2 (by decide)).trans hself₂⟩
  have hkey : t.key 3 = 3 ∧ t.key 2 = 5 ∧ t.key 4 = 8 :=
    ⟨congrArg Prod.fst hentries.1, congrArg Prod.fst hentries.2, congrArg Prod.fst hself⟩
  -- The order of the keys is the order of the nodes, which leaves one red-black tree up to the colours.
  have horder : s.toList = [3, 2, 4] := by
    have hperm : s.toList.Perm [3, 2, 4] := hs.trans (((hs₂.trans (hs₁.cons 2)).cons 4).trans (by decide))
    refine hperm.eq_of_pairwise (fun a b _ _ hab hba => absurd hba (UInt64.lt_asymm hab)) W.sorted ?_
    simp [hkey]
  obtain ⟨kl, kr, rfl⟩ := W.redBlack.root_of_three horder
  exact ⟨t, kl, kr, ht, W, hentries.1, hentries.2, hself⟩

theorem reachable_redBlack_three : ∃ t, Reachable t ∧ (∀ p ∈ [3, 2, 4], t.InTree p) ∧ t.root = 2 ∧ (t.mem t.root).color = .black ∧
    ∃ res, Returns (fun fuel => t.delete fuel 2) res := by
  obtain ⟨t, kl, kr, ht, W, -⟩ := exists_reachable_three
  have hin : ∀ p ∈ [3, 2, 4], t.InTree p := fun p hp => W.shape.inTree_iff.mpr hp
  obtain ⟨⟨s, -, -, -, -, hblack, -⟩, -, hdel⟩ := reachable_redBlack ht
  exact ⟨t, ht, hin, W.shape.context, hblack, hdel 2 (hin 2 (by simp))⟩

/-! ### The finite map -/

/-- Inserting an entry where its key belongs. -/
def insertEntry (e : UInt64 × Ptr) (M : List (UInt64 × Ptr)) : List (UInt64 × Ptr) :=
  M.orderedInsert (fun a b => a.1 ≤ b.1) e

theorem insertEntry_append {e : UInt64 × Ptr} {pre post : List (UInt64 × Ptr)} (hpre : ∀ a ∈ pre, a.1 < e.1)
    (hpost : ∀ a ∈ post, e.1 < a.1) : insertEntry e (pre ++ post) = pre ++ e :: post := by
  induction pre with
  | nil =>
    cases post with
    | nil => rfl
    | cons a post => exact List.orderedInsert_cons_of_le (r := fun a b => a.1 ≤ b.1) post (UInt64.le_of_lt (hpost a (by simp)))
  | cons a pre ih =>
    have hlt : ¬e.1 ≤ a.1 := UInt64.not_le.mpr (hpre a (by simp))
    rw [List.cons_append, insertEntry, List.orderedInsert_of_not_le (r := fun a b : UInt64 × Ptr => a.1 ≤ b.1) _ hlt]
    exact congrArg (a :: ·) (ih fun b hb => hpre b (by simp [hb]))

theorem Inserted.entries {r : Ptr} (I : Inserted s.toList node t t' r) :
    (t.key node ∉ s.toList.map t.key → r = node ∧
      ∃ w, Shape t' w ∧ w.toList.map t'.entry = insertEntry (t.entry node) (s.toList.map t.entry)) ∧
    (t.key node ∈ s.toList.map t.key → r = NULL ∧ t' = t) := by
  cases I with
  | taken ha hkey => exact ⟨fun h => absurd (List.mem_map.mpr ⟨_, ha, hkey⟩) h, fun _ => ⟨rfl, rfl⟩⟩
  | @added t' pre post w hls hpre hpost R =>
    have hfresh : t.key node ∉ s.toList.map t.key := by
      intro h
      obtain ⟨a, ha, hkey⟩ := List.mem_map.mp h
      rw [hls, List.mem_append] at ha
      rcases ha with ha | ha
      · exact UInt64.ne_of_lt (hpre a ha) hkey
      · exact UInt64.ne_of_lt (hpost a ha) hkey.symm
    refine ⟨fun _ => ⟨rfl, w, R.shape, ?_⟩, fun h => absurd h hfresh⟩
    have hentry : t'.entry = t.entry := funext fun a => Prod.ext (R.relinked.key a) (R.relinked.data a)
    rw [R.order, hls, hentry, List.map_append, List.map_cons, List.map_append, insertEntry_append]
    · intro e he
      obtain ⟨a, ha, rfl⟩ := List.mem_map.mp he
      exact hpre a ha
    · intro e he
      obtain ⟨a, ha, rfl⟩ := List.mem_map.mp he
      exact hpost a ha

theorem Deleted.erase {pre post : List Ptr} {r : Ptr} (W : WellFormed t s) (hs : s.toList = pre ++ node :: post)
    (D : Deleted pre post node t t' r w) : w.toList.map t'.entry = (s.toList.map t.entry).erase (t.entry node) := by
  have hsort := W.sorted
  rw [hs, Sorted, List.pairwise_append] at hsort
  have hnot : t.entry node ∉ pre.map t.entry := by
    intro h
    obtain ⟨a, ha, he⟩ := List.mem_map.mp h
    exact UInt64.ne_of_lt (hsort.2.2 a ha node (by simp)) (congrArg Prod.fst he)
  rw [D.entries, hs, List.map_append, List.map_append, List.map_cons, List.erase_append_right _ hnot,
    List.erase_cons_head]

theorem min_of_spine {x : Ptr} {u : BinTree Ptr} (h : Spine .left c) :
    (plug c (branch .left k .nil x u)).toList.head? = some x := by
  rw [toList_plug, h.before_nil]
  simp [branch]

theorem max_of_spine {x : Ptr} {u : BinTree Ptr} (h : Spine .right c) :
    (plug c (branch .right k .nil x u)).toList.getLast? = some x := by
  rw [toList_plug, h.after_nil]
  simp [branch]

/-- On the whole tree, `f` names the end of the list that side `d` leads to. -/
theorem Shape.extreme_null (h : Shape t s) (d : Side) {f : List Ptr → Option Ptr}
    (hf : ∀ c k x u, Spine d c → f (plug c (branch d k .nil x u)).toList = some x) (hnil : f [] = none) :
    Returns (fun fuel => t.extreme d fuel NULL) ((f s.toList).getD NULL) := by
  have hroot : t.root = t.addr s := h.context
  by_cases hs : s = .nil
  · refine Returns.of_eq fun fuel => ?_
    simp [extreme, isEmpty, hroot, hs, hnil]
  · obtain ⟨c, k, x, u, hsplit, hspine, hret⟩ := extreme_loop d h hs
    rw [hsplit, hf c k x u hspine]
    refine hret.congr fun fuel => ?_
    simp [extreme, isEmpty, hroot, h.addr_ne_nil hs]

/-- The calls of a reachable tree act on its list of entries as on a finite map. -/
theorem reachable_refines_map (h : Reachable t) :
    ∃ s, Shape t s ∧ (∀ s', Shape t s' → s' = s) ∧ (∀ p ∈ s.toList, p ≠ NULL) ∧
      (∀ node n, node ≠ NULL → node ≠ t.nil → ¬t.InTree node →
        (n.key ∉ (s.toList.map t.entry).map Prod.fst →
          ∃ t' s', Returns (fun fuel => (t.write node n).insert fuel node) (t', node) ∧ Shape t' s' ∧
            s'.toList.map t'.entry = insertEntry (n.key, n.data) (s.toList.map t.entry)) ∧
        (n.key ∈ (s.toList.map t.entry).map Prod.fst →
          Returns (fun fuel => (t.write node n).insert fuel node) (t.write node n, NULL))) ∧
      (∀ node, t.InTree node → ∃ t' r s', Returns (fun fuel => t.delete fuel node) (t', r) ∧ Shape t' s' ∧
        s'.toList.map t'.entry = (s.toList.map t.entry).erase (t.entry node) ∧ t.InTree r ∧
        ∀ p, t'.InTree p ↔ t.InTree p ∧ p ≠ r) ∧
      Returns (fun fuel => t.min fuel NULL) (s.toList.head?.getD NULL) ∧
      Returns (fun fuel => t.max fuel NULL) (s.toList.getLast?.getD NULL) ∧
      (∀ c k l a r, s = plug c (.node k l a r) →
        (∃ x, (l.toList ++ a :: r.toList).head? = some x ∧ Returns (fun fuel => t.min fuel a) x) ∧
        (∃ x, (l.toList ++ a :: r.toList).getLast? = some x ∧ Returns (fun fuel => t.max fuel a) x)) := by
  obtain ⟨s, W⟩ := h.wellFormed
  refine ⟨s, W.shape, fun s' hs' => hs'.unique W.shape, fun p hp => (W.shape.mem_ne hp).1, ?_, ?_, ?_, ?_, ?_⟩
  · intro node n h0 hn hout
    obtain ⟨W', t', r, I, hret⟩ := insert_total W h0 hn hout n
    rw [W.shape.inTree_iff] at hout
    have hself : (t.write node n).mem node = n := Function.update_self _ _ _
    have hmem : ∀ a ∈ s.toList, (t.write node n).mem a = t.mem a := by
      intro a ha
      have hne : a ≠ node := fun e => hout (e ▸ ha)
      exact Function.update_of_ne hne _ _
    have hentries : s.toList.map (t.write node n).entry = s.toList.map t.entry :=
      List.map_congr_left fun a ha => by rw [entry, entry, hmem a ha]
    have hkeys : (s.toList.map t.entry).map Prod.fst = s.toList.map (t.write node n).key := by
      rw [← hentries, List.map_map]
      rfl
    obtain ⟨hadd, htaken⟩ := I.entries
    rw [key, hself, ← hkeys] at hadd htaken
    rw [hentries, entry, hself] at hadd
    refine ⟨fun hfresh => ?_, fun hold => ?_⟩
    · obtain ⟨rfl, w, hw, he⟩ := hadd hfresh
      exact ⟨t', w, hret, hw, he⟩
    · obtain ⟨rfl, rfl⟩ := htaken hold
      exact hret
  · intro node hin
    rw [W.shape.inTree_iff] at hin
    obtain ⟨pre, post, t', r, w, hs, D, -, -, hret⟩ := delete_returns W.shape W.redBlack hin
    refine ⟨t', r, w, hret, D.shape, D.erase W hs, ?_, fun p => ?_⟩
    · rw [W.shape.inTree_iff, hs]
      exact D.gone
    · rw [D.shape.inTree_iff, W.shape.inTree_iff, D.nodes, hs]
  · exact W.shape.extreme_null .left (fun c k x u hc => min_of_spine hc) rfl
  · exact W.shape.extreme_null .right (fun c k x u hc => max_of_spine hc) rfl
  · rintro c k l a r rfl
    have hat : At t c (.node k l a r) := at_plug.mpr W.shape
    obtain ⟨c₁, k₁, x₁, u₁, hs₁, hc₁, hmin⟩ := extreme_returns .left hat (by simp)
    obtain ⟨c₂, k₂, x₂, u₂, hs₂, hc₂, hmax⟩ := extreme_returns .right hat (by simp)
    rw [← toList_node (c := k)]
    refine ⟨⟨x₁, ?_, hmin⟩, x₂, ?_, hmax⟩
    · rw [hs₁]
      exact min_of_spine hc₁
    · rw [hs₂]
      exact max_of_spine hc₂

/-- Three entries; the one in the middle, whose node has two children, is deleted. -/
theorem reachable_refines_map_three : ∃ t s, Reachable t ∧ Shape t s ∧ s.toList.map t.entry = [(3, 7), (5, 7), (8, 7)] ∧
    Returns (fun fuel => t.min fuel NULL) 3 ∧ Returns (fun fuel => t.max fuel NULL) 4 ∧
    ∃ t' r s', Returns (fun fuel => t.delete fuel 2) (t', r) ∧ Shape t' s' ∧ s'.toList.map t'.entry = [(3, 7), (8, 7)] := by
  obtain ⟨t, kl, kr, ht, W, h3, h5, h8⟩ := exists_reachable_three
  have hentries : [3, 2, 4].map t.entry = [(3, 7), (5, 7), (8, 7)] := by simp [h3, h5, h8]
  obtain ⟨s, hs, hunique, -, -, hdel, hmin, hmax, -⟩ := reachable_refines_map ht
  obtain rfl := hunique _ W.shape
  obtain ⟨t', r, s', hret, hs', herase, -⟩ := hdel 2 (W.shape.inTree_iff.mpr (by simp))
  refine ⟨t, _, ht, hs, hentries, hmin, hmax, t', r, s', hret, hs', herase.trans ?_⟩
  rw [h5]
  exact congrArg (List.erase · (5, 7)) hentries

end QPHi.RBTree
