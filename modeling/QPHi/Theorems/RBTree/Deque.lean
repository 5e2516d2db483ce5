import QPHi.Theorems.RBTree.Run

/-! Deleting the first or the last node only. Such a node has a sentinel below it, so it is the node that leaves, and no
    content moves: the tree is a double-ended priority queue of the nodes themselves, where `qp_rbtree_delete` in the middle
    of a tree may return another node than the one it is given. -/

namespace QPHi.RBTree
open BinTree Loop

variable {t t' : RBTree} {c : Context Ptr} {s w : BinTree Ptr} {d : Side} {k : Color} {node p r x : Ptr} {n : Node}

/-- A node with its content: its address, its key and its data. -/
abbrev Item := Ptr × UInt64 × Ptr

def item (t : RBTree) (p : Ptr) : Item := (p, t.entry p)

/-- The end of a list on side `d`, and the list without it. -/
def endOf {α : Type} : Side → List α → Option α
  | .left, l => l.head?
  | .right, l => l.getLast?

def dropEnd {α : Type} : Side → List α → List α
  | .left, l => l.tail
  | .right, l => l.dropLast

/-- Queueing an item by its key, unless the key is taken. -/
def enqueue (e : Item) (Q : List Item) : List Item :=
  if e.2.1 ∈ Q.map (·.2.1) then Q else Q.orderedInsert (fun a b => a.2.1 ≤ b.2.1) e

/-- The runs that start at any reachable tree and go on with inserts and with deletes of the node that `qp_rbtree_min` or
    `qp_rbtree_max` has just found, with the queue they stand for. -/
inductive QueueRuns : RBTree → List Item → Prop
  | start {t : RBTree} {s : BinTree Ptr} (ht : Reachable t) (hs : Shape t s) : QueueRuns t (s.toList.map t.item)
  | insert {t t' : RBTree} {node r : Ptr} {Q : List Item} (n : Node) (hrun : QueueRuns t Q) (h0 : node ≠ NULL) (hn : node ≠ t.nil)
      (hout : ¬t.InTree node) (hcall : Returns (fun fuel => (t.write node n).insert fuel node) (t', r)) :
      QueueRuns t' (enqueue (node, n.key, n.data) Q)
  | take {t t' : RBTree} {p r : Ptr} {Q : List Item} (d : Side) (hrun : QueueRuns t Q) (hp : p ≠ NULL)
      (hend : Returns (fun fuel => t.extreme d fuel NULL) p) (hcall : Returns (fun fuel => t.delete fuel p) (t', r)) :
      QueueRuns t' (dropEnd d Q)

/-! ### Lists -/

section
variable {α β : Type}

theorem endOf_nil (d : Side) : endOf d ([] : List α) = none := by
  cases d
  · rfl
  · rfl

theorem endOf_map (f : α → β) (d : Side) (l : List α) : endOf d (l.map f) = (endOf d l).map f := by
  cases d
  · exact List.head?_map
  · exact List.getLast?_map

theorem dropEnd_map (f : α → β) (d : Side) (l : List α) : dropEnd d (l.map f) = (dropEnd d l).map f := by
  cases d
  · exact List.map_tail.symm
  · exact List.map_dropLast.symm

theorem dropEnd_append {a : α} {pre post : List α} (hnd : (pre ++ a :: post).Nodup)
    (hend : endOf d (pre ++ a :: post) = some a) : dropEnd d (pre ++ a :: post) = pre ++ post := by
  obtain ⟨hnot, -⟩ := List.nodup_cons.mp (List.perm_middle.nodup_iff.mp hnd)
  rw [List.mem_append, not_or] at hnot
  cases d with
  | left =>
    cases pre with
    | nil => rfl
    | cons b pre =>
      obtain rfl : b = a := Option.some.inj hend
      exact absurd List.mem_cons_self hnot.1
  | right =>
    rcases List.eq_nil_or_concat post with rfl | ⟨post, b, rfl⟩
    · rw [dropEnd, List.dropLast_concat, List.append_nil]
    · rw [List.concat_eq_append, ← List.cons_append, ← List.append_assoc, endOf, List.getLast?_concat] at hend
      obtain rfl : b = a := Option.some.inj hend
      rw [List.concat_eq_append] at hnot
      exact absurd (List.mem_append_right _ List.mem_cons_self) hnot.2

theorem mem_of_endOf {a : α} {l : List α} (hend : endOf d l = some a) : a ∈ l := by
  cases d with
  | left => exact List.mem_of_head? hend
  | right => exact List.mem_of_getLast? hend

theorem notMem_dropEnd {a : α} {l : List α} (hnd : l.Nodup) (hend : endOf d l = some a) : a ∉ dropEnd d l := by
  obtain ⟨pre, post, rfl⟩ := List.append_of_mem (mem_of_endOf hend)
  rw [dropEnd_append hnd hend]
  exact (List.nodup_cons.mp (List.perm_middle.nodup_iff.mp hnd)).1

end

theorem orderedInsert_append {e : Item} {pre post : List Item} (hpre : ∀ a ∈ pre, a.2.1 < e.2.1)
    (hpost : ∀ a ∈ post, e.2.1 < a.2.1) : (pre ++ post).orderedInsert (fun a b => a.2.1 ≤ b.2.1) e = pre ++ e :: post := by
  induction pre with
  | nil =>
    cases post with
    | nil => rfl
    | cons a post =>
      exact List.orderedInsert_cons_of_le (r := fun a b : Item => a.2.1 ≤ b.2.1) post (UInt64.le_of_lt (hpost a (by simp)))
  | cons a pre ih =>
    have hlt : ¬e.2.1 ≤ a.2.1 := UInt64.not_le.mpr (hpre a (by simp))
    rw [List.cons_append, List.orderedInsert_of_not_le (r := fun a b : Item => a.2.1 ≤ b.2.1) _ hlt,
      ih fun b hb => hpre b (by simp [hb])]
    rfl

/-! ### One step -/

theorem endOf_spine (h : Spine d c) : endOf d (plug c (branch d k .nil x s)).toList = some x := by
  cases d
  · exact min_of_spine h
  · exact max_of_spine h

theorem Shape.extreme_end (h : Shape t s) (d : Side) :
    Returns (fun fuel => t.extreme d fuel NULL) ((endOf d s.toList).getD NULL) :=
  h.extreme_null d (fun _ _ _ _ hc => endOf_spine hc) (endOf_nil d)

/-- The first or the last node is found, leaves, and nothing else does. -/
theorem WellFormed.take (W : WellFormed t s) (hs : s ≠ .nil) (d : Side) :
    ∃ x t' w, endOf d s.toList = some x ∧ Returns (fun fuel => t.extreme d fuel NULL) x ∧
      Returns (fun fuel => t.delete fuel x) (t', x) ∧ WellFormed t' w ∧ w.toList = dropEnd d s.toList ∧
      ∀ a, a ≠ x → t'.entry a = t.entry a := by
  obtain ⟨c, k, x, u, hsplit, hspine, -⟩ := extreme_loop d (t := t) (c := []) W.shape hs
  have hsplit : s = plug c (branch d k .nil x u) := hsplit
  have hend : endOf d s.toList = some x := by
    rw [hsplit]
    exact endOf_spine hspine
  have hx : x ∈ s.toList := by
    rw [hsplit]
    exact mem_toList_plug.mpr (Or.inl (by simp))
  have hfind : Returns (fun fuel => t.extreme d fuel NULL) x := by
    have hret := W.shape.extreme_end d
    rwa [hend] at hret
  obtain ⟨pre, post, t', r, w, hls, D, hself, hentry, hret⟩ := delete_returns W.shape W.redBlack hx
  -- The sentinel lies below the end of the list, so the node itself leaves.
  have hat : At t c (branch d k .nil x u) := at_plug.mpr (hsplit ▸ W.shape)
  have hleaf : (t.mem x).child d = t.nil := (linked_branch.mp hat.focus).2.2.1
  obtain rfl : r = x := hself.mpr (by cases d with | left => exact Or.inl hleaf | right => exact Or.inr hleaf)
  have W' := W.deleted hls D
  refine ⟨r, t', w, hend, hfind, hret, W', ?_, hentry⟩
  have hnd : s.toList.Nodup := W.shape.nodup
  rw [hls] at hnd hend ⊢
  rw [dropEnd_append hnd hend]
  -- Both lists are sorted, and they have the same nodes.
  have hnot : r ∉ pre ++ post := (List.nodup_cons.mp (List.perm_middle.nodup_iff.mp hnd)).1
  have hndw : w.toList.Nodup := D.shape.nodup
  have hperm : w.toList.Perm (pre ++ post) := by
    rw [List.perm_ext_iff_of_nodup hndw (hnd.sublist ((List.sublist_cons_self r post).append_left pre))]
    intro a
    rw [D.nodes, List.perm_middle.mem_iff, List.mem_cons]
    constructor
    · exact fun ha => ha.1.resolve_left ha.2
    · exact fun ha => ⟨Or.inr ha, fun e => hnot (e ▸ ha)⟩
  have hsorted : Sorted t' (pre ++ post) := by
    have hkeys : ((pre ++ post).map t.entry).Pairwise (·.1 < ·.1) := by
      rw [← D.entries, List.pairwise_map]
      exact W'.sorted
    rw [List.pairwise_map] at hkeys
    refine hkeys.imp_of_mem fun {a b} ha hb hlt => ?_
    have hab : (t'.entry a).1 < (t'.entry b).1 := by
      rw [hentry a fun e => hnot (e ▸ ha), hentry b fun e => hnot (e ▸ hb)]
      exact hlt
    exact hab
  exact hperm.eq_of_pairwise (fun a b _ _ hab hba => absurd hba (UInt64.lt_asymm hab)) W'.sorted hsorted

/-- An insert queues the node with what the caller has filled it with. -/
theorem WellFormed.enqueue (W : WellFormed t s) (h0 : node ≠ NULL) (hn : node ≠ t.nil) (hout : ¬t.InTree node) (n : Node) :
    ∃ t' w, Returns (fun fuel => (t.write node n).insert fuel node)
        (t', if n.key ∈ (s.toList.map t.item).map (·.2.1) then NULL else node) ∧ WellFormed t' w ∧
      w.toList.map t'.item = RBTree.enqueue (node, n.key, n.data) (s.toList.map t.item) ∧ t'.nil = t.nil := by
  obtain ⟨W', t', r, I, hret⟩ := insert_total W h0 hn hout n
  rw [W.shape.inTree_iff] at hout
  have hself : (t.write node n).mem node = n := Function.update_self _ _ _
  have hitem : ∀ a ∈ s.toList, (t.write node n).item a = t.item a := by
    intro a ha
    have hne : a ≠ node := fun e => hout (e ▸ ha)
    rw [item, item, entry, entry, write_mem, Function.update_of_ne hne]
  have hitems : s.toList.map (t.write node n).item = s.toList.map t.item := List.map_congr_left hitem
  have hkeys : (s.toList.map t.item).map (·.2.1) = s.toList.map (t.write node n).key := by
    rw [← hitems, List.map_map]
    rfl
  have hkey : (t.write node n).key node = n.key := by rw [key, hself]
  rw [RBTree.enqueue, hkeys]
  cases I with
  | taken ha hkeyA =>
    have hold : n.key ∈ s.toList.map (t.write node n).key := List.mem_map.mpr ⟨_, ha, hkeyA.trans hkey⟩
    exact ⟨t.write node n, s, by rwa [if_pos hold], W', by rw [if_pos hold, hitems], rfl⟩
  | @added t' pre post w hls hpre hpost R =>
    have hfresh : n.key ∉ s.toList.map (t.write node n).key := by
      intro h
      obtain ⟨a, ha, hkeyA⟩ := List.mem_map.mp h
      rw [hls, List.mem_append] at ha
      rw [← hkey] at hkeyA
      rcases ha with ha | ha
      · exact UInt64.ne_of_lt (hpre a ha) hkeyA
      · exact UInt64.ne_of_lt (hpost a ha) hkeyA.symm
    obtain ⟨w', W''⟩ := W'.inserted (.added hls hpre hpost R)
    obtain rfl := W''.shape.unique R.shape
    refine ⟨t', w', by rwa [if_neg hfresh], W'', ?_, R.relinked.nil⟩
    have hsame : t'.item = (t.write node n).item :=
      funext fun a => Prod.ext rfl (Prod.ext (R.relinked.key a) (R.relinked.data a))
    have hnew : (t.write node n).item node = (node, n.key, n.data) := by rw [item, entry, hself]
    rw [if_neg hfresh, R.order, hsame, ← hitems, hls, List.map_append, List.map_cons, List.map_append, ← hnew,
      orderedInsert_append]
    · intro e he
      obtain ⟨a, ha, rfl⟩ := List.mem_map.mp he
      exact hpre a ha
    · intro e he
      obtain ⟨a, ha, rfl⟩ := List.mem_map.mp he
      exact hpost a ha

/-- What is left of the queue when an end is taken. -/
theorem WellFormed.take_items (W : WellFormed t s) (hw : w.toList = dropEnd d s.toList) (hend : endOf d s.toList = some x)
    (hentry : ∀ a, a ≠ x → t'.entry a = t.entry a) : w.toList.map t'.item = dropEnd d (s.toList.map t.item) := by
  have hx : x ∉ dropEnd d s.toList := notMem_dropEnd W.shape.nodup hend
  rw [dropEnd_map, hw]
  refine List.map_congr_left fun a ha => ?_
  rw [item, item, hentry a fun e => hx (e ▸ ha)]

/-! ### Whole runs -/

/-- The tree and the queue are the same: `Q` lists the nodes of the tree in order, each with its content. -/
structure Queued (t : RBTree) (Q : List Item) : Prop where
  reachable : Reachable t
  shape : ∃ s, WellFormed t s ∧ s.toList.map t.item = Q

theorem QueueRuns.queued {Q : List Item} (R : QueueRuns t Q) : Queued t Q := by
  induction R with
  | start ht hs =>
    obtain ⟨s', W⟩ := ht.wellFormed
    obtain rfl := W.shape.unique hs
    exact ⟨ht, s', W, rfl⟩
  | insert n _ h0 hn hout hcall ih =>
    obtain ⟨ht, s, W, rfl⟩ := ih
    obtain ⟨t', w, hret, W', hitems, -⟩ := W.enqueue h0 hn hout n
    obtain ⟨rfl, rfl⟩ := Prod.mk.inj (hret.unique hcall)
    exact ⟨.insert n ht h0 hn hout hcall, w, W', hitems⟩
  | take d _ hp hend hcall ih =>
    obtain ⟨ht, s, W, rfl⟩ := ih
    have hs : s ≠ .nil := by
      rintro rfl
      have hnull := W.shape.extreme_end d
      rw [toList_nil, endOf_nil] at hnull
      exact hp (hend.unique hnull)
    obtain ⟨x, t', w, hx, hfind, hdel, W', hw, hentry⟩ := W.take hs d
    obtain rfl := hfind.unique hend
    obtain ⟨rfl, rfl⟩ := Prod.mk.inj (hdel.unique hcall)
    exact ⟨.delete ht (W.shape.inTree_iff.mpr (mem_of_endOf hx)) hcall, w, W', W.take_items hw hx hentry⟩

/-- In every run the tree is the queue: it holds the queued nodes, each with the key and the data that it was inserted with
    and in the order of the keys; an insert is refused just when its key is queued, and taking from an end finds the node
    of that end and gives back this node. -/
theorem queue_refines {Q : List Item} (R : QueueRuns t Q) :
    (∀ p, t.InTree p ↔ p ∈ Q.map (·.1)) ∧ (∀ e ∈ Q, t.entry e.1 = e.2) ∧ (Q.map (·.1)).Nodup ∧
      Q.Pairwise (fun a b => a.2.1 < b.2.1) ∧
      (∀ node n, node ≠ NULL → node ≠ t.nil → ¬t.InTree node → ∃ t', Returns (fun fuel => (t.write node n).insert fuel node)
        (t', if n.key ∈ Q.map (·.2.1) then NULL else node)) ∧
      (∀ d, (Q = [] → Returns (fun fuel => t.extreme d fuel NULL) NULL) ∧
        (∀ e, endOf d Q = some e → e.1 ≠ NULL ∧ Returns (fun fuel => t.extreme d fuel NULL) e.1 ∧
          ∃ t', Returns (fun fuel => t.delete fuel e.1) (t', e.1))) := by
  obtain ⟨-, s, W, rfl⟩ := R.queued
  have hnodes : (s.toList.map t.item).map (·.1) = s.toList := by
    rw [List.map_map]
    exact List.map_id _
  refine ⟨fun p => ?_, fun e he => ?_, ?_, ?_, fun node n h0 hn hout => ?_, fun d => ⟨fun hQ => ?_, fun e he => ?_⟩⟩
  · rw [hnodes, W.shape.inTree_iff]
  · obtain ⟨a, -, rfl⟩ := List.mem_map.mp he
    rfl
  · rw [hnodes]
    exact W.shape.nodup
  · rw [List.pairwise_map]
    exact W.sorted
  · obtain ⟨t', w, hret, -, -⟩ := W.enqueue h0 hn hout n
    exact ⟨t', hret⟩
  · have hnull := W.shape.extreme_end d
    rwa [List.map_eq_nil_iff.mp hQ, endOf_nil] at hnull
  · rw [endOf_map, Option.map_eq_some_iff] at he
    obtain ⟨x, hx, rfl⟩ := he
    have hs : s ≠ .nil := by
      rintro rfl
      cases d <;> cases hx
    obtain ⟨x', t', w, hx', hfind, hdel, -⟩ := W.take hs d
    obtain rfl : x = x' := Option.some.inj (hx.symm.trans hx')
    exact ⟨(W.shape.mem_ne (mem_of_endOf hx)).1, hfind, t', hdel⟩

theorem QueueRuns.exists_insert {Q : List Item} (R : QueueRuns t Q) (n : Node) (h0 : node ≠ NULL) (hn : node ≠ t.nil)
    (hout : node ∉ Q.map (·.1)) : ∃ t', QueueRuns t' (RBTree.enqueue (node, n.key, n.data) Q) ∧ t'.nil = t.nil := by
  obtain ⟨-, s, W, rfl⟩ := R.queued
  have hin : ¬t.InTree node := by
    intro h
    exact hout (List.mem_map.mpr ⟨t.item node, List.mem_map_of_mem (W.shape.inTree_iff.mp h), rfl⟩)
  obtain ⟨t', w, hret, -, -, hnil⟩ := W.enqueue h0 hn hin n
  exact ⟨t', .insert n R h0 hn hin hret, hnil⟩

theorem QueueRuns.exists_take {Q : List Item} (R : QueueRuns t Q) (d : Side) (hne : Q ≠ []) : ∃ t', QueueRuns t' (dropEnd d Q) := by
  obtain ⟨-, s, W, rfl⟩ := R.queued
  have hs : s ≠ .nil := by
    rintro rfl
    exact hne rfl
  obtain ⟨x, t', w, hx, hfind, hdel, -⟩ := W.take hs d
  exact ⟨t', .take d R (W.shape.mem_ne (mem_of_endOf hx)).1 hfind hdel⟩

/-- Four nodes are queued, and one is taken from each end. -/
theorem queue_refines_four : ∃ t, QueueRuns t [(5, 4, 7), (2, 5, 7)] ∧ (∀ p, t.InTree p ↔ p = 5 ∨ p = 2) ∧
    Returns (fun fuel => t.extreme .left fuel NULL) 5 ∧ Returns (fun fuel => t.extreme .right fuel NULL) 2 ∧
    ∃ t', Returns (fun fuel => t.delete fuel 2) (t', 2) := by
  have W : WellFormed (init 1 fun _ => ⟨0, 0, 0, 0, 0, .red⟩) .nil := init_wellFormed (by decide)
  have h₀ := QueueRuns.start (.init (by decide)) W.shape
  obtain ⟨t₁, h₁, hnil₁⟩ := h₀.exists_insert ⟨0, 0, 0, 7, 5, .red⟩ (show (2 : Ptr) ≠ NULL by decide) (show (2 : Ptr) ≠ 1 by decide)
    (by decide)
  obtain ⟨t₂, h₂, hnil₂⟩ := h₁.exists_insert ⟨0, 0, 0, 7, 3, .red⟩ (show (3 : Ptr) ≠ NULL by decide) (by rw [hnil₁]; decide)
    (by decide)
  obtain ⟨t₃, h₃, hnil₃⟩ := h₂.exists_insert ⟨0, 0, 0, 7, 8, .red⟩ (show (4 : Ptr) ≠ NULL by decide)
    (by rw [hnil₂, hnil₁]; decide) (by decide)
  obtain ⟨t₄, h₄, -⟩ := h₃.exists_insert ⟨0, 0, 0, 7, 4, .red⟩ (show (5 : Ptr) ≠ NULL by decide)
    (by rw [hnil₃, hnil₂, hnil₁]; decide) (by decide)
  obtain ⟨t₅, h₅⟩ := h₄.exists_take .left (by decide)
  obtain ⟨t, h⟩ := h₅.exists_take .right (by decide)
  have hrun : QueueRuns t [(5, 4, 7), (2, 5, 7)] := h
  obtain ⟨hnodes, -, -, -, -, hends⟩ := queue_refines hrun
  obtain ⟨-, hmin, -⟩ := (hends .left).2 (5, 4, 7) rfl
  obtain ⟨-, hmax, hdel⟩ := (hends .right).2 (2, 5, 7) rfl
  exact ⟨t, hrun, fun p => (hnodes p).trans (by simp), hmin, hmax, hdel⟩

end QPHi.RBTree
