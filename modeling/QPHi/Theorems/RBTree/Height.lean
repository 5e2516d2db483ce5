import Mathlib.Data.Set.Card
import QPHi.Theorems.RBTree.Run

/-! How far the loops go that descend from the root: no path of a reachable tree is longer than twice the logarithm of
    the number of its nodes. -/

namespace QPHi.RBTree
open BinTree Loop

variable {t : RBTree} {c : Context Ptr} {s : BinTree Ptr} {node p : Ptr} {β : Type}

/-- The number of nodes. -/
noncomputable def size (t : RBTree) : Nat := Set.ncard {p | t.InTree p}

/-- The nodes on the way from `p` down to the sentinel. -/
inductive Path (t : RBTree) : Ptr → List Ptr → Prop
  | nil : Path t t.nil []
  | left {p : Ptr} {ls : List Ptr} : p ≠ t.nil → Path t (t.mem p).left ls → Path t p (p :: ls)
  | right {p : Ptr} {ls : List Ptr} : p ≠ t.nil → Path t (t.mem p).right ls → Path t p (p :: ls)

/-- The nodes in which a loop makes a round, without the sentinel. -/
def visited (t : RBTree) (body : Ptr → Option (Next Ptr β)) (fuel : Nat) (p : Ptr) : List Ptr :=
  (visits body fuel p).filter (· ≠ t.nil)

theorem Shape.size (h : Shape t s) : t.size = s.toList.length := by
  have hset : {p | t.InTree p} = (s.toList.toFinset : Set Ptr) := by
    ext p
    rw [Set.mem_ofPred_eq, h.inTree_iff, Finset.mem_coe, List.mem_toFinset]
  have hnodup : s.toList.Nodup := h.nodup
  rw [RBTree.size, hset, Set.ncard_coe_finset, List.toFinset_card_of_nodup hnodup]

/-! ### Paths -/

theorem Path.length_le {ls : List Ptr} (hp : Path t p ls) (h : At t c s) (haddr : p = t.addr s) : ls.length ≤ s.height := by
  induction hp generalizing c s with
  | nil => exact Nat.zero_le _
  | @left p ls hne _ ih =>
    cases s with
    | nil => exact absurd haddr hne
    | node k l a r =>
      obtain rfl : p = a := haddr
      have hat : At t (⟨.left, k, p, r⟩ :: c) l := At.down (d := .left) h
      exact Nat.succ_le_succ (Nat.le_trans (ih hat h.focus.2.2.1) (Nat.le_max_left _ _))
  | @right p ls hne _ ih =>
    cases s with
    | nil => exact absurd haddr hne
    | node k l a r =>
      obtain rfl : p = a := haddr
      have hat : At t (⟨.right, k, p, l⟩ :: c) r := At.down (d := .right) h
      exact Nat.succ_le_succ (Nat.le_trans (ih hat h.focus.2.2.2.1) (Nat.le_max_right _ _))

/-! ### Loops -/

/-- A loop that leaves at a node or goes on at one of its children, and does not go on at the sentinel if it gets there. -/
structure Descends (t : RBTree) (body : Ptr → Option (Next Ptr β)) : Prop where
  child : ∀ p next, p ≠ NULL → p ≠ t.nil → body p = some (.again next) →
    next = (t.mem p).left ∨ next = (t.mem p).right
  leaf : ∀ p next, p ≠ NULL → p ≠ t.nil → body p = some (.again next) → next = t.nil → ∀ q, body next ≠ some (.again q)

theorem Descends.visited_leaf {body : Ptr → Option (Next Ptr β)} (hleaf : ∀ q, body t.nil ≠ some (.again q)) (fuel : Nat) :
    t.visited body fuel t.nil = [] := by
  cases fuel with
  | zero => rfl
  | succ fuel => simp [visited, visits_last hleaf]

/-- A loop that descends visits no more nodes than the longest path has. -/
theorem Descends.visited_le {body : Ptr → Option (Next Ptr β)} (D : Descends t body) (h : At t c s)
    (hs : s = .nil → ∀ q, body t.nil ≠ some (.again q)) (fuel : Nat) : (t.visited body fuel (t.addr s)).length ≤ s.height := by
  induction s generalizing c fuel with
  | nil =>
    rw [addr_nil, Descends.visited_leaf (hs rfl)]
    exact Nat.le_refl 0
  | node k l a r ihl ihr =>
    obtain ⟨ha, han, hl, hr, -⟩ := h.focus
    cases fuel with
    | zero => exact Nat.zero_le _
    | succ fuel =>
      rw [addr_node]
      by_cases hagain : ∃ next, body a = some (.again next)
      · obtain ⟨next, hnext⟩ := hagain
        have hvisited : t.visited body (fuel + 1) a = a :: t.visited body fuel next := by
          simp [visited, visits_again hnext, han]
        have hleaf := D.leaf a next ha han hnext
        rw [hvisited, List.length_cons]
        refine Nat.succ_le_succ ?_
        rcases D.child a next ha han hnext with hchild | hchild
        · have hat : At t (⟨.left, k, a, r⟩ :: c) l := At.down (d := .left) h
          rw [hchild, hl] at hleaf ⊢
          refine Nat.le_trans (ihl hat (fun hnil => ?_) fuel) (Nat.le_max_left _ _)
          rw [hnil, addr_nil] at hleaf
          exact hleaf rfl
        · have hat : At t (⟨.right, k, a, l⟩ :: c) r := At.down (d := .right) h
          rw [hchild, hr] at hleaf ⊢
          refine Nat.le_trans (ihr hat (fun hnil => ?_) fuel) (Nat.le_max_right _ _)
          rw [hnil, addr_nil] at hleaf
          exact hleaf rfl
      · have hvisited : t.visited body (fuel + 1) a = [a] := by
          simp [visited, visits_last fun next hnext => hagain ⟨next, hnext⟩, han]
        rw [hvisited]
        exact Nat.succ_le_succ (Nat.zero_le _)

theorem findRound_again {key : UInt32} {next : Ptr} (hp : p ≠ NULL) (hn : p ≠ t.nil)
    (h : t.findRound key p = some (.again next)) : next = (t.mem p).left ∨ next = (t.mem p).right := by
  simp only [findRound, if_neg hn, load_of_ne hp, Option.bind_eq_bind, Option.bind_some, Option.pure_def] at h
  split at h
  · cases h
  · obtain rfl : (if key.toUInt64 < (t.mem p).key then (t.mem p).left else (t.mem p).right) = next := by
      simpa using h
    split
    · exact .inl rfl
    · exact .inr rfl

theorem findRound_nil (key : UInt32) (q : Ptr) : t.findRound key t.nil ≠ some (.again q) := by
  simp [findRound]

theorem findRound_descends (t : RBTree) (key : UInt32) : Descends t (t.findRound key) := by
  refine ⟨fun p next hp hn h => findRound_again hp hn h, fun p next _ _ _ hnext q => ?_⟩
  rw [hnext]
  exact findRound_nil key q

theorem descendRound_again {next : Ptr} (hnode : node ≠ NULL) (hp : p ≠ NULL)
    (h : t.descendRound node p = some (.again next)) :
    (next = (t.mem p).left ∨ next = (t.mem p).right) ∧ next ≠ t.nil := by
  simp only [descendRound, load_of_ne hnode, load_of_ne hp, Option.bind_eq_bind, Option.bind_some, Option.pure_def] at h
  split at h
  · cases h
  · by_cases hlt : (t.mem node).key < (t.mem p).key
    · simp only [if_pos hlt] at h
      split at h
      case isTrue => cases h
      case isFalse hne =>
        cases h
        exact ⟨.inl rfl, hne⟩
    · simp only [if_neg hlt] at h
      split at h
      case isTrue => cases h
      case isFalse hne =>
        cases h
        exact ⟨.inr rfl, hne⟩

theorem descendRound_descends (t : RBTree) (hnode : node ≠ NULL) : Descends t (t.descendRound node) :=
  ⟨fun _ _ hp _ h => (descendRound_again hnode hp h).1,
    fun _ _ hp _ h hnil => absurd hnil (descendRound_again hnode hp h).2⟩

theorem extremeRound_again {d : Side} {next : Ptr} (hp : p ≠ NULL) (h : extremeRound d t p = some (.again next)) :
    next = (t.mem p).child d ∧ next ≠ t.nil := by
  simp only [extremeRound, load_of_ne hp, Option.bind_eq_bind, Option.bind_some, Option.pure_def] at h
  split at h
  case isTrue hne =>
    cases h
    exact ⟨rfl, hne⟩
  case isFalse => cases h

theorem extremeRound_descends (d : Side) (t : RBTree) : Descends t (extremeRound d t) := by
  refine ⟨fun p next hp _ h => ?_, fun p next hp _ h hnil => absurd hnil (extremeRound_again hp h).2⟩
  have hnext := (extremeRound_again hp h).1
  cases d with
  | left => exact .inl hnext
  | right => exact .inr hnext

/-! ### Reachable trees -/

/-- The nodes are no more than twice the logarithm of the number of nodes. -/
def Short (t : RBTree) (ls : List Ptr) : Prop := ls.length ≤ 2 * Nat.log2 (t.size + 1)

theorem WellFormed.short (W : WellFormed t s) {ls : List Ptr} (h : ls.length ≤ s.height) : Short t ls := by
  rw [Short, Shape.size W.shape]
  exact Nat.le_trans h W.redBlack.height_le

/-- The height of a reachable tree is logarithmic, and so is the number of nodes that a loop visits on its way down. -/
theorem reachable_shallow (h : Reachable t) :
    (∀ path, Path t t.root path → Short t path) ∧
    (∀ key fuel, Short t (t.visited (t.findRound key) fuel t.root)) ∧
    (∀ node n fuel, node ≠ NULL → node ≠ t.nil → ¬t.InTree node → t.root ≠ t.nil →
      Short t ((t.write node n).visited ((t.write node n).descendRound node) fuel t.root)) ∧
    (∀ d node fuel, t.root ≠ t.nil → node = NULL ∨ t.InTree node →
      Short t (t.visited (extremeRound d t) fuel (if node = NULL then t.root else node))) := by
  obtain ⟨s, W⟩ := h.wellFormed
  have hroot : t.root = t.addr s := W.shape.context
  refine ⟨fun path hpath => W.short (hpath.length_le W.shape hroot), fun key fuel => W.short ?_,
    fun node n fuel h0 hn hout hne => W.short ?_, fun d node fuel hne hnode => W.short ?_⟩
  · rw [hroot]
    exact (findRound_descends t key).visited_le W.shape (fun _ => findRound_nil key) fuel
  · obtain ⟨W', -⟩ := insert_total W h0 hn hout n
    rw [hroot, ← write_addr t node n]
    refine (descendRound_descends _ h0).visited_le W'.shape (fun hnil => ?_) fuel
    rw [hroot, hnil] at hne
    exact absurd rfl hne
  · have hvisited {c : Context Ptr} {u : BinTree Ptr} (hat : At t c u) (hu : u ≠ .nil) :=
      (extremeRound_descends d t).visited_le hat (fun hnil => absurd hnil hu) fuel
    split
    · rw [hroot]
      refine hvisited W.shape fun hnil => ?_
      rw [hroot, hnil] at hne
      exact hne rfl
    · next hnull =>
      obtain ⟨c, k, l, r, hs⟩ := exists_plug_of_mem (W.shape.inTree_iff.mp (hnode.resolve_left hnull))
      have hat : At t c (.node k l node r) := at_plug.mpr (hs ▸ W.shape)
      rw [hs]
      exact Nat.le_trans (hvisited hat fun hnil => nomatch hnil) (height_le_plug c _)

/-- A path from the root of three nodes to a leaf. -/
theorem reachable_shallow_three : ∃ t, Reachable t ∧ (∀ p ∈ [3, 2, 4], t.InTree p) ∧ Path t t.root [2, 3] ∧ Short t [2, 3] := by
  obtain ⟨t, kl, kr, ht, W, -⟩ := exists_reachable_three
  have hroot : t.root = 2 := W.shape.context
  obtain ⟨-, htwo, hleft, -, -, -, hlinked, -⟩ := W.shape.focus
  obtain ⟨-, hthree, hnil, -⟩ := hlinked
  have hpath : Path t t.root [2, 3] := by
    rw [hroot]
    refine .left htwo ?_
    rw [hleft, addr_node]
    refine .left hthree ?_
    rw [hnil]
    exact .nil
  exact ⟨t, ht, fun p hp => W.shape.inTree_iff.mpr hp, hpath, (reachable_shallow ht).1 _ hpath⟩

end QPHi.RBTree
