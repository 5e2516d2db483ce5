import QPHi.Lib.Slots
import QPHi.Theorems.Pool.Run
import QPHi.Theorems.Pool.Sizing

/-! A single pool is a stack of slots: whole runs of `qp_pool_alloc` and `qp_pool_free` on the pool that `qp_pool_init` has
    made, while the memory elsewhere may change. -/

namespace QPHi
open Chain

variable {h h' : Heap} {esize count size pool room i p : Nat} {s : Slots Nat}

/-- The element `i` of a room. -/
def place (esize room i : Nat) : Nat := room + i * (esize + sizeofPoolElm)

/-- The memory of the pool is as it was: its structure, and the headers of its elements. -/
structure Elsewhere (esize count pool room : Nat) (h h' : Heap) : Prop where
  record : h'.pool pool = h.pool pool
  next : ∀ a, a = pool ∨ a ∈ elements esize count room → h'.next a = h.next a
  root : ∀ e ∈ elements esize count room, h'.root e = h.root e

/-- The runs of a pool with the stack of its indices. The pool is made in a block of the caller or of its own. Any sizes are
    asked for; pointers that are outstanding are given back, or pointers whose header names another pool. In between the
    memory elsewhere changes. -/
inductive PoolRuns (esize count pool room : Nat) : Heap → Slots Nat → Prop
  | init {h₀ h : Heap} {at? p : Nat} (hgiven : p ≠ NULL → ∃ b ∈ h₀.live, b.1 ≠ NULL ∧ b.1 ≤ p ∧ p < b.1 + b.2)
      (hcall : h₀.poolInit at? room p esize count = some (h, pool)) (hpool : pool ≠ NULL) :
      PoolRuns esize count pool room h (.full (List.range count))
  | alloc {h : Heap} {s : Slots Nat} (size : Nat) (hrun : PoolRuns esize count pool room h s) :
      PoolRuns esize count pool room (h.poolAlloc pool size).1 (if size ≤ esize then s.pop else s)
  | free {h : Heap} {s : Slots Nat} {i : Nat} (hrun : PoolRuns esize count pool room h s) (hi : i ∈ s.used) :
      PoolRuns esize count pool room (h.poolFree pool (h.poolToArray pool i)).1 (s.push i)
  | foreign {h : Heap} {s : Slots Nat} {p : Nat} (hrun : PoolRuns esize count pool room h s)
      (hp : h.root (Heap.poolBelongTo p) ≠ pool) : PoolRuns esize count pool room (h.poolFree pool p).1 s
  | elsewhere {h h' : Heap} {s : Slots Nat} (hrun : PoolRuns esize count pool room h s)
      (helse : Elsewhere esize count pool room h h') : PoolRuns esize count pool room h' s

/-! ### Making the pool -/

theorem map_place_range : (List.range count).map (place esize room) = elements esize count room := rfl

theorem place_mem (hi : i < count) : place esize room i ∈ elements esize count room := mem_elements.mpr ⟨i, hi, rfl⟩

theorem place_injective : Function.Injective (place esize room) := by
  intro i j hij
  have hpos : 0 < esize + sizeofPoolElm := Nat.add_pos_right _ (by decide)
  exact Nat.eq_of_mul_eq_mul_right hpos (Nat.add_left_cancel hij)

/-- `qp_pool_init` succeeds only with a room that `malloc` grants. -/
theorem poolInit_fresh {h₀ : Heap} {at? p q : Nat} {alloced : Bool} (hlt : (esize + sizeofPoolElm) * count < 2 ^ 64)
    (hcreate : h₀.poolCreate at? p = ((h.setPool q fun _ => ⟨NULL, 0, 0, 0, true, alloced⟩).listInit q, q)) (hq : q ≠ NULL)
    (hcall : h₀.poolInit at? room p esize count = some (h', pool)) (hpool : pool ≠ NULL) :
    pool = q ∧ h.Fresh (room, roomSize esize count) := by
  obtain ⟨hreq, -⟩ := request_eq hlt
  simp only [Heap.poolInit, hcreate, if_neg hq] at hcall
  by_cases hfresh : h.Fresh (room, roomSize esize count)
  · rw [alloc_of_fresh (n := roomSize esize count) (by simpa [Heap.Fresh, Heap.setPool, Heap.listInit, hq] using hfresh) hreq]
      at hcall
    simp only [if_neg hfresh.1, Option.some.injEq, Prod.mk.injEq] at hcall
    exact ⟨hcall.2.symm, hfresh⟩
  · rw [alloc_of_not_fresh (n := roomSize esize count) (by simpa [Heap.Fresh, Heap.setPool, Heap.listInit, hq] using hfresh)
      hreq] at hcall
    simp only [if_true, Option.bind_eq_bind, Option.bind_eq_some_iff] at hcall
    obtain ⟨_, -, hcall⟩ := hcall
    exact absurd (Prod.mk.inj (Option.some.inj hcall)).2.symm hpool

/-- Where `qp_pool_create` finds the structure of a pool: at the place that is given, or in a block of its own. -/
theorem poolCreate_made {h₀ : Heap} {at? p : Nat}
    (hgiven : p ≠ NULL → ∃ b ∈ h₀.live, b.1 ≠ NULL ∧ b.1 ≤ p ∧ p < b.1 + b.2) (hcreated : (h₀.poolCreate at? p).2 ≠ NULL) :
    ∃ (h₁ : Heap) (q : Nat) (alloced : Bool), h₀.poolCreate at? p = ((h₁.setPool q fun _ => ⟨NULL, 0, 0, 0, true, alloced⟩).listInit q, q) ∧
      ∃ b ∈ h₁.live, b.1 ≠ NULL ∧ b.1 ≤ q ∧ q < b.1 + b.2 := by
  by_cases hp : p = NULL
  · have hcreate : h₀.poolCreate at? p = if (h₀.alloc at? sizeofPool).2 = NULL then ((h₀.alloc at? sizeofPool).1, NULL)
        else (((h₀.alloc at? sizeofPool).1.setPool (h₀.alloc at? sizeofPool).2 fun _ => ⟨NULL, 0, 0, 0, true, true⟩).listInit
          (h₀.alloc at? sizeofPool).2, (h₀.alloc at? sizeofPool).2) := if_pos hp
    by_cases hfresh : h₀.Fresh (at?, sizeofPool)
    · rw [alloc_of_fresh hfresh rfl, if_neg hfresh.1] at hcreate
      exact ⟨_, at?, true, hcreate, (at?, sizeofPool), List.mem_cons_self, hfresh.1, Nat.le_refl _,
        Nat.lt_add_of_pos_right (show 0 < sizeofPool by decide)⟩
    · rw [alloc_of_not_fresh hfresh rfl, if_pos rfl] at hcreate
      rw [hcreate] at hcreated
      exact absurd rfl hcreated
  · exact ⟨h₀, p, false, if_neg hp, hgiven hp⟩

theorem poolInit_has {h₀ : Heap} {at? p : Nat} (hlt : (esize + sizeofPoolElm) * count < 2 ^ 64)
    (hgiven : p ≠ NULL → ∃ b ∈ h₀.live, b.1 ≠ NULL ∧ b.1 ≤ p ∧ p < b.1 + b.2)
    (hcall : h₀.poolInit at? room p esize count = some (h, pool)) (hpool : pool ≠ NULL) :
    Placed esize count pool room ∧ PoolHas esize count pool room (elements esize count room).reverse h := by
  have hcreated : (h₀.poolCreate at? p).2 ≠ NULL := by
    intro hnull
    simp only [Heap.poolInit, hnull, if_true, Option.some.injEq, Prod.mk.injEq] at hcall
    exact hpool hcall.2.symm
  obtain ⟨h₁, q, alloced, hcreate, b, hb, hb0, hin⟩ := poolCreate_made hgiven hcreated
  have hq : q ≠ NULL := by
    rw [hcreate] at hcreated
    exact hcreated
  obtain ⟨rfl, hfresh⟩ := poolInit_fresh hlt hcreate hq hcall hpool
  have P := Fresh.placed hfresh hb hin hb0
  obtain ⟨h', hcall', H, -⟩ := poolInit_made hlt P hcreate hfresh
  obtain rfl := (Prod.mk.inj (Option.some.inj (hcall'.symm.trans hcall))).1
  exact ⟨P, H⟩

/-! ### The invariant -/

/-- The free list of the pool is the stack of the free indices. -/
structure Stacked (esize count pool room : Nat) (s : Slots Nat) (h : Heap) : Prop where
  placed : Placed esize count pool room
  has : PoolHas esize count pool room (s.free.map (place esize room)) h
  parts : s.Partition (List.range count)

namespace Stacked

theorem array_eq (S : Stacked esize count pool room s h) (hi : i < count) :
    h.poolToArray pool i = place esize room i + sizeofPoolElm := by
  have hmem : place esize room i ∈ elements esize count room := place_mem hi
  have hbound := (S.placed.element_bound hmem).2.2
  have hgo : pool ≠ NULL ∧ (h.pool pool).isInited = true := ⟨S.placed.pool_ne, S.has.inited⟩
  have hbucket : esize + sizeofPoolElm < 2 ^ 64 := by omega
  have hoffset : room + i * (esize + sizeofPoolElm) + sizeofPoolElm < 2 ^ 64 := by
    rw [place] at hbound
    omega
  rw [Heap.poolToArray, if_pos hgo, S.has.room, S.has.esize, addWord_of_lt hbucket, mulWord_of_lt (by omega),
    addWord_of_lt (a := room) (by omega), addWord_of_lt hoffset]
  rfl

theorem belong_eq (S : Stacked esize count pool room s h) (hi : i < count) :
    Heap.poolBelongTo (place esize room i + sizeofPoolElm) = place esize room i := by
  have hmem : place esize room i ∈ elements esize count room := place_mem hi
  exact S.placed.belongTo hmem

theorem init {h₀ : Heap} {at? p : Nat} (hlt : (esize + sizeofPoolElm) * count < 2 ^ 64)
    (hgiven : p ≠ NULL → ∃ b ∈ h₀.live, b.1 ≠ NULL ∧ b.1 ≤ p ∧ p < b.1 + b.2)
    (hcall : h₀.poolInit at? room p esize count = some (h, pool)) (hpool : pool ≠ NULL) :
    Stacked esize count pool room (.full (List.range count)) h := by
  obtain ⟨P, H⟩ := poolInit_has hlt hgiven hcall hpool
  refine ⟨P, ?_, Slots.full_partition _⟩
  rw [Slots.full_free, List.map_reverse, map_place_range]
  exact H

/-- The index on top is that of the first free element. -/
theorem top {rest : List Nat} (S : Stacked esize count pool room s h) (hfree : s.free = i :: rest) :
    i < count ∧ PoolHas esize count pool room (place esize room i :: rest.map (place esize room)) h := by
  have hmem : i ∈ s.free := hfree ▸ List.mem_cons_self
  have H := S.has
  rw [hfree, List.map_cons] at H
  exact ⟨List.mem_range.mp (S.parts.mem_of_free hmem), H⟩

/-- A request that is served takes the index on top. -/
theorem alloc_top {rest : List Nat} (S : Stacked esize count pool room s h) (hsize : size ≤ esize) (hfree : s.free = i :: rest) :
    (h.poolAlloc pool size).2 = h.poolToArray pool i ∧ Stacked esize count pool room s.pop (h.poolAlloc pool size).1 := by
  obtain ⟨hi, H⟩ := S.top hfree
  obtain ⟨h', hcall, H', -⟩ := H.poolAlloc_some S.placed hsize
  rw [hcall]
  refine ⟨(S.array_eq hi).symm, S.placed, ?_, S.parts.pop⟩
  rw [Slots.pop_cons hfree]
  exact H'

/-- A request that is refused changes nothing. -/
theorem alloc_refused (S : Stacked esize count pool room s h) (hrefused : s.free = [] ∨ esize < size) :
    h.poolAlloc pool size = (h, NULL) := by
  refine S.has.poolAlloc_none (hrefused.imp_left fun hnil => ?_)
  rw [hnil, List.map_nil]

theorem alloc (S : Stacked esize count pool room s h) (size : Nat) :
    Stacked esize count pool room (if size ≤ esize then s.pop else s) (h.poolAlloc pool size).1 := by
  split
  case isTrue hsize =>
    cases hfree : s.free with
    | nil =>
      rw [S.alloc_refused (.inl hfree), Slots.pop_nil hfree]
      exact S
    | cons i rest => exact (S.alloc_top hsize hfree).2
  case isFalse hsize =>
    rw [S.alloc_refused (.inr (Nat.lt_of_not_le hsize))]
    exact S

theorem free (S : Stacked esize count pool room s h) (hi : i ∈ s.used) :
    (h.poolFree pool (h.poolToArray pool i)).2 = QP_SUCCESS ∧
      Stacked esize count pool room (s.push i) (h.poolFree pool (h.poolToArray pool i)).1 := by
  have hlt : i < count := List.mem_range.mp (S.parts.mem_of_used hi)
  have hout : place esize room i ∉ s.free.map (place esize room) := by
    rw [List.mem_map_of_injective place_injective]
    exact S.parts.notMem_free List.nodup_range hi
  obtain ⟨h', hcall, H, -⟩ := S.has.poolFree_some S.placed (place_mem hlt) hout
  rw [S.array_eq hlt, hcall]
  exact ⟨rfl, S.placed, H, S.parts.push hi⟩

theorem elsewhere (S : Stacked esize count pool room s h) (E : Elsewhere esize count pool room h h') :
    Stacked esize count pool room s h' :=
  ⟨S.placed, S.has.frame E.record E.next E.root, S.parts⟩

end Stacked

/-- A pointer of another pool is refused. -/
theorem poolFree_foreign (hp : h.root (Heap.poolBelongTo p) ≠ pool) : h.poolFree pool p = (h, QP_ERROR) := by
  rw [Heap.poolFree]
  exact if_pos hp

theorem PoolRuns.stacked (hlt : (esize + sizeofPoolElm) * count < 2 ^ 64) (R : PoolRuns esize count pool room h s) :
    Stacked esize count pool room s h := by
  induction R with
  | init hgiven hcall hpool => exact .init hlt hgiven hcall hpool
  | alloc size _ ih => exact ih.alloc size
  | free _ hi ih => exact (ih.free hi).2
  | foreign _ hp ih =>
    rw [poolFree_foreign hp]
    exact ih
  | elsewhere _ helse ih => exact ih.elsewhere helse

/-! ### An exact allocator -/

/-- What the pool promises when its stack is `s`: the pointers are those of `qp_pool_to_array`, and the free list in memory is
    the stack. -/
structure Allocates (esize count pool room : Nat) (h : Heap) (s : Slots Nat) : Prop where
  array : ∀ i < count, h.poolToArray pool i = room + i * (esize + sizeofPoolElm) + sizeofPoolElm
  distinct : ((List.range count).map (h.poolToArray pool)).Nodup
  parts : ((s.used ++ s.free).map (h.poolToArray pool)).Perm ((List.range count).map (h.poolToArray pool))
  list : Ring h.next pool (s.free.map fun i => Heap.poolBelongTo (h.poolToArray pool i))
  refused : ∀ size, (h.poolAlloc pool size).2 = NULL ↔ esize < size ∨ s.used.length = count
  served : ∀ size, (h.poolAlloc pool size).2 ≠ NULL → s.free.head?.map (h.poolToArray pool) = some (h.poolAlloc pool size).2
  taken : ∀ i ∈ s.used, (h.poolFree pool (h.poolToArray pool i)).2 = QP_SUCCESS
  foreign : ∀ p, h.root (Heap.poolBelongTo p) ≠ pool → h.poolFree pool p = (h, QP_ERROR)
  available : h.poolAvailable pool = s.free.length
  inUse : h.poolUsed pool = s.used.length
  undone : ∀ size, (h.poolAlloc pool size).2 ≠ NULL →
    ((h.poolAlloc pool size).1.poolFree pool (h.poolAlloc pool size).2).1 = h

namespace Stacked

theorem refused_iff (S : Stacked esize count pool room s h) (size : Nat) :
    (h.poolAlloc pool size).2 = NULL ↔ esize < size ∨ s.used.length = count := by
  have hfull : s.free = [] ↔ s.used.length = count := by
    rw [S.parts.free_eq_nil_iff, List.length_range]
  rw [← hfull]
  constructor
  · intro hnull
    by_contra hserved
    rw [not_or, Nat.not_lt] at hserved
    obtain ⟨i, rest, hfree⟩ := List.exists_cons_of_ne_nil hserved.2
    have hi : i < count := List.mem_range.mp (S.parts.mem_of_free (by rw [hfree]; exact List.mem_cons_self))
    rw [(S.alloc_top hserved.1 hfree).1, S.array_eq hi] at hnull
    exact absurd hnull (Nat.succ_ne_zero _)
  · intro hrefused
    rw [S.alloc_refused hrefused.symm]

/-- A request that is not refused finds an index on top of the stack. -/
theorem top_of_served (S : Stacked esize count pool room s h) (hserved : (h.poolAlloc pool size).2 ≠ NULL) :
    size ≤ esize ∧ ∃ i rest, s.free = i :: rest := by
  rw [Ne, S.refused_iff, not_or, Nat.not_lt] at hserved
  refine ⟨hserved.1, List.exists_cons_of_ne_nil fun hnil => hserved.2 ?_⟩
  rw [← List.length_range (n := count)]
  exact S.parts.free_eq_nil_iff.mp hnil

theorem allocates (S : Stacked esize count pool room s h) : Allocates esize count pool room h s := by
  have hlength := S.parts.length
  rw [List.length_range] at hlength
  have hplaces : (List.range count).map (h.poolToArray pool) =
      (List.range count).map fun i => place esize room i + sizeofPoolElm :=
    List.map_congr_left fun i hi => S.array_eq (List.mem_range.mp hi)
  refine ⟨fun i hi => S.array_eq hi, ?_, S.parts.map _, ?_, S.refused_iff, fun size hserved => ?_, fun i hi => (S.free hi).1,
    fun p hp => poolFree_foreign hp, ?_, ?_, fun size hserved => ?_⟩
  · rw [hplaces]
    exact List.nodup_range.map fun i j hij => place_injective (Nat.add_right_cancel hij)
  · have hheaders : (s.free.map fun i => Heap.poolBelongTo (h.poolToArray pool i)) = s.free.map (place esize room) := by
      refine List.map_congr_left fun i hi => ?_
      have hlt : i < count := List.mem_range.mp (S.parts.mem_of_free hi)
      rw [S.array_eq hlt, S.belong_eq hlt]
    rw [hheaders]
    exact S.has.ring
  · obtain ⟨hsize, i, rest, hfree⟩ := S.top_of_served hserved
    rw [hfree, (S.alloc_top hsize hfree).1]
    rfl
  · rw [Heap.poolAvailable, S.has.nfree, List.length_map]
  · have hcount := S.placed.count_lt
    rw [Heap.poolUsed, S.has.nsize, S.has.nfree, List.length_map, subWord_of_le hcount (by omega)]
    omega
  · obtain ⟨hsize, i, rest, hfree⟩ := S.top_of_served hserved
    obtain ⟨hi, H⟩ := S.top hfree
    rw [(S.alloc_top hsize hfree).1, S.array_eq hi]
    exact H.poolFree_poolAlloc S.placed hsize

end Stacked

/-- Every run of a pool is a run of a stack: what is handed out is the top, what is given back becomes the top, and nothing is
    lost or there twice. -/
theorem poolRuns_allocates (hlt : (esize + sizeofPoolElm) * count < 2 ^ 64) (R : PoolRuns esize count pool room h s) :
    Allocates esize count pool room h s :=
  (R.stacked hlt).allocates

/-- Four elements of 8 bytes: the last one is handed out first, and lies behind the other three. -/
theorem poolRuns_allocates_first : ∃ h, PoolRuns 8 4 1000 3000 h ⟨[2, 1, 0], [3]⟩ ∧
    Allocates 8 4 1000 3000 h ⟨[2, 1, 0], [3]⟩ := by
  obtain ⟨h, hcall⟩ := poolInit_returns (show ((bareHeap.poolInit NULL 3000 1000 8 4).map fun st => st.2) = some 1000 by
    decide +kernel)
  have hrun : PoolRuns 8 4 1000 3000 (h.poolAlloc 1000 8).1 ⟨[2, 1, 0], [3]⟩ :=
    .alloc 8 (.init (fun _ => ⟨(1000, 64), List.mem_singleton.mpr rfl, by decide⟩) hcall (by decide))
  exact ⟨_, hrun, poolRuns_allocates (by decide) hrun⟩

/-! ### Two pools -/

/-- What another pool does is elsewhere, if their structures and elements are different. -/
theorem PoolKeeps.elsewhere {esize' count' pool' room' : Nat} (K : PoolKeeps esize' count' pool' room' h h')
    (hpools : pool ≠ pool') (hhead : pool ∉ elements esize' count' room')
    (helements : ∀ e ∈ elements esize count room, e ≠ pool' ∧ e ∉ elements esize' count' room') :
    Elsewhere esize count pool room h h' := by
  refine ⟨K.pools pool hpools, fun a ha => ?_, fun e he => K.root e (helements e he).2⟩
  rcases ha with rfl | ha
  · exact K.next a hpools hhead
  · exact K.next a (helements a ha).1 (helements a ha).2

/-- A pointer of another pool names that pool, so that it is refused. -/
theorem Stacked.foreign {esize' count' pool' room' : Nat} {s' : Slots Nat} (S : Stacked esize' count' pool' room' s' h)
    (hpools : pool ≠ pool') (hi : i < count') : h.poolFree pool (h.poolToArray pool' i) = (h, QP_ERROR) := by
  refine poolFree_foreign ?_
  rw [S.array_eq hi, S.belong_eq hi, S.has.root _ (place_mem hi)]
  exact hpools.symm

end QPHi
