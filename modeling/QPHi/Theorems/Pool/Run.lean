import QPHi.Theorems.Pool.ManagerGrow

/-! Whole runs of a pool manager: the pointers it has handed out do not overlap, it gives up no pool that is
    in use, and its lists and counters agree, as long as the size of a room does not overflow. -/

namespace QPHi
open Chain

variable {h h' : Heap} {esize count size m e x p room : Nat} {out : List Nat} {g g' : Slabs}

/-- The states of every run of a manager at `m`, with the pointers that are outstanding: the manager is made
    by `qp_manager_init` in a block of the caller or of its own, and then any pointers are asked for and any
    outstanding ones are given back. `malloc` may refuse at any point. -/
inductive Runs (esize count m : Nat) : Heap → List Nat → Prop
  | init {h₀ h : Heap} {at? m₀ : Nat} (hgiven : m₀ ≠ NULL → managerBlock m₀ ∈ h₀.live ∧ m₀ + sizeofManager < 2 ^ 64)
      (hcall : h₀.managerInit at? m₀ esize count = (h, m)) (hm : m ≠ NULL) : Runs esize count m h []
  | alloc {h h' : Heap} {out : List Nat} {elm? room? size r : Nat} (hrun : Runs esize count m h out)
      (hcall : h.managerAlloc elm? room? m size = some (h', r)) :
      Runs esize count m h' (if r = NULL then out else r :: out)
  | free {h h' : Heap} {out : List Nat} {p : Nat} {r : Int} (hrun : Runs esize count m h out) (hp : p ∈ out)
      (hcall : h.managerFree m p = some (h', r)) : Runs esize count m h' (out.erase p)

/-! ### The invariant along a run -/

/-- A manager without pools. -/
def Slabs.none : Slabs := ⟨[], fun _ => 0, fun _ => [], []⟩

theorem managed_init {h₀ : Heap} {at? m₀ : Nat}
    (hgiven : m₀ ≠ NULL → managerBlock m₀ ∈ h₀.live ∧ m₀ + sizeofManager < 2 ^ 64)
    (hcall : h₀.managerInit at? m₀ esize count = (h, m)) (hm : m ≠ NULL) :
    Managed esize count m .none h := by
  -- Both ways to get the block of the manager end in the same initialisation.
  obtain ⟨h₁, alloced, hlive, hlt, hh⟩ : ∃ (h₁ : Heap) (alloced : Bool), managerBlock m ∈ h₁.live ∧
      m + sizeofManager < 2 ^ 64 ∧ h = ((((h₁.setManager m fun _ => ⟨0, 0, 0, 0, true, alloced⟩).queueInit m).listInit
        (addWord m offsetofAvailable)).setManager m fun m => { m with esize := esize, ecount := count }) := by
    simp only [Heap.managerInit, Heap.managerCreate] at hcall
    by_cases hm₀ : m₀ = NULL
    · simp only [if_pos hm₀] at hcall
      by_cases hfresh : h₀.Fresh (managerBlock at?)
      · rw [alloc_of_fresh (n := sizeofManager) hfresh rfl] at hcall
        have hat : at? ≠ NULL := hfresh.1
        simp only [if_neg hat, Prod.mk.injEq] at hcall
        obtain ⟨rfl, rfl⟩ := hcall
        exact ⟨_, true, List.mem_cons_self, hfresh.2.1, rfl⟩
      · rw [alloc_of_not_fresh (n := sizeofManager) hfresh rfl] at hcall
        simp only [↓reduceIte, Prod.mk.injEq] at hcall
        exact absurd hcall.2.symm hm
    · simp only [if_neg hm₀, Prod.mk.injEq] at hcall
      obtain ⟨rfl, rfl⟩ := hcall
      exact ⟨h₀, false, (hgiven hm₀).1, (hgiven hm₀).2, rfl⟩
  have L : Laid esize count m Slabs.none.pools Slabs.none.room :=
    ⟨List.nodup_nil, ⟨hm, hlt⟩, by simp [Slabs.none], by simp [Slabs.none], by simp [Slabs.none], by simp [Slabs.none],
      by simp [Slabs.none], by simp [Slabs.none], by simp [Slabs.none]⟩
  have hav := L.addWord_available
  have hav0 := L.available_ne_null
  have hheap : h = { h₁ with
      manager := Function.update h₁.manager m ⟨0, 0, esize, count, true, alloced⟩
      qprev := Function.update h₁.qprev m m
      qnext := Function.update h₁.qnext m m
      next := Function.update h₁.next (availableOf m) (availableOf m) } := by
    rw [hh, hav]
    simp only [Heap.setManager, Heap.queueInit, if_neg hm, Heap.listInit, if_neg hav0, Function.update_self,
      Function.update_idem]
  have hmanager : h.manager m = ⟨0, 0, esize, count, true, alloced⟩ := by
    rw [hheap]
    exact Function.update_self _ _ _
  refine ⟨⟨L, by rw [hheap]; exact hlive, by simp [Slabs.none], by simp [Slabs.none], ⟨?_, ?_⟩, by simp [Slabs.none],
    by simp [Slabs.none], by simp [Slabs.none], by rw [hmanager]; rfl, by rw [hmanager], by rw [hmanager]⟩,
    ⟨?_, List.nodup_nil, by simp [Slabs.none], by simp [Slabs.none]⟩, by simp [Slabs.none], by rw [hmanager]; rfl⟩
  all_goals
    rw [hheap]
    exact Function.update_self _ _ _

theorem Runs.managed (hlt : (esize + sizeofPoolElm) * count < 2 ^ 64) (R : Runs esize count m h out) :
    ∃ g, Managed esize count m g h ∧ Outstanding esize count g out := by
  induction R with
  | init hgiven hcall hm =>
    exact ⟨.none, managed_init hgiven hcall hm, List.nodup_nil, by simp [Slabs.none]⟩
  | alloc _ hcall ih =>
    obtain ⟨g, M, O⟩ := ih
    obtain ⟨h', r, g', hrun, M', -, hout⟩ := M.managerAlloc hlt O _ _ _
    obtain ⟨rfl, rfl⟩ := Prod.mk.inj (Option.some.inj (hrun.symm.trans hcall))
    rcases hout with ⟨rfl, O'⟩ | ⟨hr, -, -, O'⟩
    · exact ⟨g', M', by rwa [if_pos rfl]⟩
    · exact ⟨g', M', by rwa [if_neg hr]⟩
  | free _ hp hcall ih =>
    obtain ⟨g, M, O⟩ := ih
    obtain ⟨h', g', hrun, M', O', -⟩ := M.managerFree O hp
    obtain ⟨rfl, rfl⟩ := Prod.mk.inj (Option.some.inj (hrun.symm.trans hcall))
    exact ⟨g', M', O'⟩

/-! ### Exclusive use -/

/-- The pointers `out` are served from the pools `pools` of the queue: each lies in the room of a pool that is
    live, and none overlaps another pointer or the header of an element. -/
structure Serves (esize count m : Nat) (h : Heap) (out pools : List Nat) : Prop where
  queue : DRing h.qnext h.qprev m pools
  live : ∀ e ∈ pools, elmBlock e ∈ h.live ∧ ((h.pool (poolOf e)).room, roomSize esize count) ∈ h.live
  nodup : out.Nodup
  inside : ∀ p ∈ out, ∃ e ∈ pools, (h.pool (poolOf e)).room ≤ p ∧
    p + esize ≤ (h.pool (poolOf e)).room + (esize + sizeofPoolElm) * count
  apart : ∀ p ∈ out, ∀ q ∈ out, p ≠ q → Apart (p, esize) (q, esize)
  headers : ∀ p ∈ out, ∀ e ∈ pools, ∀ x ∈ elements esize count (h.pool (poolOf e)).room,
    Apart (p, esize) (x, sizeofPoolElm)

/-- Two elements of the pools, each with its header, do not overlap. -/
theorem Laid.elements_apart' (L : Laid esize count m g.pools g.room) {e e' x y : Nat} (he : e ∈ g.pools)
    (he' : e' ∈ g.pools) (hx : x ∈ elements esize count (g.room e)) (hy : y ∈ elements esize count (g.room e'))
    (hne : x ≠ y) : Apart (x, esize + sizeofPoolElm) (y, esize + sizeofPoolElm) := by
  by_cases hee : e = e'
  · subst hee
    exact elements_apart hx hy hne
  · obtain ⟨h₁, h₂⟩ := element_inside hx
    obtain ⟨h₃, h₄⟩ := element_inside hy
    rcases L.room_room e he e' he' hee with hap | hap
    · simp only [roomBlock] at hap
      exact Or.inl (by simp only; omega)
    · simp only [roomBlock] at hap
      exact Or.inr (by simp only; omega)

theorem Managed.serves (M : Managed esize count m g h) (O : Outstanding esize count g out) :
    Serves esize count m h out g.pools := by
  have L := M.pools.laid
  have hroom : ∀ e ∈ g.pools, (h.pool (poolOf e)).room = g.room e := fun e he => (M.pools.pool e he).room
  refine ⟨M.pools.queue, fun e he => ?_, O.1, fun p hp => ?_, fun p hp q hq hne => ?_, fun p hp e he x hx => ?_⟩
  · rw [hroom e he]
    exact ⟨M.pools.elm_live e he, M.pools.room_live e he⟩
  · obtain ⟨e, he, x, hx, -, rfl⟩ := (O.2 p).mp hp
    obtain ⟨i, hi, rfl⟩ := mem_elements.mp hx
    have hmul : (i + 1) * (esize + sizeofPoolElm) ≤ count * (esize + sizeofPoolElm) := Nat.mul_le_mul_right _ hi
    rw [Nat.mul_comm count, Nat.succ_mul] at hmul
    have hlo : g.room e ≤ g.room e + i * (esize + sizeofPoolElm) + sizeofPoolElm := by omega
    have hhi : g.room e + i * (esize + sizeofPoolElm) + sizeofPoolElm + esize ≤
        g.room e + (esize + sizeofPoolElm) * count := by omega
    exact ⟨e, he, by rw [hroom e he]; exact hlo, by rw [hroom e he]; exact hhi⟩
  · obtain ⟨e, he, x, hx, -, rfl⟩ := (O.2 p).mp hp
    obtain ⟨e', he', y, hy, -, rfl⟩ := (O.2 q).mp hq
    have hxy : x ≠ y := fun heq => hne (by rw [heq])
    rcases L.elements_apart' he he' hx hy hxy with hap | hap
    · exact Or.inl (by simp only at hap ⊢; omega)
    · exact Or.inr (by simp only at hap ⊢; omega)
  · obtain ⟨e', he', y, hy, -, rfl⟩ := (O.2 p).mp hp
    rw [hroom e he] at hx
    by_cases hxy : y = x
    · exact Or.inr (by simp only [hxy]; omega)
    · rcases L.elements_apart' he' he hy hx hxy with hap | hap
      · exact Or.inl (by simp only at hap ⊢; omega)
      · exact Or.inr (by simp only at hap ⊢; omega)

/-- In every run no block is handed out twice, and no pool is given up while an element of it is
    outstanding. -/
theorem runs_exclusive (hlt : (esize + sizeofPoolElm) * count < 2 ^ 64) (R : Runs esize count m h out) :
    ∃ pools, Serves esize count m h out pools ∧
      (∀ elm? room? size, ∃ h' r pools', h.managerAlloc elm? room? m size = some (h', r) ∧ pools ⊆ pools' ∧
        Serves esize count m h' (if r = NULL then out else r :: out) pools') ∧
      (∀ p ∈ out, ∃ h' pools', h.managerFree m p = some (h', QP_SUCCESS) ∧ Serves esize count m h' (out.erase p) pools' ∧
        ∀ e ∈ pools, e ∉ pools' → ∀ x ∈ elements esize count (h.pool (poolOf e)).room,
          x + sizeofPoolElm ∉ out.erase p) := by
  obtain ⟨g, M, O⟩ := R.managed hlt
  refine ⟨g.pools, M.serves O, fun elm? room? size => ?_, fun p hp => ?_⟩
  · obtain ⟨h', r, g', hrun, M', hsub, hout⟩ := M.managerAlloc hlt O elm? room? size
    refine ⟨h', r, g'.pools, hrun, hsub, ?_⟩
    rcases hout with ⟨rfl, O'⟩ | ⟨hr, -, -, O'⟩
    · rw [if_pos rfl]
      exact M'.serves O'
    · rw [if_neg hr]
      exact M'.serves O'
  · obtain ⟨h', g', hrun, M', O', hsub, hroom⟩ := M.managerFree O hp
    refine ⟨h', g'.pools, hrun, M'.serves O', fun e he hne x hx hout => ?_⟩
    obtain ⟨a, ha, y, hy, -, heq⟩ := (O'.2 _).mp hout
    obtain rfl : x = y := Nat.add_right_cancel heq
    rw [(M.pools.pool e he).room] at hx
    rw [hroom] at hy
    exact M.pools.laid.elements_disjoint he (hsub ha) (fun hea => hne (hea ▸ ha)) hx hy

/-! ### Bookkeeping -/

/-- The lists and counters of a manager agree with each other and with the outstanding pointers. -/
def Bookkeeping (m : Nat) (h : Heap) (out : List Nat) : Prop :=
  ∃ (pools avail : List Nat) (free : Nat → List Nat),
    DRing h.qnext h.qprev m pools ∧ (m :: pools).Nodup ∧
    Ring h.next (availableOf m) (avail.map linkOf) ∧ (availableOf m :: avail.map linkOf).Nodup ∧
    (∀ e ∈ pools, Ring h.next (poolOf e) (free e) ∧ (poolOf e :: free e).Nodup) ∧
    (∀ e, e ∈ avail ↔ e ∈ pools ∧ free e ≠ []) ∧
    (∀ e ∈ pools, h.next (linkOf e) = linkOf e ↔ e ∉ avail) ∧
    (h.manager m).poolCount = pools.length ∧
    (h.manager m).nfree = (pools.map fun e => (h.pool (poolOf e)).nfree).sum ∧
    (∀ e ∈ pools, (h.pool (poolOf e)).nfree = (free e).length ∧ (h.pool (poolOf e)).nfree ≤ (h.pool (poolOf e)).nsize) ∧
    h.managerUsed m = out.length ∧ (h.manager m).nfree ≤ (h.manager m).poolCount * (h.manager m).ecount

theorem length_filter_notMem {l : List Nat} {fl : List Nat} (hl : l.Nodup) (hfl : fl.Nodup) (hsub : fl ⊆ l) :
    (l.filter (· ∉ fl)).length + fl.length = l.length := by
  have hperm : (l.filter (· ∈ fl)).Perm fl := by
    rw [List.perm_ext_iff_of_nodup (hl.filter _) hfl]
    intro a
    rw [List.mem_filter, decide_eq_true_eq]
    exact ⟨fun ha => ha.2, fun ha => ⟨hsub ha, ha⟩⟩
  have hsplit := List.length_eq_length_filter_add (l := l) (fun a => decide (a ∈ fl))
  have hneg : (l.filter fun a => !decide (a ∈ fl)) = l.filter (· ∉ fl) := by
    refine List.filter_congr fun a _ => ?_
    simp
  rw [hneg, hperm.length_eq] at hsplit
  omega

/-- Every element is free or outstanding. -/
theorem Managed.length_out (M : Managed esize count m g h) (O : Outstanding esize count g out) :
    out.length + freeCount g = g.pools.length * count := by
  have L := M.pools.laid
  have hheld : ∀ e ∈ g.pools,
      ((elements esize count (g.room e)).filter (· ∉ g.free e)).length + (g.free e).length = count := by
    intro e he
    have P := M.pools.pool e he
    rw [length_filter_notMem elements_nodup P.nodup P.subset, length_elements]
  have hperm : out.Perm (g.pools.flatMap fun e =>
      ((elements esize count (g.room e)).filter (· ∉ g.free e)).map (· + sizeofPoolElm)) := by
    rw [List.perm_ext_iff_of_nodup O.1]
    · intro p
      simp only [O.2 p, List.mem_flatMap, List.mem_map, List.mem_filter, decide_eq_true_eq]
      constructor
      · rintro ⟨e, he, x, hx, hnx, rfl⟩
        exact ⟨e, he, x, ⟨hx, hnx⟩, rfl⟩
      · rintro ⟨e, he, x, ⟨hx, hnx⟩, rfl⟩
        exact ⟨e, he, x, hx, hnx, rfl⟩
    · refine List.nodup_flatMap.mpr ⟨fun e _ => ?_, L.nodup.imp_of_mem fun {a b} ha hb hne p hp hp' => ?_⟩
      · exact (elements_nodup.filter _).map fun x y hxy => Nat.add_right_cancel hxy
      · obtain ⟨x, hx, rfl⟩ := List.mem_map.mp hp
        obtain ⟨y, hy, heq⟩ := List.mem_map.mp hp'
        obtain rfl : y = x := Nat.add_right_cancel heq
        exact L.elements_disjoint ha hb hne (List.mem_filter.mp hx).1 (List.mem_filter.mp hy).1
  rw [hperm.length_eq, List.length_flatMap, freeCount]
  clear hperm L
  generalize g.pools = l at hheld
  induction l with
  | nil => simp
  | cons e l ih =>
    have he := hheld e (by simp)
    have hl := ih fun a ha => hheld a (List.mem_cons_of_mem e ha)
    simp only [List.map_cons, List.sum_cons, List.length_map, List.length_cons, Nat.succ_mul] at hl ⊢
    omega

/-- In every run the lists and counters agree, when the size of a room does not overflow. -/
theorem runs_bookkeeping (hcount : 1 ≤ count) (hlt : (esize + sizeofPoolElm) * count < 2 ^ 64)
    (R : Runs esize count m h out) : Bookkeeping m h out := by
  obtain ⟨g, M, O⟩ := R.managed hlt
  have L := M.pools.laid
  have H := M.listed
  have hnfree : ∀ e ∈ g.pools, (h.pool (poolOf e)).nfree = (g.free e).length := fun e he => (M.pools.pool e he).nfree
  have hlinks : (availableOf m :: g.avail.map linkOf).Nodup :=
    List.nodup_cons.mpr ⟨H.available_notMem L, H.nodup.map fun a b hab => Nat.add_right_cancel hab⟩
  have hle := M.pools.freeCount_le
  have hlt' := L.length_mul_count_lt
  refine ⟨g.pools, g.avail, g.free, M.pools.queue, ?_, H.ring, hlinks, fun e he => ?_, fun e => ?_, fun e he => ?_,
    M.pools.poolCount, ?_, fun e he => ?_, ?_, ?_⟩
  · exact L.nodup_cons
  · have P := M.pools.pool e he
    exact ⟨P.ring, List.nodup_cons.mpr ⟨P.head_notMem (L.placed he), P.nodup⟩⟩
  · constructor
    · intro he
      have hpool := H.subset he
      exact ⟨hpool, ((M.avail e hpool).mp he).resolve_right (by omega)⟩
    · exact fun ⟨he, hfree⟩ => (M.avail e he).mpr (Or.inl hfree)
  · constructor
    · exact fun hself hmem => H.ring.next_ne_self hlinks (Listed.linkOf_mem_map.mpr hmem) hself
    · exact H.idle e he
  · rw [M.nfree, freeCount]
    exact congrArg List.sum (List.map_congr_left fun e he => (hnfree e he).symm)
  · refine ⟨hnfree e he, ?_⟩
    rw [hnfree e he, (M.pools.pool e he).nsize]
    exact (M.pools.pool e he).length_le
  · have hout := M.length_out O
    rw [Heap.managerUsed, M.pools.poolCount, M.pools.ecount, M.nfree, mulWord_of_lt hlt', subWord_of_le hlt' hle]
    omega
  · rw [M.nfree, M.pools.poolCount, M.pools.ecount]
    exact hle

/-! ### Concrete runs -/

/-- A memory with room for a manager at 1000. -/
def bareHeap : Heap where
  next _ := 0
  qprev _ := 0
  qnext _ := 0
  root _ := 0
  pool _ := ⟨0, 0, 0, 0, false, false⟩
  manager _ := ⟨0, 0, 0, 0, false, false⟩
  owner _ := 0
  live := [(1000, 64)]

def madeHeap (esize count : Nat) : Heap := (bareHeap.managerInit NULL 1000 esize count).1

theorem madeHeap_runs (esize count : Nat) : Runs esize count 1000 (madeHeap esize count) [] := by
  have hcall : bareHeap.managerInit NULL 1000 esize count = (madeHeap esize count, 1000) := rfl
  exact .init (fun _ => ⟨List.mem_singleton.mpr rfl, by decide⟩) hcall (by decide)

/-- A manager whose pools have two elements of 8 bytes hands out three elements, in two pools, and gets the second one back. -/
theorem madeHeap_calls : ∃ h₁ h₂ h₃ h₄, (madeHeap 8 2).managerAlloc 2000 3000 1000 8 = some (h₁, 3040) ∧
    h₁.managerAlloc NULL NULL 1000 8 = some (h₂, 3016) ∧ h₂.managerAlloc 4000 5000 1000 8 = some (h₃, 5040) ∧
    h₃.managerFree 1000 3016 = some (h₄, QP_SUCCESS) := by
  have hcalls : (((madeHeap 8 2).managerAlloc 2000 3000 1000 8).bind fun a => (a.1.managerAlloc NULL NULL 1000 8).bind fun b =>
      (b.1.managerAlloc 4000 5000 1000 8).bind fun c => (c.1.managerFree 1000 3016).bind fun d => some (a.2, b.2, c.2, d.2)) =
      some (3040, 3016, 5040, QP_SUCCESS) := by decide +kernel
  simp only [Option.bind_eq_some_iff] at hcalls
  obtain ⟨⟨h₁, a⟩, hcall₁, ⟨h₂, b⟩, hcall₂, ⟨h₃, c⟩, hcall₃, ⟨h₄, r⟩, hcall₄, hresults⟩ := hcalls
  cases hresults
  exact ⟨h₁, h₂, h₃, h₄, hcall₁, hcall₂, hcall₃, hcall₄⟩

theorem madeHeap_runs_two : ∃ h, Runs 8 2 1000 h [5040, 3040] := by
  obtain ⟨h₁, h₂, h₃, h₄, hcall₁, hcall₂, hcall₃, hcall₄⟩ := madeHeap_calls
  have hrun : Runs 8 2 1000 h₃ [5040, 3016, 3040] := .alloc (.alloc (.alloc (madeHeap_runs 8 2) hcall₁) hcall₂) hcall₃
  exact ⟨h₄, .free hrun (by simp) hcall₄⟩

theorem runs_exclusive_two : ∃ h, Runs 8 2 1000 h [5040, 3040] ∧ ∃ pools, Serves 8 2 1000 h [5040, 3040] pools := by
  obtain ⟨h, hrun⟩ := madeHeap_runs_two
  obtain ⟨pools, hserves, -⟩ := runs_exclusive (by decide) hrun
  exact ⟨h, hrun, pools, hserves⟩

theorem runs_bookkeeping_two : ∃ h, Runs 8 2 1000 h [5040, 3040] ∧ Bookkeeping 1000 h [5040, 3040] := by
  obtain ⟨h, hrun⟩ := madeHeap_runs_two
  exact ⟨h, hrun, runs_bookkeeping (by decide) (by decide) hrun⟩

/-- With elements of 2^64 - 16 bytes an element and its header take no room at all: the four elements of the
    first pool are one and the same, and the free list of the pool is not a list of three elements after the
    first one is handed out. -/
theorem runs_bookkeeping_overflow :
    ∃ h, Runs (2 ^ 64 - 16) 4 1000 h [3016] ∧ ¬Bookkeeping 1000 h [3016] := by
  have hcall : (((madeHeap (2 ^ 64 - 16) 4).managerAlloc 2000 3000 1000 8).map fun st =>
      (st.2, st.1.qnext 1000, (st.1.pool 2024).nfree, st.1.next 2024, st.1.next 3000, st.1.next 0)) =
      some (3016, 2000, 3, 3000, 0, 0) := by decide +kernel
  cases hst : (madeHeap (2 ^ 64 - 16) 4).managerAlloc 2000 3000 1000 8 with
  | none => rw [hst] at hcall; cases hcall
  | some st =>
    obtain ⟨h, r⟩ := st
    rw [hst] at hcall
    simp only [Option.map_some, Option.some.injEq, Prod.mk.injEq] at hcall
    obtain ⟨rfl, hqueue, hnfree, hhead, helement, hnull⟩ := hcall
    refine ⟨h, .alloc (madeHeap_runs (2 ^ 64 - 16) 4) hst, ?_⟩
    rintro ⟨pools, avail, free, hring, hnd, -, -, hfree, -, -, -, -, hlen, -⟩
    have hmem : 2000 ∈ pools := by
      have hnext := hring.next_eq
      rw [hqueue] at hnext
      cases pools with
      | nil => cases hnext
      | cons a l =>
        have ha : 2000 = a := hnext
        simp [ha]
    obtain ⟨hring', -⟩ := hfree 2000 hmem
    have hthree : (free 2000).length = 3 := (hlen 2000 hmem).1.symm.trans hnfree
    obtain ⟨a, b, c, habc⟩ := List.length_eq_three.mp hthree
    rw [habc] at hring'
    obtain ⟨ha, hb, hc, hend⟩ := hring'
    have ha : h.next 2024 = a := ha
    rw [hhead] at ha
    rw [← ha, helement] at hb
    rw [← hb, hnull] at hc
    have hend : h.next c = 2024 := hend
    rw [← hc, hnull] at hend
    cases hend

end QPHi
