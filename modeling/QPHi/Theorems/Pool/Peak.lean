import QPHi.Theorems.Pool.Run

/-! How many pools a manager holds. A pool is added only when every element of the others is outstanding, so in every run the
    pools are no more than the largest number of elements that were outstanding at one time needs, however the calls are
    ordered and however often `malloc` refuses. -/

namespace QPHi
open Chain

variable {h h' : Heap} {esize count size m e r peak : Nat} {out av : List Nat} {g g' : Slabs}

/-- The runs of a manager, with the largest number of pointers that were outstanding at one time. -/
inductive PeakRuns (esize count m : Nat) : Heap → List Nat → Nat → Prop
  | init {h₀ h : Heap} {at? m₀ : Nat} (hgiven : m₀ ≠ NULL → managerBlock m₀ ∈ h₀.live ∧ m₀ + sizeofManager < 2 ^ 64)
      (hcall : h₀.managerInit at? m₀ esize count = (h, m)) (hm : m ≠ NULL) : PeakRuns esize count m h [] 0
  | alloc {h h' : Heap} {out : List Nat} {elm? room? size r peak : Nat} (hrun : PeakRuns esize count m h out peak)
      (hcall : h.managerAlloc elm? room? m size = some (h', r)) :
      PeakRuns esize count m h' (if r = NULL then out else r :: out) (max peak (if r = NULL then out else r :: out).length)
  | free {h h' : Heap} {out : List Nat} {p peak : Nat} {r : Int} (hrun : PeakRuns esize count m h out peak) (hp : p ∈ out)
      (hcall : h.managerFree m p = some (h', r)) : PeakRuns esize count m h' (out.erase p) peak

/-! ### Adding a pool -/

/-- The first available pool has a free element. -/
theorem Managed.free_cons (M : Managed esize count m g h) (hcount : 1 ≤ count) (hav : g.avail = e :: av) :
    ∃ x fl, g.free e = x :: fl := by
  have hmem : e ∈ g.avail := by simp [hav]
  refine List.exists_cons_of_ne_nil (((M.avail e (M.listed.subset hmem)).mp hmem).resolve_right ?_)
  exact Nat.ne_of_gt hcount

/-- Without an available pool no element is free. -/
theorem Managed.freeCount_eq_zero (M : Managed esize count m g h) (hav : g.avail = []) : freeCount g = 0 := by
  refine List.sum_eq_zero_iff_forall_eq_nat.mpr fun n hn => ?_
  obtain ⟨a, ha, rfl⟩ := List.mem_map.mp hn
  rw [List.length_eq_zero_iff]
  by_contra hfree
  have hmem := (M.avail a ha).mpr (Or.inl hfree)
  rw [hav] at hmem
  cases hmem

/-- An element of an available pool is handed out, and the pools stay what they were. -/
theorem Managed.take_pools (M : Managed esize count m g h) (O : Outstanding esize count g out) (hcount : 1 ≤ count)
    (hav : g.avail = e :: av) (hsize : size ≤ esize) :
    ∃ h' r g', h.managerTake m (linkOf e) size = (h', r) ∧ Managed esize count m g' h' ∧ g'.pools = g.pools ∧ r ≠ NULL ∧
      Outstanding esize count g' (r :: out) := by
  have he : e ∈ g.pools := M.listed.subset (by simp [hav])
  have P := M.pools.pool e he
  obtain ⟨x, fl, hfree⟩ := M.free_cons hcount hav
  obtain ⟨h', hrun, M'⟩ := M.take hav hfree hsize
  rw [hfree] at P
  obtain ⟨-, O'⟩ := O.take M.pools.laid he hfree (P.subset (by simp)) P.nodup
  exact ⟨h', _, _, hrun, M', rfl, Nat.ne_of_gt (Nat.add_pos_right _ (by decide)), O'⟩

/-- `qp_manager_alloc` adds a pool only when every element is outstanding, and then hands out one of its elements. -/
theorem Managed.managerAlloc_pools (M : Managed esize count m g h) (O : Outstanding esize count g out) (hcount : 1 ≤ count)
    (hlt : (esize + sizeofPoolElm) * count < 2 ^ 64) {elm? room? : Nat}
    (hcall : h.managerAlloc elm? room? m size = some (h', r)) :
    ∃ g', Managed esize count m g' h' ∧ Outstanding esize count g' (if r = NULL then out else r :: out) ∧
      (g'.pools.length = g.pools.length ∨ freeCount g = 0 ∧ r ≠ NULL ∧ g'.pools.length = g.pools.length + 1) := by
  by_cases hsize : esize < size
  · rw [M.managerAlloc_big hsize] at hcall
    cases hcall
    exact ⟨g, M, by rwa [if_pos rfl], Or.inl rfl⟩
  have hsize' : size ≤ esize := Nat.le_of_not_lt hsize
  cases hav : g.avail with
  | nil =>
    rw [M.managerAlloc_grow hsize' hav] at hcall
    by_cases hmem : h.Fresh (elmBlock elm?) ∧
        Heap.Fresh { h with live := elmBlock elm? :: h.live } (roomBlock esize count room?)
    · obtain ⟨h₁, hgrow, M₁⟩ := M.grow_some hlt hmem.1 hmem.2
      have hlink := M₁.pools.laid.link_ne_null (e := elm?) (by simp [Slabs.add])
      have O₁ : Outstanding esize count (g.add esize count elm? room?) out := O.add (M.pools.notMem_of_fresh hmem.1)
      obtain ⟨h₂, r₂, g', hrun, M', hpools, hr, O'⟩ :=
        M₁.take_pools O₁ hcount (show (g.add esize count elm? room?).avail = elm? :: g.avail from rfl) hsize'
      simp only [hgrow, Option.bind_some, if_neg hlink, hrun, Option.some.injEq, Prod.mk.injEq] at hcall
      obtain ⟨rfl, rfl⟩ := hcall
      exact ⟨g', M', by rwa [if_neg hr], Or.inr ⟨M.freeCount_eq_zero hav, hr, by rw [hpools]; rfl⟩⟩
    · obtain ⟨h₁, hgrow, M₁⟩ := M.grow_none hlt hmem
      simp only [hgrow, Option.bind_some, if_pos, Option.some.injEq, Prod.mk.injEq] at hcall
      obtain ⟨rfl, rfl⟩ := hcall
      exact ⟨g, M₁, by rwa [if_pos rfl], Or.inl rfl⟩
  | cons e av =>
    obtain ⟨h₂, r₂, g', hrun, M', hpools, hr, O'⟩ := M.take_pools O hcount hav hsize'
    rw [M.managerAlloc_take hsize' hav, hrun] at hcall
    cases hcall
    exact ⟨g', M', by rwa [if_neg hr], Or.inl (by rw [hpools])⟩

/-- A call of `qp_manager_alloc` adds a pool only when all elements of all pools are outstanding, and hands out an element. -/
theorem Managed.managerAlloc_adds (M : Managed esize count m g h) (O : Outstanding esize count g out) (hcount : 1 ≤ count)
    (hlt : (esize + sizeofPoolElm) * count < 2 ^ 64) {elm? room? : Nat}
    (hcall : h.managerAlloc elm? room? m size = some (h', r)) :
    (h'.manager m).poolCount = g.pools.length ∨
      out.length = g.pools.length * count ∧ r ≠ NULL ∧ (h'.manager m).poolCount = g.pools.length + 1 := by
  have hout := M.length_out O
  obtain ⟨g', M', -, hpools⟩ := M.managerAlloc_pools O hcount hlt hcall
  rw [M'.pools.poolCount]
  exact hpools.imp_right fun ⟨hfree, hr, hadded⟩ => ⟨by omega, hr, hadded⟩

/-- `qp_manager_free` adds no pool. -/
theorem Managed.managerFree_pools (M : Managed esize count m g h) (O : Outstanding esize count g out) {p : Nat} (hp : p ∈ out)
    {result : Int} (hcall : h.managerFree m p = some (h', result)) :
    ∃ g', Managed esize count m g' h' ∧ Outstanding esize count g' (out.erase p) ∧ g'.pools.length ≤ g.pools.length := by
  obtain ⟨h₁, g', hrun, M', O', hsub, -⟩ := M.managerFree O hp
  obtain ⟨rfl, rfl⟩ := Prod.mk.inj (Option.some.inj (hrun.symm.trans hcall))
  exact ⟨g', M', O', (M'.pools.laid.nodup.subperm hsub).length_le⟩

/-! ### Along a run -/

theorem PeakRuns.managed (hcount : 1 ≤ count) (hlt : (esize + sizeofPoolElm) * count < 2 ^ 64)
    (R : PeakRuns esize count m h out peak) :
    ∃ g, Managed esize count m g h ∧ Outstanding esize count g out ∧ g.pools.length * count < peak + count := by
  induction R with
  | init hgiven hcall hm =>
    refine ⟨.none, managed_init hgiven hcall hm, ⟨List.nodup_nil, by simp [Slabs.none]⟩, ?_⟩
    simp only [Slabs.none, List.length_nil, Nat.zero_mul, Nat.zero_add]
    exact hcount
  | @alloc h h' out elm? room? size r peak _ hcall ih =>
    obtain ⟨g, M, O, hle⟩ := ih
    obtain ⟨g', M', O', hpools⟩ := M.managerAlloc_pools O hcount hlt hcall
    refine ⟨g', M', O', ?_⟩
    rcases hpools with hpools | ⟨hfree, hr, hpools⟩
    · rw [hpools]
      exact Nat.lt_of_lt_of_le hle (Nat.add_le_add_right (Nat.le_max_left _ _) _)
    · -- All elements were outstanding, and now there is one more.
      have hout := M.length_out O
      have hmax := Nat.le_max_right peak (if r = NULL then out else r :: out).length
      rw [if_neg hr, List.length_cons] at hmax ⊢
      rw [hpools, Nat.succ_mul]
      omega
  | free _ hp hcall ih =>
    obtain ⟨g, M, O, hle⟩ := ih
    obtain ⟨g', M', O', hpools⟩ := M.managerFree_pools O hp hcall
    exact ⟨g', M', O', Nat.lt_of_le_of_lt (Nat.mul_le_mul_right _ hpools) hle⟩

/-- In every run the pools of the manager are enough for the outstanding elements, and no more than the most that were
    outstanding at one time needs; the next call adds one only if all elements of all pools are outstanding. -/
theorem runs_pools_peak (hcount : 1 ≤ count) (hlt : (esize + sizeofPoolElm) * count < 2 ^ 64)
    (R : PeakRuns esize count m h out peak) :
    ∃ pools, DRing h.qnext h.qprev m pools ∧ (m :: pools).Nodup ∧ (h.manager m).poolCount = pools.length ∧
      out.length ≤ pools.length * count ∧ pools.length ≤ (peak + count - 1) / count ∧
      (∀ elm? room? size h' r, h.managerAlloc elm? room? m size = some (h', r) → (h'.manager m).poolCount = pools.length ∨
        out.length = pools.length * count ∧ r ≠ NULL ∧ (h'.manager m).poolCount = pools.length + 1) ∧
      ∀ p ∈ out, ∀ h' r, h.managerFree m p = some (h', r) → (h'.manager m).poolCount ≤ pools.length := by
  obtain ⟨g, M, O, hle⟩ := R.managed hcount hlt
  have hout := M.length_out O
  refine ⟨g.pools, M.pools.queue, M.pools.laid.nodup_cons, M.pools.poolCount, by omega, ?_, ?_, ?_⟩
  · rw [Nat.le_div_iff_mul_le hcount]
    omega
  · exact fun elm? room? size h' r hcall => M.managerAlloc_adds O hcount hlt hcall
  · intro p hp h' r hcall
    obtain ⟨g', M', -, hpools⟩ := M.managerFree_pools O hp hcall
    rw [M'.pools.poolCount]
    exact hpools

/-- Two elements are outstanding, and before that there were three. -/
theorem runs_pools_peak_three : ∃ h pools, PeakRuns 8 2 1000 h [5040, 3040] 3 ∧ DRing h.qnext h.qprev 1000 pools ∧
    (h.manager 1000).poolCount = pools.length ∧ pools.length ≤ 2 := by
  obtain ⟨h₁, h₂, h₃, h₄, hcall₁, hcall₂, hcall₃, hcall₄⟩ := madeHeap_calls
  have hcall₀ : bareHeap.managerInit NULL 1000 8 2 = (madeHeap 8 2, 1000) := rfl
  have hinit : PeakRuns 8 2 1000 (madeHeap 8 2) [] 0 := .init (fun _ => ⟨List.mem_singleton.mpr rfl, by decide⟩) hcall₀ (by decide)
  have hrun : PeakRuns 8 2 1000 h₃ [5040, 3016, 3040] 3 := .alloc (.alloc (.alloc hinit hcall₁) hcall₂) hcall₃
  have hlast : PeakRuns 8 2 1000 h₄ [5040, 3040] 3 := .free hrun (by simp) hcall₄
  obtain ⟨pools, hqueue, -, hpoolCount, -, hle, -⟩ := runs_pools_peak (by decide) (by decide) hlast
  exact ⟨h₄, pools, hlast, hqueue, hpoolCount, hle⟩

end QPHi
