import QPHi.Theorems.Pool.Run

/-! When `qp_manager_alloc` returns `NULL`, and what it leaves behind then. -/

namespace QPHi
open Chain

variable {h h' : Heap} {esize count size m e elm? room? r : Nat} {out : List Nat} {g : Slabs}

/-- No pool is available, and one of the two blocks for a new one is not granted. -/
def Refused (h : Heap) (m elm? room? : Nat) : Prop :=
  h.listFirst (addWord m offsetofAvailable) = NULL ∧
    ((h.alloc elm? sizeofManagerElm).2 = NULL ∨
      ((h.alloc elm? sizeofManagerElm).1.alloc room?
        (mulWord (addWord (h.manager m).esize sizeofPoolElm) (h.manager m).ecount)).2 = NULL)

/-- The queue of pools, the list of available pools and the counters are the same. -/
structure Unchanged (m : Nat) (h h' : Heap) : Prop where
  queue : ∃ pools, (m :: pools).Nodup ∧ DRing h.qnext h.qprev m pools ∧ DRing h'.qnext h'.qprev m pools
  available : ∃ links, (availableOf m :: links).Nodup ∧ Ring h.next (availableOf m) links ∧ Ring h'.next (availableOf m) links
  poolCount : (h'.manager m).poolCount = (h.manager m).poolCount
  nfree : (h'.manager m).nfree = (h.manager m).nfree

/-- `qp_manager_alloc` returns `NULL` if and only if the elements are too small or a block is not granted, and then nothing
    has changed. -/
def FailsForReason (esize m : Nat) (h : Heap) : Prop := ∀ elm? room? size, ∃ h' r,
  h.managerAlloc elm? room? m size = some (h', r) ∧ (r = NULL ↔ size > esize ∨ Refused h m elm? room?) ∧
    (r = NULL → Unchanged m h h')

theorem Managed.unchanged (M : Managed esize count m g h) (M' : Managed esize count m g h') : Unchanged m h h' := by
  have L := M.pools.laid
  refine ⟨⟨g.pools, ?_, M.pools.queue, M'.pools.queue⟩, ⟨g.avail.map linkOf, ?_, M.listed.ring, M'.listed.ring⟩, ?_, ?_⟩
  · exact L.nodup_cons
  · exact List.nodup_cons.mpr ⟨M.listed.available_notMem L, M.listed.nodup.map fun a b hab => Nat.add_right_cancel hab⟩
  · rw [M'.pools.poolCount, M.pools.poolCount]
  · rw [M'.nfree, M.nfree]

theorem alloc_null_iff {at? n : Nat} : (h.alloc at? n).2 = NULL ↔ ¬h.Fresh (at?, max n 1) := by
  by_cases hfresh : h.Fresh (at?, max n 1)
  · rw [alloc_of_fresh hfresh rfl]
    exact iff_of_false hfresh.1 (not_not.mpr hfresh)
  · rw [alloc_of_not_fresh hfresh rfl]
    exact iff_of_true rfl hfresh

theorem Managed.refused_iff (M : Managed esize count m g h) (hlt : (esize + sizeofPoolElm) * count < 2 ^ 64) :
    Refused h m elm? room? ↔ g.avail = [] ∧ ¬(h.Fresh (elmBlock elm?) ∧
      Heap.Fresh { h with live := elmBlock elm? :: h.live } (roomBlock esize count room?)) := by
  have L := M.pools.laid
  have hfirst : h.listFirst (addWord m offsetofAvailable) = NULL ↔ g.avail = [] := by
    rw [L.addWord_available, M.listed.listFirst_available L]
    cases hav : g.avail with
    | nil => exact iff_of_true rfl rfl
    | cons e av =>
      exact iff_of_false (L.link_ne_null (M.listed.subset (by rw [hav]; exact List.mem_cons_self))) (List.cons_ne_nil e av)
  obtain ⟨hreq, -⟩ := request_eq hlt
  rw [Refused, hfirst, M.pools.esize, M.pools.ecount, alloc_null_iff, alloc_null_iff, hreq, not_and_or]
  refine and_congr_right fun _ => ?_
  by_cases helm : h.Fresh (elmBlock elm?)
  · rw [alloc_of_fresh (n := sizeofManagerElm) helm rfl]
    exact Iff.rfl
  · exact iff_of_true (.inl helm) (.inl helm)

/-- Without elements in a pool nothing is handed out. -/
theorem Managed.managerAlloc_zero (M : Managed esize 0 m g h) (elm? room? size : Nat) :
    ∃ h', h.managerAlloc elm? room? m size = some (h', NULL) := by
  by_cases hsize : esize < size
  · exact ⟨h, M.managerAlloc_big hsize elm? room?⟩
  have hsize' : size ≤ esize := Nat.le_of_not_lt hsize
  have htake : ∀ {h₁ : Heap} {g₁ : Slabs} {e : Nat}, Managed esize 0 m g₁ h₁ → e ∈ g₁.pools →
      h₁.managerTake m (linkOf e) size = (h₁, NULL) := by
    intro h₁ g₁ e M₁ he
    refine M₁.take_none he ?_ size
    exact List.eq_nil_of_length_eq_zero (Nat.le_zero.mp (M₁.pools.pool e he).length_le)
  cases hav : g.avail with
  | nil =>
    rw [M.managerAlloc_grow hsize' hav]
    by_cases hmem : h.Fresh (elmBlock elm?) ∧
        Heap.Fresh { h with live := elmBlock elm? :: h.live } (roomBlock esize 0 room?)
    · obtain ⟨h₁, hgrow, M₁⟩ := M.grow_some (Nat.lt_of_le_of_lt (Nat.le_of_eq (Nat.mul_zero _)) (by decide)) hmem.1 hmem.2
      have he : elm? ∈ (g.add esize 0 elm? room?).pools := List.mem_cons_self
      refine ⟨h₁, ?_⟩
      simp only [hgrow, Option.bind_some, if_neg (M₁.pools.laid.link_ne_null he), htake M₁ he]
    · obtain ⟨h₁, hgrow, -⟩ := M.grow_none (Nat.lt_of_le_of_lt (Nat.le_of_eq (Nat.mul_zero _)) (by decide)) hmem
      exact ⟨h₁, by simp [hgrow]⟩
  | cons e av =>
    rw [M.managerAlloc_take hsize' hav, htake M (M.listed.subset (by rw [hav]; exact List.mem_cons_self))]
    exact ⟨h, rfl⟩

theorem Managed.failsForReason (M : Managed esize count m g h) (hlt : (esize + sizeofPoolElm) * count < 2 ^ 64)
    (hcount : 1 ≤ count) : FailsForReason esize m h := by
  intro elm? room? size
  have L := M.pools.laid
  by_cases hsize : size > esize
  · exact ⟨h, NULL, M.managerAlloc_big hsize elm? room?, iff_of_true rfl (.inl hsize), fun _ => M.unchanged M⟩
  have hsize' : size ≤ esize := Nat.le_of_not_lt hsize
  have htake : ∀ {h₁ : Heap} {g₁ : Slabs} {e : Nat} {av : List Nat}, Managed esize count m g₁ h₁ → g₁.avail = e :: av →
      ∃ h' r, h₁.managerTake m (linkOf e) size = (h', r) ∧ r ≠ NULL := by
    intro h₁ g₁ e av M₁ hav
    have he : e ∈ g₁.pools := M₁.listed.subset (by rw [hav]; exact List.mem_cons_self)
    -- An available pool has a free element.
    have hfree : g₁.free e ≠ [] :=
      ((M₁.avail e he).mp (by rw [hav]; exact List.mem_cons_self)).resolve_right (Nat.ne_of_gt hcount)
    obtain ⟨x, fl, hfree⟩ := List.exists_cons_of_ne_nil hfree
    obtain ⟨h', hrun, -⟩ := M₁.take hav hfree hsize'
    exact ⟨h', _, hrun, Nat.ne_of_gt (Nat.add_pos_right _ (by decide))⟩
  cases hav : g.avail with
  | nil =>
    rw [M.managerAlloc_grow hsize' hav, M.refused_iff hlt]
    by_cases hmem : h.Fresh (elmBlock elm?) ∧
        Heap.Fresh { h with live := elmBlock elm? :: h.live } (roomBlock esize count room?)
    · obtain ⟨h₁, hgrow, M₁⟩ := M.grow_some hlt hmem.1 hmem.2
      obtain ⟨h', r, hrun, hr⟩ := htake M₁ (show (g.add esize count elm? room?).avail = elm? :: g.avail from rfl)
      have hlink := M₁.pools.laid.link_ne_null (show elm? ∈ (g.add esize count elm? room?).pools from List.mem_cons_self)
      refine ⟨h', r, ?_, iff_of_false hr ?_, fun hnull => absurd hnull hr⟩
      · simp only [hgrow, Option.bind_some, if_neg hlink, hrun]
      · rintro (hbig | hrefused)
        · exact hsize hbig
        · exact hrefused.2 hmem
    · obtain ⟨h₁, hgrow, M₁⟩ := M.grow_none hlt hmem
      exact ⟨h₁, NULL, by simp [hgrow], iff_of_true rfl (.inr ⟨hav, hmem⟩), fun _ => M.unchanged M₁⟩
  | cons e av =>
    obtain ⟨h', r, hrun, hr⟩ := htake M hav
    rw [M.managerAlloc_take hsize' hav, hrun, M.refused_iff hlt, hav]
    refine ⟨h', r, rfl, iff_of_false hr ?_, fun hnull => absurd hnull hr⟩
    rintro (hbig | hrefused)
    · exact hsize hbig
    · cases hrefused.1

/-! ### Runs -/

/-- A manager without elements in its pools fails although every block is granted. -/
theorem madeHeap_not_failsForReason (esize : Nat) : ¬FailsForReason esize 1000 (madeHeap esize 0) := by
  intro F
  obtain ⟨g, M, -⟩ := (madeHeap_runs esize 0).managed (by simp)
  obtain ⟨h', r, hcall, hnull, -⟩ := F 2000 3000 0
  obtain ⟨h'', hcall'⟩ := M.managerAlloc_zero 2000 3000 0
  obtain ⟨-, rfl⟩ := Prod.mk.inj (Option.some.inj (hcall.symm.trans hcall'))
  rcases hnull.mp rfl with hbig | hrefused
  · exact absurd hbig (Nat.not_lt_zero esize)
  · refine ((M.refused_iff (by simp)).mp hrefused).2 ⟨?_, ?_⟩
    · exact (by decide : Heap.Fresh bareHeap (2000, 88))
    · rw [roomBlock, roomSize, Nat.mul_zero]
      exact (by decide : Heap.Fresh { bareHeap with live := (2000, 88) :: bareHeap.live } (3000, 1))

/-- In every run `qp_manager_alloc` fails for a reason only, and leaves no trace when it fails, if and only if a pool has
    an element, as long as the size of a room does not overflow. -/
theorem runs_failsForReason_iff (hlt : (esize + sizeofPoolElm) * count < 2 ^ 64) :
    (∀ m h out, Runs esize count m h out → FailsForReason esize m h) ↔ 1 ≤ count := by
  constructor
  · intro hall
    rcases Nat.eq_zero_or_pos count with rfl | hpos
    · exact absurd (hall 1000 _ [] (madeHeap_runs esize 0)) (madeHeap_not_failsForReason esize)
    · exact hpos
  · intro hcount m h out R
    obtain ⟨g, M, -⟩ := R.managed hlt
    exact M.failsForReason hlt hcount

theorem runs_failsForReason_iff_first : Runs 4096 1 1000 (madeHeap 4096 1) [] ∧ FailsForReason 4096 1000 (madeHeap 4096 1) :=
  ⟨madeHeap_runs 4096 1, (runs_failsForReason_iff (by decide)).mpr (by decide) 1000 _ [] (madeHeap_runs 4096 1)⟩

/-- The caches of an event for one source. -/
theorem runs_not_failsForReason : ∃ h', Runs 4096 0 1000 (madeHeap 4096 0) [] ∧
    (madeHeap 4096 0).managerAlloc 2000 3000 1000 4096 = some (h', NULL) ∧ ¬Refused (madeHeap 4096 0) 1000 2000 3000 ∧
    ((madeHeap 4096 0).manager 1000).poolCount = 0 ∧ (h'.manager 1000).poolCount = 1 := by
  have hcall : (((madeHeap 4096 0).managerAlloc 2000 3000 1000 4096).map fun st => (st.2, (st.1.manager 1000).poolCount)) =
      some (NULL, 1) := by decide +kernel
  obtain ⟨⟨h', r⟩, hst, heq⟩ := Option.map_eq_some_iff.mp hcall
  obtain ⟨rfl, hone⟩ := Prod.mk.inj heq
  refine ⟨h', madeHeap_runs 4096 0, hst, ?_, rfl, hone⟩
  rintro ⟨-, helm | hroom⟩
  · exact absurd helm (by decide)
  · exact absurd hroom (by decide)

end QPHi
