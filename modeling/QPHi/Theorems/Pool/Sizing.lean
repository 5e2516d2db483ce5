import QPHi.Theorems.Pool.Run

/-! The room that `qp_pool_init` asks for, whose size is a product of a sum in `size_t`, and the elements that its loop
    and `qp_pool_to_array` find in it. -/

namespace QPHi
open Chain

variable {h h' : Heap} {elmsize count pool pool' room at? room? : Nat}

/-! ### What `qp_pool_init` leaves for any sizes -/

def roomOf (h : Heap) (pool : Nat) : Nat := (h.pool pool).room

/-- Where the loop of `qp_pool_init` puts the header of element `i`. -/
def headerOf (room elmsize i : Nat) : Nat := addWord room (mulWord i (addWord elmsize sizeofPoolElm))

/-- The size that `qp_pool_init` asks for. -/
def requestOf (elmsize count : Nat) : Nat := mulWord (addWord elmsize sizeofPoolElm) count

/-- A pool with the sizes that were asked for, in a room that was granted, all of whose headers name the pool. -/
structure Filled (h : Heap) (pool elmsize count : Nat) : Prop where
  pool_ne : pool ≠ NULL
  inited : (h.pool pool).isInited = true
  esize : (h.pool pool).esize = elmsize
  room_lt : roomOf h pool + max (requestOf elmsize count) 1 < 2 ^ 64
  root : ∀ i < count, h.root (headerOf (roomOf h pool) elmsize i) = pool

theorem poolFill_root (pool room bucket n i : Nat) (h : Heap) :
    (Heap.poolFill pool room bucket n (mulWord i bucket) h).pool = h.pool ∧
      (∀ a, h.root a = pool → (Heap.poolFill pool room bucket n (mulWord i bucket) h).root a = pool) ∧
      ∀ j < n, (Heap.poolFill pool room bucket n (mulWord i bucket) h).root (addWord room (mulWord (i + j) bucket)) = pool := by
  induction n generalizing i h with
  | zero => exact ⟨rfl, fun _ ha => ha, fun j hj => absurd hj (Nat.not_lt_zero j)⟩
  | succ n ih =>
    have hnext : addWord (mulWord i bucket) bucket = mulWord (i + 1) bucket := by
      rw [addWord, mulWord, mulWord, Nat.mod_add_mod, Nat.succ_mul]
    obtain ⟨e, he⟩ : ∃ e, e = addWord room (mulWord i bucket) := ⟨_, rfl⟩
    have hpush : ∀ h₁ : Heap, (h₁.listPush pool e).pool = h₁.pool ∧ (h₁.listPush pool e).root = h₁.root := by
      intro h₁
      unfold Heap.listPush
      split
      · exact ⟨rfl, rfl⟩
      · exact ⟨rfl, rfl⟩
    simp only [Heap.poolFill, hnext, ← he]
    obtain ⟨hpool, hkeep, hnew⟩ := ih (i + 1) (Heap.listPush { h with root := Function.update h.root e pool } pool e)
    refine ⟨hpool.trans (hpush _).1, fun a ha => hkeep a ?_, fun j hj => ?_⟩
    · rw [(hpush _).2]
      by_cases hae : a = e
      · rw [hae]
        exact Function.update_self _ _ _
      · exact (Function.update_of_ne hae _ _).trans ha
    · cases j with
      | zero =>
        have hself : addWord room (mulWord (i + 0) bucket) = e := he.symm
        rw [hself]
        refine hkeep e ?_
        rw [(hpush _).2]
        exact Function.update_self _ _ _
      | succ j =>
        have hj' := hnew j (Nat.lt_of_succ_lt_succ hj)
        rwa [Nat.add_assoc, Nat.add_comm 1 j] at hj'

theorem poolCreate_inited (h : Heap) (at? pool : Nat) (hpool : (h.poolCreate at? pool).2 ≠ NULL) :
    ((h.poolCreate at? pool).1.pool (h.poolCreate at? pool).2).isInited = true := by
  have hinit : ∀ (h₁ : Heap) (p : Ptr) (alloced : Bool),
      (((h₁.setPool p fun _ => ⟨NULL, 0, 0, 0, true, alloced⟩).listInit p).pool p).isInited = true := by
    intro h₁ p alloced
    have hself : (h₁.setPool p fun _ => ⟨NULL, 0, 0, 0, true, alloced⟩).pool p = ⟨NULL, 0, 0, 0, true, alloced⟩ :=
      Function.update_self _ _ _
    unfold Heap.listInit
    split
    · rw [hself]
    · rw [hself]
  unfold Heap.poolCreate at hpool ⊢
  split
  · rename_i hnull
    rw [if_pos hnull] at hpool
    by_cases halloc : (h.alloc at? sizeofPool).2 = NULL
    · simp only [if_pos halloc] at hpool
      exact absurd rfl hpool
    · simp only [if_neg halloc]
      exact hinit _ _ _
  · exact hinit _ _ _

theorem poolInit_filled (hcall : h.poolInit at? room? pool elmsize count = some (h', pool')) (hpool : pool' ≠ NULL) :
    Filled h' pool' elmsize count := by
  have hinited := poolCreate_inited h at? pool
  simp only [Heap.poolInit] at hcall
  generalize h.poolCreate at? pool = created at hcall hinited
  obtain ⟨h₁, p⟩ := created
  by_cases hp : p = NULL
  · simp only [if_pos hp, Option.some.injEq, Prod.mk.injEq] at hcall
    exact absurd hcall.2.symm hpool
  simp only [if_neg hp] at hcall
  obtain ⟨h₂, hh₂⟩ : ∃ h₂, h₂ = h₁.setPool p fun q => { q with esize := elmsize, nsize := count, nfree := count } := ⟨_, rfl⟩
  have hp₂ : (h₂.pool p).isInited = true ∧ (h₂.pool p).esize = elmsize := by
    rw [hh₂]
    simp only [Heap.setPool, Function.update_self]
    exact ⟨hinited hp, trivial⟩
  rw [← hh₂] at hcall
  by_cases hfresh : h₂.Fresh (room?, max (requestOf elmsize count) 1)
  · have halloc := alloc_of_fresh hfresh (show max (mulWord (addWord elmsize sizeofPoolElm) count) 1 = _ from rfl)
    have hroom : room? ≠ NULL := hfresh.1
    simp only [halloc, if_neg hroom, Option.some.injEq, Prod.mk.injEq] at hcall
    obtain ⟨rfl, rfl⟩ := hcall
    have hzero : mulWord 0 (addWord elmsize sizeofPoolElm) = 0 := by simp [mulWord]
    obtain ⟨h₃, hh₃⟩ : ∃ h₃, h₃ = Heap.setPool { h₂ with live := (room?, max (requestOf elmsize count) 1) :: h₂.live } p
        fun q => { q with room := room? } := ⟨_, rfl⟩
    have hp₃ : (h₃.pool p).isInited = true ∧ (h₃.pool p).esize = elmsize ∧ (h₃.pool p).room = room? := by
      rw [hh₃]
      simp only [Heap.setPool, Function.update_self]
      exact ⟨hp₂.1, hp₂.2, trivial⟩
    obtain ⟨hpools, -, hroot⟩ := poolFill_root p room? (addWord elmsize sizeofPoolElm) count 0 h₃
    rw [hzero] at hpools hroot
    rw [← hh₃]
    refine ⟨hp, ?_, ?_, ?_, fun i hi => ?_⟩
    · rw [hpools]
      exact hp₃.1
    · rw [hpools]
      exact hp₃.2.1
    · rw [roomOf, hpools, hp₃.2.2]
      exact hfresh.2.1
    · have hi' := hroot i hi
      rw [Nat.zero_add] at hi'
      rw [roomOf, hpools, hp₃.2.2]
      exact hi'
  · have halloc := alloc_of_not_fresh hfresh (show max (mulWord (addWord elmsize sizeofPoolElm) count) 1 = _ from rfl)
    simp only [halloc, if_true, Option.bind_eq_bind, Option.bind_eq_some_iff] at hcall
    obtain ⟨_, -, hcall⟩ := hcall
    exact absurd (Prod.mk.inj (Option.some.inj hcall)).2.symm hpool

/-! ### The elements in the room -/

/-- The header in front of what `qp_pool_to_array` answers. -/
def arrayHeader (h : Heap) (pool i : Nat) : Nat := Heap.poolBelongTo (h.poolToArray pool i)

/-- The headers in front of what `qp_pool_to_array` answers are those of the loop, header and payload of every element lie
    in the block that was asked for, and no two elements overlap. -/
structure Sized (h : Heap) (pool elmsize count : Nat) : Prop where
  header : ∀ i < count, h.root (arrayHeader h pool i) = pool
  inside : ∀ i < count, roomOf h pool ≤ arrayHeader h pool i ∧
    arrayHeader h pool i + sizeofPoolElm + elmsize ≤ roomOf h pool + requestOf elmsize count
  apart : ∀ i < count, ∀ j < count, i ≠ j →
    Apart (arrayHeader h pool i, elmsize + sizeofPoolElm) (arrayHeader h pool j, elmsize + sizeofPoolElm)

theorem Filled.arrayHeader (F : Filled h pool elmsize count) (i : Nat) :
    arrayHeader h pool i = headerOf (roomOf h pool) elmsize i := by
  have hback : ∀ a < 2 ^ 64, subWord (addWord a sizeofPoolElm) sizeofPoolElm = a := by
    intro a ha
    simp only [subWord, addWord, sizeofPoolElm]
    omega
  have hgo : pool ≠ NULL ∧ (h.pool pool).isInited = true := ⟨F.pool_ne, F.inited⟩
  rw [QPHi.arrayHeader, Heap.poolToArray, if_pos hgo, F.esize, Heap.poolBelongTo, hback]
  · rfl
  · exact Nat.mod_lt _ (by decide)

/-- As long as nothing overflows, the header of element `i` is at its place in the list of elements. -/
theorem headerOf_eq {i : Nat} (hbucket : elmsize + sizeofPoolElm < 2 ^ 64)
    (hlt : room + i * (elmsize + sizeofPoolElm) < 2 ^ 64) :
    headerOf room elmsize i = room + i * (elmsize + sizeofPoolElm) := by
  rw [headerOf, addWord_of_lt hbucket, mulWord_of_lt (by omega), addWord_of_lt hlt]

/-- If the size of the room overflows, the last element that starts inside of the block goes beyond it. -/
theorem Sized.fits (S : Sized h pool elmsize count) (F : Filled h pool elmsize count) (hcount : count < 2 ^ 64) :
    (elmsize + sizeofPoolElm) * count < 2 ^ 64 := by
  have hroom := F.room_lt
  rcases Nat.eq_zero_or_pos count with rfl | hpos
  · simp
  have hreq : requestOf elmsize count < 2 ^ 64 := Nat.mod_lt _ (by decide)
  have hfirst := (S.inside 0 hpos).2
  have hbucket : elmsize + sizeofPoolElm < 2 ^ 64 := by
    have hlo := (S.inside 0 hpos).1
    omega
  refine Nat.lt_of_not_le fun hover => ?_
  obtain ⟨i, hi⟩ : ∃ i, i = requestOf elmsize count / (elmsize + sizeofPoolElm) := ⟨_, rfl⟩
  have hle : i * (elmsize + sizeofPoolElm) ≤ requestOf elmsize count := hi ▸ Nat.div_mul_le_self _ _
  have hgt : requestOf elmsize count < (i + 1) * (elmsize + sizeofPoolElm) := by
    rw [hi, Nat.add_mul, Nat.one_mul]
    exact Nat.lt_div_mul_add (Nat.add_pos_right _ (by decide))
  have hicount : i < count := by
    refine Nat.lt_of_mul_lt_mul_left (a := elmsize + sizeofPoolElm) ?_
    rw [Nat.mul_comm]
    omega
  have hin := (S.inside i hicount).2
  rw [F.arrayHeader, headerOf_eq hbucket (by omega)] at hin
  rw [Nat.succ_mul] at hgt
  omega

theorem sized_of_fits (F : Filled h pool elmsize count) (hlt : (elmsize + sizeofPoolElm) * count < 2 ^ 64) :
    Sized h pool elmsize count := by
  have hroom := F.room_lt
  obtain ⟨hreq, hbucket⟩ := request_eq hlt
  have hsize : requestOf elmsize count = (elmsize + sizeofPoolElm) * count := by
    rcases Nat.eq_zero_or_pos count with rfl | hpos
    · simp [requestOf, mulWord]
    · rw [requestOf, hbucket hpos, mulWord_of_lt hlt]
  have hmem : ∀ i < count, (i + 1) * (elmsize + sizeofPoolElm) ≤ (elmsize + sizeofPoolElm) * count := by
    intro i hi
    rw [Nat.mul_comm]
    exact Nat.mul_le_mul_left _ hi
  have hheader : ∀ i < count, arrayHeader h pool i = roomOf h pool + i * (elmsize + sizeofPoolElm) := by
    intro i hi
    have hle := hmem i hi
    rw [Nat.succ_mul] at hle
    rw [F.arrayHeader, headerOf_eq (by omega) (by omega)]
  have helement : ∀ i < count, arrayHeader h pool i ∈ elements elmsize count (roomOf h pool) :=
    fun i hi => mem_elements.mpr ⟨i, hi, hheader i hi⟩
  refine ⟨fun i hi => ?_, fun i hi => ?_, fun i hi j hj hne => ?_⟩
  · rw [F.arrayHeader]
    exact F.root i hi
  · have hle := hmem i hi
    rw [Nat.succ_mul] at hle
    rw [hheader i hi, hsize]
    omega
  · refine elements_apart (helement i hi) (helement j hj) fun heq => hne ?_
    rw [hheader i hi, hheader j hj] at heq
    exact Nat.eq_of_mul_eq_mul_right (Nat.add_pos_right elmsize (by decide)) (Nat.add_left_cancel heq)

/-- Every element that `qp_pool_init` and `qp_pool_to_array` lay out is inside the room, and no two of them overlap, if and
    only if the size of the room does not overflow. -/
theorem poolInit_sized_iff (hcount : count < 2 ^ 64)
    (hcall : h.poolInit at? room? pool elmsize count = some (h', pool')) (hpool : pool' ≠ NULL) :
    Sized h' pool' elmsize count ↔ (elmsize + sizeofPoolElm) * count < 2 ^ 64 := by
  have F := poolInit_filled hcall hpool
  exact ⟨fun S => S.fits F hcount, sized_of_fits F⟩

theorem poolInit_returns {h : Heap} {elmsize count : Nat} {pool : Nat}
    (hcall : ((h.poolInit NULL 3000 pool elmsize count).map fun st => st.2) = some pool) :
    ∃ h', h.poolInit NULL 3000 pool elmsize count = some (h', pool) := by
  obtain ⟨⟨h', r⟩, hst, rfl⟩ := Option.map_eq_some_iff.mp hcall
  exact ⟨h', hst⟩

theorem poolInit_sized_iff_four : ∃ h', bareHeap.poolInit NULL 3000 1000 8 4 = some (h', 1000) ∧ Sized h' 1000 8 4 := by
  obtain ⟨h', hcall⟩ := poolInit_returns (show ((bareHeap.poolInit NULL 3000 1000 8 4).map fun st => st.2) = some 1000 by
    decide +kernel)
  exact ⟨h', hcall, (poolInit_sized_iff (by decide) hcall (by decide)).mpr (by decide)⟩

/-- The stride of elements of 2^64 - 16 bytes is 0: three of them are put at the beginning of a room of no bytes. -/
theorem poolInit_not_sized :
    ∃ h', bareHeap.poolInit NULL 3000 1000 (2 ^ 64 - 16) 3 = some (h', 1000) ∧ ¬Sized h' 1000 (2 ^ 64 - 16) 3 := by
  obtain ⟨h', hcall⟩ := poolInit_returns
    (show ((bareHeap.poolInit NULL 3000 1000 (2 ^ 64 - 16) 3).map fun st => st.2) = some 1000 by decide +kernel)
  refine ⟨h', hcall, fun S => ?_⟩
  obtain ⟨hlo, hhi⟩ := S.inside 0 (by decide)
  have hrequest : requestOf (2 ^ 64 - 16) 3 = 0 := by decide
  rw [hrequest] at hhi
  omega

end QPHi
