import Mathlib.Data.List.Perm.Subperm
import Mathlib.Data.List.Range
import QPHi.Lib.Chain
import QPHi.Pool

/-! One pool: its elements, its free list, and what the operations of a pool do to them. -/

namespace QPHi
open Chain

variable {h h' : Heap} {esize count size pool room e x : Nat} {fl : List Nat}

/-! ### Word arithmetic without overflow -/

theorem addWord_of_lt {a b : Nat} (h : a + b < 2 ^ 64) : addWord a b = a + b := Nat.mod_eq_of_lt h

theorem subWord_of_le {a b : Nat} (ha : a < 2 ^ 64) (h : b ≤ a) : subWord a b = a - b := by
  have : a + 2 ^ 64 - b = (a - b) + 2 ^ 64 := by omega
  rw [subWord, this, Nat.add_mod_right, Nat.mod_eq_of_lt (by omega)]

theorem mulWord_of_lt {a b : Nat} (h : a * b < 2 ^ 64) : mulWord a b = a * b := Nat.mod_eq_of_lt h

/-! ### Elements -/

/-- The addresses of the elements of a room. -/
def elements (esize count room : Nat) : List Nat := (List.range count).map fun i => room + i * (esize + sizeofPoolElm)

/-- The bytes that the elements take. -/
def roomSize (esize count : Nat) : Nat := max ((esize + sizeofPoolElm) * count) 1

theorem mem_elements : e ∈ elements esize count room ↔ ∃ i < count, e = room + i * (esize + sizeofPoolElm) := by
  simp only [elements, List.mem_map, List.mem_range]
  exact ⟨fun ⟨i, hi, he⟩ => ⟨i, hi, he.symm⟩, fun ⟨i, hi, he⟩ => ⟨i, hi, he.symm⟩⟩

theorem length_elements : (elements esize count room).length = count := by simp [elements]

theorem elements_nodup : (elements esize count room).Nodup := by
  refine List.Nodup.map (fun i j hij => ?_) List.nodup_range
  have hpos : 0 < esize + sizeofPoolElm := Nat.add_pos_right _ (by decide)
  exact Nat.eq_of_mul_eq_mul_right hpos (Nat.add_left_cancel hij)

/-- An element with its header and its bytes lies in the room. -/
theorem element_inside (he : e ∈ elements esize count room) :
    room ≤ e ∧ e + sizeofPoolElm + esize ≤ room + roomSize esize count := by
  obtain ⟨i, hi, rfl⟩ := mem_elements.mp he
  have hmul : (i + 1) * (esize + sizeofPoolElm) ≤ count * (esize + sizeofPoolElm) := Nat.mul_le_mul_right _ hi
  have hmax : (esize + sizeofPoolElm) * count ≤ roomSize esize count := Nat.le_max_left _ _
  rw [Nat.mul_comm count, Nat.succ_mul] at hmul
  omega

/-- Two elements of one room do not overlap. -/
theorem elements_apart (he : e ∈ elements esize count room) (hx : x ∈ elements esize count room) (hne : e ≠ x) :
    Apart (e, esize + sizeofPoolElm) (x, esize + sizeofPoolElm) := by
  obtain ⟨i, hi, rfl⟩ := mem_elements.mp he
  obtain ⟨j, hj, rfl⟩ := mem_elements.mp hx
  rcases Nat.lt_trichotomy i j with hij | rfl | hij
  · have := Nat.mul_le_mul_right (esize + sizeofPoolElm) hij
    rw [Nat.succ_mul] at this
    exact Or.inl (by simp only; omega)
  · exact absurd rfl hne
  · have := Nat.mul_le_mul_right (esize + sizeofPoolElm) hij
    rw [Nat.succ_mul] at this
    exact Or.inr (by simp only; omega)

/-! ### A pool in memory -/

/-- Where the structure of a pool and its room lie. -/
structure Placed (esize count pool room : Nat) : Prop where
  pool_ne : pool ≠ NULL
  room_ne : room ≠ NULL
  room_lt : room + roomSize esize count < 2 ^ 64
  outside : pool ∉ elements esize count room

/-- The pool at `pool` has the free list `fl`. -/
structure PoolHas (esize count pool room : Nat) (fl : List Nat) (h : Heap) : Prop where
  ring : Ring h.next pool fl
  nodup : fl.Nodup
  subset : fl ⊆ elements esize count room
  root : ∀ e ∈ elements esize count room, h.root e = pool
  room : (h.pool pool).room = room
  nsize : (h.pool pool).nsize = count
  esize : (h.pool pool).esize = esize
  nfree : (h.pool pool).nfree = fl.length
  inited : (h.pool pool).isInited = true

/-- What an operation of the pool leaves alone. -/
structure PoolKeeps (esize count pool room : Nat) (h h' : Heap) : Prop where
  next : ∀ a, a ≠ pool → a ∉ elements esize count room → h'.next a = h.next a
  pools : ∀ p, p ≠ pool → h'.pool p = h.pool p
  root : ∀ a, a ∉ elements esize count room → h'.root a = h.root a
  qnext : h'.qnext = h.qnext
  qprev : h'.qprev = h.qprev
  manager : h'.manager = h.manager
  owner : h'.owner = h.owner

/-- What handing out and taking back elements leaves alone. -/
structure PoolSteps (esize count pool room : Nat) (h h' : Heap) : Prop extends PoolKeeps esize count pool room h h' where
  live : h'.live = h.live
  alloced : (h'.pool pool).isAlloced = (h.pool pool).isAlloced

theorem PoolKeeps.trans {h₁ h₂ h₃ : Heap} (K : PoolKeeps esize count pool room h₁ h₂)
    (K' : PoolKeeps esize count pool room h₂ h₃) : PoolKeeps esize count pool room h₁ h₃ where
  next a ha hae := (K'.next a ha hae).trans (K.next a ha hae)
  pools p hp := (K'.pools p hp).trans (K.pools p hp)
  root a ha := (K'.root a ha).trans (K.root a ha)
  qnext := K'.qnext.trans K.qnext
  qprev := K'.qprev.trans K.qprev
  manager := K'.manager.trans K.manager
  owner := K'.owner.trans K.owner

theorem Placed.element_bound (P : Placed esize count pool room) (he : e ∈ elements esize count room) :
    e ≠ NULL ∧ e ≠ pool ∧ e + sizeofPoolElm + esize < 2 ^ 64 := by
  obtain ⟨h₁, h₂⟩ := element_inside he
  have hroom : room ≠ 0 := P.room_ne
  refine ⟨?_, fun heq => P.outside (heq ▸ he), Nat.lt_of_le_of_lt h₂ P.room_lt⟩
  show e ≠ 0
  omega

/-- The element in front of a pointer that was handed out. -/
theorem Placed.belongTo (P : Placed esize count pool room) (he : e ∈ elements esize count room) :
    Heap.poolBelongTo (e + sizeofPoolElm) = e := by
  have hlt := (P.element_bound he).2.2
  rw [Heap.poolBelongTo, subWord_of_le (by omega) (by omega), Nat.add_sub_cancel]

theorem Placed.count_lt (P : Placed esize count pool room) : count < 2 ^ 64 := by
  have hroom := P.room_lt
  have hmax : (esize + sizeofPoolElm) * count ≤ roomSize esize count := Nat.le_max_left _ _
  have hmul : 1 * count ≤ (esize + sizeofPoolElm) * count := Nat.mul_le_mul_right _ (by rw [sizeofPoolElm]; omega)
  omega

namespace PoolHas

/-- A pool is not touched by writes elsewhere. -/
theorem frame (H : PoolHas esize count pool room fl h) (hpool : h'.pool pool = h.pool pool)
    (hnext : ∀ y, y = pool ∨ y ∈ elements esize count room → h'.next y = h.next y)
    (hroot : ∀ e ∈ elements esize count room, h'.root e = h.root e) : PoolHas esize count pool room fl h' := by
  refine ⟨Path.congr H.ring fun y hy => hnext y ?_, H.nodup, H.subset, fun e he => (hroot e he).trans (H.root e he),
    hpool ▸ H.room, hpool ▸ H.nsize, hpool ▸ H.esize, hpool ▸ H.nfree, hpool ▸ H.inited⟩
  exact (List.mem_cons.mp hy).imp_right fun hy => H.subset hy

theorem head_notMem (P : Placed esize count pool room) (H : PoolHas esize count pool room fl h) : pool ∉ fl :=
  fun hm => P.outside (H.subset hm)

theorem length_le (H : PoolHas esize count pool room fl h) : fl.length ≤ count := by
  have hsub := (List.subperm_of_subset H.nodup H.subset).length_le
  rwa [length_elements] at hsub

theorem listFirst_eq (P : Placed esize count pool room) (H : PoolHas esize count pool room fl h) :
    h.listFirst pool = fl.head?.getD NULL := by
  have hnotin := H.head_notMem P
  have hself : h.listIsEmpty pool = decide (fl = []) := by
    rw [Heap.listIsEmpty, if_neg P.pool_ne]
    exact decide_eq_decide.mpr (eq_comm.trans (H.ring.next_eq_self_iff hnotin))
  cases fl with
  | nil => simp [Heap.listFirst, hself]
  | cons y fl => simp [Heap.listFirst, hself, H.ring.next_eq]

/-- A pool without free elements, or with too small ones, hands out nothing. -/
theorem poolAlloc_none (H : PoolHas esize count pool room fl h) (hnone : fl = [] ∨ esize < size) :
    h.poolAlloc pool size = (h, NULL) := by
  have hstop : ¬(size ≤ (h.pool pool).esize ∧ h.poolAvailable pool > 0) := by
    rw [Heap.poolAvailable, H.nfree, H.esize]
    rcases hnone with rfl | hlt
    · simp
    · omega
  rw [Heap.poolAlloc, if_neg hstop]

theorem suits (H : PoolHas esize count pool room (e :: fl) h) (hsize : size ≤ esize) :
    size ≤ (h.pool pool).esize ∧ h.poolAvailable pool > 0 := by
  rw [Heap.poolAvailable, H.nfree, H.esize]
  exact ⟨hsize, Nat.succ_pos _⟩

/-- The first free element is handed out. -/
theorem poolAlloc_some (P : Placed esize count pool room) (H : PoolHas esize count pool room (e :: fl) h)
    (hsize : size ≤ esize) :
    ∃ h', h.poolAlloc pool size = (h', e + sizeofPoolElm) ∧ PoolHas esize count pool room fl h' ∧
      PoolSteps esize count pool room h h' := by
  have hnotin := H.head_notMem P
  have he : e ∈ elements esize count room := H.subset (by simp)
  obtain ⟨he0, hep, hlt⟩ := P.element_bound he
  have hlen := H.length_le
  have hcount := P.count_lt
  have hfirst : h.listFirst pool = e := H.listFirst_eq P
  have hgo : size ≤ (h.pool pool).esize ∧ h.poolAvailable pool > 0 := H.suits hsize
  have hadd : addWord e sizeofPoolElm = e + sizeofPoolElm := addWord_of_lt (by omega)
  have hsub : subWord (e :: fl).length 1 = fl.length := subWord_of_le (by omega) (by simp)
  obtain ⟨hnd₁, hnd₂⟩ := List.nodup_cons.mp H.nodup
  have hring : Ring (Function.update h.next pool (h.next (h.next pool))) pool fl := H.ring.pop hnotin
  refine ⟨{ h with
      next := Function.update (Function.update h.next pool (h.next (h.next pool))) e NULL
      pool := Function.update h.pool pool { h.pool pool with nfree := fl.length } }, ?_, ?_, ?_⟩
  · rw [Heap.poolAlloc, if_pos hgo, hfirst]
    simp only [if_neg he0, Heap.listPop, if_neg P.pool_ne, Heap.setPool, H.nfree, hsub, hadd]
  · refine ⟨Path.update_of_notMem hring ?_, hnd₂, fun y hy => H.subset (List.mem_cons_of_mem e hy), H.root, ?_, ?_, ?_, ?_,
      ?_⟩
    · rw [List.mem_cons, not_or]
      exact ⟨hep, hnd₁⟩
    all_goals simp only [Function.update_self]
    · exact H.room
    · exact H.nsize
    · exact H.esize
    · exact H.inited
  · refine ⟨⟨fun a ha hae => ?_, fun p hp => Function.update_of_ne hp _ _, fun _ _ => rfl, rfl, rfl, rfl, rfl⟩, rfl,
      by simp only [Function.update_self]⟩
    have hne : a ≠ e := fun heq => hae (heq ▸ he)
    simp only [Function.update_of_ne hne, Function.update_of_ne ha]

/-- An element that is not free goes to the front of the free list. -/
theorem poolFree_some (P : Placed esize count pool room) (H : PoolHas esize count pool room fl h)
    (he : e ∈ elements esize count room) (hout : e ∉ fl) :
    ∃ h', h.poolFree pool (e + sizeofPoolElm) = (h', QP_SUCCESS) ∧ PoolHas esize count pool room (e :: fl) h' ∧
      PoolSteps esize count pool room h h' := by
  have hnotin := H.head_notMem P
  obtain ⟨he0, hep, -⟩ := P.element_bound he
  have hcount := P.count_lt
  have hnd : (e :: fl).Nodup := List.nodup_cons.mpr ⟨hout, H.nodup⟩
  have hsubset : e :: fl ⊆ elements esize count room := List.cons_subset.mpr ⟨he, H.subset⟩
  have hlen : (e :: fl).length ≤ count := by
    have hsub := (List.subperm_of_subset hnd hsubset).length_le
    rwa [length_elements] at hsub
  have hbelong : Heap.poolBelongTo (e + sizeofPoolElm) = e := P.belongTo he
  have hadd : addWord fl.length 1 = (e :: fl).length := by
    rw [List.length_cons] at hlen ⊢
    exact addWord_of_lt (by omega)
  refine ⟨{ h with
      next := Function.update (Function.update h.next e (h.next pool)) pool e
      pool := Function.update h.pool pool { h.pool pool with nfree := (e :: fl).length } }, ?_, ?_, ?_⟩
  · have hroot : ¬h.root e ≠ pool := not_not.mpr (H.root e he)
    have hboth : pool ≠ NULL ∧ e ≠ NULL := ⟨P.pool_ne, he0⟩
    simp only [Heap.poolFree, hbelong, if_neg hroot, Heap.listPush, if_pos hboth, Heap.setPool, H.nfree, hadd]
  · refine ⟨H.ring.push hep hout hnotin, hnd, hsubset, H.root, ?_, ?_, ?_, ?_, ?_⟩
    all_goals simp only [Function.update_self]
    · exact H.room
    · exact H.nsize
    · exact H.esize
    · exact H.inited
  · refine ⟨⟨fun a ha hae => ?_, fun p hp => Function.update_of_ne hp _ _, fun _ _ => rfl, rfl, rfl, rfl, rfl⟩, rfl,
      by simp only [Function.update_self]⟩
    have hne : a ≠ e := fun heq => hae (heq ▸ he)
    simp only [Function.update_of_ne ha, Function.update_of_ne hne]

/-- An element that is handed out and taken back leaves no trace. -/
theorem poolFree_poolAlloc (P : Placed esize count pool room) (H : PoolHas esize count pool room (e :: fl) h)
    (hsize : size ≤ esize) : ((h.poolAlloc pool size).1.poolFree pool (e + sizeofPoolElm)).1 = h := by
  have he : e ∈ elements esize count room := H.subset (by simp)
  obtain ⟨he0, hep, -⟩ := P.element_bound he
  have hlen := H.length_le
  have hcount := P.count_lt
  have hfirst : h.listFirst pool = e := H.listFirst_eq P
  have hnext : h.next pool = e := H.ring.next_eq
  have hgo : size ≤ (h.pool pool).esize ∧ h.poolAvailable pool > 0 := H.suits hsize
  have hbelong : Heap.poolBelongTo (e + sizeofPoolElm) = e := P.belongTo he
  have hcounter : addWord (subWord (h.pool pool).nfree 1) 1 = (h.pool pool).nfree := by
    rw [H.nfree, subWord_of_le (by omega) (by simp), addWord_of_lt]
    · simp
    · simp at hlen ⊢
      omega
  have hroot : ¬h.root e ≠ pool := not_not.mpr (H.root e he)
  have hboth : pool ≠ NULL ∧ e ≠ NULL := ⟨P.pool_ne, he0⟩
  rw [Heap.poolAlloc, if_pos hgo, hfirst]
  simp only [if_neg he0, Heap.listPop, if_neg P.pool_ne, Heap.setPool, Heap.poolFree, hbelong, if_neg hroot, Heap.listPush,
    if_pos hboth, Function.update_self, Function.update_idem, hcounter, Function.update_eq_self, hnext]
  -- The two links that were written hold what they held before.
  have hlinks : Function.update (Function.update (Function.update (Function.update h.next pool (h.next e)) e NULL) e
      (Function.update (Function.update h.next pool (h.next e)) e NULL pool)) pool e = h.next := by
    funext a
    by_cases hap : a = pool
    · rw [hap, Function.update_self, hnext]
    · rw [Function.update_of_ne hap]
      by_cases hae : a = e
      · rw [hae, Function.update_self, Function.update_of_ne (Ne.symm hep), Function.update_self]
      · rw [Function.update_of_ne hae, Function.update_of_ne hae, Function.update_of_ne hap]
  rw [Function.update_idem] at hlinks
  rw [hlinks]

end PoolHas

/-! ### Making a pool -/

theorem elements_succ : elements esize (count + 1) room =
    elements esize count room ++ [room + count * (esize + sizeofPoolElm)] := by
  simp [elements, List.range_succ]

theorem elements_mono {i : Nat} (hi : i ≤ count) : elements esize i room ⊆ elements esize count room := by
  intro e he
  obtain ⟨j, hj, rfl⟩ := mem_elements.mp he
  exact mem_elements.mpr ⟨j, Nat.lt_of_lt_of_le hj hi, rfl⟩

/-- The loop of `qp_pool_init` from the element `i` on. -/
theorem poolFill_spec (P : Placed esize count pool room) (n i : Nat) (hi : i + n = count)
    (hring : Ring h.next pool (elements esize i room).reverse) (hroot : ∀ e ∈ elements esize i room, h.root e = pool) :
    ∃ h', Heap.poolFill pool room (esize + sizeofPoolElm) n (i * (esize + sizeofPoolElm)) h = h' ∧
      Ring h'.next pool (elements esize count room).reverse ∧ (∀ e ∈ elements esize count room, h'.root e = pool) ∧
      PoolKeeps esize count pool room h h' ∧ h'.pool = h.pool ∧ h'.live = h.live := by
  induction n generalizing i h with
  | zero =>
    obtain rfl : i = count := hi
    exact ⟨h, rfl, hring, hroot,
      ⟨fun _ _ _ => rfl, fun _ _ => rfl, fun _ _ => rfl, rfl, rfl, rfl, rfl⟩, rfl, rfl⟩
  | succ n ih =>
    obtain ⟨e, hedef⟩ : ∃ e, e = room + i * (esize + sizeofPoolElm) := ⟨_, rfl⟩
    have he : e ∈ elements esize count room := mem_elements.mpr ⟨i, by omega, hedef⟩
    obtain ⟨he0, hep, hlt⟩ := P.element_bound he
    have hlt' : i * (esize + sizeofPoolElm) + (esize + sizeofPoolElm) < 2 ^ 64 := by
      have hroom : 0 ≤ room := Nat.zero_le room
      omega
    have hnew : e ∉ elements esize i room := by
      intro hmem
      obtain ⟨j, hj, hje⟩ := mem_elements.mp hmem
      have hpos : 0 < esize + sizeofPoolElm := Nat.add_pos_right _ (by decide)
      have : i = j := Nat.eq_of_mul_eq_mul_right hpos (Nat.add_left_cancel (hedef.symm.trans hje))
      omega
    have hout : pool ∉ (elements esize i room).reverse := by
      rw [List.mem_reverse]
      exact fun hm => P.outside (elements_mono (by omega) hm)
    obtain ⟨h₁, hh₁⟩ : ∃ h₁, h₁ = { h with
        root := Function.update h.root e pool
        next := Function.update (Function.update h.next e (h.next pool)) pool e } := ⟨_, rfl⟩
    have hring₁ : Ring h₁.next pool (elements esize (i + 1) room).reverse := by
      rw [elements_succ, List.reverse_append, ← hedef, hh₁]
      exact hring.push hep (by rwa [List.mem_reverse]) hout
    have hroot₁ : ∀ x ∈ elements esize (i + 1) room, h₁.root x = pool := by
      intro x hx
      rw [hh₁]
      by_cases hxe : x = e
      · rw [hxe]
        exact Function.update_self _ _ _
      · rw [elements_succ, List.mem_append, List.mem_singleton, ← hedef] at hx
        simp only [Function.update_of_ne hxe]
        exact hroot x (hx.resolve_right hxe)
    obtain ⟨h', hfill, hring', hroot', K, hpool, hlive⟩ := ih (i + 1) (by omega) hring₁ hroot₁
    refine ⟨h', ?_, hring', hroot', PoolKeeps.trans ?_ K, hpool.trans (by rw [hh₁]), hlive.trans (by rw [hh₁])⟩
    · have hadd : addWord room (i * (esize + sizeofPoolElm)) = e := by rw [hedef]; exact addWord_of_lt (by omega)
      have hoff : addWord (i * (esize + sizeofPoolElm)) (esize + sizeofPoolElm) = (i + 1) * (esize + sizeofPoolElm) := by
        rw [addWord_of_lt hlt', Nat.succ_mul]
      have hboth : pool ≠ NULL ∧ e ≠ NULL := ⟨P.pool_ne, he0⟩
      rw [Heap.poolFill, hadd, hoff, Heap.listPush, if_pos hboth, ← hfill, hh₁]
    · rw [hh₁]
      refine ⟨fun a ha hae => ?_, fun _ _ => rfl, fun a hae => ?_, rfl, rfl, rfl, rfl⟩
      · have hne : a ≠ e := fun heq => hae (heq ▸ he)
        simp only [Function.update_of_ne ha, Function.update_of_ne hne]
      · have hne : a ≠ e := fun heq => hae (heq ▸ he)
        exact Function.update_of_ne hne _ _

/-- The size that `qp_pool_init` asks for, when it does not overflow. -/
theorem request_eq (hlt : (esize + sizeofPoolElm) * count < 2 ^ 64) :
    max (mulWord (addWord esize sizeofPoolElm) count) 1 = roomSize esize count ∧
      (0 < count → addWord esize sizeofPoolElm = esize + sizeofPoolElm) := by
  have hbucket : 0 < count → addWord esize sizeofPoolElm = esize + sizeofPoolElm := by
    intro hpos
    refine addWord_of_lt (Nat.lt_of_le_of_lt ?_ hlt)
    exact Nat.le_mul_of_pos_right _ hpos
  refine ⟨?_, hbucket⟩
  rcases Nat.eq_zero_or_pos count with rfl | hpos
  · simp [mulWord, roomSize]
  · rw [hbucket hpos, mulWord_of_lt hlt, roomSize]

theorem alloc_of_fresh {a n : Nat} (hfresh : h.Fresh (a, n)) (hn : max size 1 = n) :
    h.alloc a size = ({ h with live := (a, n) :: h.live }, a) := by
  rw [Heap.alloc, hn, if_pos hfresh]

theorem alloc_of_not_fresh {a n : Nat} (hfresh : ¬h.Fresh (a, n)) (hn : max size 1 = n) :
    h.alloc a size = (h, NULL) := by
  rw [Heap.alloc, hn, if_neg hfresh]

/-- Every element of a fresh room is outside the live blocks. -/
theorem Fresh.placed {b : Block} (hfresh : h.Fresh (room, roomSize esize count)) (hb : b ∈ h.live)
    (hpool : b.1 ≤ pool ∧ pool < b.1 + b.2) (hb0 : b.1 ≠ NULL) : Placed esize count pool room := by
  obtain ⟨hroom, hlt, hapart⟩ := hfresh
  refine ⟨?_, hroom, hlt, fun hm => ?_⟩
  · show pool ≠ 0
    have : b.1 ≠ 0 := hb0
    omega
  · obtain ⟨h₁, h₂⟩ := element_inside hm
    have hheader : sizeofPoolElm = 16 := rfl
    rcases hapart b hb with hap | hap
    · simp only at hap
      omega
    · simp only at hap
      omega

/-- `qp_pool_init` of a structure that `qp_pool_create` has made in the memory `h`, with a room that `malloc` grants. -/
theorem poolInit_made {h₀ : Heap} {at? p : Nat} {alloced : Bool} (hlt : (esize + sizeofPoolElm) * count < 2 ^ 64)
    (P : Placed esize count pool room)
    (hcreate : h₀.poolCreate at? p = ((h.setPool pool fun _ => ⟨NULL, 0, 0, 0, true, alloced⟩).listInit pool, pool))
    (hfresh : h.Fresh (room, roomSize esize count)) :
    ∃ h', h₀.poolInit at? room p esize count = some (h', pool) ∧
      PoolHas esize count pool room (elements esize count room).reverse h' ∧ PoolKeeps esize count pool room h h' ∧
      h'.live = (room, roomSize esize count) :: h.live ∧ (h'.pool pool).isAlloced = alloced := by
  obtain ⟨hreq, hbucket⟩ := request_eq hlt
  obtain ⟨h₁, hh₁⟩ : ∃ h₁, h₁ = { h with
      pool := Function.update h.pool pool ⟨room, count, esize, count, true, alloced⟩
      next := Function.update h.next pool pool
      live := (room, roomSize esize count) :: h.live } := ⟨_, rfl⟩
  obtain ⟨h', hfill, hring, hroot, K, hpools, hlive⟩ := poolFill_spec (h := h₁) P count 0 (Nat.zero_add count)
    (by rw [hh₁]; exact Function.update_self _ _ _) (by intro e he; simp [elements] at he)
  have hself : h'.pool pool = ⟨room, count, esize, count, true, alloced⟩ := by
    rw [hpools, hh₁]
    exact Function.update_self _ _ _
  refine ⟨h', ?_, ⟨hring, List.nodup_reverse.mpr elements_nodup, fun e he => List.mem_reverse.mp he, hroot, ?_, ?_, ?_, ?_,
    ?_⟩, PoolKeeps.trans ?_ K, hlive.trans (by rw [hh₁]), by rw [hself]⟩
  · have hfill' : Heap.poolFill pool room (addWord esize sizeofPoolElm) count 0 h₁ = h' := by
      rw [← hfill, Nat.zero_mul]
      rcases Nat.eq_zero_or_pos count with rfl | hpos
      · rfl
      · rw [hbucket hpos]
    simp only [Heap.poolInit, hcreate, if_neg P.pool_ne]
    rw [alloc_of_fresh (n := roomSize esize count) (by simpa [Heap.Fresh, Heap.setPool, Heap.listInit, P.pool_ne] using hfresh) hreq]
    simp only [if_neg P.room_ne, ← hfill', hh₁, Heap.setPool, Heap.listInit, if_neg P.pool_ne, Function.update_idem,
      Function.update_self]
  · rw [hself]
  · rw [hself]
  · rw [hself]
  · rw [hself, List.length_reverse, length_elements]
  · rw [hself]
  · rw [hh₁]
    refine ⟨fun a ha _ => Function.update_of_ne ha _ _, fun p hp => Function.update_of_ne hp _ _, fun _ _ => rfl, rfl, rfl,
      rfl, rfl⟩

/-- `qp_pool_init` in a structure of the caller, with a room that `malloc` grants. -/
theorem poolInit_some {b : Block} (hlt : (esize + sizeofPoolElm) * count < 2 ^ 64)
    (hfresh : h.Fresh (room, roomSize esize count)) (hb : b ∈ h.live) (hpool : b.1 ≤ pool ∧ pool < b.1 + b.2)
    (hb0 : b.1 ≠ NULL) :
    ∃ h', h.poolInit NULL room pool esize count = some (h', pool) ∧
      PoolHas esize count pool room (elements esize count room).reverse h' ∧ PoolKeeps esize count pool room h h' ∧
      h'.live = (room, roomSize esize count) :: h.live ∧ (h'.pool pool).isAlloced = false := by
  have P := Fresh.placed hfresh hb hpool hb0
  exact poolInit_made hlt P (if_neg P.pool_ne) hfresh

/-- Without a room, `qp_pool_init` gives up; only the structure of the pool has been written. -/
theorem poolInit_none (hlt : (esize + sizeofPoolElm) * count < 2 ^ 64)
    (hfresh : ¬h.Fresh (room, roomSize esize count)) (hpool : pool ≠ NULL) :
    ∃ h', h.poolInit NULL room pool esize count = some (h', NULL) ∧ (∀ a, a ≠ pool → h'.next a = h.next a) ∧
      (∀ p, p ≠ pool → h'.pool p = h.pool p) ∧ h'.root = h.root ∧ h'.qnext = h.qnext ∧ h'.qprev = h.qprev ∧
      h'.manager = h.manager ∧ h'.owner = h.owner ∧ h'.live = h.live := by
  obtain ⟨hreq, -⟩ := request_eq hlt
  have hcreate : h.poolCreate NULL pool =
      ((h.setPool pool fun _ => ⟨NULL, 0, 0, 0, true, false⟩).listInit pool, pool) := if_neg hpool
  refine ⟨{ h with
      pool := Function.update h.pool pool ⟨NULL, count, esize, count, false, false⟩
      next := Function.update h.next pool pool }, ?_, fun a ha => Function.update_of_ne ha _ _,
    fun p hp => Function.update_of_ne hp _ _, rfl, rfl, rfl, rfl, rfl, rfl⟩
  simp only [Heap.poolInit, hcreate, if_neg hpool]
  rw [alloc_of_not_fresh (n := roomSize esize count) (by simpa [Heap.Fresh, Heap.setPool, Heap.listInit, hpool] using hfresh) hreq]
  simp [Heap.setPool, Heap.listInit, hpool, Heap.poolDestroy, Heap.free]

end QPHi
