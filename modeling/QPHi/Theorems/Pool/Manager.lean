import QPHi.Theorems.Pool.Single

/-! The pools of a manager: the queue of all pools, the list of the pools that have a free element, and what
    taking an element, giving one back, adding a pool and giving one up do to them. -/

namespace QPHi
open Chain

variable {h h' : Heap} {esize count size m e e' x p : Nat} {fl : List Nat}

/-- The pools of a manager: the elements of its queue, the room and the free list of each, and those on the
    list of available pools. -/
structure Slabs where
  pools : List Nat
  room : Nat → Nat
  free : Nat → List Nat
  avail : List Nat

def Slabs.setFree (g : Slabs) (e : Nat) (fl : List Nat) : Slabs := { g with free := Function.update g.free e fl }

variable {g g' : Slabs}

def linkOf (e : Nat) : Nat := e + offsetofLink
def poolOf (e : Nat) : Nat := e + offsetofPool
def availableOf (m : Nat) : Nat := m + offsetofAvailable

def managerBlock (m : Nat) : Block := (m, sizeofManager)
def elmBlock (e : Nat) : Block := (e, sizeofManagerElm)
def roomBlock (esize count room : Nat) : Block := (room, roomSize esize count)

/-- The blocks of a manager do not overlap. -/
structure Laid (esize count m : Nat) (pools : List Nat) (room : Nat → Nat) : Prop where
  nodup : pools.Nodup
  manager_bound : m ≠ NULL ∧ m + sizeofManager < 2 ^ 64
  elm_bound : ∀ e ∈ pools, e ≠ NULL ∧ e + sizeofManagerElm < 2 ^ 64
  room_bound : ∀ e ∈ pools, room e ≠ NULL ∧ room e + roomSize esize count < 2 ^ 64
  manager_elm : ∀ e ∈ pools, Apart (managerBlock m) (elmBlock e)
  manager_room : ∀ e ∈ pools, Apart (managerBlock m) (roomBlock esize count (room e))
  elm_elm : ∀ e ∈ pools, ∀ e' ∈ pools, e ≠ e' → Apart (elmBlock e) (elmBlock e')
  elm_room : ∀ e ∈ pools, ∀ e' ∈ pools, Apart (elmBlock e) (roomBlock esize count (room e'))
  room_room : ∀ e ∈ pools, ∀ e' ∈ pools, e ≠ e' →
    Apart (roomBlock esize count (room e)) (roomBlock esize count (room e'))

namespace Laid
variable (L : Laid esize count m g.pools g.room)
include L

theorem mem_elements_of_elm (he : e ∈ g.pools) (he' : e' ∈ g.pools) (hlo : e ≤ x) (hhi : x < e + sizeofManagerElm) :
    x ∉ elements esize count (g.room e') := by
  intro hx
  obtain ⟨h₁, h₂⟩ := element_inside hx
  have hheader : sizeofPoolElm = 16 := rfl
  rcases L.elm_room e he e' he' with hap | hap
  · simp only [elmBlock, roomBlock] at hap
    omega
  · simp only [elmBlock, roomBlock] at hap
    omega

theorem available_notMem_elements (he : e ∈ g.pools) : availableOf m ∉ elements esize count (g.room e) := by
  intro hx
  obtain ⟨h₁, h₂⟩ := element_inside hx
  have hheader : sizeofPoolElm = 16 := rfl
  rcases L.manager_room e he with hap | hap
  · simp only [managerBlock, roomBlock, availableOf, offsetofAvailable, sizeofManager] at hap h₁ h₂
    omega
  · simp only [managerBlock, roomBlock, availableOf, offsetofAvailable, sizeofManager] at hap h₁ h₂
    omega

theorem pool_notMem_elements (he : e ∈ g.pools) (he' : e' ∈ g.pools) : poolOf e ∉ elements esize count (g.room e') :=
  L.mem_elements_of_elm he he' (Nat.le_add_right e _) (Nat.add_lt_add_left (by decide) e)

theorem link_notMem_elements (he : e ∈ g.pools) (he' : e' ∈ g.pools) : linkOf e ∉ elements esize count (g.room e') :=
  L.mem_elements_of_elm he he' (Nat.le_add_right e _) (Nat.add_lt_add_left (by decide) e)

theorem elements_disjoint (he : e ∈ g.pools) (he' : e' ∈ g.pools) (hne : e ≠ e')
    (hx : x ∈ elements esize count (g.room e)) : x ∉ elements esize count (g.room e') := by
  intro hx'
  obtain ⟨h₁, h₂⟩ := element_inside hx
  obtain ⟨h₃, h₄⟩ := element_inside hx'
  have hheader : sizeofPoolElm = 16 := rfl
  rcases L.room_room e he e' he' hne with hap | hap
  · simp only [roomBlock] at hap
    omega
  · simp only [roomBlock] at hap
    omega

theorem link_ne_pool (he : e ∈ g.pools) (he' : e' ∈ g.pools) : linkOf e ≠ poolOf e' := by
  intro heq
  simp only [linkOf, poolOf, offsetofLink, offsetofPool] at heq
  have hne : e ≠ e' := by omega
  rcases L.elm_elm e he e' he' hne with hap | hap
  · simp only [elmBlock, sizeofManagerElm] at hap
    omega
  · simp only [elmBlock, sizeofManagerElm] at hap
    omega

theorem available_ne (he : e ∈ g.pools) : availableOf m ≠ linkOf e ∧ availableOf m ≠ poolOf e ∧ m ≠ e := by
  simp only [availableOf, linkOf, poolOf, offsetofAvailable, offsetofLink, offsetofPool]
  rcases L.manager_elm e he with hap | hap
  · simp only [managerBlock, elmBlock, sizeofManager, sizeofManagerElm] at hap
    omega
  · simp only [managerBlock, elmBlock, sizeofManager, sizeofManagerElm] at hap
    omega

theorem placed (he : e ∈ g.pools) : Placed esize count (poolOf e) (g.room e) := by
  obtain ⟨he0, hlt⟩ := L.elm_bound e he
  obtain ⟨hr0, hrlt⟩ := L.room_bound e he
  refine ⟨?_, hr0, hrlt, L.pool_notMem_elements he he⟩
  have he0 : e ≠ 0 := he0
  show e + offsetofPool ≠ 0
  omega

end Laid

/-- The pools and what they hold, apart from the list of available pools and the number of free elements. -/
structure Pools (esize count m : Nat) (g : Slabs) (h : Heap) : Prop where
  laid : Laid esize count m g.pools g.room
  manager_live : managerBlock m ∈ h.live
  elm_live : ∀ e ∈ g.pools, elmBlock e ∈ h.live
  room_live : ∀ e ∈ g.pools, roomBlock esize count (g.room e) ∈ h.live
  queue : DRing h.qnext h.qprev m g.pools
  pool : ∀ e ∈ g.pools, PoolHas esize count (poolOf e) (g.room e) (g.free e) h
  alloced : ∀ e ∈ g.pools, (h.pool (poolOf e)).isAlloced = false
  owner : ∀ e ∈ g.pools, h.owner e = m
  poolCount : (h.manager m).poolCount = g.pools.length
  esize : (h.manager m).esize = esize
  ecount : (h.manager m).ecount = count

/-- The list of available pools; the link of every other pool points to itself. -/
structure Listed (m : Nat) (pools avail : List Nat) (h : Heap) : Prop where
  ring : Ring h.next (availableOf m) (avail.map linkOf)
  nodup : avail.Nodup
  subset : avail ⊆ pools
  idle : ∀ e ∈ pools, e ∉ avail → h.next (linkOf e) = linkOf e

def freeCount (g : Slabs) : Nat := (g.pools.map fun e => (g.free e).length).sum

structure Managed (esize count m : Nat) (g : Slabs) (h : Heap) : Prop where
  pools : Pools esize count m g h
  listed : Listed m g.pools g.avail h
  avail : ∀ e ∈ g.pools, e ∈ g.avail ↔ g.free e ≠ [] ∨ count = 0
  nfree : (h.manager m).nfree = freeCount g

/-- The pointers that have been handed out. -/
def Outstanding (esize count : Nat) (g : Slabs) (out : List Nat) : Prop :=
  out.Nodup ∧ ∀ p, p ∈ out ↔
    ∃ e ∈ g.pools, ∃ x ∈ elements esize count (g.room e), x ∉ g.free e ∧ p = x + sizeofPoolElm

/-! ### Frames -/

/-- An operation of the pool of `e` keeps the other pools, the queue and the list. -/
theorem Pools.steps (H : Pools esize count m g h) (he : e ∈ g.pools)
    (S : PoolSteps esize count (poolOf e) (g.room e) h h')
    (hfl : PoolHas esize count (poolOf e) (g.room e) fl h') : Pools esize count m (g.setFree e fl) h' := by
  refine ⟨H.laid, S.live ▸ H.manager_live, fun a ha => S.live ▸ H.elm_live a ha, fun a ha => S.live ▸ H.room_live a ha, ?_,
    fun a ha => ?_, fun a ha => ?_, fun a ha => ?_, ?_, ?_, ?_⟩
  · rw [S.qnext, S.qprev]
    exact H.queue
  · by_cases hae : a = e
    · subst hae
      simpa [Slabs.setFree] using hfl
    · have hp : poolOf a ≠ poolOf e := fun heq => hae (Nat.add_right_cancel heq)
      simp only [Slabs.setFree, Function.update_of_ne hae]
      refine (H.pool a ha).frame (S.pools _ hp) (fun y hy => S.next y ?_ ?_) fun x hx => ?_
      · rcases hy with rfl | hy
        · exact hp
        · exact fun heq => H.laid.pool_notMem_elements he ha (heq ▸ hy)
      · rcases hy with rfl | hy
        · exact H.laid.pool_notMem_elements ha he
        · exact H.laid.elements_disjoint ha he hae hy
      · exact S.root x (H.laid.elements_disjoint ha he hae hx)
  · by_cases hae : a = e
    · rw [hae, S.alloced]
      exact H.alloced e he
    · have hp : poolOf a ≠ poolOf e := fun heq => hae (Nat.add_right_cancel heq)
      rw [S.pools _ hp]
      exact H.alloced a ha
  · rw [S.owner]
    exact H.owner a ha
  all_goals rw [S.manager]
  · exact H.poolCount
  · exact H.esize
  · exact H.ecount

theorem Listed.steps {avail : List Nat} (L : Laid esize count m g.pools g.room) (H : Listed m g.pools avail h)
    (he : e ∈ g.pools) (S : PoolSteps esize count (poolOf e) (g.room e) h h') : Listed m g.pools avail h' := by
  have hlink : ∀ a ∈ g.pools, h'.next (linkOf a) = h.next (linkOf a) := fun a ha =>
    S.next _ (L.link_ne_pool ha he) (L.link_notMem_elements ha he)
  refine ⟨Path.congr H.ring fun y hy => ?_, H.nodup, H.subset, fun a ha hna => ?_⟩
  · rcases List.mem_cons.mp hy with rfl | hy
    · exact S.next _ (L.available_ne he).2.1 (L.available_notMem_elements he)
    · obtain ⟨a, ha, rfl⟩ := List.mem_map.mp hy
      exact hlink a (H.subset ha)
  · rw [hlink a ha]
    exact H.idle a ha hna

/-- The pools do not depend on the links of the list of available pools. -/
theorem Pools.congr (H : Pools esize count m g h) (hlive : h'.live = h.live) (hqnext : h'.qnext = h.qnext)
    (hqprev : h'.qprev = h.qprev) (hpool : h'.pool = h.pool) (hroot : h'.root = h.root) (howner : h'.owner = h.owner)
    (hnext : ∀ a, a ≠ availableOf m → (∀ e ∈ g.pools, a ≠ linkOf e) → h'.next a = h.next a)
    (hcount : (h'.manager m).poolCount = (h.manager m).poolCount) (hesize : (h'.manager m).esize = (h.manager m).esize)
    (hecount : (h'.manager m).ecount = (h.manager m).ecount) : Pools esize count m g h' := by
  refine ⟨H.laid, hlive ▸ H.manager_live, fun a ha => hlive ▸ H.elm_live a ha, fun a ha => hlive ▸ H.room_live a ha,
    by rw [hqnext, hqprev]; exact H.queue, fun a ha => ?_, fun a ha => by rw [hpool]; exact H.alloced a ha,
    fun a ha => by rw [howner]; exact H.owner a ha, hcount.trans H.poolCount, hesize.trans H.esize,
    hecount.trans H.ecount⟩
  refine (H.pool a ha).frame (by rw [hpool]) (fun y hy => hnext y ?_ fun b hb => ?_) fun x _ => by rw [hroot]
  · rcases hy with rfl | hy
    · exact (H.laid.available_ne ha).2.1.symm
    · rintro rfl
      exact H.laid.available_notMem_elements ha hy
  · rcases hy with rfl | hy
    · exact (H.laid.link_ne_pool hb ha).symm
    · rintro rfl
      exact H.laid.link_notMem_elements hb ha hy

/-! ### The list of available pools -/

namespace Listed
variable {pools av : List Nat}

theorem available_notMem (L : Laid esize count m g.pools g.room) (H : Listed m g.pools av h) :
    availableOf m ∉ av.map linkOf := by
  intro hm
  obtain ⟨a, ha, heq⟩ := List.mem_map.mp hm
  exact (L.available_ne (H.subset ha)).1 heq.symm

theorem linkOf_mem_map {e : Nat} {l : List Nat} : linkOf e ∈ l.map linkOf ↔ e ∈ l := by
  rw [List.mem_map]
  constructor
  · rintro ⟨a, ha, heq⟩
    exact (Nat.add_right_cancel heq : a = e) ▸ ha
  · exact fun he => ⟨e, he, rfl⟩

/-- The first available pool leaves the list. -/
theorem pop (L : Laid esize count m g.pools g.room) (H : Listed m g.pools (e :: av) h)
    (hnext : h'.next = Function.update (Function.update h.next (availableOf m) (h.next (h.next (availableOf m))))
      (linkOf e) (linkOf e)) : Listed m g.pools av h' := by
  obtain ⟨hnotin, hnd⟩ := List.nodup_cons.mp H.nodup
  have he : e ∈ g.pools := H.subset (by simp)
  have hring : Ring _ (availableOf m) (av.map linkOf) := Ring.pop H.ring (H.available_notMem L)
  refine ⟨?_, hnd, fun a ha => H.subset (List.mem_cons_of_mem e ha), fun a ha hna => ?_⟩
  · rw [hnext]
    refine Path.update_of_notMem hring ?_
    rw [List.mem_cons, not_or, linkOf_mem_map]
    exact ⟨(L.available_ne he).1.symm, hnotin⟩
  · rw [hnext]
    by_cases hae : a = e
    · rw [hae, Function.update_self]
    · have hlink : linkOf a ≠ linkOf e := fun heq => hae (Nat.add_right_cancel heq)
      rw [Function.update_of_ne hlink, Function.update_of_ne (L.available_ne ha).1.symm]
      refine H.idle a ha ?_
      rw [List.mem_cons, not_or]
      exact ⟨hae, hna⟩

/-- A pool that was not available goes to the front of the list. -/
theorem push (L : Laid esize count m g.pools g.room) (H : Listed m g.pools av h) (he : e ∈ g.pools) (hnotin : e ∉ av)
    (hnext : h'.next = Function.update (Function.update h.next (linkOf e) (h.next (availableOf m))) (availableOf m)
      (linkOf e)) : Listed m g.pools (e :: av) h' := by
  refine ⟨?_, List.nodup_cons.mpr ⟨hnotin, H.nodup⟩, List.cons_subset.mpr ⟨he, H.subset⟩, fun a ha hna => ?_⟩
  · rw [hnext]
    exact Ring.push H.ring (L.available_ne he).1.symm (by rwa [linkOf_mem_map]) (H.available_notMem L)
  · rw [List.mem_cons, not_or] at hna
    have hlink : linkOf a ≠ linkOf e := fun heq => hna.1 (Nat.add_right_cancel heq)
    rw [hnext, Function.update_of_ne (L.available_ne ha).1.symm, Function.update_of_ne hlink]
    exact H.idle a ha hna.2

theorem congr (H : Listed m g.pools av h) (hnext : h'.next = h.next) : Listed m g.pools av h' :=
  ⟨by rw [hnext]; exact H.ring, H.nodup, H.subset, fun a ha hna => by rw [hnext]; exact H.idle a ha hna⟩

end Listed

/-! ### Counting -/

theorem sum_map_update {f : Nat → List Nat} {l : List Nat} (hnd : l.Nodup) (he : e ∈ l) :
    (l.map fun a => (Function.update f e fl a).length).sum + (f e).length =
      (l.map fun a => (f a).length).sum + fl.length := by
  induction l with
  | nil => cases he
  | cons a l ih =>
    obtain ⟨ha, hnd⟩ := List.nodup_cons.mp hnd
    simp only [List.map_cons, List.sum_cons]
    rcases List.mem_cons.mp he with rfl | hel
    · have hsame : (l.map fun a => (Function.update f e fl a).length) = l.map fun a => (f a).length := by
        refine List.map_congr_left fun b hb => ?_
        have hne : b ≠ e := fun heq => ha (heq ▸ hb)
        rw [Function.update_of_ne hne]
      rw [hsame, Function.update_self]
      omega
    · have hne : a ≠ e := fun heq => ha (heq ▸ hel)
      have := ih hnd hel
      rw [Function.update_of_ne hne]
      omega

theorem freeCount_setFree (fl : List Nat) (hnd : g.pools.Nodup) (he : e ∈ g.pools) :
    freeCount (g.setFree e fl) + (g.free e).length = freeCount g + fl.length := sum_map_update hnd he

theorem length_lt_of_nodup {l : List Nat} (hnd : l.Nodup) {n : Nat} (hb : ∀ a ∈ l, a ≠ 0 ∧ a < n) (hn : 0 < n) : l.length < n := by
  have hnot : 0 ∉ l := fun hm => (hb 0 hm).1 rfl
  have hsub : (0 :: l) ⊆ List.range n := by
    intro a ha
    rw [List.mem_range]
    rcases List.mem_cons.mp ha with rfl | ha
    · exact hn
    · exact (hb a ha).2
  have hlen := (List.subperm_of_subset (List.nodup_cons.mpr ⟨hnot, hnd⟩) hsub).length_le
  rw [List.length_cons, List.length_range] at hlen
  exact hlen

namespace Laid
variable (L : Laid esize count m g.pools g.room)
include L

theorem length_pools_lt : g.pools.length < 2 ^ 64 := by
  refine length_lt_of_nodup L.nodup (fun e he => ?_) (by decide)
  obtain ⟨he0, hlt⟩ := L.elm_bound e he
  exact ⟨he0, by omega⟩

theorem allElements_nodup : (g.pools.flatMap fun e => elements esize count (g.room e)).Nodup := by
  refine List.nodup_flatMap.mpr ⟨fun e _ => elements_nodup, ?_⟩
  refine L.nodup.imp_of_mem fun {a b} ha hb hne => ?_
  exact fun x hx hx' => L.elements_disjoint ha hb hne hx hx'

/-- There are fewer elements than addresses. -/
theorem length_mul_count_lt : g.pools.length * count < 2 ^ 64 := by
  have hlen : (g.pools.flatMap fun e => elements esize count (g.room e)).length = g.pools.length * count := by
    rw [List.length_flatMap]
    simp [length_elements]
  rw [← hlen]
  refine length_lt_of_nodup L.allElements_nodup (fun x hx => ?_) (by decide)
  obtain ⟨e, he, hx⟩ := List.mem_flatMap.mp hx
  obtain ⟨hx0, -, hlt⟩ := (L.placed he).element_bound hx
  exact ⟨hx0, by omega⟩

end Laid

theorem Pools.freeCount_le (H : Pools esize count m g h) : freeCount g ≤ g.pools.length * count := by
  have hle : ∀ a ∈ g.pools, (g.free a).length ≤ count := fun a ha => (H.pool a ha).length_le
  rw [freeCount]
  generalize g.pools = l at hle
  induction l with
  | nil => simp
  | cons a l ih =>
    have ha := hle a (by simp)
    have hl := ih fun b hb => hle b (List.mem_cons_of_mem a hb)
    simp only [List.map_cons, List.sum_cons, List.length_cons, Nat.succ_mul]
    omega

end QPHi
