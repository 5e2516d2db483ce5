import QPHi.Theorems.Pool.ManagerOps

/-! Adding a pool to a manager, and `qp_manager_alloc` and `qp_manager_init` as a whole. -/

namespace QPHi
open Chain

variable {h h' : Heap} {esize count size m e x p room : Nat} {fl av out : List Nat} {g g' : Slabs}

/-- The pools with a new pool, all of whose elements are free. -/
def Slabs.add (esize count : Nat) (g : Slabs) (e room : Nat) : Slabs where
  pools := e :: g.pools
  room := Function.update g.room e room
  free := Function.update g.free e (elements esize count room).reverse
  avail := e :: g.avail

theorem Apart.symm {b b' : Block} (hap : Apart b b') : Apart b' b := Or.symm hap

theorem Pools.notMem_of_fresh (H : Pools esize count m g h) (hfresh : h.Fresh (elmBlock e)) : e ∉ g.pools := by
  intro he
  exact (hfresh.2.2 _ (H.elm_live e he)).ne (Nat.succ_pos 87) (Nat.succ_pos 87) rfl

/-- The pool of a new element of the queue lies in no other block. -/
theorem Heap.Fresh.pool_outside {b : Block} (he : h.Fresh (elmBlock e)) (hb : b ∈ h.live) :
    ¬(b.1 ≤ poolOf e ∧ poolOf e < b.1 + b.2) := by
  rintro ⟨hlo, hhi⟩
  rcases he.2.2 b hb with hap | hap
  · simp only [elmBlock, poolOf, sizeofManagerElm, offsetofPool] at hap hlo hhi
    omega
  · simp only [elmBlock, poolOf, sizeofManagerElm, offsetofPool] at hap hlo hhi
    omega

/-! ### Frames -/

/-- The blocks of `h` stay live, with what is in them. -/
structure KeepsBlocks (pools : List Nat) (h h' : Heap) : Prop where
  next : ∀ b ∈ h.live, ∀ y, b.1 ≤ y → y < b.1 + b.2 → h'.next y = h.next y
  root : ∀ b ∈ h.live, ∀ y, b.1 ≤ y → y < b.1 + b.2 → h'.root y = h.root y
  pool : ∀ a ∈ pools, h'.pool (poolOf a) = h.pool (poolOf a)
  qnext : h'.qnext = h.qnext
  qprev : h'.qprev = h.qprev
  owner : h'.owner = h.owner
  manager : h'.manager = h.manager
  live : ∀ b ∈ h.live, 0 < b.2 → b ∈ h'.live

theorem element_inside_room (hx : x ∈ elements esize count room) : room ≤ x ∧ x < room + roomSize esize count := by
  obtain ⟨hlo, hhi⟩ := element_inside hx
  have hheader : sizeofPoolElm = 16 := rfl
  omega

theorem Pools.inBlocks (H : Pools esize count m g h) (K : KeepsBlocks g.pools h h') : Pools esize count m g h' := by
  refine ⟨H.laid, K.live _ H.manager_live (Nat.succ_pos 63), fun a ha => K.live _ (H.elm_live a ha) (Nat.succ_pos 87),
    fun a ha => K.live _ (H.room_live a ha) roomSize_pos, ?_, fun a ha => ?_, fun a ha => ?_, ?_, ?_, ?_, ?_⟩
  · rw [K.qnext, K.qprev]
    exact H.queue
  · refine (H.pool a ha).frame (K.pool a ha) (fun y hy => ?_) fun x hx => ?_
    · rcases hy with rfl | hy
      · exact K.next _ (H.elm_live a ha) _ (Nat.le_add_right a _)
          (Nat.add_lt_add_left (show offsetofPool < sizeofManagerElm by decide) a)
      · exact K.next _ (H.room_live a ha) y (element_inside_room hy).1 (element_inside_room hy).2
    · exact K.root _ (H.room_live a ha) x (element_inside_room hx).1 (element_inside_room hx).2
  · rw [K.pool a ha]
    exact H.alloced a ha
  · rw [K.owner]
    exact H.owner
  · rw [K.manager]
    exact H.poolCount
  · rw [K.manager]
    exact H.esize
  · rw [K.manager]
    exact H.ecount

/-- The manager lies in the blocks of the memory. -/
theorem Managed.inBlocks (M : Managed esize count m g h) (K : KeepsBlocks g.pools h h') : Managed esize count m g h' := by
  have hlink : ∀ a ∈ g.pools, h'.next (linkOf a) = h.next (linkOf a) := fun a ha =>
    K.next _ (M.pools.elm_live a ha) _ (Nat.le_add_right a _)
      (Nat.add_lt_add_left (show offsetofLink < sizeofManagerElm by decide) a)
  refine ⟨M.pools.inBlocks K, ⟨?_, M.listed.nodup, M.listed.subset, fun a ha hna => ?_⟩, M.avail, ?_⟩
  · refine Path.congr M.listed.ring fun y hy => ?_
    rcases List.mem_cons.mp hy with rfl | hy
    · exact K.next _ M.pools.manager_live _ (Nat.le_add_right m _)
        (Nat.add_lt_add_left (show offsetofAvailable < sizeofManager by decide) m)
    · obtain ⟨a, ha, rfl⟩ := List.mem_map.mp hy
      exact hlink a (M.listed.subset ha)
  · rw [hlink a ha]
    exact M.listed.idle a ha hna
  · rw [K.manager]
    exact M.nfree

/-! ### A new pool -/

theorem Pools.laid_add (H : Pools esize count m g h) (he : h.Fresh (elmBlock e))
    (hroom : Heap.Fresh { h with live := elmBlock e :: h.live } (roomBlock esize count room)) :
    Laid esize count m (g.add esize count e room).pools (g.add esize count e room).room := by
  have L := H.laid
  have hnew := H.notMem_of_fresh he
  have hne : ∀ a ∈ g.pools, a ≠ e := fun a ha heq => hnew (heq ▸ ha)
  have hroom' : ∀ b ∈ h.live, Apart (roomBlock esize count room) b :=
    fun b hb => hroom.2.2 b (List.mem_cons_of_mem _ hb)
  have hself : (g.add esize count e room).room e = room := Function.update_self _ _ _
  have hother : ∀ a ∈ g.pools, (g.add esize count e room).room a = g.room a :=
    fun a ha => Function.update_of_ne (hne a ha) _ _
  refine ⟨List.nodup_cons.mpr ⟨hnew, L.nodup⟩, L.manager_bound, ?_, ?_, ?_, ?_, ?_, ?_, ?_⟩
  · rintro a (_ | ⟨_, ha⟩)
    · exact ⟨he.1, he.2.1⟩
    · exact L.elm_bound a ha
  · rintro a (_ | ⟨_, ha⟩)
    · rw [hself]
      exact ⟨hroom.1, hroom.2.1⟩
    · rw [hother a ha]
      exact L.room_bound a ha
  · rintro a (_ | ⟨_, ha⟩)
    · exact (he.2.2 _ H.manager_live).symm
    · exact L.manager_elm a ha
  · rintro a (_ | ⟨_, ha⟩)
    · rw [hself]
      exact (hroom' _ H.manager_live).symm
    · rw [hother a ha]
      exact L.manager_room a ha
  · rintro a (_ | ⟨_, ha⟩) b (_ | ⟨_, hb⟩) hab
    · exact absurd rfl hab
    · exact he.2.2 _ (H.elm_live b hb)
    · exact (he.2.2 _ (H.elm_live a ha)).symm
    · exact L.elm_elm a ha b hb hab
  · rintro a (_ | ⟨_, ha⟩) b (_ | ⟨_, hb⟩)
    · rw [hself]
      exact (hroom.2.2 _ (by simp)).symm
    · rw [hother b hb]
      exact he.2.2 _ (H.room_live b hb)
    · rw [hself]
      exact (hroom' _ (H.elm_live a ha)).symm
    · rw [hother b hb]
      exact L.elm_room a ha b hb
  · rintro a (_ | ⟨_, ha⟩) b (_ | ⟨_, hb⟩) hab
    · exact absurd rfl hab
    · rw [hself, hother b hb]
      exact hroom' _ (H.room_live b hb)
    · rw [hself, hother a ha]
      exact (hroom' _ (H.room_live a ha)).symm
    · rw [hother a ha, hother b hb]
      exact L.room_room a ha b hb hab

/-- The memory after `qp_manager_alloc` has linked a new pool. -/
structure Grown (m e : Nat) (h h' : Heap) : Prop where
  next : h'.next = Function.update (Function.update h.next (linkOf e) (h.next (availableOf m))) (availableOf m) (linkOf e)
  qnext : h'.qnext = Function.update (Function.update h.qnext e (h.qnext m)) m e
  qprev : h'.qprev = Function.update (Function.update h.qprev (h.qnext m) e) e m
  root : h'.root = h.root
  pool : h'.pool = h.pool
  owner : h'.owner = Function.update h.owner e m
  manager : h'.manager m = { h.manager m with
    nfree := addWord (h.manager m).nfree (h.manager m).ecount, poolCount := addWord (h.manager m).poolCount 1 }
  live : h'.live = h.live

/-- A new pool, with a block for its element of the queue and one for its room. -/
theorem Pools.grown (H : Pools esize count m g h) (hlt : (esize + sizeofPoolElm) * count < 2 ^ 64)
    (he : h.Fresh (elmBlock e))
    (hroom : Heap.Fresh { h with live := elmBlock e :: h.live } (roomBlock esize count room)) :
    ∃ h₁ h', PoolHas esize count (poolOf e) room (elements esize count room).reverse h₁ ∧
      PoolKeeps esize count (poolOf e) room h h₁ ∧ h₁.live = roomBlock esize count room :: elmBlock e :: h.live ∧
      (h₁.pool (poolOf e)).isAlloced = false ∧ h.managerGrow e room m = some (h', linkOf e) ∧ Grown m e h₁ h' := by
  have L := H.laid_add he hroom
  have hmem : e ∈ (g.add esize count e room).pools := by simp [Slabs.add]
  have halloc : h.alloc e sizeofManagerElm = ({ h with live := elmBlock e :: h.live }, e) :=
    alloc_of_fresh he rfl
  have he0 : e ≠ NULL := he.1
  have hinside : (elmBlock e).1 ≤ poolOf e ∧ poolOf e < (elmBlock e).1 + (elmBlock e).2 :=
    ⟨Nat.le_add_right e _, Nat.add_lt_add_left (show offsetofPool < sizeofManagerElm by decide) e⟩
  obtain ⟨h₁, hinit, P, K, hlive, halloced⟩ := poolInit_some hlt hroom (List.mem_cons_self) hinside he0
  obtain ⟨h', hh'⟩ : ∃ h' : Heap, h' = { h₁ with
      next := Function.update (Function.update h₁.next (linkOf e) (h₁.next (availableOf m))) (availableOf m) (linkOf e)
      qnext := Function.update (Function.update h₁.qnext e (h₁.qnext m)) m e
      qprev := Function.update (Function.update h₁.qprev (h₁.qnext m) e) e m
      owner := Function.update h₁.owner e m
      manager := Function.update h₁.manager m { h₁.manager m with
        nfree := addWord (h₁.manager m).nfree (h₁.manager m).ecount
        poolCount := addWord (h₁.manager m).poolCount 1 } } := ⟨_, rfl⟩
  refine ⟨h₁, h', P, ⟨K.next, K.pools, K.root, K.qnext, K.qprev, K.manager, K.owner⟩, hlive, halloced, ?_, ?_⟩
  · have hp0 : poolOf e ≠ NULL := (L.placed hmem).pool_ne
    have hboth : m ≠ NULL ∧ e ≠ NULL := ⟨L.manager_bound.1, he.1⟩
    have hlinks : availableOf m ≠ NULL ∧ linkOf e ≠ NULL := ⟨L.available_ne_null, L.link_ne_null hmem⟩
    simp only [Heap.managerGrow, halloc, if_neg he0, L.addWord_pool hmem, H.esize, H.ecount, hinit, if_neg hp0,
      Option.bind_eq_bind, Option.bind_some, Option.pure_def, L.addWord_link hmem, L.addWord_available,
      Heap.queueInsertAfterHead, if_pos hboth, Heap.listPush, if_pos hlinks, Heap.setManager, Function.update_self,
      Function.update_idem, hh']
  · exact ⟨by rw [hh'], by rw [hh'], by rw [hh'], by rw [hh'], by rw [hh'], by rw [hh'],
      by rw [hh']; exact Function.update_self _ _ _, by rw [hh']⟩

/-- What is written for the new pool lies in its own blocks. -/
theorem Pools.keepsBlocks_new (H : Pools esize count m g h) {h₁ : Heap} (he : h.Fresh (elmBlock e))
    (hroom : Heap.Fresh { h with live := elmBlock e :: h.live } (roomBlock esize count room))
    (K : PoolKeeps esize count (poolOf e) room h h₁) (hlive : h₁.live = roomBlock esize count room :: elmBlock e :: h.live) :
    KeepsBlocks g.pools h h₁ := by
  have hnew := H.notMem_of_fresh he
  have hapart : ∀ b ∈ h.live, ∀ y, b.1 ≤ y → y < b.1 + b.2 → y ∉ elements esize count room := by
    intro b hb y hlo hhi hy
    obtain ⟨hlo', hhi'⟩ := element_inside_room hy
    rcases hroom.2.2 b (List.mem_cons_of_mem _ hb) with hap | hap
    · simp only [roomBlock] at hap
      omega
    · simp only [roomBlock] at hap
      omega
  refine ⟨fun b hb y hlo hhi => K.next y ?_ (hapart b hb y hlo hhi), fun b hb y hlo hhi => K.root y (hapart b hb y hlo hhi),
    fun a ha => K.pools _ fun heq => hnew ((Nat.add_right_cancel heq : a = e) ▸ ha), K.qnext, K.qprev, K.owner, K.manager,
    fun b hb _ => by rw [hlive]; exact List.mem_cons_of_mem _ (List.mem_cons_of_mem _ hb)⟩
  rintro rfl
  exact he.pool_outside hb ⟨hlo, hhi⟩

section
variable (L : Laid esize count m (g.add esize count e room).pools (g.add esize count e room).room) (G : Grown m e h h')
include L G

/-- Linking the new pool changes no link of a pool. -/
theorem Grown.next_pool {a y : Nat} (ha : a ∈ (g.add esize count e room).pools)
    (hy : y = poolOf a ∨ y ∈ elements esize count ((g.add esize count e room).room a)) : h'.next y = h.next y := by
  have hmem : e ∈ (g.add esize count e room).pools := List.mem_cons_self
  have hya : y ≠ availableOf m := by
    rintro rfl
    rcases hy with heq | hy
    · exact (L.available_ne ha).2.1 heq
    · exact L.available_notMem_elements ha hy
  have hyl : y ≠ linkOf e := by
    rintro rfl
    rcases hy with heq | hy
    · exact L.link_ne_pool hmem ha heq
    · exact L.link_notMem_elements hmem ha hy
  rw [G.next, Function.update_of_ne hya, Function.update_of_ne hyl]

theorem Pools.link (H : Pools esize count m g h) (hnew : e ∉ g.pools)
    (P : PoolHas esize count (poolOf e) room (elements esize count room).reverse h)
    (halloced : (h.pool (poolOf e)).isAlloced = false) (helm : elmBlock e ∈ h.live) (hroom : roomBlock esize count room ∈ h.live) :
    Pools esize count m (g.add esize count e room) h' := by
  have hmem : e ∈ (g.add esize count e room).pools := List.mem_cons_self
  have hold : ∀ a ∈ g.pools, a ∈ (g.add esize count e room).pools := fun a ha => List.mem_cons_of_mem e ha
  have hne : ∀ a ∈ g.pools, a ≠ e := fun a ha heq => hnew (heq ▸ ha)
  have hself : (g.add esize count e room).room e = room := Function.update_self _ _ _
  have hroomOf : ∀ a ∈ g.pools, (g.add esize count e room).room a = g.room a :=
    fun a ha => Function.update_of_ne (hne a ha) _ _
  have hfreeSelf : (g.add esize count e room).free e = (elements esize count room).reverse := Function.update_self _ _ _
  have hfreeOf : ∀ a ∈ g.pools, (g.add esize count e room).free a = g.free a :=
    fun a ha => Function.update_of_ne (hne a ha) _ _
  refine ⟨L, ?_, ?_, ?_, ?_, ?_, ?_, ?_, ?_, ?_, ?_⟩
  · rw [G.live]
    exact H.manager_live
  · rw [G.live]
    rintro a (_ | ⟨_, ha⟩)
    · exact helm
    · exact H.elm_live a ha
  · rw [G.live]
    rintro a (_ | ⟨_, ha⟩)
    · rw [hself]
      exact hroom
    · rw [hroomOf a ha]
      exact H.room_live a ha
  · rw [G.qnext, G.qprev]
    refine H.queue.push (L.available_ne hmem).2.2.symm hnew ?_ H.laid.nodup
    exact fun hm => (H.laid.available_ne hm).2.2 rfl
  · rintro a (_ | ⟨_, ha⟩)
    · rw [hself, hfreeSelf]
      exact P.frame (by rw [G.pool]) (fun y hy => G.next_pool L hmem (by rwa [hself])) fun x _ => by rw [G.root]
    · rw [hroomOf a ha, hfreeOf a ha]
      exact (H.pool a ha).frame (by rw [G.pool]) (fun y hy => G.next_pool L (hold a ha) (by rwa [hroomOf a ha]))
        fun x _ => by rw [G.root]
  · rw [G.pool]
    rintro a (_ | ⟨_, ha⟩)
    · exact halloced
    · exact H.alloced a ha
  · rw [G.owner]
    rintro a (_ | ⟨_, ha⟩)
    · exact Function.update_self _ _ _
    · rw [Function.update_of_ne (hne a ha)]
      exact H.owner a ha
  · have hlen : g.pools.length + 1 < 2 ^ 64 := L.length_pools_lt
    rw [G.manager]
    simp only [H.poolCount]
    exact addWord_of_lt hlen
  · rw [G.manager]
    exact H.esize
  · rw [G.manager]
    exact H.ecount

/-- The new pool is the first available one. -/
theorem Listed.link (L₀ : Laid esize count m g.pools g.room) (H : Listed m g.pools g.avail h) (hnew : e ∉ g.pools) :
    Listed m (g.add esize count e room).pools (g.add esize count e room).avail h' := by
  have hmem : e ∈ (g.add esize count e room).pools := List.mem_cons_self
  have hnotin : e ∉ g.avail := fun hm => hnew (H.subset hm)
  refine ⟨?_, List.nodup_cons.mpr ⟨hnotin, H.nodup⟩, List.cons_subset_cons e H.subset, fun a ha hna => ?_⟩
  · rw [G.next]
    refine Ring.push H.ring (L.available_ne hmem).1.symm (by rwa [Listed.linkOf_mem_map]) ?_
    exact H.available_notMem L₀
  · simp only [Slabs.add, List.mem_cons, not_or] at ha hna
    have hag := ha.resolve_left hna.1
    have hal : linkOf a ≠ linkOf e := fun heq => hna.1 (Nat.add_right_cancel heq)
    rw [G.next, Function.update_of_ne (L.available_ne (List.mem_cons_of_mem e hag)).1.symm, Function.update_of_ne hal]
    exact H.idle a hag hna.2

end

theorem freeCount_add (hnew : e ∉ g.pools) : freeCount (g.add esize count e room) = count + freeCount g := by
  have hsame : (g.pools.map fun a => ((g.add esize count e room).free a).length) = g.pools.map fun a => (g.free a).length := by
    refine List.map_congr_left fun a ha => ?_
    have hne : a ≠ e := fun heq => hnew (heq ▸ ha)
    simp only [Slabs.add, Function.update_of_ne hne]
  simp only [freeCount, ← hsame]
  simp [Slabs.add, length_elements]

/-- `qp_manager_alloc` adds a pool. -/
theorem Managed.grow_some (M : Managed esize count m g h) (hlt : (esize + sizeofPoolElm) * count < 2 ^ 64)
    (he : h.Fresh (elmBlock e))
    (hroom : Heap.Fresh { h with live := elmBlock e :: h.live } (roomBlock esize count room)) :
    ∃ h', h.managerGrow e room m = some (h', linkOf e) ∧ Managed esize count m (g.add esize count e room) h' := by
  have L := M.pools.laid_add he hroom
  have hnew := M.pools.notMem_of_fresh he
  obtain ⟨h₁, h', P, K, hlive, halloced, hgrow, G⟩ := M.pools.grown hlt he hroom
  have M₁ := M.inBlocks (M.pools.keepsBlocks_new he hroom K hlive)
  refine ⟨h', hgrow, ?_, M₁.listed.link L G M₁.pools.laid hnew, ?_, ?_⟩
  · exact M₁.pools.link L G hnew P halloced (by rw [hlive]; simp) (by rw [hlive]; simp)
  · rintro a (_ | ⟨_, ha⟩)
    · simp only [Slabs.add, Function.update_self]
      refine ⟨fun _ => ?_, fun _ => List.mem_cons_self⟩
      rw [Ne, List.reverse_eq_nil_iff, ← List.length_eq_zero_iff, length_elements]
      exact (Nat.eq_zero_or_pos count).symm.imp_left Nat.ne_of_gt
    · have hne : a ≠ e := fun heq => hnew (heq ▸ ha)
      simp only [Slabs.add, List.mem_cons, Function.update_of_ne hne, hne, false_or]
      exact M₁.avail a ha
  · have hle := M₁.pools.freeCount_le
    have hbound : (g.pools.length + 1) * count < 2 ^ 64 := L.length_mul_count_lt
    rw [Nat.succ_mul] at hbound
    rw [G.manager]
    simp only [M₁.nfree, M₁.pools.ecount]
    rw [addWord_of_lt (by omega), freeCount_add hnew, Nat.add_comm]

/-- No element of a new pool is outstanding. -/
theorem Outstanding.add (hnew : e ∉ g.pools) (O : Outstanding esize count g out) :
    Outstanding esize count (g.add esize count e room) out := by
  have hne : ∀ a ∈ g.pools, a ≠ e := fun a ha heq => hnew (heq ▸ ha)
  refine ⟨O.1, fun q => ?_⟩
  rw [O.2 q]
  constructor
  · rintro ⟨a, ha, y, hy, hny, rfl⟩
    refine ⟨a, List.mem_cons_of_mem e ha, y, ?_, ?_, rfl⟩
    · simpa [Slabs.add, Function.update_of_ne (hne a ha)] using hy
    · simpa [Slabs.add, Function.update_of_ne (hne a ha)] using hny
  · rintro ⟨a, _ | ⟨_, ha⟩, y, hy, hny, rfl⟩
    · simp only [Slabs.add, Function.update_self, List.mem_reverse] at hy hny
      exact absurd hy hny
    · simp only [Slabs.add, Function.update_of_ne (hne a ha)] at hy hny
      exact ⟨a, ha, y, hy, hny, rfl⟩

/-- Without memory for a new pool, the manager stays as it was. -/
theorem Managed.grow_none (M : Managed esize count m g h) (hlt : (esize + sizeofPoolElm) * count < 2 ^ 64)
    (hnone : ¬(h.Fresh (elmBlock e) ∧
      Heap.Fresh { h with live := elmBlock e :: h.live } (roomBlock esize count room))) :
    ∃ h', h.managerGrow e room m = some (h', NULL) ∧ Managed esize count m g h' := by
  by_cases he : h.Fresh (elmBlock e)
  · have hroom : ¬Heap.Fresh { h with live := elmBlock e :: h.live } (roomBlock esize count room) :=
      fun hr => hnone ⟨he, hr⟩
    have he0 : e ≠ NULL := he.1
    have helt : e + sizeofManagerElm < 2 ^ 64 := he.2.1
    have hpool : addWord e offsetofPool = poolOf e := by
      refine addWord_of_lt ?_
      simp only [sizeofManagerElm, offsetofPool] at helt ⊢
      omega
    have hp0 : poolOf e ≠ NULL := by
      have he0 : e ≠ 0 := he0
      show e + offsetofPool ≠ 0
      omega
    have halloc : h.alloc e sizeofManagerElm = ({ h with live := elmBlock e :: h.live }, e) := alloc_of_fresh he rfl
    obtain ⟨h₁, hinit, hnext, hpools, hroot, hqnext, hqprev, hmanager, howner, hlive⟩ := poolInit_none hlt hroom hp0
    have hfree : h₁.free e = some { h₁ with live := h₁.live.filter (·.1 ≠ e) } := by
      refine free_of_live (b := elmBlock e) ?_ he0
      rw [hlive]
      simp
    have hnew := M.pools.notMem_of_fresh he
    -- The blocks of the manager stay live, and what was written lies in the block that is freed.
    have K : KeepsBlocks g.pools h { h₁ with live := h₁.live.filter (·.1 ≠ e) } := by
      refine ⟨fun b hb y hlo hhi => hnext y ?_, fun b _ y _ _ => congrFun hroot y, fun a ha => hpools _ ?_, hqnext, hqprev, howner,
        hmanager, fun b hb hpos => ?_⟩
      · rintro rfl
        exact he.pool_outside hb ⟨hlo, hhi⟩
      · exact fun heq => hnew ((Nat.add_right_cancel heq : a = e) ▸ ha)
      · show b ∈ h₁.live.filter (·.1 ≠ e)
        rw [hlive]
        exact mem_filter_live (List.mem_cons_of_mem _ hb) ((he.2.2 b hb).ne (Nat.succ_pos 87) hpos).symm
    refine ⟨_, ?_, M.inBlocks K⟩
    simp only [Heap.managerGrow, halloc, if_neg he0, hpool, M.pools.esize, M.pools.ecount, hinit, ↓reduceIte, hfree,
      Option.bind_eq_bind, Option.bind_some, Option.pure_def]
  · have halloc : h.alloc e sizeofManagerElm = (h, NULL) := alloc_of_not_fresh he rfl
    exact ⟨h, by simp [Heap.managerGrow, halloc], M⟩

/-! ### The whole calls -/

theorem Managed.managerAlloc_big (M : Managed esize count m g h) (hsize : esize < size) (elm? room? : Nat) :
    h.managerAlloc elm? room? m size = some (h, NULL) := by
  rw [Heap.managerAlloc, if_pos (Or.inr (by rw [M.pools.esize]; exact hsize))]

theorem Managed.managerAlloc_eq (M : Managed esize count m g h) (hsize : size ≤ esize) (elm? room? : Nat) :
    h.managerAlloc elm? room? m size =
      (if h.listFirst (availableOf m) = NULL then h.managerGrow elm? room? m
        else some (h, h.listFirst (availableOf m))).bind fun st =>
        if st.2 = NULL then some (st.1, NULL) else some (st.1.managerTake m st.2 size) := by
  have hgo : ¬(m = NULL ∨ size > (h.manager m).esize) := by
    rw [M.pools.esize, not_or]
    exact ⟨M.pools.laid.manager_bound.1, Nat.not_lt.mpr hsize⟩
  simp only [Heap.managerAlloc, if_neg hgo, M.pools.laid.addWord_available]
  split
  · rfl
  · rfl

/-- Without an available pool, one is added. -/
theorem Managed.managerAlloc_grow (M : Managed esize count m g h) (hsize : size ≤ esize) (hav : g.avail = [])
    (elm? room? : Nat) : h.managerAlloc elm? room? m size = (h.managerGrow elm? room? m).bind fun st =>
      if st.2 = NULL then some (st.1, NULL) else some (st.1.managerTake m st.2 size) := by
  rw [M.managerAlloc_eq hsize, M.listed.listFirst_available M.pools.laid, hav]
  rfl

/-- The element comes from the first available pool. -/
theorem Managed.managerAlloc_take (M : Managed esize count m g h) (hsize : size ≤ esize) (hav : g.avail = e :: av)
    (elm? room? : Nat) : h.managerAlloc elm? room? m size = some (h.managerTake m (linkOf e) size) := by
  have hlink := M.pools.laid.link_ne_null (M.listed.subset (by rw [hav]; exact List.mem_cons_self))
  rw [M.managerAlloc_eq hsize, M.listed.listFirst_available M.pools.laid, hav]
  simp only [List.map_cons, List.head?_cons, Option.getD_some, if_neg hlink, Option.bind_some]

theorem Managed.take_none (M : Managed esize count m g h) (he : e ∈ g.pools) (hfree : g.free e = []) (size : Nat) :
    h.managerTake m (linkOf e) size = (h, NULL) := by
  have hnone : h.poolAlloc (poolOf e) size = (h, NULL) := (M.pools.pool e he).poolAlloc_none (Or.inl hfree)
  simp only [Heap.managerTake, M.pools.laid.subWord_link he, M.pools.laid.addWord_pool he, hnone, ↓reduceIte]

/-- Taking an element from the first available pool. -/
theorem Managed.take_returns (M : Managed esize count m g h) (O : Outstanding esize count g out) (hav : g.avail = e :: av)
    (hsize : size ≤ esize) :
    ∃ h' r g', h.managerTake m (linkOf e) size = (h', r) ∧ Managed esize count m g' h' ∧ g'.pools = g.pools ∧
      (r = NULL ∧ Outstanding esize count g' out ∨
        r ≠ NULL ∧ size ≤ esize ∧ r ∉ out ∧ Outstanding esize count g' (r :: out)) := by
  have he : e ∈ g.pools := M.listed.subset (by simp [hav])
  have P := M.pools.pool e he
  cases hfree : g.free e with
  | nil => exact ⟨h, NULL, g, M.take_none he hfree size, M, rfl, Or.inl ⟨rfl, O⟩⟩
  | cons x fl =>
    obtain ⟨h', hrun, M'⟩ := M.take hav hfree hsize
    rw [hfree] at P
    obtain ⟨hnew, O'⟩ := O.take M.pools.laid he hfree (P.subset (by simp)) P.nodup
    exact ⟨h', _, _, hrun, M', rfl, Or.inr ⟨Nat.ne_of_gt (Nat.add_pos_right _ (by decide)), hsize, hnew, O'⟩⟩

/-- `qp_manager_alloc`: it returns `NULL`, or a new pointer. -/
theorem Managed.managerAlloc (M : Managed esize count m g h) (hlt : (esize + sizeofPoolElm) * count < 2 ^ 64)
    (O : Outstanding esize count g out) (elm? room? : Nat) (size : Nat) :
    ∃ h' r g', h.managerAlloc elm? room? m size = some (h', r) ∧ Managed esize count m g' h' ∧ g.pools ⊆ g'.pools ∧
      (r = NULL ∧ Outstanding esize count g' out ∨
        r ≠ NULL ∧ size ≤ esize ∧ r ∉ out ∧ Outstanding esize count g' (r :: out)) := by
  by_cases hsize : size > esize
  · exact ⟨h, NULL, g, M.managerAlloc_big hsize elm? room?, M, List.Subset.refl _, Or.inl ⟨rfl, O⟩⟩
  have hsize' : size ≤ esize := Nat.le_of_not_lt hsize
  cases hav : g.avail with
  | nil =>
    rw [M.managerAlloc_grow hsize' hav]
    by_cases hmem : h.Fresh (elmBlock elm?) ∧
        Heap.Fresh { h with live := elmBlock elm? :: h.live } (roomBlock esize count room?)
    · obtain ⟨h₁, hgrow, M₁⟩ := M.grow_some hlt hmem.1 hmem.2
      have hmem' : elm? ∈ (g.add esize count elm? room?).pools := by simp [Slabs.add]
      have hlink := M₁.pools.laid.link_ne_null hmem'
      have O₁ : Outstanding esize count (g.add esize count elm? room?) out := O.add (M.pools.notMem_of_fresh hmem.1)
      obtain ⟨h', r, g', hrun, M', hpools, hout⟩ :=
        M₁.take_returns O₁ (show (g.add esize count elm? room?).avail = elm? :: g.avail from rfl) hsize'
      refine ⟨h', r, g', ?_, M', by rw [hpools]; exact List.subset_cons_self _ _, hout⟩
      simp only [hgrow, Option.bind_some, if_neg hlink, hrun]
    · obtain ⟨h₁, hgrow, M₁⟩ := M.grow_none hlt hmem
      exact ⟨h₁, NULL, g, by simp [hgrow], M₁, List.Subset.refl _, Or.inl ⟨rfl, O⟩⟩
  | cons e av =>
    obtain ⟨h', r, g', hrun, M', hpools, hout⟩ := M.take_returns O hav hsize'
    exact ⟨h', r, g', by rw [M.managerAlloc_take hsize' hav, hrun], M', by rw [hpools]; exact List.Subset.refl _, hout⟩

end QPHi
