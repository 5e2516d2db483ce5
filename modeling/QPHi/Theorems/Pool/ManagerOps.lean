import QPHi.Theorems.Pool.Manager

/-! `qp_manager_alloc` and `qp_manager_free` on the pools of a manager. -/

namespace QPHi
open Chain

variable {h h' : Heap} {esize count size m e x p : Nat} {fl av out : List Nat} {g g' : Slabs}

/-! ### Addresses -/

namespace Laid
variable (L : Laid esize count m g.pools g.room)
include L

theorem addWord_available : addWord m offsetofAvailable = availableOf m := by
  obtain ⟨-, hlt⟩ := L.manager_bound
  refine addWord_of_lt ?_
  simp only [sizeofManager, offsetofAvailable] at hlt ⊢
  omega

theorem available_ne_null : availableOf m ≠ NULL := by
  obtain ⟨hm, -⟩ := L.manager_bound
  have hm : m ≠ 0 := hm
  show m + offsetofAvailable ≠ 0
  omega

theorem addWord_link (he : e ∈ g.pools) : addWord e offsetofLink = linkOf e := by
  obtain ⟨-, hlt⟩ := L.elm_bound e he
  refine addWord_of_lt ?_
  simp only [sizeofManagerElm, offsetofLink] at hlt ⊢
  omega

theorem addWord_pool (he : e ∈ g.pools) : addWord e offsetofPool = poolOf e := by
  obtain ⟨-, hlt⟩ := L.elm_bound e he
  refine addWord_of_lt ?_
  simp only [sizeofManagerElm, offsetofPool] at hlt ⊢
  omega

theorem subWord_link (he : e ∈ g.pools) : subWord (linkOf e) offsetofLink = e := by
  obtain ⟨-, hlt⟩ := L.elm_bound e he
  simp only [sizeofManagerElm] at hlt
  rw [linkOf, subWord_of_le (by rw [offsetofLink]; omega) (Nat.le_add_left _ _), Nat.add_sub_cancel]

theorem subWord_pool (he : e ∈ g.pools) : subWord (poolOf e) offsetofPool = e := by
  obtain ⟨-, hlt⟩ := L.elm_bound e he
  simp only [sizeofManagerElm] at hlt
  rw [poolOf, subWord_of_le (by rw [offsetofPool]; omega) (Nat.le_add_left _ _), Nat.add_sub_cancel]

theorem link_ne_null (he : e ∈ g.pools) : linkOf e ≠ NULL := by
  obtain ⟨he0, -⟩ := L.elm_bound e he
  have he0 : e ≠ 0 := he0
  show e + offsetofLink ≠ 0
  omega

end Laid

theorem Listed.listFirst_available (L : Laid esize count m g.pools g.room) (H : Listed m g.pools av h) :
    h.listFirst (availableOf m) = (av.map linkOf).head?.getD NULL := by
  have hself : h.listIsEmpty (availableOf m) = decide (av = []) := by
    rw [Heap.listIsEmpty, if_neg L.available_ne_null]
    refine decide_eq_decide.mpr (eq_comm.trans ((H.ring.next_eq_self_iff (H.available_notMem L)).trans ?_))
    rw [List.map_eq_nil_iff]
  cases av with
  | nil => simp [Heap.listFirst, hself]
  | cons a av => simp [Heap.listFirst, hself, H.ring.next_eq]

theorem Pools.setAvail (H : Pools esize count m g h) (av : List Nat) : Pools esize count m { g with avail := av } h :=
  ⟨H.laid, H.manager_live, H.elm_live, H.room_live, H.queue, H.pool, H.alloced, H.owner, H.poolCount, H.esize, H.ecount⟩

/-! ### Taking an element -/

/-- The pools after the first element of the first available pool is taken. -/
def Slabs.take (g : Slabs) (e : Nat) (fl : List Nat) : Slabs :=
  { g.setFree e fl with avail := if fl = [] then g.avail.tail else g.avail }

theorem Managed.take (M : Managed esize count m g h) (hav : g.avail = e :: av) (hfree : g.free e = x :: fl)
    (hsize : size ≤ esize) :
    ∃ h', h.managerTake m (linkOf e) size = (h', x + sizeofPoolElm) ∧ Managed esize count m (g.take e fl) h' := by
  have L := M.pools.laid
  have he : e ∈ g.pools := M.listed.subset (by simp [hav])
  have hcount : count ≠ 0 := by
    have hlen := (M.pools.pool e he).length_le
    rw [hfree, List.length_cons] at hlen
    omega
  have H := M.pools.pool e he
  rw [hfree] at H
  obtain ⟨h₁, halloc, H₁, S⟩ := H.poolAlloc_some (L.placed he) hsize
  have hpools := M.pools.steps he S H₁
  have hlisted := M.listed.steps L he S
  have hptr : x + sizeofPoolElm ≠ NULL := Nat.ne_of_gt (Nat.add_pos_right _ (by decide))
  have hcard : freeCount (g.setFree e fl) + 1 = freeCount g := by
    have := freeCount_setFree fl L.nodup he
    rw [hfree, List.length_cons] at this
    omega
  have hlt : freeCount g < 2 ^ 64 := Nat.lt_of_le_of_lt M.pools.freeCount_le L.length_mul_count_lt
  have hnfree : subWord (h₁.manager m).nfree 1 = freeCount (g.setFree e fl) := by
    rw [S.manager, M.nfree, subWord_of_le hlt (by omega)]
    omega
  obtain ⟨h₂, hh₂⟩ : ∃ h₂, h₂ = h₁.setManager m fun m => { m with nfree := subWord m.nfree 1 } := ⟨_, rfl⟩
  have hm₂ : h₂.manager m = { h₁.manager m with nfree := freeCount (g.setFree e fl) } := by
    rw [hh₂, ← hnfree]
    exact Function.update_self _ _ _
  have hnext₂ : h₂.next = h₁.next := by rw [hh₂]; rfl
  have hpools₂ : Pools esize count m (g.setFree e fl) h₂ := by
    refine hpools.congr ?_ ?_ ?_ ?_ ?_ ?_ (fun a _ _ => by rw [hnext₂]) (by rw [hm₂]) (by rw [hm₂]) (by rw [hm₂])
    all_goals rw [hh₂]; rfl
  have hlisted₂ : Listed m g.pools g.avail h₂ := hlisted.congr hnext₂
  have havail₂ : ∀ a ∈ g.pools, a ≠ e → (a ∈ g.avail ↔ (g.setFree e fl).free a ≠ [] ∨ count = 0) := by
    intro a ha hae
    simp only [Slabs.setFree, Function.update_of_ne hae]
    exact M.avail a ha
  have hself : (g.setFree e fl).free e = fl := Function.update_self _ _ _
  have htake : h.managerTake m (linkOf e) size =
      if h₂.poolAvailable (poolOf e) < 1 then ((h₂.listPop (availableOf m)).listInit (linkOf e), x + sizeofPoolElm)
      else (h₂, x + sizeofPoolElm) := by
    simp only [Heap.managerTake, L.subWord_link he, L.addWord_pool he, halloc, if_neg hptr, ← hh₂, L.addWord_available,
      L.addWord_link he]
  have hfew : h₂.poolAvailable (poolOf e) = fl.length := by
    have := (hpools₂.pool e he).nfree
    rwa [hself] at this
  cases fl with
  | nil =>
    obtain ⟨h₃, hh₃⟩ : ∃ h₃, h₃ = (h₂.listPop (availableOf m)).listInit (linkOf e) := ⟨_, rfl⟩
    have hh₃' : h₃ = { h₂ with next := Function.update (Function.update h₂.next (availableOf m)
        (h₂.next (h₂.next (availableOf m)))) (linkOf e) (linkOf e) } := by
      rw [hh₃, Heap.listPop, if_neg L.available_ne_null, Heap.listInit, if_neg (L.link_ne_null he)]
    refine ⟨h₃, by rw [htake, if_pos (by rw [hfew]; decide), ← hh₃], ?_, ?_, fun a ha => ?_, ?_⟩
    · have hpools₃ : Pools esize count m (g.setFree e []) h₃ := by
        refine hpools₂.congr ?_ ?_ ?_ ?_ ?_ ?_ (fun a ha hal => ?_) ?_ ?_ ?_
        all_goals rw [hh₃']
        simp only [Function.update_of_ne (hal e he), Function.update_of_ne ha]
      exact hpools₃.setAvail _
    · rw [hav] at hlisted₂
      have hpop : Listed m g.pools av h₃ := hlisted₂.pop L (by rw [hh₃'])
      simpa [Slabs.take, Slabs.setFree, hav] using hpop
    · have hnd := M.listed.nodup
      rw [hav, List.nodup_cons] at hnd
      simp only [Slabs.take, if_true, hav, List.tail_cons]
      by_cases hae : a = e
      · subst hae
        rw [hself]
        simp [hnd.1, hcount]
      · have := havail₂ a ha hae
        rw [hav, List.mem_cons] at this
        rw [← this]
        exact ⟨Or.inr, fun hor => hor.resolve_left hae⟩
    · rw [hh₃', hm₂]
      rfl
  | cons y fl =>
    refine ⟨h₂, by rw [htake, if_neg (by rw [hfew, List.length_cons]; omega)], ?_, ?_, fun a ha => ?_, ?_⟩
    · exact hpools₂.setAvail _
    · simpa [Slabs.take, Slabs.setFree] using hlisted₂
    · simp only [Slabs.take, reduceCtorEq, if_false]
      by_cases hae : a = e
      · subst hae
        rw [hself, hav]
        simp
      · exact havail₂ a ha hae
    · rw [hm₂]
      rfl

/-- The pointer to the element is new. -/
theorem Outstanding.take (L : Laid esize count m g.pools g.room) (O : Outstanding esize count g out) (he : e ∈ g.pools)
    (hfree : g.free e = x :: fl) (hx : x ∈ elements esize count (g.room e)) (hnd : (x :: fl).Nodup) :
    x + sizeofPoolElm ∉ out ∧ Outstanding esize count (g.take e fl) ((x + sizeofPoolElm) :: out) := by
  obtain ⟨hndo, hiff⟩ := O
  have hnew : x + sizeofPoolElm ∉ out := by
    intro hm
    obtain ⟨a, ha, y, hy, hny, heq⟩ := (hiff _).mp hm
    obtain rfl : x = y := Nat.add_right_cancel heq
    by_cases hae : a = e
    · subst hae
      exact hny (by rw [hfree]; simp)
    · exact L.elements_disjoint he ha (fun e' => hae e'.symm) hx hy
  refine ⟨hnew, List.nodup_cons.mpr ⟨hnew, hndo⟩, fun q => ?_⟩
  rw [List.mem_cons, hiff q]
  constructor
  · rintro (rfl | ⟨a, ha, y, hy, hny, rfl⟩)
    · refine ⟨e, he, x, hx, ?_, rfl⟩
      simp only [Slabs.take, Slabs.setFree, Function.update_self]
      exact (List.nodup_cons.mp hnd).1
    · refine ⟨a, ha, y, hy, ?_, rfl⟩
      simp only [Slabs.take, Slabs.setFree]
      by_cases hae : a = e
      · subst hae
        rw [Function.update_self]
        exact fun hm => hny (by rw [hfree]; exact List.mem_cons_of_mem x hm)
      · rw [Function.update_of_ne hae]
        exact hny
  · rintro ⟨a, ha, y, hy, hny, rfl⟩
    simp only [Slabs.take, Slabs.setFree] at hny
    by_cases hyx : y = x
    · exact Or.inl (by rw [hyx])
    · refine Or.inr ⟨a, ha, y, hy, ?_, rfl⟩
      by_cases hae : a = e
      · subst hae
        rw [Function.update_self] at hny
        rw [hfree, List.mem_cons, not_or]
        exact ⟨hyx, hny⟩
      · rwa [Function.update_of_ne hae] at hny

/-! ### Giving an element back -/

theorem Listed.listFirst_link (L : Laid esize count m g.pools g.room) (H : Listed m g.pools av h) (he : e ∈ g.pools) :
    h.listFirst (linkOf e) = NULL ↔ e ∉ av := by
  have hfirst : h.listFirst (linkOf e) = if linkOf e = h.next (linkOf e) then NULL else h.next (linkOf e) := by
    simp [Heap.listFirst, Heap.listIsEmpty, L.link_ne_null he]
  rw [hfirst]
  constructor
  · intro hnull hmem
    have hlink : linkOf e ∈ av.map linkOf := Listed.linkOf_mem_map.mpr hmem
    have hnd : (availableOf m :: av.map linkOf).Nodup := by
      refine List.nodup_cons.mpr ⟨H.available_notMem L, H.nodup.map fun a b hab => Nat.add_right_cancel hab⟩
    rw [if_neg fun heq => H.ring.next_ne_self hnd hlink heq.symm] at hnull
    have hmem' := H.ring.next_mem hlink
    rw [hnull] at hmem'
    rcases List.mem_cons.mp hmem' with heq | hmem'
    · exact L.available_ne_null heq.symm
    · obtain ⟨a, ha, heq⟩ := List.mem_map.mp hmem'
      exact L.link_ne_null (H.subset ha) heq
  · intro hnot
    rw [if_pos (H.idle e he hnot).symm]

/-- The pools after the element `x` is given back to the pool of `e`, which is not given up. -/
def Slabs.give (g : Slabs) (e x : Nat) : Slabs :=
  { g.setFree e (x :: g.free e) with avail := if e ∈ g.avail then g.avail else e :: g.avail }

/-- The pools without the pool of `e`. -/
def Slabs.drop (g : Slabs) (e : Nat) : Slabs := { g with pools := g.pools.erase e, avail := g.avail.erase e }

theorem Slabs.mem_drop {a : Nat} (hnd : g.pools.Nodup) (ha : a ∈ (g.drop e).pools) : a ∈ g.pools ∧ a ≠ e :=
  (hnd.mem_erase_iff.mp ha).symm

theorem Outstanding.give (L : Laid esize count m g.pools g.room) (O : Outstanding esize count g out) (he : e ∈ g.pools)
    (hx : x ∈ elements esize count (g.room e)) (hout : x ∉ g.free e) :
    Outstanding esize count (g.give e x) (out.erase (x + sizeofPoolElm)) := by
  obtain ⟨hnd, hiff⟩ := O
  refine ⟨hnd.erase _, fun q => ?_⟩
  rw [hnd.mem_erase_iff, hiff q]
  constructor
  · rintro ⟨hne, a, ha, y, hy, hny, rfl⟩
    refine ⟨a, ha, y, hy, ?_, rfl⟩
    simp only [Slabs.give, Slabs.setFree]
    by_cases hae : a = e
    · subst hae
      rw [Function.update_self, List.mem_cons, not_or]
      exact ⟨fun heq => hne (by rw [heq]), hny⟩
    · rwa [Function.update_of_ne hae]
  · rintro ⟨a, ha, y, hy, hny, rfl⟩
    simp only [Slabs.give, Slabs.setFree] at hny
    by_cases hae : a = e
    · subst hae
      rw [Function.update_self, List.mem_cons, not_or] at hny
      exact ⟨fun heq => hny.1 (Nat.add_right_cancel heq), a, ha, y, hy, hny.2, rfl⟩
    · rw [Function.update_of_ne hae] at hny
      refine ⟨fun heq => ?_, a, ha, y, hy, hny, rfl⟩
      obtain rfl : y = x := Nat.add_right_cancel heq
      exact L.elements_disjoint ha he hae hy hx

/-- A pool whose elements are all free holds no outstanding pointer. -/
theorem Outstanding.drop (hnd : g.pools.Nodup) (O : Outstanding esize count g out)
    (hfull : elements esize count (g.room e) ⊆ g.free e) : Outstanding esize count (g.drop e) out := by
  refine ⟨O.1, fun q => ?_⟩
  rw [O.2 q]
  constructor
  · rintro ⟨a, ha, y, hy, hny, rfl⟩
    refine ⟨a, (hnd.mem_erase_iff).mpr ⟨?_, ha⟩, y, hy, hny, rfl⟩
    rintro rfl
    exact hny (hfull hy)
  · rintro ⟨a, ha, y, hy, hny, rfl⟩
    exact ⟨a, List.mem_of_mem_erase ha, y, hy, hny, rfl⟩

/-- What `qp_manager_free` does before it looks at the lists. -/
theorem Managed.give (M : Managed esize count m g h) (he : e ∈ g.pools) (hx : x ∈ elements esize count (g.room e))
    (hout : x ∉ g.free e) :
    ∃ h₁ h₂, h.poolFree (poolOf e) (x + sizeofPoolElm) = (h₁, QP_SUCCESS) ∧
      h₂ = h₁.setManager m (fun m => { m with nfree := addWord m.nfree 1 }) ∧
      Pools esize count m (g.setFree e (x :: g.free e)) h₂ ∧ Listed m g.pools g.avail h₂ ∧
      (h₂.manager m).nfree = freeCount (g.setFree e (x :: g.free e)) := by
  have L := M.pools.laid
  obtain ⟨h₁, hfree, H₁, S⟩ := (M.pools.pool e he).poolFree_some (L.placed he) hx hout
  have hpools := M.pools.steps he S H₁
  have hlt : freeCount (g.setFree e (x :: g.free e)) < 2 ^ 64 :=
    Nat.lt_of_le_of_lt hpools.freeCount_le L.length_mul_count_lt
  have hcard : freeCount (g.setFree e (x :: g.free e)) = freeCount g + 1 := by
    have := freeCount_setFree (x :: g.free e) L.nodup he
    rw [List.length_cons] at this
    omega
  have hnfree : addWord (h₁.manager m).nfree 1 = freeCount (g.setFree e (x :: g.free e)) := by
    rw [S.manager, M.nfree, addWord_of_lt (by omega), hcard]
  refine ⟨h₁, _, hfree, rfl, ?_, ?_, ?_⟩
  · refine hpools.congr rfl rfl rfl rfl rfl rfl (fun _ _ _ => rfl) ?_ ?_ ?_
    all_goals simp only [Heap.setManager, Function.update_self]
  · exact (M.listed.steps L he S).congr rfl
  · simp only [Heap.setManager, Function.update_self, hnfree]

/-! ### Giving up a pool -/

theorem free_of_live {b : Block} (hb : b ∈ h.live) (h0 : b.1 ≠ NULL) :
    h.free b.1 = some { h with live := h.live.filter (·.1 ≠ b.1) } := by
  rw [Heap.free, if_neg h0, if_pos ⟨b, hb, rfl⟩]

theorem Apart.ne {b b' : Block} (hap : Apart b b') (hb : 0 < b.2) (hb' : 0 < b'.2) : b.1 ≠ b'.1 := by
  rcases hap with hap | hap
  · omega
  · omega

theorem roomSize_pos : 0 < roomSize esize count := Nat.lt_of_lt_of_le Nat.zero_lt_one (Nat.le_max_right _ _)

section
variable (L : Laid esize count m g.pools g.room) {e' : Nat}
include L

theorem Laid.manager_ne_elm (he : e ∈ g.pools) : m ≠ e := (L.available_ne he).2.2

theorem Laid.manager_ne_room (he : e ∈ g.pools) : m ≠ g.room e := (L.manager_room e he).ne (Nat.succ_pos 63) roomSize_pos

theorem Laid.elm_ne_room (he : e ∈ g.pools) (he' : e' ∈ g.pools) : e ≠ g.room e' :=
  (L.elm_room e he e' he').ne (Nat.succ_pos 87) roomSize_pos

theorem Laid.room_ne_room (he : e ∈ g.pools) (he' : e' ∈ g.pools) (hne : e ≠ e') : g.room e ≠ g.room e' :=
  (L.room_room e he e' he' hne).ne roomSize_pos roomSize_pos

theorem Laid.nodup_cons : (m :: g.pools).Nodup := List.nodup_cons.mpr ⟨fun hm => L.manager_ne_elm hm rfl, L.nodup⟩

end

theorem Laid.drop (L : Laid esize count m g.pools g.room) : Laid esize count m (g.drop e).pools (g.drop e).room := by
  have hsub : ∀ a ∈ g.pools.erase e, a ∈ g.pools := fun a ha => List.mem_of_mem_erase ha
  exact ⟨L.nodup.erase e, L.manager_bound, fun a ha => L.elm_bound a (hsub a ha), fun a ha => L.room_bound a (hsub a ha),
    fun a ha => L.manager_elm a (hsub a ha), fun a ha => L.manager_room a (hsub a ha),
    fun a ha b hb => L.elm_elm a (hsub a ha) b (hsub b hb), fun a ha b hb => L.elm_room a (hsub a ha) b (hsub b hb),
    fun a ha b hb => L.room_room a (hsub a ha) b (hsub b hb)⟩

/-- `qp_pool_destroy` on a pool in a structure of the caller. -/
theorem poolDestroy_inPlace {b : Block} {force : Bool} (hp : p ≠ NULL) (hinited : (h.pool p).isInited = true)
    (halloced : (h.pool p).isAlloced = false) (hroom : (h.pool p).room = b.1) (hb : b ∈ h.live) (h0 : b.1 ≠ NULL)
    (hforce : force = true ∨ (h.pool p).nfree = (h.pool p).nsize) :
    h.poolDestroy p force = some ({ h with
      live := h.live.filter (·.1 ≠ b.1)
      pool := Function.update h.pool p { h.pool p with room := NULL, isInited := false } }, QP_SUCCESS) := by
  have hgo : ¬((!force) = true ∧ (h.pool p).nfree ≠ (h.pool p).nsize) := by
    rintro ⟨hf, hne⟩
    rcases hforce with rfl | heq
    · cases hf
    · exact hne heq
  simp only [Heap.poolDestroy, hp, ne_eq, not_false_eq_true, hinited, and_self, ↓reduceIte, if_neg hgo, hroom,
    free_of_live hb h0, Option.bind_eq_bind, Option.bind_some, Heap.setPool, Function.update_self, halloced,
    Bool.false_eq_true, Function.update_idem, Option.pure_def]

/-- The memory after the pool of `e`, the first available one, is given up. -/
structure Shrunk (m e room : Nat) (h h' : Heap) : Prop where
  next : h'.next = Function.update h.next (availableOf m) (h.next (h.next (availableOf m)))
  qprev : h'.qprev = Function.update h.qprev (h.qnext e) (h.qprev e)
  qnext : h'.qnext = Function.update h.qnext (h.qprev e) (h.qnext e)
  root : h'.root = h.root
  pool : ∀ p, p ≠ poolOf e → h'.pool p = h.pool p
  owner : h'.owner = h.owner
  manager : h'.manager m = { h.manager m with
    poolCount := subWord (h.manager m).poolCount 1, nfree := subWord (h.manager m).nfree (h.manager m).ecount }
  live : h'.live = (h.live.filter (·.1 ≠ room)).filter (·.1 ≠ e)

theorem Pools.shrunk (H : Pools esize count m g h) (he : e ∈ g.pools) :
    ∃ h', h.managerShrink m e (poolOf e) = some h' ∧ Shrunk m e (g.room e) h h' := by
  have L := H.laid
  obtain ⟨he0, -⟩ := L.elm_bound e he
  obtain ⟨hr0, -⟩ := L.room_bound e he
  have hne : e ≠ g.room e := L.elm_ne_room he he
  have hnd := L.nodup_cons
  have hself : h.qnext e ≠ e := H.queue.forth.next_ne_self hnd he
  have P := H.pool e he
  have hp0 := (L.placed he).pool_ne
  obtain ⟨h₁, hh₁⟩ : ∃ h₁ : Heap, h₁ = { h with
      next := Function.update h.next (availableOf m) (h.next (h.next (availableOf m)))
      qprev := Function.update h.qprev (h.qnext e) (h.qprev e)
      qnext := Function.update h.qnext (h.qprev e) (h.qnext e) } := ⟨_, rfl⟩
  have hremove : (h.listPop (addWord m offsetofAvailable)).queueRemove e = h₁ := by
    rw [L.addWord_available, Heap.listPop, if_neg L.available_ne_null, Heap.queueRemove, if_neg he0, hh₁]
    simp only [Function.update_of_ne hself.symm]
  obtain ⟨h₂, hh₂⟩ : ∃ h₂ : Heap, h₂ = { h₁ with
      live := h₁.live.filter (·.1 ≠ g.room e)
      pool := Function.update h₁.pool (poolOf e) { h₁.pool (poolOf e) with room := NULL, isInited := false } } :=
    ⟨_, rfl⟩
  have hdestroy : h₁.poolDestroy (poolOf e) true = some (h₂, QP_SUCCESS) := by
    have hpool : h₁.pool (poolOf e) = h.pool (poolOf e) := by rw [hh₁]
    rw [hh₂]
    refine poolDestroy_inPlace (b := roomBlock esize count (g.room e)) hp0 ?_ ?_ ?_ ?_ hr0 (.inl rfl)
    · rw [hpool]
      exact P.inited
    · rw [hpool]
      exact H.alloced e he
    · rw [hpool]
      exact P.room
    · rw [hh₁]
      exact H.room_live e he
  have hfree : h₂.free e = some { h₂ with live := h₂.live.filter (·.1 ≠ e) } := by
    refine free_of_live (b := elmBlock e) ?_ he0
    rw [hh₂, hh₁]
    exact List.mem_filter.mpr ⟨H.elm_live e he, decide_eq_true hne⟩
  refine ⟨({ h₂ with live := h₂.live.filter (·.1 ≠ e) }.setManager m fun m =>
      { m with poolCount := subWord m.poolCount 1 }).setManager m fun m => { m with nfree := subWord m.nfree m.ecount },
    ?_, ?_⟩
  · simp only [Heap.managerShrink, hremove, hdestroy, hfree, Option.bind_eq_bind, Option.bind_some, Option.pure_def]
  · refine ⟨by rw [hh₂, hh₁]; rfl, by rw [hh₂, hh₁]; rfl, by rw [hh₂, hh₁]; rfl, by rw [hh₂, hh₁]; rfl, fun p hp => ?_,
      by rw [hh₂, hh₁]; rfl, ?_, by rw [hh₂, hh₁]; rfl⟩
    · simp only [Heap.setManager, hh₂, Function.update_of_ne hp]
      rw [hh₁]
    · simp only [Heap.setManager, Function.update_self, hh₂]
      rw [hh₁]

theorem mem_filter_live {b : Block} {q : Nat} {l : List Block} (hb : b ∈ l) (hne : b.1 ≠ q) : b ∈ l.filter (·.1 ≠ q) :=
  List.mem_filter.mpr ⟨hb, decide_eq_true hne⟩

theorem Pools.drop (H : Pools esize count m g h) (he : e ∈ g.pools) (S : Shrunk m e (g.room e) h h') :
    Pools esize count m (g.drop e) h' := by
  have L := H.laid
  have hnd := L.nodup_cons
  have hsub : ∀ a ∈ (g.drop e).pools, a ∈ g.pools ∧ a ≠ e := fun a ha => Slabs.mem_drop L.nodup ha
  have hpool : ∀ a ∈ (g.drop e).pools, h'.pool (poolOf a) = h.pool (poolOf a) :=
    fun a ha => S.pool _ fun heq => (hsub a ha).2 (Nat.add_right_cancel heq)
  refine ⟨L.drop, ?_, fun a ha => ?_, fun a ha => ?_, ?_, fun a ha => ?_, fun a ha => ?_, fun a ha => ?_, ?_, ?_, ?_⟩
  · rw [S.live]
    refine mem_filter_live (mem_filter_live H.manager_live ?_) ?_
    · exact L.manager_ne_room he
    · exact L.manager_ne_elm he
  · obtain ⟨ha, hae⟩ := hsub a ha
    rw [S.live]
    refine mem_filter_live (mem_filter_live (H.elm_live a ha) ?_) ?_
    · exact L.elm_ne_room ha he
    · exact hae
  · obtain ⟨ha, hae⟩ := hsub a ha
    rw [S.live]
    refine mem_filter_live (mem_filter_live (H.room_live a ha) ?_) ?_
    · exact L.room_ne_room ha he hae
    · exact (L.elm_ne_room he ha).symm
  · obtain ⟨l₁, l₂, hsplit⟩ := List.append_of_mem he
    have hnotin : e ∉ l₁ := by
      have hnd' := L.nodup
      rw [hsplit, List.nodup_append'] at hnd'
      exact fun hm => hnd'.2.2 hm (by simp)
    have herase : (g.drop e).pools = l₁ ++ l₂ := by
      rw [Slabs.drop, hsplit, List.erase_append_right _ hnotin, List.erase_cons_head]
    have hq := H.queue
    rw [hsplit] at hq hnd
    rw [S.qnext, S.qprev, herase]
    exact hq.remove hnd
  · obtain ⟨ha', hae⟩ := hsub a ha
    refine (H.pool a ha').frame (hpool a ha) (fun y hy => ?_) fun x _ => by rw [S.root]
    have hne : y ≠ availableOf m := by
      rintro rfl
      rcases hy with heq | hy
      · exact (L.available_ne ha').2.1 heq
      · exact L.available_notMem_elements ha' hy
    rw [S.next, Function.update_of_ne hne]
  · rw [hpool a ha]
    exact H.alloced a (hsub a ha).1
  · rw [S.owner]
    exact H.owner a (hsub a ha).1
  · have hlen := List.length_erase_of_mem he
    have hpos' := List.length_pos_of_mem he
    rw [S.manager]
    simp only [H.poolCount, Slabs.drop]
    rw [hlen, subWord_of_le L.length_pools_lt hpos']
  · rw [S.manager]
    exact H.esize
  · rw [S.manager]
    exact H.ecount

theorem freeCount_drop (he : e ∈ g.pools) : freeCount (g.drop e) + (g.free e).length = freeCount g := by
  have hperm : (g.pools.map fun a => (g.free a).length).Perm ((e :: g.pools.erase e).map fun a => (g.free a).length) :=
    (List.perm_cons_erase he).map _
  rw [freeCount, freeCount, hperm.sum_nat, List.map_cons, List.sum_cons, Nat.add_comm]
  rfl

/-- The first available pool is given up once all its elements are free. -/
theorem Managed.shrink (M : Managed esize count m g h) (hav : g.avail = e :: av) (hfull : (g.free e).length = count) :
    ∃ h', h.managerShrink m e (poolOf e) = some h' ∧ Managed esize count m (g.drop e) h' := by
  have L := M.pools.laid
  have he : e ∈ g.pools := M.listed.subset (by simp [hav])
  obtain ⟨h', hshrink, S⟩ := M.pools.shrunk he
  have hnd := M.listed.nodup
  rw [hav, List.nodup_cons] at hnd
  have herase : (g.drop e).avail = av := by rw [Slabs.drop, hav, List.erase_cons_head]
  have hsub : ∀ a ∈ (g.drop e).pools, a ∈ g.pools ∧ a ≠ e := fun a ha => Slabs.mem_drop L.nodup ha
  refine ⟨h', hshrink, M.pools.drop he S, ?_, fun a ha => ?_, ?_⟩
  · have H := M.listed
    rw [hav] at H
    have hring : Ring _ (availableOf m) (av.map linkOf) := Ring.pop H.ring (H.available_notMem L)
    rw [herase]
    refine ⟨by rw [S.next]; exact hring, hnd.2, fun a ha => ?_, fun a ha hna => ?_⟩
    · exact (L.nodup.mem_erase_iff).mpr ⟨fun heq => hnd.1 (heq ▸ ha), H.subset (List.mem_cons_of_mem e ha)⟩
    · obtain ⟨ha, hae⟩ := hsub a ha
      rw [S.next, Function.update_of_ne (L.available_ne ha).1.symm]
      refine H.idle a ha ?_
      rw [List.mem_cons, not_or]
      exact ⟨hae, hna⟩
  · obtain ⟨ha, hae⟩ := hsub a ha
    have := M.avail a ha
    rw [hav, List.mem_cons] at this
    rw [herase]
    exact ⟨fun hm => this.mp (Or.inr hm), fun hor => (this.mpr hor).resolve_left hae⟩
  · have hcard := freeCount_drop he
    have hlt : freeCount g < 2 ^ 64 := Nat.lt_of_le_of_lt M.pools.freeCount_le L.length_mul_count_lt
    rw [S.manager]
    simp only [M.nfree, M.pools.ecount]
    rw [subWord_of_le hlt (by omega)]
    omega

/-- A pool without an element in use has all of them. -/
theorem Pools.unused (H : Pools esize count m g h) (he : e ∈ g.pools) (hused : h.poolUsed (poolOf e) < 1) :
    (g.free e).length = count ∧ elements esize count (g.room e) ⊆ g.free e := by
  have P := H.pool e he
  have hlen := P.length_le
  have hcount := (H.laid.placed he).count_lt
  have hfull : (g.free e).length = count := by
    rw [Heap.poolUsed, P.nsize, P.nfree, subWord_of_le hcount hlen] at hused
    omega
  have hperm := (List.subperm_of_subset P.nodup P.subset).perm_of_length_le (by rw [length_elements, hfull])
  exact ⟨hfull, fun y hy => hperm.symm.subset hy⟩

theorem Listed.head_of_listFirst (L : Laid esize count m g.pools g.room) (H : Listed m g.pools av h) (hmem : e ∈ av)
    (hfirst : linkOf e = h.listFirst (availableOf m)) : ∃ av', av = e :: av' := by
  rw [H.listFirst_available L] at hfirst
  cases av with
  | nil => cases hmem
  | cons a av => exact ⟨av, by rw [(Nat.add_right_cancel hfirst : e = a)]⟩

/-- `qp_manager_free` of an outstanding pointer. -/
theorem Managed.managerFree (M : Managed esize count m g h) (O : Outstanding esize count g out) (hp : p ∈ out) :
    ∃ h' g', h.managerFree m p = some (h', QP_SUCCESS) ∧ Managed esize count m g' h' ∧
      Outstanding esize count g' (out.erase p) ∧ g'.pools ⊆ g.pools ∧ g'.room = g.room := by
  obtain ⟨e, he, x, hx, hnx, rfl⟩ := (O.2 p).mp hp
  have L := M.pools.laid
  obtain ⟨h₁, h₂, hfree, hh₂, hpools, hlisted, hnfree⟩ := M.give he hx hnx
  have O' := O.give L he hx hnx
  have hbelong : Heap.poolBelongTo (x + sizeofPoolElm) = x := (L.placed he).belongTo hx
  have hm0 : ¬(m = NULL ∨ x + sizeofPoolElm = NULL) := by
    rw [not_or]
    exact ⟨L.manager_bound.1, Nat.ne_of_gt (Nat.add_pos_right _ (by decide))⟩
  have hstart : h.managerFree m (x + sizeofPoolElm) =
      if h₂.listFirst (linkOf e) = NULL then some (h₂.listPush (availableOf m) (linkOf e), QP_SUCCESS)
      else if h₂.poolUsed (poolOf e) < 1 ∧ linkOf e = h₂.listFirst (availableOf m) then
        (h₂.managerShrink m e (poolOf e)).bind fun h => some (h, QP_SUCCESS)
      else some (h₂, QP_SUCCESS) := by
    have howner : ¬h.owner e ≠ m := not_not.mpr (M.pools.owner e he)
    simp only [Heap.managerFree, if_neg hm0, hbelong, (M.pools.pool e he).root x hx, L.subWord_pool he, if_neg howner, hfree,
      ← hh₂, L.addWord_link he, L.addWord_available, Option.bind_eq_bind, Option.pure_def]
  rw [hstart]
  have hself : (g.setFree e (x :: g.free e)).free e = x :: g.free e := Function.update_self _ _ _
  have hother : ∀ a, a ≠ e → (g.setFree e (x :: g.free e)).free a = g.free a := fun a hae => Function.update_of_ne hae _ _
  by_cases hmem : e ∈ g.avail
  · -- The pool is on the list already.
    rw [if_neg fun hnull => (hlisted.listFirst_link L he).mp hnull hmem]
    have hgive : g.give e x = g.setFree e (x :: g.free e) := by simp [Slabs.give, hmem, Slabs.setFree]
    have M' : Managed esize count m (g.setFree e (x :: g.free e)) h₂ := by
      refine ⟨hpools, hlisted, fun a ha => ?_, hnfree⟩
      by_cases hae : a = e
      · rw [hae, hself]
        simpa [Slabs.setFree] using hmem
      · rw [hother a hae]
        exact M.avail a ha
    rw [hgive] at O'
    by_cases hdrop : h₂.poolUsed (poolOf e) < 1 ∧ linkOf e = h₂.listFirst (availableOf m)
    · rw [if_pos hdrop]
      obtain ⟨hfull, hall⟩ := hpools.unused he hdrop.1
      obtain ⟨av, hav⟩ := hlisted.head_of_listFirst L hmem hdrop.2
      obtain ⟨h₃, hshrink, M₃⟩ := M'.shrink (show (g.setFree e (x :: g.free e)).avail = e :: av from hav) hfull
      exact ⟨h₃, _, by rw [hshrink]; rfl, M₃, O'.drop L.nodup hall, List.erase_subset, rfl⟩
    · rw [if_neg hdrop]
      exact ⟨h₂, _, rfl, M', O', List.Subset.refl _, rfl⟩
  · -- The pool had no free element and becomes available.
    rw [if_pos ((hlisted.listFirst_link L he).mpr hmem)]
    have hgive : g.give e x = { g.setFree e (x :: g.free e) with avail := e :: g.avail } := by simp [Slabs.give, hmem]
    rw [hgive] at O'
    have hpush : h₂.listPush (availableOf m) (linkOf e) = { h₂ with
        next := Function.update (Function.update h₂.next (linkOf e) (h₂.next (availableOf m))) (availableOf m)
          (linkOf e) } := by
      rw [Heap.listPush, if_pos ⟨L.available_ne_null, L.link_ne_null he⟩]
    obtain ⟨h₃, hh₃⟩ : ∃ h₃, h₃ = h₂.listPush (availableOf m) (linkOf e) := ⟨_, rfl⟩
    rw [← hh₃]
    rw [hpush] at hh₃
    have hpools₃ : Pools esize count m (g.setFree e (x :: g.free e)) h₃ := by
      refine hpools.congr ?_ ?_ ?_ ?_ ?_ ?_ (fun a ha hal => ?_) ?_ ?_ ?_
      all_goals rw [hh₃]
      simp only [Function.update_of_ne ha, Function.update_of_ne (hal e he)]
    refine ⟨h₃, { g.setFree e (x :: g.free e) with avail := e :: g.avail }, rfl,
      ⟨hpools₃.setAvail _, hlisted.push L he hmem (by rw [hh₃]), fun a ha => ?_, by rw [hh₃]; exact hnfree⟩, O',
      List.Subset.refl _, rfl⟩
    by_cases hae : a = e
    · rw [hae]
      simp [hself]
    · have := M.avail a ha
      simp only [List.mem_cons, hae, false_or]
      rw [hother a hae]
      exact this

end QPHi
