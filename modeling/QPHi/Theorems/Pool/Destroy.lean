import QPHi.Theorems.Pool.Run

/-! `qp_manager_destroy`: when it refuses, and what it gives back. -/

namespace QPHi
open Chain Loop

variable {h h' : Heap} {esize count size m e p : Nat} {out : List Nat} {g : Slabs}

/-! ### An initialised manager stays initialised -/

/-- No manager is initialised or given up. -/
def SameInited (h h' : Heap) : Prop := ∀ a, (h'.manager a).isInited = (h.manager a).isInited

namespace SameInited

theorem refl (h : Heap) : SameInited h h := fun _ => rfl

variable {h₁ h₂ : Heap}

theorem trans (S : SameInited h h₁) (S' : SameInited h₁ h₂) : SameInited h h₂ := fun a => (S' a).trans (S a)

theorem keep (S : SameInited h h₁) (heq : h₂.manager = h₁.manager) : SameInited h h₂ := by
  intro a
  rw [heq]
  exact S a

theorem setManager {f : Manager → Manager} (S : SameInited h h₁) (hf : ∀ x, (f x).isInited = x.isInited) :
    SameInited h (h₁.setManager m f) := by
  intro a
  rw [← S a]
  by_cases ha : a = m
  · subst ha
    simp only [Heap.setManager, Function.update_self, hf]
  · simp only [Heap.setManager, Function.update_of_ne ha]

end SameInited

namespace Heap

@[simp] theorem alloc_manager (at? n : Nat) : (h.alloc at? n).1.manager = h.manager := by
  unfold alloc
  split
  · rfl
  · rfl

theorem free_manager (hfree : h.free p = some h') : h'.manager = h.manager := by
  unfold free at hfree
  split at hfree
  · cases hfree
    rfl
  · split at hfree
    · cases hfree
      rfl
    · cases hfree

@[simp] theorem listInit_manager (list : Ptr) : (h.listInit list).manager = h.manager := by
  unfold listInit
  split
  · rfl
  · rfl

@[simp] theorem listPush_manager (list node : Ptr) : (h.listPush list node).manager = h.manager := by
  unfold listPush
  split
  · rfl
  · rfl

@[simp] theorem listPop_manager (list : Ptr) : (h.listPop list).manager = h.manager := by
  unfold listPop
  split
  · rfl
  · rfl

@[simp] theorem queueInsertAfterHead_manager (queue node : Ptr) :
    (h.queueInsertAfterHead queue node).manager = h.manager := by
  unfold queueInsertAfterHead
  split
  · rfl
  · rfl

@[simp] theorem queueRemove_manager (node : Ptr) : (h.queueRemove node).manager = h.manager := by
  unfold queueRemove
  split
  · rfl
  · rfl

@[simp] theorem setPool_manager (pool : Ptr) (f : Pool → Pool) : (h.setPool pool f).manager = h.manager := rfl

theorem poolDestroy_manager {force : Bool} {r : Int} (hcall : h.poolDestroy p force = some (h', r)) :
    h'.manager = h.manager := by
  unfold poolDestroy at hcall
  split at hcall
  · split at hcall
    · cases hcall
      rfl
    · obtain ⟨h₁, hroom, hcall⟩ := Option.bind_eq_some_iff.mp hcall
      dsimp only at hcall
      rw [← free_manager hroom]
      split at hcall
      · obtain ⟨h₂, hself, hcall⟩ := Option.bind_eq_some_iff.mp hcall
        cases hcall
        rw [free_manager hself]
        rfl
      · cases hcall
        rfl
  · cases hcall
    rfl

@[simp] theorem poolFill_manager (pool room bucket : Ptr) (n offset : Nat) (h : Heap) :
    (poolFill pool room bucket n offset h).manager = h.manager := by
  induction n generalizing offset h with
  | zero => rfl
  | succ n ih => rw [poolFill, ih, listPush_manager]

@[simp] theorem poolCreate_manager (at? pool : Ptr) : (h.poolCreate at? pool).1.manager = h.manager := by
  unfold poolCreate
  split
  · dsimp only
    split
    · simp
    · simp
  · simp

theorem poolInit_manager {at? room? pool : Ptr} {n r : Nat} (hcall : h.poolInit at? room? pool size n = some (h', r)) :
    h'.manager = h.manager := by
  unfold poolInit at hcall
  dsimp only at hcall
  split at hcall
  · cases hcall
    simp
  · split at hcall
    · obtain ⟨⟨h₁, r₁⟩, hdestroy, hcall⟩ := Option.bind_eq_some_iff.mp hcall
      cases hcall
      simpa using poolDestroy_manager hdestroy
    · cases hcall
      simp

@[simp] theorem poolAlloc_manager (pool : Ptr) : (h.poolAlloc pool size).1.manager = h.manager := by
  unfold poolAlloc
  split
  · dsimp only
    split
    · rfl
    · simp
  · rfl

@[simp] theorem poolFree_manager (pool ptr : Ptr) : (h.poolFree pool ptr).1.manager = h.manager := by
  unfold poolFree
  dsimp only
  split
  · rfl
  · simp

end Heap

theorem managerGrow_inited {elm? room? r : Nat} (hcall : h.managerGrow elm? room? m = some (h', r)) : SameInited h h' := by
  unfold Heap.managerGrow at hcall
  dsimp only [Option.bind_eq_bind] at hcall
  split at hcall
  · cases hcall
    exact (SameInited.refl h).keep (Heap.alloc_manager _ _)
  · obtain ⟨⟨h₁, pool⟩, hinit, hcall⟩ := Option.bind_eq_some_iff.mp hcall
    have hsame : SameInited h h₁ := by
      refine (SameInited.refl h).keep ?_
      rw [Heap.poolInit_manager hinit, Heap.alloc_manager]
    dsimp only at hcall
    split at hcall
    · obtain ⟨h₂, hfree, hcall⟩ := Option.bind_eq_some_iff.mp hcall
      cases hcall
      exact hsame.keep (Heap.free_manager hfree)
    · cases hcall
      refine .setManager (.setManager (hsame.keep ?_) fun _ => rfl) fun _ => rfl
      rw [Heap.listPush_manager, Heap.queueInsertAfterHead_manager]

theorem managerTake_inited (node : Nat) : SameInited h (h.managerTake m node size).1 := by
  unfold Heap.managerTake
  have htaken : SameInited h (h.poolAlloc (addWord (subWord node offsetofLink) offsetofPool) size).1 :=
    (SameInited.refl h).keep (Heap.poolAlloc_manager _)
  dsimp only
  generalize h.poolAlloc (addWord (subWord node offsetofLink) offsetofPool) size = st at htaken ⊢
  obtain ⟨h₁, ptr⟩ := st
  have hset : SameInited h (h₁.setManager m fun m => { m with nfree := subWord m.nfree 1 }) := htaken.setManager fun _ => rfl
  dsimp only at htaken ⊢
  split
  · exact htaken
  · split
    · dsimp only
      refine hset.keep ?_
      rw [Heap.listInit_manager, Heap.listPop_manager]
    · exact hset

theorem managerAlloc_inited {elm? room? r : Nat} (hcall : h.managerAlloc elm? room? m size = some (h', r)) :
    SameInited h h' := by
  unfold Heap.managerAlloc at hcall
  split at hcall
  · cases hcall
    exact .refl h
  · have hfinish : ∀ {h₁ : Heap} {node : Nat}, SameInited h h₁ →
        (if node = NULL then pure (h₁, NULL) else pure (h₁.managerTake m node size) : Option (Heap × Nat)) = some (h', r) →
        SameInited h h' := by
      intro h₁ node hsame hlast
      split at hlast
      · cases hlast
        exact hsame
      · have htake : SameInited h₁ (h₁.managerTake m node size).1 := managerTake_inited node
        rw [Option.some.inj hlast] at htake
        exact hsame.trans htake
    dsimp only at hcall
    split at hcall
    · obtain ⟨⟨h₁, node⟩, hgrow, hcall⟩ := Option.bind_eq_some_iff.mp hcall
      exact hfinish (managerGrow_inited hgrow) hcall
    · exact hfinish (.refl h) hcall

/-- The heap after `qp_manager_free` has put an element back, before it looks at the lists. -/
def Heap.putBack (h : Heap) (m p : Nat) : Heap :=
  (h.poolFree (h.root (Heap.poolBelongTo p)) p).1.setManager m fun m => { m with nfree := addWord m.nfree 1 }

theorem managerShrink_cases {elm pool : Nat} (hcall : h.managerShrink m elm pool = some h') : ∃ h₁ h₂ r,
    ((h.listPop (addWord m offsetofAvailable)).queueRemove elm).poolDestroy pool true = some (h₁, r) ∧ h₁.free elm = some h₂ ∧
      h' = (h₂.setManager m fun m => { m with poolCount := subWord m.poolCount 1 }).setManager m fun m =>
        { m with nfree := subWord m.nfree m.ecount } := by
  unfold Heap.managerShrink at hcall
  obtain ⟨⟨h₁, r⟩, hdestroy, hcall⟩ := Option.bind_eq_some_iff.mp hcall
  obtain ⟨h₂, hfree, hcall⟩ := Option.bind_eq_some_iff.mp hcall
  exact ⟨h₁, h₂, r, hdestroy, hfree, (Option.some.inj hcall).symm⟩

/-- What `qp_manager_free` can do: nothing, or an element is put back, and then its pool may become available or be given
    up. -/
theorem managerFree_cases {r : Int} (hcall : h.managerFree m p = some (h', r)) :
    h' = h ∨ h' = h.putBack m p ∨ (∃ link, h' = (h.putBack m p).listPush (addWord m offsetofAvailable) link) ∨
      ∃ elm pool, (h.putBack m p).managerShrink m elm pool = some h' := by
  unfold Heap.managerFree at hcall
  dsimp only at hcall
  split at hcall
  · cases hcall
    exact .inl rfl
  split at hcall
  · cases hcall
    exact .inl rfl
  split at hcall
  · cases hcall
    exact .inr (.inr (.inl ⟨_, rfl⟩))
  split at hcall
  · obtain ⟨h₂, hshrink, hcall⟩ := Option.bind_eq_some_iff.mp hcall
    cases hcall
    exact .inr (.inr (.inr ⟨_, _, hshrink⟩))
  · cases hcall
    exact .inr (.inl rfl)

theorem managerShrink_inited {elm pool : Nat} (hcall : h.managerShrink m elm pool = some h') : SameInited h h' := by
  obtain ⟨h₁, h₂, r, hdestroy, hfree, rfl⟩ := managerShrink_cases hcall
  refine .setManager (.setManager ((SameInited.refl h).keep ?_) fun _ => rfl) fun _ => rfl
  rw [Heap.free_manager hfree, Heap.poolDestroy_manager hdestroy, Heap.queueRemove_manager, Heap.listPop_manager]

theorem managerFree_inited {r : Int} (hcall : h.managerFree m p = some (h', r)) : SameInited h h' := by
  have hback : SameInited h (h.putBack m p) :=
    ((SameInited.refl h).keep (Heap.poolFree_manager _ _)).setManager fun _ => rfl
  rcases managerFree_cases hcall with rfl | rfl | ⟨link, rfl⟩ | ⟨elm, pool, hshrink⟩
  · exact .refl h'
  · exact hback
  · exact hback.keep (Heap.listPush_manager _ _)
  · exact hback.trans (managerShrink_inited hshrink)

@[simp] theorem Heap.queueInit_manager (queue : Ptr) : (h.queueInit queue).manager = h.manager := by
  unfold Heap.queueInit
  split
  · rfl
  · rfl

theorem managerInit_inited {h₀ : Heap} {at? m₀ : Nat} (hcall : h₀.managerInit at? m₀ esize count = (h, m)) (hm : m ≠ NULL) :
    (h.manager m).isInited = true := by
  have hmade : ∀ (h₁ : Heap) (b : Bool), ((((h₁.setManager m fun _ => ⟨0, 0, 0, 0, true, b⟩).queueInit m).listInit
      (addWord m offsetofAvailable)).setManager m fun m => { m with esize := esize, ecount := count } : Heap).manager m =
      ⟨0, 0, esize, count, true, b⟩ := by
    intro h₁ b
    simp only [Heap.setManager, Function.update_self, Heap.listInit_manager, Heap.queueInit_manager]
  simp only [Heap.managerInit, Heap.managerCreate] at hcall
  split at hcall
  · split at hcall
    · simp only [↓reduceIte, Prod.mk.injEq] at hcall
      exact absurd hcall.2.symm hm
    · simp only [Prod.mk.injEq] at hcall
      obtain ⟨rfl, rfl⟩ := hcall
      rw [hmade]
  · simp only [Prod.mk.injEq] at hcall
    obtain ⟨rfl, rfl⟩ := hcall
    rw [hmade]

theorem Runs.inited (R : Runs esize count m h out) : (h.manager m).isInited = true := by
  induction R with
  | init _ hcall hm => exact managerInit_inited hcall hm
  | alloc _ hcall ih => rw [managerAlloc_inited hcall m, ih]
  | free _ _ hcall ih => rw [managerFree_inited hcall m, ih]

/-! ### What giving back leaves in use -/

namespace Heap

@[simp] theorem listPush_live (list node : Ptr) : (h.listPush list node).live = h.live := by
  unfold listPush
  split
  · rfl
  · rfl

@[simp] theorem listPop_live (list : Ptr) : (h.listPop list).live = h.live := by
  unfold listPop
  split
  · rfl
  · rfl

@[simp] theorem queueRemove_live (node : Ptr) : (h.queueRemove node).live = h.live := by
  unfold queueRemove
  split
  · rfl
  · rfl

@[simp] theorem poolFree_live (pool ptr : Ptr) : (h.poolFree pool ptr).1.live = h.live := by
  unfold poolFree
  dsimp only
  split
  · rfl
  · exact listPush_live _ _

theorem free_live (hfree : h.free p = some h') : h'.live ⊆ h.live := by
  unfold free at hfree
  split at hfree
  · cases hfree
    exact List.Subset.refl _
  · split at hfree
    · cases hfree
      exact List.filter_subset_self _
    · cases hfree

theorem poolDestroy_live {force : Bool} {r : Int} (hcall : h.poolDestroy p force = some (h', r)) : h'.live ⊆ h.live := by
  unfold poolDestroy at hcall
  split at hcall
  · split at hcall
    · cases hcall
      exact List.Subset.refl _
    · obtain ⟨h₁, hroom, hcall⟩ := Option.bind_eq_some_iff.mp hcall
      dsimp only at hcall
      refine List.Subset.trans ?_ (free_live hroom)
      split at hcall
      · obtain ⟨h₂, hself, hcall⟩ := Option.bind_eq_some_iff.mp hcall
        cases hcall
        have hrest := free_live hself
        exact hrest
      · cases hcall
        exact List.Subset.refl _
  · cases hcall
    exact List.Subset.refl _

end Heap

theorem managerShrink_live {elm pool : Nat} (hcall : h.managerShrink m elm pool = some h') : h'.live ⊆ h.live := by
  obtain ⟨h₁, h₂, r, hdestroy, hfree, rfl⟩ := managerShrink_cases hcall
  have hshrunk := List.Subset.trans (Heap.free_live hfree) (Heap.poolDestroy_live hdestroy)
  rw [Heap.queueRemove_live, Heap.listPop_live] at hshrunk
  exact hshrunk

theorem managerFree_live {r : Int} (hcall : h.managerFree m p = some (h', r)) : h'.live ⊆ h.live := by
  have hback : (h.putBack m p).live = h.live := Heap.poolFree_live _ _
  rcases managerFree_cases hcall with rfl | rfl | ⟨link, rfl⟩ | ⟨elm, pool, hshrink⟩
  · exact List.Subset.refl _
  · exact hback ▸ List.Subset.refl _
  · rw [Heap.listPush_live, hback]
    exact List.Subset.refl _
  · exact hback ▸ managerShrink_live hshrink

/-! ### The loop that gives up the pools -/

/-- The pools of a manager that is being destroyed. -/
structure Emptying (esize count m : Nat) (force : Bool) (g : Slabs) (h : Heap) : Prop where
  laid : Laid esize count m g.pools g.room
  elm_live : ∀ e ∈ g.pools, elmBlock e ∈ h.live
  room_live : ∀ e ∈ g.pools, roomBlock esize count (g.room e) ∈ h.live
  queue : DRing h.qnext h.qprev m g.pools
  inited : ∀ e ∈ g.pools, (h.pool (poolOf e)).isInited = true
  alloced : ∀ e ∈ g.pools, (h.pool (poolOf e)).isAlloced = false
  room : ∀ e ∈ g.pools, (h.pool (poolOf e)).room = g.room e
  unused : ∀ e ∈ g.pools, force = true ∨ (h.pool (poolOf e)).nfree = (h.pool (poolOf e)).nsize

variable {force : Bool}

theorem Pools.emptying (H : Pools esize count m g h) (hforce : force = true ∨ ∀ e ∈ g.pools, (g.free e).length = count) :
    Emptying esize count m force g h where
  laid := H.laid
  elm_live := H.elm_live
  room_live := H.room_live
  queue := H.queue
  inited e he := (H.pool e he).inited
  alloced := H.alloced
  room e he := (H.pool e he).room
  unused e he := by
    refine hforce.imp_right fun hall => ?_
    rw [(H.pool e he).nfree, (H.pool e he).nsize, hall e he]

/-- The memory after a round of the loop. -/
structure Emptied (e room : Nat) (h h' : Heap) : Prop where
  qprev : h'.qprev = Function.update h.qprev (h.qnext e) (h.qprev e)
  qnext : h'.qnext = Function.update h.qnext (h.qprev e) (h.qnext e)
  pool : ∀ p, p ≠ poolOf e → h'.pool p = h.pool p
  manager : h'.manager = h.manager
  live : h'.live = (h.live.filter (·.1 ≠ room)).filter (·.1 ≠ e)

namespace Emptying

theorem isEmpty_iff (E : Emptying esize count m force g h) : h.queueIsEmpty m = true ↔ g.pools = [] := by
  rw [Heap.queueIsEmpty, if_neg E.laid.manager_bound.1, decide_eq_true_eq, eq_comm]
  exact E.queue.prev_eq_self_iff (List.nodup_cons.mp E.laid.nodup_cons).1

theorem round {l : List Nat} (E : Emptying esize count m force g h) (hpools : g.pools = e :: l) :
    ∃ h', Heap.managerDestroyRound m force h = some (.again h') ∧ Emptied e (g.room e) h h' := by
  have L := E.laid
  have he : e ∈ g.pools := by rw [hpools]; exact List.mem_cons_self
  obtain ⟨he0, -⟩ := L.elm_bound e he
  obtain ⟨hr0, -⟩ := L.room_bound e he
  have hne : e ≠ g.room e := L.elm_ne_room he he
  have hself : h.qnext e ≠ e := E.queue.forth.next_ne_self L.nodup_cons he
  have hmore : ¬h.queueIsEmpty m = true := by
    rw [E.isEmpty_iff, hpools]
    exact List.cons_ne_nil e l
  have hfirst : h.queueFirst m = e := by
    rw [Heap.queueFirst, if_neg hmore, E.queue.next_eq, hpools]
    rfl
  obtain ⟨h₁, hh₁⟩ : ∃ h₁ : Heap, h₁ = { h with
      live := h.live.filter (·.1 ≠ g.room e)
      pool := Function.update h.pool (poolOf e) { h.pool (poolOf e) with room := NULL, isInited := false } } := ⟨_, rfl⟩
  have hdestroy : h.poolDestroy (poolOf e) force = some (h₁, QP_SUCCESS) := by
    rw [hh₁]
    exact poolDestroy_inPlace (b := roomBlock esize count (g.room e)) (L.placed he).pool_ne (E.inited e he) (E.alloced e he)
      (E.room e he) (E.room_live e he) hr0 (E.unused e he)
  obtain ⟨h₂, hh₂⟩ : ∃ h₂ : Heap, h₂ = { h₁ with
      qprev := Function.update h.qprev (h.qnext e) (h.qprev e)
      qnext := Function.update h.qnext (h.qprev e) (h.qnext e) } := ⟨_, rfl⟩
  have hremove : h₁.queueRemove e = h₂ := by
    rw [Heap.queueRemove, if_neg he0, hh₂, hh₁]
    simp only [Function.update_of_ne hself.symm]
  have hfree : h₂.free e = some { h₂ with live := h₂.live.filter (·.1 ≠ e) } := by
    refine free_of_live (b := elmBlock e) ?_ he0
    rw [hh₂, hh₁]
    exact mem_filter_live (E.elm_live e he) hne
  refine ⟨{ h₂ with live := h₂.live.filter (·.1 ≠ e) }, ?_, ?_⟩
  · simp only [Heap.managerDestroyRound, if_neg hmore, hfirst, L.addWord_pool he, hdestroy, hremove, hfree,
      Option.bind_eq_bind, Option.bind_some, Option.pure_def]
  · refine ⟨by rw [hh₂], by rw [hh₂], fun p hp => ?_, by rw [hh₂, hh₁], by rw [hh₂, hh₁]⟩
    rw [hh₂, hh₁]
    exact Function.update_of_ne hp _ _

theorem drop {l : List Nat} (E : Emptying esize count m force g h) (hpools : g.pools = e :: l)
    (S : Emptied e (g.room e) h h') : Emptying esize count m force (g.drop e) h' := by
  have L := E.laid
  have he : e ∈ g.pools := by rw [hpools]; exact List.mem_cons_self
  have hsub : ∀ a ∈ (g.drop e).pools, a ∈ g.pools ∧ a ≠ e := fun a ha => Slabs.mem_drop L.nodup ha
  have hpool : ∀ a ∈ (g.drop e).pools, h'.pool (poolOf a) = h.pool (poolOf a) :=
    fun a ha => S.pool _ fun heq => (hsub a ha).2 (Nat.add_right_cancel heq)
  refine ⟨L.drop, fun a ha => ?_, fun a ha => ?_, ?_, fun a ha => ?_, fun a ha => ?_, fun a ha => ?_, fun a ha => ?_⟩
  · obtain ⟨ha, hae⟩ := hsub a ha
    rw [S.live]
    refine mem_filter_live (mem_filter_live (E.elm_live a ha) ?_) hae
    exact L.elm_ne_room ha he
  · obtain ⟨ha, hae⟩ := hsub a ha
    rw [S.live]
    refine mem_filter_live (mem_filter_live (E.room_live a ha) ?_) ?_
    · exact L.room_ne_room ha he hae
    · exact (L.elm_ne_room he ha).symm
  · have hq := E.queue
    have hnd := L.nodup_cons
    rw [hpools] at hq hnd
    have herase : (g.drop e).pools = l := by rw [Slabs.drop, hpools, List.erase_cons_head]
    rw [S.qnext, S.qprev, herase]
    rw [← List.nil_append (e :: l)] at hq hnd
    exact hq.remove hnd
  · rw [hpool a ha]
    exact E.inited a (hsub a ha).1
  · rw [hpool a ha]
    exact E.alloced a (hsub a ha).1
  · rw [hpool a ha]
    exact E.room a (hsub a ha).1
  · rw [hpool a ha]
    exact E.unused a (hsub a ha).1

/-- The loop ends with an empty queue, and has freed the room and the element of every pool. -/
theorem run (E : Emptying esize count m force g h) :
    ∃ h', Returns (fun fuel => iterate (Heap.managerDestroyRound m force) fuel h) h' ∧ h'.qnext m = m ∧ h'.qprev m = m ∧
      h'.manager = h.manager ∧ h'.live = h.live.filter (·.1 ∉ g.pools.flatMap fun e => [g.room e, e]) := by
  generalize hl : g.pools = l
  induction l generalizing g h with
  | nil =>
    have hq := E.queue
    rw [hl] at hq
    refine ⟨h, returns_done ?_, hq.forth, hq.back, rfl, ?_⟩
    · simp only [Heap.managerDestroyRound, if_pos (E.isEmpty_iff.mpr hl), Option.pure_def]
    · simp
  | cons e l ih =>
    obtain ⟨h₁, hround, S⟩ := E.round hl
    have hdrop : (g.drop e).pools = l := by rw [Slabs.drop, hl, List.erase_cons_head]
    obtain ⟨h', hrun, hnext, hprev, hmanager, hlive⟩ := ih (E.drop hl S) hdrop
    refine ⟨h', returns_again hround hrun, hnext, hprev, hmanager.trans S.manager, ?_⟩
    rw [hlive, S.live, List.filter_filter, List.filter_filter]
    refine List.filter_congr fun b _ => ?_
    have hroom : (g.drop e).room = g.room := rfl
    simp only [hroom, List.flatMap_cons, List.cons_append, List.nil_append, List.mem_cons, not_or]
    rw [← Bool.decide_and, ← Bool.decide_and]
    refine decide_eq_decide.mpr ?_
    tauto

end Emptying

/-! ### What is given back -/

/-- What `qp_manager_destroy` hands to `qp_free`: the room and the element of every pool, and the manager itself when it is
    in a block of its own. -/
def givenBack (m : Nat) (h : Heap) (pools : List Nat) : List Nat :=
  (pools.flatMap fun e => [(h.pool (poolOf e)).room, e]) ++ if (h.manager m).isAlloced then [m] else []

/-- The queue is empty and every block of the manager has been freed. A block is freed at most once, since a second time is
    undefined in `Heap.free`. -/
def Drained (m : Nat) (h h' : Heap) : Prop :=
  ∃ pools, (m :: pools).Nodup ∧ DRing h.qnext h.qprev m pools ∧ h'.qnext m = m ∧ h'.qprev m = m ∧
    (givenBack m h pools).Nodup ∧ (∀ p ∈ givenBack m h pools, ∃ b ∈ h.live, b.1 = p) ∧
    h'.live = h.live.filter (·.1 ∉ givenBack m h pools)

/-- `qp_manager_destroy` returns, unforced with `QP_SUCCESS` if and only if nothing is outstanding and otherwise without an
    effect, and gives everything back whenever it succeeds. -/
def Destroys (m : Nat) (h : Heap) (out : List Nat) : Prop := ∀ force, ∃ h' r,
  Returns (fun fuel => h.managerDestroy fuel m force) (h', r) ∧ (r = QP_SUCCESS → Drained m h h') ∧
    (force = false → (r = QP_SUCCESS ↔ out = []) ∧ (r ≠ QP_SUCCESS → r = QP_ERROR ∧ h' = h))

theorem Laid.nodup_blocks (L : Laid esize count m g.pools g.room) :
    (m :: g.pools.flatMap fun e => [g.room e, e]).Nodup := by
  refine List.nodup_cons.mpr ⟨fun hm => ?_, List.nodup_flatMap.mpr ⟨fun e he => ?_, ?_⟩⟩
  · obtain ⟨e, he, hm⟩ := List.mem_flatMap.mp hm
    rcases List.mem_cons.mp hm with hm | hm
    · exact L.manager_ne_room he hm
    · exact L.manager_ne_elm he (List.mem_singleton.mp hm)
  · simpa using (L.elm_ne_room he he).symm
  · refine L.nodup.imp_of_mem fun {a b} ha hb hab => ?_
    simp [L.room_ne_room hb ha hab.symm, L.elm_ne_room hb ha, (L.elm_ne_room ha hb).symm, hab.symm]

/-- A destruction that is not refused. -/
theorem Pools.managerDestroy (H : Pools esize count m g h) (hinited : (h.manager m).isInited = true)
    (hgo : force = true ∨ count = 0) :
    ∃ h', Returns (fun fuel => h.managerDestroy fuel m force) (h', QP_SUCCESS) ∧ Drained m h h' := by
  have L := H.laid
  have hunused : force = true ∨ ∀ e ∈ g.pools, (g.free e).length = count := by
    refine hgo.imp_right fun h0 e he => ?_
    have hle := (H.pool e he).length_le
    omega
  obtain ⟨h₁, hloop, hnext, hprev, hmanager, hlive⟩ := (H.emptying hunused).run
  have hblocks : (g.pools.flatMap fun e => [(h.pool (poolOf e)).room, e]) = g.pools.flatMap fun e => [g.room e, e] :=
    List.flatMap_congr fun e he => by rw [(H.pool e he).room]
  have hgiven : ¬((!force) = true ∧ (h.manager m).ecount > 0) := by
    rw [H.ecount]
    rintro ⟨hf, hpos⟩
    rcases hgo with rfl | rfl
    · cases hf
    · exact Nat.lt_irrefl 0 hpos
  obtain ⟨h₂, hh₂⟩ : ∃ h₂, h₂ = h₁.setManager m fun m => { m with isInited := false } := ⟨_, rfl⟩
  have halloced : (h₂.manager m).isAlloced = (h.manager m).isAlloced := by
    rw [hh₂, ← hmanager]
    simp only [Heap.setManager, Function.update_self]
  have hcall : ∀ {h'}, (if (h₂.manager m).isAlloced then h₂.free m else some h₂) = some h' →
      Returns (fun fuel => h.managerDestroy fuel m force) (h', QP_SUCCESS) := by
    intro h' hlast
    have hrest := hloop.bind (g := fun _ h₁ => do
      let h₁ := h₁.setManager m fun m => { m with isInited := false }
      let h₁ ← if (h₁.manager m).isAlloced then h₁.free m else some h₁
      pure (h₁, QP_SUCCESS)) (c := (h', QP_SUCCESS)) (.of_eq fun _ => by
        simp only [← hh₂]
        by_cases hown : (h₂.manager m).isAlloced = true
        · rw [if_pos hown] at hlast ⊢
          rw [hlast]
          rfl
        · rw [if_neg hown] at hlast ⊢
          rw [Option.some.inj hlast]
          rfl)
    refine hrest.congr fun fuel => ?_
    rw [Heap.managerDestroy, if_pos ⟨L.manager_bound.1, hinited⟩, if_neg hgiven]
  have hnd := L.nodup_blocks
  have hlives : ∀ p ∈ g.pools.flatMap fun e => [g.room e, e], ∃ b ∈ h.live, b.1 = p := by
    intro p hp
    obtain ⟨e, he, hp⟩ := List.mem_flatMap.mp hp
    rcases List.mem_cons.mp hp with rfl | hp
    · exact ⟨_, H.room_live e he, rfl⟩
    · obtain rfl := List.mem_singleton.mp hp
      exact ⟨_, H.elm_live p he, rfl⟩
  have hlive₂ : h₂.live = h.live.filter (·.1 ∉ g.pools.flatMap fun e => [g.room e, e]) := by
    rw [hh₂]
    exact hlive
  by_cases hown : (h.manager m).isAlloced = true
  · have hm : managerBlock m ∈ h₂.live := by
      rw [hlive₂]
      exact List.mem_filter.mpr ⟨H.manager_live, decide_eq_true (List.nodup_cons.mp hnd).1⟩
    refine ⟨{ h₂ with live := h₂.live.filter (·.1 ≠ m) }, hcall ?_, g.pools, L.nodup_cons, H.queue, ?_, ?_, ?_, ?_, ?_⟩
    · rw [if_pos (halloced.trans hown)]
      exact free_of_live hm L.manager_bound.1
    · rw [hh₂]
      exact hnext
    · rw [hh₂]
      exact hprev
    all_goals rw [givenBack, hblocks, if_pos hown]
    · exact (List.perm_append_singleton _ _).nodup_iff.mpr hnd
    · intro p hp
      rcases List.mem_append.mp hp with hp | hp
      · exact hlives p hp
      · exact ⟨_, H.manager_live, (List.mem_singleton.mp hp).symm⟩
    · simp only [hlive₂, List.filter_filter]
      refine List.filter_congr fun b _ => ?_
      rw [← Bool.decide_and, decide_eq_decide, List.mem_append, List.mem_singleton, not_or, and_comm]
  · refine ⟨h₂, hcall (by rw [if_neg (halloced ▸ hown)]), g.pools, L.nodup_cons, H.queue, ?_, ?_, ?_, ?_, ?_⟩
    · rw [hh₂]
      exact hnext
    · rw [hh₂]
      exact hprev
    all_goals rw [givenBack, hblocks, if_neg hown, List.append_nil]
    · exact (List.nodup_cons.mp hnd).2
    · exact hlives
    · exact hlive₂

/-! ### Runs -/

/-- In every run, when the size of a room does not overflow, the destruction is as it should be if and only if a pool has no
    element or one is outstanding: without force a manager whose pools have elements is never destroyed. -/
theorem runs_destroys_iff (hlt : (esize + sizeofPoolElm) * count < 2 ^ 64) (R : Runs esize count m h out) :
    Destroys m h out ↔ count = 0 ∨ out ≠ [] := by
  obtain ⟨g, M, O⟩ := R.managed hlt
  have hrefused : 0 < count → ∀ fuel, h.managerDestroy fuel m false = some (h, QP_ERROR) := by
    intro hpos fuel
    have hgo : (!false) = true ∧ (h.manager m).ecount > 0 := ⟨rfl, by rw [M.pools.ecount]; exact hpos⟩
    rw [Heap.managerDestroy, if_pos ⟨M.pools.laid.manager_bound.1, R.inited⟩, if_pos hgo]
  constructor
  · intro D
    obtain ⟨h', r, hcall, -, hunforced⟩ := D false
    rcases Nat.eq_zero_or_pos count with h0 | hpos
    · exact .inl h0
    · refine .inr fun hout => ?_
      obtain ⟨-, rfl⟩ := Prod.mk.inj (hcall.unique (.of_eq (hrefused hpos)))
      exact absurd ((hunforced rfl).1.mpr hout) (by decide)
  · intro hwhen force
    by_cases hgo : force = true ∨ count = 0
    · obtain ⟨h', hcall, D⟩ := M.pools.managerDestroy R.inited hgo
      refine ⟨h', QP_SUCCESS, hcall, fun _ => D, fun hf => ⟨iff_of_true rfl ?_, fun hne => absurd rfl hne⟩⟩
      have h0 : count = 0 := hgo.resolve_left (by rw [hf]; decide)
      have hlen := M.length_out O
      rw [h0, Nat.mul_zero] at hlen
      exact List.eq_nil_of_length_eq_zero (Nat.eq_zero_of_add_eq_zero_right hlen)
    · rw [not_or, Bool.not_eq_true] at hgo
      obtain ⟨rfl, hcount⟩ := hgo
      refine ⟨h, QP_ERROR, .of_eq (hrefused (Nat.pos_of_ne_zero hcount)), fun hr => absurd hr (by decide), fun _ => ⟨?_, ?_⟩⟩
      · exact iff_of_false (by decide) (hwhen.resolve_left hcount)
      · exact fun _ => ⟨rfl, rfl⟩

/-- A manager of four elements of 8 bytes that has handed out one of them. -/
theorem runs_destroys_iff_first : ∃ h, Runs 8 4 1000 h [3088] ∧ Destroys 1000 h [3088] := by
  have hcall : (((madeHeap 8 4).managerAlloc 2000 3000 1000 8).map fun st => st.2) = some 3088 := by decide +kernel
  obtain ⟨⟨h, r⟩, hst, hr⟩ := Option.map_eq_some_iff.mp hcall
  obtain rfl : r = 3088 := hr
  have R : Runs 8 4 1000 h [3088] := .alloc (madeHeap_runs 8 4) hst
  exact ⟨h, R, (runs_destroys_iff (by decide) R).mpr (.inr (List.cons_ne_nil _ _))⟩

/-- A manager that has just been made, with four elements in a pool, is not destroyed without force. -/
theorem runs_not_destroys : Runs 8 4 1000 (madeHeap 8 4) [] ∧ ¬Destroys 1000 (madeHeap 8 4) [] := by
  refine ⟨madeHeap_runs 8 4, fun D => ?_⟩
  obtain ⟨h', r, ⟨n, hcall⟩, -, hunforced⟩ := D false
  have hrefused : (madeHeap 8 4).managerDestroy n 1000 false = some (madeHeap 8 4, QP_ERROR) := rfl
  obtain ⟨-, rfl⟩ := Prod.mk.inj (Option.some.inj ((hcall n (Nat.le_refl n)).symm.trans hrefused))
  exact absurd ((hunforced rfl).1.mpr rfl) (by decide)

end QPHi
