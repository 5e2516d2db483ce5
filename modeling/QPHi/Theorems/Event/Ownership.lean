import QPHi.Theorems.Event.Run

/-! What the sources of an event own in every state of every run: their caches and their descriptors. -/

namespace QPHi
open Command Chain

variable {esize count m b : Nat} {g : Slabs} {out : List Nat} {h : Heap}

/-! ### Blocks that are outstanding -/

/-- `pools` is the queue of the pools of the manager at `m`. -/
def Heap.PoolQueue (h : Heap) (m : Ptr) (pools : List Nat) : Prop := DRing h.qnext h.qprev m pools ∧ m ∉ pools

/-- `b` is the element of a pool of the manager at `m`, and not on the free list of this pool. -/
def Heap.Lent (h : Heap) (m b : Ptr) : Prop :=
  ∃ pools, h.PoolQueue m pools ∧ ∃ e ∈ pools,
    ∃ x ∈ elements (h.pool (poolOf e)).esize (h.pool (poolOf e)).nsize (h.pool (poolOf e)).room,
      (∀ fl, Ring h.next (poolOf e) fl → poolOf e ∉ fl → x ∉ fl) ∧ b = x + sizeofPoolElm

theorem Managed.poolQueue (M : Managed esize count m g h) : h.PoolQueue m g.pools :=
  ⟨M.pools.queue, fun hm => (M.pools.laid.available_ne hm).2.2 rfl⟩

theorem Managed.lent_iff (M : Managed esize count m g h) (O : Outstanding esize count g out) : h.Lent m b ↔ b ∈ out := by
  have L := M.pools.laid
  have hfree : ∀ e ∈ g.pools, Ring h.next (poolOf e) (g.free e) ∧ poolOf e ∉ g.free e := fun e he =>
    ⟨(M.pools.pool e he).ring, (M.pools.pool e he).head_notMem (L.placed he)⟩
  rw [O.2 b]
  constructor
  · rintro ⟨pools, hqueue, e, he, x, hx, hout, rfl⟩
    obtain rfl : pools = g.pools := Path.unique hqueue.1.forth M.poolQueue.1.forth hqueue.2 M.poolQueue.2
    have H := M.pools.pool e he
    rw [H.esize, H.nsize, H.room] at hx
    exact ⟨e, he, x, hx, hout _ (hfree e he).1 (hfree e he).2, rfl⟩
  · rintro ⟨e, he, x, hx, hout, rfl⟩
    have H := M.pools.pool e he
    refine ⟨g.pools, M.poolQueue, e, he, x, ?_, fun fl hring hnot => ?_, rfl⟩
    · rw [H.esize, H.nsize, H.room]
      exact hx
    · rw [Path.unique hring (hfree e he).1 hnot (hfree e he).2]
      exact hout

/-! ### Caches -/

/-- The two fields of a source that point to caches. -/
inductive CacheField where
  | read
  | write
deriving DecidableEq, Repr

def Source.cache (s : Source) : CacheField → Ptr
  | .read => s.readCache
  | .write => s.writeCache

theorem Source.mem_caches {s : Source} : b ∈ s.caches ↔ b ≠ NULL ∧ ∃ f, s.cache f = b := by
  rw [Source.caches, List.mem_filter, List.mem_pair]
  constructor
  · rintro ⟨rfl | rfl, hb⟩
    · exact ⟨of_decide_eq_true hb, .read, rfl⟩
    · exact ⟨of_decide_eq_true hb, .write, rfl⟩
  · rintro ⟨hb, f, rfl⟩
    refine ⟨?_, decide_eq_true hb⟩
    cases f with
    | read => exact .inl rfl
    | write => exact .inr rfl

/-- A source whose caches are different holds a cache in one field only. -/
theorem Source.cache_inj {s : Source} (hnd : s.caches.Nodup) {f f' : CacheField} (heq : s.cache f = s.cache f')
    (hne : s.cache f ≠ NULL) : f = f' := by
  have hboth : s.readCache = s.writeCache → s.readCache ≠ NULL → False := by
    intro h hne
    have hw : s.writeCache ≠ NULL := h ▸ hne
    simp [Source.caches, hw, h] at hnd
  cases f <;> cases f'
  · rfl
  · exact (hboth heq hne).elim
  · exact (hboth heq.symm fun h => hne (heq.trans h)).elim
  · rfl

namespace Event

variable {owned : Prop} {n room x : Nat} {fl : List Nat} {e : Event}

/-- The blocks that are outstanding in the manager of the caches are the caches of the live sources, each one in one
    field of one source, and the free sources have none. -/
structure CachesOwned (e : Event) : Prop where
  queue : ∃ pools, e.caches.PoolQueue e.sourceCachePool pools
  exactly : ∀ b, e.caches.Lent e.sourceCachePool b ↔ b ≠ NULL ∧ ∃ p, e.Live p ∧ ∃ f, (e.source p).cache f = b
  alone : ∀ p q f g, e.Live p → e.Live q → (e.source p).cache f = (e.source q).cache g → (e.source p).cache f ≠ NULL →
    p = q ∧ f = g
  free : ∃ fl, e.FreeList fl ∧ ∀ x ∈ fl, ∀ f, (e.source (x + sizeofPoolElm)).cache f = NULL

theorem Stocked.cachesOwned (S : Stocked n count room fl e) : CachesOwned e := by
  obtain ⟨g, M, O⟩ := S.lends
  have hnone : ∀ x ∈ fl, ∀ f, (e.at x).cache f = NULL := by
    intro x hx f
    by_contra hne
    have hmem : (e.at x).cache f ∈ (e.at x).caches := Source.mem_caches.mpr ⟨hne, f, rfl⟩
    rw [S.idle x hx] at hmem
    cases hmem
  refine ⟨⟨g.pools, M.poolQueue⟩, fun b => ?_, fun p q f g hp hq heq hne => ?_, fl, S.freeList, hnone⟩
  · rw [M.lent_iff O, cachesOf, List.mem_flatMap]
    constructor
    · rintro ⟨x, hx, hb⟩
      obtain ⟨hb, f, hf⟩ := Source.mem_caches.mp hb
      have hfl : x ∉ fl := fun hmem => hb (hf ▸ hnone x hmem f)
      exact ⟨hb, x + sizeofPoolElm, S.live_iff.mpr ⟨x, hx, hfl, rfl⟩, f, hf⟩
    · rintro ⟨hb, p, hp, f, hf⟩
      obtain ⟨x, hx, -, rfl⟩ := S.live_iff.mp hp
      exact ⟨x, hx, Source.mem_caches.mpr ⟨hb, f, hf⟩⟩
  · obtain ⟨x, hx, -, rfl⟩ := S.live_iff.mp hp
    obtain ⟨y, hy, -, rfl⟩ := S.live_iff.mp hq
    have hnd := (cachesOf_perm hx).nodup_iff.mp O.1
    obtain ⟨hself, -, hapart⟩ := List.nodup_append.mp hnd
    obtain rfl : x = y := by
      by_contra hxy
      have hmem : (e.at y).cache g ∈ e.cachesOf ((sources n room).erase x) := by
        refine List.mem_flatMap.mpr ⟨y, mem_erase_sources.mpr ⟨fun h => hxy h.symm, hy⟩, ?_⟩
        exact Source.mem_caches.mpr ⟨fun h => hne (heq.trans h), g, rfl⟩
      exact hapart _ (Source.mem_caches.mpr ⟨hne, f, rfl⟩) _ hmem heq
    exact ⟨rfl, Source.cache_inj hself heq hne⟩

/-- In every run the caches that are handed out are those of the live sources, and no call gets stuck. -/
theorem runs_caches (R : Runs False e) :
    CachesOwned e ∧
      (∀ fd timeout listen autoClose, addevent fd timeout listen autoClose e ≠ .error .stuck) ∧
      (∀ fuel timeout ready, ready.Nodup → (∀ p ∈ ready, e.Live p) →
        dispatchListenQueue fuel timeout ready e ≠ .error .stuck) ∧
      ∀ fuel revents ready, ready.Nodup → (∀ p ∈ ready, e.Live p) →
        dispatchQueue fuel ready (e.report revents) ≠ .error .stuck := by
  obtain ⟨n, count, room, fl, hfits, I⟩ := R.inv
  have hin : ∀ ready : List Ptr, (∀ p ∈ ready, e.Live p) → ∀ p ∈ ready, InUse n room fl p := fun ready hlive p hp =>
    I.stocked.live_iff.mp (hlive p hp)
  refine ⟨I.stocked.cachesOwned, fun fd timeout listen autoClose => ?_, fun fuel timeout ready hnd hlive => ?_,
    fun fuel revents ready hnd hlive => ?_⟩
  · exact (addevent_spec I.stocked fd timeout listen autoClose).ne_stuck
  · exact (dispatchListenQueue_spec fuel timeout ready hnd (hin ready hlive) e I.within).ne_stuck
  · exact (dispatchQueue_spec hfits fuel ready hnd (hin ready hlive) _ (I.report revents).within).ne_stuck

/-- The descriptor 5 is read once: the read handler answers, and its source holds a write cache. -/
theorem runs_caches_first :
    ∃ e, Runs False e ∧ (e.source 50472).cache .write = 30016 ∧ CachesOwned e := by
  obtain ⟨e₁, he₁⟩ : ∃ e₁, e₁ = (watchedEvent false).report fun _ => EPOLL_IN := ⟨_, rfl⟩
  have hresult : (match dispatchQueue 9 [50472] e₁ with
      | .ok (_, e) => (e.source 50472).cache .write
      | .error _ => 0) = 30016 := by
    rw [he₁]
    decide +kernel
  have hlive : ∀ p ∈ [50472], (watchedEvent false).Live p := fun p hp => List.mem_singleton.mp hp ▸ watchedEvent_live false
  cases hcall : dispatchQueue 9 [50472] e₁ with
  | error halt => rw [hcall] at hresult; cases hresult
  | ok st =>
    rw [hcall] at hresult
    have hrun : Runs False st.2 := .dispatch (watchedEvent_runs false) (List.nodup_singleton _) hlive (he₁ ▸ hcall)
    exact ⟨st.2, hrun, hresult, (runs_caches hrun).1⟩

/-! ### Descriptors -/

/-- Every descriptor that `accept` returned is the one of a single live source, which will close it, or it has been
    closed once. -/
def FdsOwned (e : Event) : Prop :=
  ∀ i < e.kernel.accepts,
    (e.kernel.closes i = 0 ∧ ∃ p, e.Live p ∧ (e.source p).sourceFd = e.kernel.accepted i ∧ (e.source p).closed = true ∧
      ∀ q, e.Live q → (e.source q).sourceFd = e.kernel.accepted i → q = p) ∨
    e.kernel.closes i = 1

/-- A call of `qp_event_addevent` that fails closes no descriptor and leaves the pool as it was. -/
def AddFailsCleanly (e : Event) : Prop :=
  ∀ fd timeout listen autoClose e', addevent fd timeout listen autoClose e = .ok (QP_ERROR, e') →
    e'.kernel = e.kernel ∧ e'.pool = e.pool

theorem EventInv.fdsOwned (I : EventInv owned n count room fl e) (hown : owned) : FdsOwned e := by
  have F := I.fds hown
  intro i hi
  by_cases hc : e.kernel.closes i = 0
  · obtain ⟨ht, hand | ⟨x, hx, hfl, hfd⟩⟩ := F.held i hi hc
    · cases hand
    · refine .inl ⟨hc, x + sizeofPoolElm, I.stocked.live_iff.mpr ⟨x, hx, hfl, rfl⟩, hfd, ?_, fun q hq hqfd => ?_⟩
      · refine F.auto x hx hfl ?_
        rw [hfd, ht]
        exact Option.some_ne_none i
      · obtain ⟨y, hy, hyf, rfl⟩ := I.stocked.live_iff.mp hq
        rw [F.unique y hy x hx hyf hfl (hqfd.trans hfd.symm)]
  · have hle := F.once i
    exact .inr (by omega)

theorem Stocked.addFailsCleanly (S : Stocked n count room fl e) : AddFailsCleanly e := by
  intro fd timeout listen autoClose e' hcall
  obtain ⟨hkernel, ⟨-, -, hpool, -⟩ | ⟨hr, -⟩⟩ := (addevent_spec S fd timeout listen autoClose).of_ok hcall
  · exact ⟨hkernel, hpool⟩
  · exact absurd hr (by decide)

/-- In every run in which the caller adds descriptors of its own, an accepted descriptor has one source or has been
    closed once; and wherever `qp_event_addevent` is called, by the caller or after an `accept`, it fails cleanly. -/
theorem runs_descriptors (R : Runs True e) :
    FdsOwned e ∧ AddFailsCleanly e ∧
      ∀ p r e', e.Live p → sourceAccept p e = .ok (r, e') → AddFailsCleanly e' := by
  obtain ⟨n, count, room, fl, -, I⟩ := R.inv
  refine ⟨I.fdsOwned trivial, I.stocked.addFailsCleanly, fun p r e' hp hcall => ?_⟩
  obtain ⟨x, hx, -, rfl⟩ := I.stocked.live_iff.mp hp
  obtain ⟨-, I'⟩ | ⟨-, H⟩ := (sourceAccept_spec I hx e rfl).of_ok hcall
  · exact I'.stocked.addFailsCleanly
  · exact H.stocked.addFailsCleanly

/-- The descriptor 5 listens, and a connection is accepted as 7. -/
theorem runs_descriptors_first : ∃ e, Runs True e ∧ e.kernel.accepts = 1 ∧ e.kernel.accepted 0 = 7 ∧ FdsOwned e := by
  have hcall : dispatchListenQueue 9 0 [50472] (watchedEvent true) =
      .ok ((), after (dispatchListenQueue 9 0 [50472]) (watchedEvent true)) := rfl
  have hlive : ∀ p ∈ [50472], (watchedEvent true).Live p := fun p hp => List.mem_singleton.mp hp ▸ watchedEvent_live true
  have hrun : Runs True _ := .listen (watchedEvent_runs true) (List.nodup_singleton _) hlive hcall
  exact ⟨_, hrun, rfl, rfl, (runs_descriptors hrun).1⟩

end Event

end QPHi
