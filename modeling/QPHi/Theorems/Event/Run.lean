import QPHi.Theorems.Event.Dispatch

/-! Whole runs of an event: no cache is lost, shared or given back twice, and every descriptor that was accepted has
    one source or has been closed once. -/

namespace QPHi
open Command Chain

variable {owned : Prop} {n count room x : Nat} {fl : List Nat} {p : Ptr} {fd : Int} {e e' : Event}

/-- No connection has been accepted yet. -/
def Kernel.Fresh (k : Kernel) : Prop := k.accepts = 0 ∧ (∀ fd, k.tenure fd = none) ∧ ∀ i, k.closes i = 0

/-- The caller opens a descriptor that is not open. -/
def Kernel.openOwn (k : Kernel) (fd : Int) : Kernel :=
  { k with isOpen := Function.update k.isOpen fd true, tenure := Function.update k.tenure fd none }

namespace Event

/-- `fl` is the free list of the pool of sources. -/
def FreeList (e : Event) (fl : List Nat) : Prop := Ring e.pool.next e.eventPool fl ∧ e.eventPool ∉ fl

/-- The source at `p` is allocated from the pool. -/
def Live (e : Event) (p : Ptr) : Prop :=
  ∃ x ∈ elements sizeofSource (e.pool.pool e.eventPool).nsize (e.pool.pool e.eventPool).room,
    (∀ fl, e.FreeList fl → x ∉ fl) ∧ p = x + sizeofPoolElm

/-- `fd` is an open descriptor of the caller that no source stands for. -/
def Own (e : Event) (fd : Int) : Prop :=
  e.kernel.isOpen fd = true ∧ e.kernel.tenure fd = none ∧ ∀ p, e.Live p → (e.source p).sourceFd ≠ fd

/-- The states of every run of an event. It is made by `qp_event_init` in memory of the caller; then the caller opens
    and closes descriptors of its own, adds descriptors (its own ones, if `owned`), and has the two queues dispatched,
    with sources in them that are in use and not there twice. `round` is a state inside a call of
    `qp_event_dispatch_listen_queue`, after some of its rounds. -/
inductive Runs (owned : Prop) : Event → Prop
  | init {e₀ e : Event} {event size room? maxEventSize : Nat} {noblock edge : Bool} (hevent : event ≠ NULL)
      (hblock : (event, size) ∈ e₀.pool.live ∧ offsetofEventPool + sizeofPool ≤ size)
      (hmanager : managerBlock event ∈ e₀.caches.live ∧ event + sizeofManager < 2 ^ 64) (hmax : maxEventSize < 2 ^ 31)
      (hkernel : e₀.kernel.Fresh) (hmade : eventInit event room? maxEventSize noblock edge e₀ = some e) : Runs owned e
  | openOwn {e : Event} {fd : Int} (R : Runs owned e) (hclosed : e.kernel.isOpen fd = false) :
      Runs owned { e with kernel := e.kernel.openOwn fd }
  | closeOwn {e : Event} {fd : Int} (R : Runs owned e) (hfd : e.Own fd) : Runs owned { e with kernel := e.kernel.close fd }
  | addevent {e e' : Event} {fd timeout r : Int} {listen autoClose : Bool} (R : Runs owned e)
      (hfd : owned → fd < 0 ∨ e.Own fd) (hcall : addevent fd timeout listen autoClose e = .ok (r, e')) : Runs owned e'
  | round {e e' : Event} {timeout : Int} {p : Ptr} {next : Next Unit Unit} (R : Runs owned e) (hp : e.Live p)
      (hcall : acceptRound timeout p () e = .ok (next, e')) : Runs owned e'
  | listen {e e' : Event} {fuel : Nat} {timeout : Int} {ready : List Ptr} (R : Runs owned e) (hnd : ready.Nodup)
      (hlive : ∀ p ∈ ready, e.Live p) (hcall : dispatchListenQueue fuel timeout ready e = .ok ((), e')) : Runs owned e'
  | dispatch {e e' : Event} {fuel : Nat} {revents : Ptr → Nat} {ready : List Ptr} (R : Runs owned e) (hnd : ready.Nodup)
      (hlive : ∀ p ∈ ready, e.Live p) (hcall : dispatchQueue fuel ready (e.report revents) = .ok ((), e')) : Runs owned e'

/-! ### What is live -/

theorem Stocked.freeList (S : Stocked n count room fl e) : e.FreeList fl := ⟨S.pool.ring, S.pool.head_notMem S.placed⟩

theorem FreeList.unique {fl' : List Nat} (h : e.FreeList fl) (h' : e.FreeList fl') : fl = fl' :=
  Path.unique h.1 h'.1 h.2 h'.2

/-- A source that is not on the free list. -/
theorem FreeList.live (h : e.FreeList fl)
    (hx : x ∈ elements sizeofSource (e.pool.pool e.eventPool).nsize (e.pool.pool e.eventPool).room) (hfl : x ∉ fl) :
    e.Live (x + sizeofPoolElm) := ⟨x, hx, fun _ h' => h.unique h' ▸ hfl, rfl⟩

theorem Stocked.live_iff (S : Stocked n count room fl e) : e.Live p ↔ InUse n room fl p := by
  unfold Live
  rw [S.pool.nsize, S.pool.room]
  constructor
  · rintro ⟨x, hx, hfl, hp⟩
    exact ⟨x, hx, hfl fl S.freeList, hp⟩
  · rintro ⟨x, hx, hfl, hp⟩
    exact ⟨x, hx, fun fl' h => S.freeList.unique h ▸ hfl, hp⟩

/-! ### The invariant along a run -/

theorem initSources_eq {pool : Heap} {eventPool : Ptr} {noblock edge : Bool} {sources : Ptr → Source} {i m : Nat} (hi : i < m) :
    ∃ j, initSources pool eventPool noblock edge m sources (pool.poolToArray eventPool i) = initSource noblock edge j := by
  induction m with
  | zero => exact absurd hi (Nat.not_lt_zero i)
  | succ m ih =>
    by_cases heq : pool.poolToArray eventPool i = pool.poolToArray eventPool m
    · exact ⟨m, by rw [initSources, heq, Function.update_self]⟩
    · have him : i ≠ m := fun h => heq (h ▸ rfl)
      obtain ⟨j, hj⟩ := ih (by omega)
      exact ⟨j, by rw [initSources, Function.update_of_ne heq, hj]⟩

theorem poolToArray_eq {pool : Heap} {eventPool i : Nat} (P : Placed sizeofSource n eventPool room)
    (H : PoolHas sizeofSource n eventPool room fl pool) (hi : i < n) :
    pool.poolToArray eventPool i = room + i * (sizeofSource + sizeofPoolElm) + sizeofPoolElm := by
  have hx : room + i * (sizeofSource + sizeofPoolElm) ∈ sources n room := mem_elements.mpr ⟨i, hi, rfl⟩
  have hlt := (P.element_bound hx).2.2
  have hbucket : addWord sizeofSource sizeofPoolElm = sizeofSource + sizeofPoolElm := by decide
  have helement : addWord room (mulWord i (sizeofSource + sizeofPoolElm)) = room + i * (sizeofSource + sizeofPoolElm) := by
    rw [mulWord_of_lt (by omega), addWord_of_lt (by omega)]
  rw [Heap.poolToArray, if_pos ⟨P.pool_ne, H.inited⟩, H.room, H.esize, hbucket, helement, addWord_of_lt (by omega)]

theorem eventInv_init {e₀ : Event} {event size room? maxEventSize : Nat} {noblock edge : Bool} (hevent : event ≠ NULL)
    (hblock : (event, size) ∈ e₀.pool.live ∧ offsetofEventPool + sizeofPool ≤ size)
    (hmanager : managerBlock event ∈ e₀.caches.live ∧ event + sizeofManager < 2 ^ 64) (hmax : maxEventSize < 2 ^ 31)
    (hkernel : e₀.kernel.Fresh) (hmade : eventInit event room? maxEventSize noblock edge e₀ = some e) :
    ∃ size room fl, 1 ≤ size ∧ Fits (size / 2) ∧ (∀ x ∈ sources (size * 2) room, x ∈ fl) ∧
      EventInv owned (size * 2) (size / 2) room fl e := by
  have hlt : (sizeofSource + sizeofPoolElm) * (maxEventSize * 2) < 2 ^ 64 := by
    rw [sizeofSource, sizeofPoolElm]
    omega
  have hfits : Fits (maxEventSize / 2) := by
    rw [Fits, readcacheSize, sizeofPoolElm]
    omega
  rw [eventInit] at hmade
  split at hmade
  next => cases hmade
  next hsome =>
  by_cases hfresh : e₀.pool.Fresh (room?, roomSize sizeofSource (maxEventSize * 2))
  swap
  · -- Without a room there is no event.
    have hpool : event + offsetofEventPool ≠ NULL := by
      have hne : event ≠ 0 := hevent
      show event + offsetofEventPool ≠ 0
      omega
    obtain ⟨pool, hpool, -⟩ := poolInit_none hlt hfresh hpool
    rw [hpool] at hmade
    simp only [↓reduceIte, reduceCtorEq] at hmade
  have hin : (event, size).1 ≤ event + offsetofEventPool ∧ event + offsetofEventPool < (event, size).1 + (event, size).2 := by
    have hpool : sizeofPool = 56 := rfl
    have hle := hblock.2
    show event ≤ event + offsetofEventPool ∧ event + offsetofEventPool < event + size
    omega
  have P := Fresh.placed hfresh hblock.1 hin hevent
  obtain ⟨pool, hpool, H, -, hlive, halloced⟩ := poolInit_some hlt hfresh hblock.1 hin hevent
  obtain ⟨⟨caches, m⟩, hcaches⟩ : ∃ r, r = e₀.caches.managerInit NULL event readcacheSize (maxEventSize / 2) := ⟨_, rfl⟩
  rw [hpool, ← hcaches] at hmade
  simp only [if_neg P.pool_ne] at hmade
  split at hmade
  next => cases hmade
  next hm =>
    have he := (Option.some.inj hmade).symm
    have M := managed_init (fun _ => hmanager) hcaches.symm hm
    have hat : ∀ x ∈ sources (maxEventSize * 2) room?, ∃ j, e.at x = initSource noblock edge j := by
      intro x hx
      obtain ⟨i, hi, rfl⟩ := mem_elements.mp hx
      rw [Event.at, ← poolToArray_eq P H hi, he]
      exact initSources_eq hi
    have hempty : ∀ x ∈ sources (maxEventSize * 2) room?, (e.at x).caches = [] := by
      intro x hx
      obtain ⟨j, hj⟩ := hat x hx
      rw [hj]
      rfl
    have hnone : e.cachesOf (sources (maxEventSize * 2) room?) = [] := List.flatMap_eq_nil_iff.mpr hempty
    have hlends : e.Lends (maxEventSize / 2) [] :=
      ⟨.none, by rw [he]; exact M, List.nodup_nil, by simp [Slabs.none]⟩
    have S : Stocked (maxEventSize * 2) (maxEventSize / 2) room? (sources (maxEventSize * 2) room?).reverse e := by
      refine ⟨by rw [he]; exact P, by rw [he]; exact H, hnone ▸ hlends, fun x hx => hempty x (List.mem_reverse.mp hx), ?_, ?_, ?_⟩
      · intro x hx hw
        obtain ⟨j, hj⟩ := hat x hx
        rw [hj] at hw
        exact absurd rfl hw
      · rw [he]
        exact hlive ▸ List.mem_cons_self
      · rw [he]
        exact halloced
    have hk : e.kernel = e₀.kernel := by rw [he]
    obtain ⟨haccepts, htenure, hcloses⟩ := hk ▸ hkernel
    refine ⟨maxEventSize, room?, _, Nat.le_of_not_lt hsome, hfits, fun x hx => List.mem_reverse.mpr hx, S, fun _ => ?_⟩
    have hall : ∀ x ∈ sources (maxEventSize * 2) room?, x ∉ (sources (maxEventSize * 2) room?).reverse → False :=
      fun x hx hn => hn (List.mem_reverse.mpr hx)
    refine ⟨fun x hx hn => (hall x hx hn).elim, fun x hx _ _ hn => (hall x hx hn).elim, fun x hx hn => (hall x hx hn).elim,
      by simp, fun fd i h => ?_, fun i hi => ?_, fun i => ?_, fun i h => absurd (hcloses i) h, fun i _ => hcloses i⟩
    · rw [htenure] at h
      cases h
    · rw [haccepts] at hi
      exact absurd hi (Nat.not_lt_zero i)
    · rw [hcloses]
      exact Nat.zero_le 1

theorem Own.free (S : Stocked n count room fl e) (hfd : e.Own fd) : ∀ x ∈ sources n room, x ∉ fl → (e.at x).sourceFd ≠ fd :=
  fun x hx hfl => hfd.2.2 _ (S.live_iff.mpr ⟨x, hx, hfl, rfl⟩)

theorem EventInv.openOwn (I : EventInv owned n count room fl e) (hclosed : e.kernel.isOpen fd = false) :
    EventInv owned n count room fl { e with kernel := e.kernel.openOwn fd } := by
  refine ⟨I.stocked.congr rfl rfl rfl rfl rfl fun _ => ⟨rfl, rfl⟩, fun hown => ?_⟩
  have F := I.fds hown
  have hne : ∀ x ∈ sources n room, x ∉ fl → (e.at x).sourceFd ≠ fd := by
    intro x hx hxf heq
    have hopen := (F.isOpen x hx hxf).2
    rw [heq, hclosed] at hopen
    cases hopen
  have hisOpen : ∀ fd', fd' ≠ fd → (e.kernel.openOwn fd).isOpen fd' = e.kernel.isOpen fd' := fun fd' h =>
    Function.update_of_ne h _ _
  have htenure : ∀ fd', fd' ≠ fd → (e.kernel.openOwn fd).tenure fd' = e.kernel.tenure fd' := fun fd' h =>
    Function.update_of_ne h _ _
  have hnone : (e.kernel.openOwn fd).tenure fd = none := Function.update_self _ _ _
  refine ⟨fun x hx hxf => ?_, F.unique, fun x hx hxf ht => F.auto x hx hxf (htenure _ (hne x hx hxf) ▸ ht), by simp,
    fun fd' i ht => ?_, fun i hi hc => ?_, F.once, fun i hc ht => ?_, F.fresh⟩
  · show 0 ≤ (e.at x).sourceFd ∧ (e.kernel.openOwn fd).isOpen (e.at x).sourceFd = true
    rw [hisOpen _ (hne x hx hxf)]
    exact F.isOpen x hx hxf
  · by_cases hfd : fd' = fd
    · rw [hfd] at ht
      cases hnone.symm.trans ht
    · exact F.tenure fd' i ((htenure fd' hfd).symm.trans ht)
  · obtain ⟨ht, hand | ⟨x, hx, hxf, hfd⟩⟩ := F.held i hi hc
    · cases hand
    · exact ⟨(htenure _ (hfd ▸ hne x hx hxf)).trans ht, .inr ⟨x, hx, hxf, hfd⟩⟩
  · have hfd : e.kernel.accepted i ≠ fd := by
      intro heq
      have ht' : (e.kernel.openOwn fd).tenure (e.kernel.accepted i) = some i := ht
      rw [heq, hnone] at ht'
      cases ht'
    exact (hisOpen _ hfd).trans (F.done i hc ((htenure _ hfd).symm.trans ht))

theorem EventInv.closeOwn (I : EventInv owned n count room fl e) (hfd : e.Own fd) :
    EventInv owned n count room fl { e with kernel := e.kernel.close fd } :=
  ⟨I.stocked.congr rfl rfl rfl rfl rfl fun _ => ⟨rfl, rfl⟩,
    fun hown => ((I.fds hown).pickUp hfd.1 (hfd.free I.stocked)).close⟩

theorem EventInv.addevent {timeout : Int} {listen autoClose : Bool} (I : EventInv owned n count room fl e)
    (hfd : owned → fd < 0 ∨ e.Own fd) :
    Triple (fun s => s = e) (addevent fd timeout listen autoClose) fun _ => Within owned n count room fl := by
  refine (Triple.start (addevent_spec I.stocked fd timeout listen autoClose)).conseq (fun _ h => h) fun r s h => ?_
  obtain ⟨hkernel, ⟨-, S, -, hat⟩ | ⟨-, h0, x, fl', rfl, S, hself, -, hat⟩⟩ := h
  · refine EventInv.within ⟨S, fun hown => (I.fds hown).congr hkernel fun y _ hy => ?_⟩
    rw [hat y hy]
    exact ⟨rfl, rfl⟩
  · refine ⟨fl', fun _ hy => List.mem_cons_of_mem x hy, S, fun hown => ?_⟩
    obtain hneg | hfd := hfd hown
    · omega
    have hx : x ∈ sources n room := I.stocked.pool.subset List.mem_cons_self
    have hfl : x ∉ fl' := (List.nodup_cons.mp I.stocked.pool.nodup).1
    have F := (I.fds hown).pickUp hfd.1 (hfd.free I.stocked)
    exact F.register h0 hkernel hx hfl hself (fun ht => absurd hfd.2.1 ht) fun y _ hy => hat y hy

theorem EventInv.report (I : EventInv owned n count room fl e) (revents : Ptr → Nat) :
    EventInv owned n count room fl (e.report revents) :=
  ⟨I.stocked.congr rfl rfl rfl rfl rfl fun _ => ⟨rfl, rfl⟩, fun hown => (I.fds hown).congr rfl fun _ _ _ => ⟨rfl, rfl⟩⟩

theorem EventInv.round {timeout : Int} {next : Next Unit Unit} (I : EventInv owned n count room fl e) (hp : e.Live p)
    (hcall : acceptRound timeout p () e = .ok (next, e')) : ∃ fl', EventInv owned n count room fl' e' := by
  obtain ⟨x, hx, hfl, rfl⟩ := I.stocked.live_iff.mp hp
  have h := Meets.of_ok (acceptRound_spec hx hfl _ () _ I.within) hcall
  cases next with
  | again _ =>
    obtain ⟨fl', -, I'⟩ := h
    exact ⟨fl', I'⟩
  | done _ =>
    obtain ⟨fl', -, I'⟩ := h
    exact ⟨fl', I'⟩

theorem EventInv.listen {fuel : Nat} {timeout : Int} {ready : List Ptr} (I : EventInv owned n count room fl e) (hnd : ready.Nodup)
    (hlive : ∀ p ∈ ready, e.Live p) (hcall : dispatchListenQueue fuel timeout ready e = .ok ((), e')) :
    ∃ fl', EventInv owned n count room fl' e' := by
  have hin := fun p hp => I.stocked.live_iff.mp (hlive p hp)
  exact Meets.of_ok (dispatchListenQueue_spec _ _ _ hnd hin _ I.within) hcall

theorem EventInv.dispatch {fuel : Nat} {revents : Ptr → Nat} {ready : List Ptr} (hfits : Fits count)
    (I : EventInv owned n count room fl e) (hnd : ready.Nodup) (hlive : ∀ p ∈ ready, e.Live p)
    (hcall : dispatchQueue fuel ready (e.report revents) = .ok ((), e')) : ∃ fl', EventInv owned n count room fl' e' := by
  have hin := fun p hp => I.stocked.live_iff.mp (hlive p hp)
  exact Meets.of_ok (dispatchQueue_spec hfits _ _ hnd hin _ (I.report _).within) hcall

/-- The pool of sources has twice as many as `qp_event_init` was asked for, and a pool of caches half as many. -/
theorem Runs.laid (R : Runs owned e) :
    ∃ size room fl, 1 ≤ size ∧ Fits (size / 2) ∧ EventInv owned (size * 2) (size / 2) room fl e := by
  induction R with
  | init hevent hblock hmanager hmax hkernel hmade =>
    obtain ⟨size, room, fl, hsome, hfits, -, I⟩ := eventInv_init hevent hblock hmanager hmax hkernel hmade
    exact ⟨size, room, fl, hsome, hfits, I⟩
  | openOwn _ hclosed ih =>
    obtain ⟨size, room, fl, hsome, hfits, I⟩ := ih
    exact ⟨size, room, fl, hsome, hfits, I.openOwn hclosed⟩
  | closeOwn _ hfd ih =>
    obtain ⟨size, room, fl, hsome, hfits, I⟩ := ih
    exact ⟨size, room, fl, hsome, hfits, I.closeOwn hfd⟩
  | addevent _ hfd hcall ih =>
    obtain ⟨size, room, fl, hsome, hfits, I⟩ := ih
    obtain ⟨fl', -, I'⟩ := Meets.of_ok (I.addevent hfd _ rfl) hcall
    exact ⟨size, room, fl', hsome, hfits, I'⟩
  | round _ hp hcall ih =>
    obtain ⟨size, room, fl, hsome, hfits, I⟩ := ih
    obtain ⟨fl', I'⟩ := I.round hp hcall
    exact ⟨size, room, fl', hsome, hfits, I'⟩
  | listen _ hnd hlive hcall ih =>
    obtain ⟨size, room, fl, hsome, hfits, I⟩ := ih
    obtain ⟨fl', I'⟩ := I.listen hnd hlive hcall
    exact ⟨size, room, fl', hsome, hfits, I'⟩
  | dispatch _ hnd hlive hcall ih =>
    obtain ⟨size, room, fl, hsome, hfits, I⟩ := ih
    obtain ⟨fl', I'⟩ := I.dispatch hfits hnd hlive hcall
    exact ⟨size, room, fl', hsome, hfits, I'⟩

theorem Runs.inv (R : Runs owned e) : ∃ n count room fl, Fits count ∧ EventInv owned n count room fl e := by
  obtain ⟨size, room, fl, -, hfits, I⟩ := R.laid
  exact ⟨size * 2, size / 2, room, fl, hfits, I⟩

/-! ### A concrete run -/

/-- An event at 1000 before it is made. The caller has the descriptor 5, connections get the descriptor 7, and every
    handler answers 1. -/
def bareEvent : Event where
  caches := bareHeap
  sourceCachePool := NULL
  pool := { bareHeap with live := [(1000, 512)] }
  eventPool := NULL
  source := fun _ => Source.zero
  handles := ⟨true, true, true, true, true⟩
  kernel := ⟨fun fd => decide (fd = 5), 0, fun _ => 0, fun _ => none, fun _ => 0⟩
  memory := fun _ => 0
  trace := []
  replies := fun _ => ⟨7, 1, false, 1, 1, fun _ => 0, 20000, 30000⟩
  clock := 0

/-- The state that a command leaves. -/
def after {α : Type} (m : EventM α) (e : Event) : Event :=
  match m e with
  | .ok (_, e') => e'
  | .error _ => e

theorem after_ok {α : Type} {m : EventM α} (h : (m e).isOk = true) : ∃ a, m e = .ok (a, after m e) := by
  unfold after
  cases hm : m e with
  | error halt =>
    rw [hm] at h
    cases h
  | ok st => exact ⟨st.1, rfl⟩

def madeEvent : Event := (eventInit 1000 50000 2 true false bareEvent).getD bareEvent

/-- The descriptor 5 has been added. -/
def watchedEvent (listen : Bool) : Event := after (addevent 5 0 listen false) madeEvent

/-- An event is made at 1000 in the memory of `bareEvent`. -/
theorem bareEvent_made {e₀ : Event} {size : Nat} {noblock edge : Bool}
    (hmade : eventInit 1000 50000 size noblock edge e₀ = some e) (hsize : size < 2 ^ 31) (hpool : e₀.pool = bareEvent.pool)
    (hcaches : e₀.caches = bareEvent.caches) (hkernel : e₀.kernel = bareEvent.kernel) : Runs owned e := by
  have hblock : (1000, 512) ∈ e₀.pool.live ∧ offsetofEventPool + sizeofPool ≤ 512 := by
    rw [hpool]
    exact ⟨List.mem_singleton.mpr rfl, by decide⟩
  have hmanager : managerBlock 1000 ∈ e₀.caches.live ∧ 1000 + sizeofManager < 2 ^ 64 := by
    rw [hcaches]
    exact ⟨List.mem_singleton.mpr rfl, by decide⟩
  have hfresh : e₀.kernel.Fresh := by
    rw [hkernel]
    exact ⟨rfl, fun _ => rfl, fun _ => rfl⟩
  exact .init (by decide) hblock hmanager hsize hfresh hmade

theorem madeEvent_runs : Runs owned madeEvent := by
  have hmade : eventInit 1000 50000 2 true false bareEvent = some madeEvent := rfl
  exact bareEvent_made hmade (by decide) rfl rfl rfl

theorem madeEvent_freeList : madeEvent.FreeList [50456, 50304, 50152, 50000] := ⟨⟨rfl, rfl, rfl, rfl, rfl⟩, by decide⟩

theorem madeEvent_own : madeEvent.Own 5 := by
  refine ⟨rfl, rfl, fun p hp => ?_⟩
  obtain ⟨x, hx, hfl, -⟩ := hp
  have hx : x ∈ [50000, 50152, 50304, 50456] := hx
  have hnot := hfl _ madeEvent_freeList
  simp at hx hnot
  omega

theorem watchedEvent_runs (listen : Bool) : Runs owned (watchedEvent listen) := by
  have hcall : addevent 5 0 listen false madeEvent = .ok (QP_SUCCESS, watchedEvent listen) := by cases listen <;> rfl
  exact .addevent madeEvent_runs (fun _ => .inr madeEvent_own) hcall

theorem watchedEvent_live (listen : Bool) : (watchedEvent listen).Live 50472 := by
  have hfree : (watchedEvent listen).FreeList [50304, 50152, 50000] := by
    cases listen with
    | false => exact ⟨⟨rfl, rfl, rfl, rfl⟩, by decide⟩
    | true => exact ⟨⟨rfl, rfl, rfl, rfl⟩, by decide⟩
  refine hfree.live (x := 50456) ?_ (by decide)
  cases listen with
  | false => decide
  | true => decide

/-- An event whose write handler fills in two bytes; `counts` are the counts of `read` and `write`. -/
def dripBare (counts : Nat → Int) : Event :=
  { bareEvent with replies := fun k => ⟨7, counts k, true, 1, 2, UInt8.ofNat, 20000 + 200 * k, 100000 + 10000 * k⟩ }

def dripEvent (edge : Bool) (counts : Nat → Int) : Event :=
  (eventInit 1000 50000 2 true edge (dripBare counts)).getD (dripBare counts)

/-- The descriptor 5 has been added. -/
def dripWatched (edge : Bool) (counts : Nat → Int) : Event := after (addevent 5 0 false false) (dripEvent edge counts)

theorem dripWatched_runs (edge : Bool) (counts : Nat → Int) : Runs False (dripWatched edge counts) := by
  have hmade : eventInit 1000 50000 2 true edge (dripBare counts) = some (dripEvent edge counts) := rfl
  have hcall : addevent 5 0 false false (dripEvent edge counts) = .ok (QP_SUCCESS, dripWatched edge counts) := rfl
  exact .addevent (bareEvent_made hmade (by decide) rfl rfl rfl) False.elim hcall

theorem dripWatched_live (edge : Bool) (counts : Nat → Int) : (dripWatched edge counts).Live 50472 := by
  have hfree : (dripWatched edge counts).FreeList [50304, 50152, 50000] :=
    ⟨⟨rfl, rfl, rfl, rfl⟩, show 1072 ∉ [50304, 50152, 50000] by decide⟩
  exact hfree.live (x := 50456) (show 50456 ∈ elements sizeofSource 4 50000 by decide) (by decide)

end Event

end QPHi
