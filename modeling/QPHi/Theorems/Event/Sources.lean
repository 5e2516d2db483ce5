import QPHi.Theorems.Event.Caches
import QPHi.Theorems.Event.Descriptors

/-! The sources of an event between two calls: the pool they come from, the caches they hold, and the descriptors
    they stand for. -/

namespace QPHi
open Command

variable {n count room x : Nat} {fl : List Nat} {e e' e₀ : Event}

/-- The elements of the pool of sources. -/
abbrev sources (n room : Nat) : List Nat := elements sizeofSource n room

namespace Event

/-- The caches of the sources `xs`. -/
def cachesOf (xs : List Nat) (e : Event) : List Nat := xs.flatMap fun x => (e.at x).caches

/-- The free list of the pool of sources is `fl`, and the caches that are handed out are those of its sources. -/
structure Stocked (n count room : Nat) (fl : List Nat) (e : Event) : Prop where
  placed : Placed sizeofSource n e.eventPool room
  pool : PoolHas sizeofSource n e.eventPool room fl e.pool
  lends : e.Lends count (e.cachesOf (sources n room))
  idle : ∀ x ∈ fl, (e.at x).caches = []
  writes : ∀ x ∈ sources n room, (e.at x).writeCache ≠ NULL → e.handles.write = true
  granted : (room, roomSize sizeofSource n) ∈ e.pool.live
  inPlace : (e.pool.pool e.eventPool).isAlloced = false

theorem cachesOf_congr {xs : List Nat} (h : ∀ x ∈ xs, (e'.at x).caches = (e.at x).caches) :
    e'.cachesOf xs = e.cachesOf xs := List.flatMap_congr h

theorem cachesOf_perm {xs : List Nat} (hx : x ∈ xs) :
    (e.cachesOf xs).Perm ((e.at x).caches ++ e.cachesOf (xs.erase x)) :=
  (List.perm_cons_erase hx).flatMap_right _

theorem mem_erase_sources {y : Nat} : y ∈ (sources n room).erase x ↔ y ≠ x ∧ y ∈ sources n room :=
  List.Nodup.mem_erase_iff elements_nodup

theorem at_of_ne {y : Nat} (h : ∀ q, q ≠ x + sizeofPoolElm → e'.source q = e.source q) (hy : y ≠ x) : e'.at y = e.at y := by
  refine h _ fun heq => hy ?_
  omega

/-- A source is written, but not its caches. -/
theorem caches_update {p : Ptr} {s : Source} (hread : s.readCache = (e.source p).readCache)
    (hwrite : s.writeCache = (e.source p).writeCache) (y : Nat) :
    (Function.update e.source p s (y + sizeofPoolElm)).readCache = (e.at y).readCache ∧
      (Function.update e.source p s (y + sizeofPoolElm)).writeCache = (e.at y).writeCache := by
  by_cases hy : y + sizeofPoolElm = p
  · subst hy
    rw [Function.update_self]
    exact ⟨hread, hwrite⟩
  · rw [Function.update_of_ne hy]
    exact ⟨rfl, rfl⟩

namespace Stocked

theorem ne_null (S : Stocked n count room fl e) (hx : x ∈ sources n room) : x + sizeofPoolElm ≠ NULL := by
  have hx0 : x ≠ 0 := (S.placed.element_bound hx).1
  show x + sizeofPoolElm ≠ 0
  omega

/-- A function of the source `x` may begin. -/
theorem tends (S : Stocked n count room fl e) (hx : x ∈ sources n room) :
    Tends count (x + sizeofPoolElm) (e.cachesOf ((sources n room).erase x)) e e :=
  ⟨⟨rfl, rfl, rfl, rfl, rfl, fun _ _ => rfl, rfl, rfl, S.writes x hx⟩, S.lends.perm (cachesOf_perm hx)⟩

/-- A function of the source `x` has come to its end. -/
theorem back (S : Stocked n count room fl e₀) (hx : x ∈ sources n room) (hfl : x ∉ fl)
    (T : Tends count (x + sizeofPoolElm) (e₀.cachesOf ((sources n room).erase x)) e₀ e) : Stocked n count room fl e := by
  have hat : ∀ y, y ≠ x → e.at y = e₀.at y := fun y hy => at_of_ne T.aside.source hy
  refine ⟨T.aside.eventPool ▸ S.placed, ?_, ?_, fun y hy => ?_, fun y hy hw => ?_, T.aside.pool ▸ S.granted, ?_⟩
  · rw [T.aside.pool, T.aside.eventPool]
    exact S.pool
  · have hrest : e.cachesOf ((sources n room).erase x) = e₀.cachesOf ((sources n room).erase x) :=
      cachesOf_congr fun y hy => by rw [hat y (mem_erase_sources.mp hy).1]
    rw [← hrest] at T
    exact T.lends.perm (cachesOf_perm hx).symm
  · rw [hat y fun heq => hfl (heq ▸ hy)]
    exact S.idle y hy
  · rw [T.aside.handles]
    by_cases hyx : y = x
    · subst hyx
      exact T.aside.writes hw
    · exact S.writes y hy (hat y hyx ▸ hw)
  · rw [T.aside.pool, T.aside.eventPool]
    exact S.inPlace

/-- What is not about the pool, the caches or the handlers may change. -/
theorem congr (S : Stocked n count room fl e) (hpool : e'.pool = e.pool) (heventPool : e'.eventPool = e.eventPool)
    (hcaches : e'.caches = e.caches) (hcachePool : e'.sourceCachePool = e.sourceCachePool) (hhandles : e'.handles = e.handles)
    (hat : ∀ y, (e'.at y).readCache = (e.at y).readCache ∧ (e'.at y).writeCache = (e.at y).writeCache) :
    Stocked n count room fl e' := by
  have hsame : ∀ y, (e'.at y).caches = (e.at y).caches := fun y => by
    rw [Source.caches, (hat y).1, (hat y).2]
    rfl
  refine ⟨heventPool ▸ S.placed, by rw [hpool, heventPool]; exact S.pool, ?_, fun y hy => (hsame y).trans (S.idle y hy),
    fun y hy hw => hhandles ▸ S.writes y hy ((hat y).2 ▸ hw), hpool ▸ S.granted, by rw [hpool, heventPool]; exact S.inPlace⟩
  rw [cachesOf_congr fun y _ => hsame y]
  show ∃ g, Managed readcacheSize count e'.sourceCachePool g e'.caches ∧ _
  rw [hcaches, hcachePool]
  exact S.lends

end Stocked

/-! ### Removing a source -/

/-- The descriptors after a source has been closed. -/
def closing (s : Source) (k : Kernel) : Kernel :=
  if s.closed ∧ QP_FD_INVALID ≠ s.sourceFd then k.close s.sourceFd else k

/-- The calls after a source has been closed. -/
def closingTrace (s : Source) (trace : List Call) : List Call :=
  if s.closed ∧ QP_FD_INVALID ≠ s.sourceFd then .close s.sourceFd :: trace else trace

theorem sourceClose_run {p : Ptr} (hp : p ≠ NULL) :
    sourceClose p e = .ok (QP_SUCCESS, { e with
      kernel := closing (e.source p) e.kernel
      source := Function.update e.source p { e.source p with sourceFd := QP_FD_INVALID }
      trace := closingTrace (e.source p) e.trace }) := by
  unfold sourceClose closing closingTrace
  rw [if_neg hp]
  by_cases hc : (e.source p).closed ∧ QP_FD_INVALID ≠ (e.source p).sourceFd
  · rw [if_pos hc, if_pos hc]
    show ((do
      when ((e.source p).closed ∧ QP_FD_INVALID ≠ (e.source p).sourceFd) (sysClose (e.source p).sourceFd)
      setSource p fun s => { s with sourceFd := QP_FD_INVALID }
      return QP_SUCCESS) : EventM Int) e = _
    rw [when, if_pos hc]
    rfl
  · rw [if_neg hc, if_neg hc]
    show ((do
      when ((e.source p).closed ∧ QP_FD_INVALID ≠ (e.source p).sourceFd) (sysClose (e.source p).sourceFd)
      setSource p fun s => { s with sourceFd := QP_FD_INVALID }
      return QP_SUCCESS) : EventM Int) e = _
    rw [when, if_neg hc]
    rfl

/-- A source without caches goes back to the pool. -/
theorem Stocked.give {others : List Nat} (S : Stocked n count room fl e₀) (hx : x ∈ sources n room) (hfl : x ∉ fl)
    (hothers : others = e₀.cachesOf ((sources n room).erase x)) (T : Tends count (x + sizeofPoolElm) others e₀ e)
    (hnone : (e.at x).caches = []) :
    Stocked n count room (x :: fl) { e with pool := (e.pool.poolFree e.eventPool (x + sizeofPoolElm)).1 } := by
  subst hothers
  have S' := S.back hx hfl T
  obtain ⟨pool, hrun, H, K⟩ := S'.pool.poolFree_some S'.placed hx hfl
  refine ⟨S'.placed, ?_, S'.lends, fun y hy => ?_, S'.writes, ?_, ?_⟩
  · show PoolHas _ _ _ _ _ (e.pool.poolFree e.eventPool (x + sizeofPoolElm)).1
    rw [hrun]
    exact H
  · rcases List.mem_cons.mp hy with rfl | hy
    · exact hnone
    · exact S'.idle y hy
  · show _ ∈ (e.pool.poolFree e.eventPool (x + sizeofPoolElm)).1.live
    rw [hrun, K.live]
    exact S'.granted
  · show ((e.pool.poolFree e.eventPool (x + sizeofPoolElm)).1.pool e.eventPool).isAlloced = false
    rw [hrun, K.alloced]
    exact S'.inPlace

theorem Source.caches_dropBoth (s : Source) : s.dropRead.dropWrite.caches = [] := by
  unfold Source.dropRead Source.dropWrite
  split <;> split <;> simp_all [Source.caches]

/-- `qp_event_removeevent` closes the descriptor if it is asked to, gives the caches back, and then the source. -/
theorem removeevent_spec (S : Stocked n count room fl e) (hx : x ∈ sources n room) (hfl : x ∉ fl) :
    Meets (fun _ e' => Stocked n count room (x :: fl) e' ∧
      e'.pool = (e.pool.poolFree e.eventPool (x + sizeofPoolElm)).1 ∧ e'.kernel = closing (e.at x) e.kernel ∧
      (∀ y, y ≠ x → e'.at y = e.at y) ∧ e'.at x = (e.at x).removed) (removeevent (x + sizeofPoolElm) e) := by
  have hp := S.ne_null hx
  obtain ⟨p, hpx⟩ : ∃ p, p = x + sizeofPoolElm := ⟨_, rfl⟩
  rw [← hpx] at hp ⊢
  suffices h : Triple (fun s => s = e) (removeevent p) _ from h e rfl
  unfold removeevent
  rw [if_neg hp]
  have hhandle : Triple (fun s => s = e) handle fun _ s => s = e := fun _ h => h
  have hdel : ∀ h : Handles, Triple (fun s => s = e) (when h.del (record (.del p)))
      fun _ s => ∃ trace, s = { e with trace := trace } := by
    intro h
    refine Triple.when (fun _ => ?_) fun _ s hs => ⟨e.trace, hs⟩
    rintro s rfl
    exact ⟨_, rfl⟩
  have hclose : Triple (fun s => ∃ trace, s = { e with trace := trace }) (sourceClose p) fun _ s => ∃ trace, s = { e with
      kernel := closing (e.source p) e.kernel
      source := Function.update e.source p { e.source p with sourceFd := QP_FD_INVALID }
      trace := trace } := by
    rintro s ⟨trace, rfl⟩
    rw [sourceClose_run hp]
    exact ⟨_, rfl⟩
  refine hhandle.bind fun h => (hdel h).bind fun _ => hclose.bind fun _ => ?_
  rintro _ ⟨trace, rfl⟩
  obtain ⟨e₁, he₁⟩ : ∃ e₁ : Event, e₁ = { e with
      kernel := closing (e.source p) e.kernel
      source := Function.update e.source p { e.source p with sourceFd := QP_FD_INVALID }
      trace := trace } := ⟨_, rfl⟩
  rw [← he₁]
  have S₁ : Stocked n count room fl e₁ := by
    rw [he₁]
    exact S.congr rfl rfl rfl rfl rfl (caches_update rfl rfl)
  have hat : ∀ y, y ≠ x → e₁.at y = e.at y := by
    refine fun y hy => at_of_ne (fun q hq => ?_) hy
    rw [he₁]
    exact Function.update_of_ne (hpx ▸ hq) _ _
  have hlast : Triple (fun s => Tends count p (e₁.cachesOf ((sources n room).erase x)) e₁ s ∧
      s.source p = (e₁.source p).dropRead.dropWrite)
      (do modify fun e => { e with pool := (e.pool.poolFree e.eventPool p).1 }; return QP_SUCCESS) fun _ e' =>
        Stocked n count room (x :: fl) e' ∧ e'.pool = (e.pool.poolFree e.eventPool p).1 ∧
          e'.kernel = closing (e.at x) e.kernel ∧ (∀ y, y ≠ x → e'.at y = e.at y) ∧ e'.at x = (e.at x).removed := by
    rintro s ⟨T, hs⟩
    subst hpx
    refine ⟨S₁.give hx hfl rfl T ?_, ?_, ?_, fun y hy => ?_, ?_⟩
    · rw [Event.at, hs]
      exact Source.caches_dropBoth _
    · show (s.pool.poolFree s.eventPool _).1 = _
      rw [T.aside.pool, T.aside.eventPool, he₁]
    · show s.kernel = _
      rw [T.aside.kernel, he₁]
      rfl
    · exact (at_of_ne T.aside.source hy).trans (hat y hy)
    · show s.source (x + sizeofPoolElm) = _
      rw [hs, he₁]
      simp only [Function.update_self]
      rfl
  refine Triple.bind (sourceFreeReadCache_tends hp (e₁.source p)) (fun _ => (sourceFreeWriteCache_tends hp _).bind fun _ =>
    hlast) e₁ ⟨?_, rfl⟩
  rw [hpx]
  exact S₁.tends hx

/-! ### Adding a source -/

/-- What `qp_event_addevent` leaves: after a failure everything that was in use is as before, and after a success the
    first free source stands for the descriptor. -/
def Added (n count room : Nat) (fl : List Nat) (fd : Int) (autoClose : Bool) (e : Event) (r : Int) (e' : Event) : Prop :=
  e'.kernel = e.kernel ∧
    ((r = QP_ERROR ∧ Stocked n count room fl e' ∧ e'.pool = e.pool ∧ ∀ y, y ∉ fl → e'.at y = e.at y) ∨
      (r = QP_SUCCESS ∧ 0 ≤ fd ∧ ∃ x fl', fl = x :: fl' ∧ Stocked n count room fl' e' ∧ (e'.at x).sourceFd = fd ∧
        (e'.at x).closed = autoClose ∧ ∀ y, y ≠ x → e'.at y = e.at y))

/-- The first free source is taken and filled in. -/
def taken (pool : Heap) (x : Nat) (fd timeout : Int) (listen autoClose : Bool) (e : Event) : Event :=
  { e with
    pool := pool
    source := Function.update e.source (x + sizeofPoolElm) { (e.at x).clearFlag with
      listen := listen
      closed := autoClose
      sourceFd := fd
      timeout := timeout } }

theorem Stocked.take {pool : Heap} {fd timeout : Int} {listen autoClose : Bool} (S : Stocked n count room (x :: fl) e)
    (H : PoolHas sizeofSource n e.eventPool room fl pool) (K : PoolSteps sizeofSource n e.eventPool room e.pool pool) :
    Stocked n count room fl (taken pool x fd timeout listen autoClose e) := by
  have S₁ : Stocked n count room (x :: fl) { taken pool x fd timeout listen autoClose e with pool := e.pool } :=
    S.congr rfl rfl rfl rfl rfl (caches_update rfl rfl)
  exact ⟨S₁.placed, H, S₁.lends, fun y hy => S₁.idle y (List.mem_cons_of_mem x hy), S₁.writes, K.live ▸ S.granted,
    K.alloced.trans S.inPlace⟩

/-- The source `x` was just taken, and the kernel does not want its descriptor: it goes back to the pool, with no
    descriptor to close. -/
theorem addevent_fails {e₁ : Event} {fd : Int} {autoClose : Bool} (S : Stocked n count room fl e₁) (hx : x ∈ sources n room)
    (hfl : x ∉ fl) (hkernel : e₁.kernel = e.kernel) (hpool : (e₁.pool.poolFree e₁.eventPool (x + sizeofPoolElm)).1 = e.pool)
    (hat : ∀ y, y ≠ x → e₁.at y = e.at y) :
    Triple (fun s => s = e₁)
      (do
        setSource (x + sizeofPoolElm) fun s => { s with sourceFd := QP_FD_INVALID }
        let _ ← removeevent (x + sizeofPoolElm)
        return QP_ERROR)
      (Added n count room (x :: fl) fd autoClose e) := by
  obtain ⟨e₂, he₂⟩ : ∃ e₂ : Event, e₂ = { e₁ with
      source := Function.update e₁.source (x + sizeofPoolElm) { e₁.at x with sourceFd := QP_FD_INVALID } } := ⟨_, rfl⟩
  have hset : Triple (fun s => s = e₁) (setSource (x + sizeofPoolElm) fun s => { s with sourceFd := QP_FD_INVALID })
      fun _ s => s = e₂ := by
    rintro s rfl
    exact he₂.symm
  have S₂ : Stocked n count room fl e₂ := by
    rw [he₂]
    exact S.congr rfl rfl rfl rfl rfl (caches_update rfl rfl)
  have hfd : (e₂.at x).sourceFd = QP_FD_INVALID := by simp [he₂, Event.at]
  refine hset.bind fun _ => (Triple.start (removeevent_spec S₂ hx hfl)).bind fun _ => Triple.pure fun e' h => ?_
  obtain ⟨S', hpool', hkernel', hat', -⟩ := h
  refine ⟨?_, .inl ⟨rfl, S', ?_, fun y hy => ?_⟩⟩
  · rw [hkernel', closing, hfd, if_neg fun h => h.2 rfl, ← hkernel, he₂]
  · rw [hpool', ← hpool, he₂]
  · have hyx : y ≠ x := fun heq => hy (heq ▸ List.mem_cons_self)
    rw [hat' y hyx, ← hat y hyx, he₂]
    exact at_of_ne (fun _ hq => Function.update_of_ne hq _ _) hyx

theorem addevent_spec (S : Stocked n count room fl e) (fd timeout : Int) (listen autoClose : Bool) :
    Meets (Added n count room fl fd autoClose e) (addevent fd timeout listen autoClose e) := by
  have hnone : Triple (fun s => s = e) (pure QP_ERROR) (Added n count room fl fd autoClose e) := by
    rintro s rfl
    exact ⟨rfl, .inl ⟨rfl, S, rfl, fun _ _ => rfl⟩⟩
  suffices h : Triple (fun s => s = e) (addevent fd timeout listen autoClose) (Added n count room fl fd autoClose e) from h e rfl
  refine Triple.bind (R := fun a s => a = e ∧ s = e) (fun s hs => ⟨hs, hs⟩) fun a => Triple.given fun ha => ?_
  subst ha
  refine Triple.ite (fun _ => hnone) fun _ => Triple.ite (fun hroom => ?_) fun _ => hnone
  -- A pool that counts a free element has one.
  obtain ⟨x, fl', rfl⟩ : ∃ x fl', fl = x :: fl' := by
    cases fl with
    | nil => exact absurd S.pool.nfree hroom.1
    | cons x fl' => exact ⟨x, fl', rfl⟩
  have hx : x ∈ sources n room := S.pool.subset List.mem_cons_self
  have hfl : x ∉ fl' := (List.nodup_cons.mp S.pool.nodup).1
  obtain ⟨pool, hrun, H, K⟩ := S.pool.poolAlloc_some S.placed (Nat.le_refl sizeofSource)
  have hback := S.pool.poolFree_poolAlloc S.placed (Nat.le_refl sizeofSource)
  rw [hrun] at hback
  have S₁ : Stocked n count room fl' (taken pool x fd timeout listen autoClose a) := S.take H K
  rw [hrun]
  have hset : Triple (fun s => s = a) (set ({ a with pool := pool } : Event) : EventM PUnit)
      fun _ s => s = { a with pool := pool } := fun _ _ => Eq.refl _
  refine hset.bind fun _ => ?_
  simp only [if_neg (S.ne_null hx)]
  have hfill : Triple (fun s => s = ({ a with pool := pool } : Event)) (setSource (x + sizeofPoolElm) fun s =>
      { s.clearFlag with listen := listen, closed := autoClose, sourceFd := fd, timeout := timeout })
      fun _ s => s = taken pool x fd timeout listen autoClose a := by
    rintro s rfl
    exact Eq.refl _
  have hadd : Triple (fun s => s = taken pool x fd timeout listen autoClose a) (evAdd (x + sizeofPoolElm))
      fun _ s => ∃ trace clock, s = { taken pool x fd timeout listen autoClose a with trace := trace, clock := clock } := by
    rintro s rfl
    exact ⟨_, _, rfl⟩
  refine hfill.bind fun _ => hadd.bind fun r => ?_
  rintro _ ⟨trace, clock, rfl⟩
  obtain ⟨e₁, he₁⟩ : ∃ e₁ : Event, e₁ = { taken pool x fd timeout listen autoClose a with trace := trace, clock := clock } :=
    ⟨_, rfl⟩
  have S₂ : Stocked n count room fl' e₁ := he₁ ▸ S₁.congr rfl rfl rfl rfl rfl fun _ => ⟨rfl, rfl⟩
  have hat : ∀ y, y ≠ x → e₁.at y = a.at y := fun y hy => by
    rw [he₁]
    exact at_of_ne (fun _ hq => Function.update_of_ne hq _ _) hy
  rw [← he₁]
  split
  next => exact addevent_fails S₂ hx hfl (by rw [he₁]; rfl) (by rw [he₁]; exact hback) hat e₁ rfl
  next =>
    have h0 : 0 ≤ fd := Int.add_one_le_iff.mpr hroom.2
    refine ⟨by rw [he₁]; rfl, .inr ⟨rfl, h0, x, fl', rfl, S₂.congr rfl rfl rfl rfl rfl (caches_update rfl rfl), ?_, ?_,
      fun y hy => ?_⟩⟩
    · simp [he₁, taken, Event.at]
    · simp [he₁, taken, Event.at]
    · rw [← hat y hy]
      exact at_of_ne (fun _ hq => Function.update_of_ne hq _ _) hy

end Event

end QPHi
