import QPHi.Event
import QPHi.Theorems.Pool.Run

/-! The functions of one source: they touch this source and the manager of the caches only, and the caches of the
    source are outstanding before and after. -/

namespace QPHi
open Command

variable {count : Nat} {p : Ptr} {e e' e₀ : Event} {out others : List Nat}

/-- The caches that a source holds. -/
def Source.caches (s : Source) : List Nat := [s.readCache, s.writeCache].filter (· ≠ NULL)

/-- A source without its read cache, and one without its write cache. -/
def Source.dropRead (s : Source) : Source := if s.readCache = NULL then s else { s with readCacheSize := 0, readCache := NULL }
def Source.dropWrite (s : Source) : Source :=
  if s.writeCache = NULL then s else { s with writeCacheSize := 0, writeCache := NULL }

/-- A source that was removed. -/
def Source.removed (s : Source) : Source := ({ s with sourceFd := QP_FD_INVALID } : Source).dropRead.dropWrite

theorem Source.dropRead_readCache (s : Source) : s.dropRead.readCache = NULL := by
  unfold Source.dropRead
  split
  next h => exact h
  next => rfl

theorem Source.dropWrite_writeCache (s : Source) : s.dropWrite.writeCache = NULL := by
  unfold Source.dropWrite
  split
  next h => exact h
  next => rfl

theorem Source.dropRead_shutdown (s : Source) : s.dropRead.shutdown = s.shutdown := by
  unfold Source.dropRead
  split
  · rfl
  · rfl

theorem Source.dropWrite_shutdown (s : Source) : s.dropWrite.shutdown = s.shutdown := by
  unfold Source.dropWrite
  split
  · rfl
  · rfl

/-- The manager of the caches is in order, and `out` are the caches it has handed out. -/
def Event.Lends (count : Nat) (out : List Nat) (e : Event) : Prop :=
  ∃ g, Managed readcacheSize count e.sourceCachePool g e.caches ∧ Outstanding readcacheSize count g out

namespace Event

/-- The event with the source at `p` replaced. -/
def putSource (p : Ptr) (s : Source) (e : Event) : Event := { e with source := Function.update e.source p s }

@[simp] theorem putSource_source (s : Source) : (e.putSource p s).source p = s := by simp [putSource]
theorem putSource_self : e.putSource p (e.source p) = e := by simp [putSource]

theorem getSource_run : getSource p e = .ok (e.source p, e) := rfl

theorem setSource_run (f : Source → Source) : setSource p f e = .ok ((), e.putSource p (f (e.source p))) := rfl

theorem Lends.perm {out' : List Nat} (h : e.Lends count out) (hperm : out.Perm out') : e.Lends count out' := by
  obtain ⟨g, M, hnd, hmem⟩ := h
  exact ⟨g, M, hperm.nodup_iff.mp hnd, fun p => (hperm.mem_iff (a := p)).symm.trans (hmem p)⟩

/-- A room of caches does not overflow. -/
def Fits (count : Nat) : Prop := (readcacheSize + sizeofPoolElm) * count < 2 ^ 64

theorem cacheAlloc_eq (size : Nat) :
    cacheAlloc size e =
      match e.caches.managerAlloc (e.replies e.clock).elm (e.replies e.clock).room e.sourceCachePool size with
      | none => .error .stuck
      | some (caches, cache) => .ok (cache, { e with caches := caches, clock := e.clock + 1 }) := by
  unfold cacheAlloc
  rw [run_bind rfl, run_bind rfl]
  cases e.caches.managerAlloc (e.replies e.clock).elm (e.replies e.clock).room e.sourceCachePool size with
  | none => rfl
  | some st => rfl

/-- `qp_manager_alloc` hands out a new cache or none. -/
theorem cacheAlloc_run (hfits : Fits count) (h : e.Lends count out) (size : Nat) :
    ∃ caches r, cacheAlloc size e = .ok (r, { e with caches := caches, clock := e.clock + 1 }) ∧
      ((r = NULL ∧ { e with caches := caches, clock := e.clock + 1 }.Lends count out) ∨
        (r ≠ NULL ∧ { e with caches := caches, clock := e.clock + 1 }.Lends count (r :: out))) := by
  obtain ⟨g, M, O⟩ := h
  obtain ⟨caches, r, g', hrun, M', -, hout⟩ :=
    M.managerAlloc hfits O (e.replies e.clock).elm (e.replies e.clock).room size
  refine ⟨caches, r, ?_, ?_⟩
  · rw [cacheAlloc_eq, hrun]
  · rcases hout with ⟨hr, O'⟩ | ⟨hr, -, -, O'⟩
    · exact .inl ⟨hr, g', M', O'⟩
    · exact .inr ⟨hr, g', M', O'⟩

theorem cacheFree_eq (cache : Ptr) :
    cacheFree cache e =
      match e.caches.managerFree e.sourceCachePool cache with
      | none => .error .stuck
      | some (caches, _) => .ok ((), { e with caches := caches }) := by
  unfold cacheFree
  rw [run_bind rfl]
  cases e.caches.managerFree e.sourceCachePool cache with
  | none => rfl
  | some st => rfl

/-- `qp_manager_free` takes a cache back. -/
theorem cacheFree_run {r : Nat} (h : e.Lends count (r :: out)) :
    ∃ caches, cacheFree r e = .ok ((), { e with caches := caches }) ∧ { e with caches := caches }.Lends count out := by
  obtain ⟨g, M, O⟩ := h
  obtain ⟨caches, g', hrun, M', O', -⟩ := M.managerFree O List.mem_cons_self
  rw [List.erase_cons_head] at O'
  refine ⟨caches, ?_, g', M', O'⟩
  rw [cacheFree_eq, hrun]

/-! ### What the functions of a source keep -/

/-- Since `e₀`, at most the source `p`, the caches and the outside world have changed; the source has its
    descriptor. A source with a write cache got it for a write handler. -/
structure Aside (p : Ptr) (e₀ e : Event) : Prop where
  pool : e.pool = e₀.pool
  eventPool : e.eventPool = e₀.eventPool
  sourceCachePool : e.sourceCachePool = e₀.sourceCachePool
  handles : e.handles = e₀.handles
  kernel : e.kernel = e₀.kernel
  source : ∀ q, q ≠ p → e.source q = e₀.source q
  sourceFd : (e.source p).sourceFd = (e₀.source p).sourceFd
  closed : (e.source p).closed = (e₀.source p).closed
  writes : (e.source p).writeCache ≠ NULL → e₀.handles.write = true

/-- While a function of the source `p` runs that began in `e₀`: the caches of the source and those of the others
    are the ones handed out. -/
structure Tends (count : Nat) (p : Ptr) (others : List Nat) (e₀ e : Event) : Prop where
  aside : Aside p e₀ e
  lends : e.Lends count ((e.source p).caches ++ others)

/-- Only the caches and the outside world change. -/
theorem Aside.congr (A : Aside p e₀ e) (hpool : e'.pool = e.pool) (heventPool : e'.eventPool = e.eventPool)
    (hcachePool : e'.sourceCachePool = e.sourceCachePool) (hhandles : e'.handles = e.handles) (hkernel : e'.kernel = e.kernel)
    (hsource : e'.source = e.source) : Aside p e₀ e' := by
  refine ⟨hpool.trans A.pool, heventPool.trans A.eventPool, hcachePool.trans A.sourceCachePool, hhandles.trans A.handles,
    hkernel.trans A.kernel, ?_, ?_, ?_, ?_⟩
  all_goals rw [hsource]
  · exact A.source
  · exact A.sourceFd
  · exact A.closed
  · exact A.writes

/-- The source is replaced by one with the same descriptor. -/
theorem Aside.put {s : Source} (A : Aside p e₀ e) (hfd : s.sourceFd = (e.source p).sourceFd)
    (hclosed : s.closed = (e.source p).closed) (hwrites : s.writeCache ≠ NULL → e₀.handles.write = true) :
    Aside p e₀ (e.putSource p s) := by
  refine ⟨A.pool, A.eventPool, A.sourceCachePool, A.handles, A.kernel, fun q hq => ?_, ?_, ?_, ?_⟩
  · exact (Function.update_of_ne hq _ _).trans (A.source q hq)
  all_goals rw [putSource_source]
  · exact hfd.trans A.sourceFd
  · exact hclosed.trans A.closed
  · exact hwrites

/-- What a function may do to a source other than give it caches or take them. -/
def Plain (f : Source → Source) : Prop :=
  ∀ s, (f s).readCache = s.readCache ∧ (f s).writeCache = s.writeCache ∧ (f s).sourceFd = s.sourceFd ∧
    (f s).closed = s.closed

theorem setSource_keeps {f : Source → Source} (hf : Plain f) : Keeps (Tends count p others e₀) (setSource p f) := by
  refine Keeps.modify fun e H => ?_
  obtain ⟨hread, hwrite, hfd, hclosed⟩ := hf (e.source p)
  refine ⟨H.aside.put hfd hclosed fun h => H.aside.writes (hwrite ▸ h), ?_⟩
  simp only [Function.update_self, Source.caches, hread, hwrite]
  exact H.lends

theorem getSource_keeps {I : Event → Prop} (q : Ptr) : Keeps I (getSource q) := fun _ h => h

theorem handle_keeps {I : Event → Prop} : Keeps I handle := fun _ h => h

theorem reply_keeps : Keeps (Tends count p others e₀) reply := fun _ H =>
  ⟨H.aside.congr rfl rfl rfl rfl rfl rfl, H.lends⟩

theorem record_keeps (call : Call) : Keeps (Tends count p others e₀) (record call) := fun _ H =>
  ⟨H.aside.congr rfl rfl rfl rfl rfl rfl, H.lends⟩

theorem store_keeps (a n : Nat) (data : Nat → UInt8) : Keeps (Tends count p others e₀) (store a n data) := fun _ H =>
  ⟨H.aside.congr rfl rfl rfl rfl rfl rfl, H.lends⟩

theorem sysRead_keeps (q : Ptr) (buf n : Nat) : Keeps (Tends count p others e₀) (sysRead q buf n) :=
  reply_keeps.bind fun _ => (store_keeps _ _ _).bind fun _ => (record_keeps _).bind fun _ => Keeps.pure _

theorem sysWrite_keeps (q : Ptr) (buf n : Nat) : Keeps (Tends count p others e₀) (sysWrite q buf n) :=
  reply_keeps.bind fun _ => Keeps.get.bind fun _ => (record_keeps _).bind fun _ => Keeps.pure _

theorem sourceSetShutdown_keeps : Keeps (Tends count p others e₀) (sourceSetShutdown p) :=
  Keeps.when (setSource_keeps fun _ => ⟨rfl, rfl, rfl, rfl⟩)

/-! ### Taking caches and giving them back -/

theorem getSource_knows {P : Event → Prop} : Triple P (getSource p) fun s e => P e ∧ e.source p = s :=
  fun _ h => ⟨h, rfl⟩

theorem cacheAlloc_tends (hfits : Fits count) (φ : Source → Prop) (size : Nat) :
    Triple (fun e => Tends count p others e₀ e ∧ φ (e.source p)) (cacheAlloc size) fun r e =>
      Aside p e₀ e ∧ φ (e.source p) ∧ ((r = NULL ∧ e.Lends count ((e.source p).caches ++ others)) ∨
        (r ≠ NULL ∧ e.Lends count (r :: ((e.source p).caches ++ others)))) := by
  rintro e ⟨H, hφ⟩
  obtain ⟨caches, r, hrun, hout⟩ := cacheAlloc_run hfits H.lends size
  rw [hrun]
  exact ⟨H.aside.congr rfl rfl rfl rfl rfl rfl, hφ, hout⟩

/-- A source gets the cache `r`, or loses one. -/
theorem setSource_tends (new : List Nat) {f : Source → Source} {φ : Source → Prop}
    (hf : ∀ s, φ s → (f s).caches.Perm (new ++ s.caches) ∧ (f s).sourceFd = s.sourceFd ∧ (f s).closed = s.closed)
    (hw : ∀ s, (f s).writeCache ≠ NULL → s.writeCache ≠ NULL ∨ e₀.handles.write = true) :
    Triple (fun e => Aside p e₀ e ∧ φ (e.source p) ∧ e.Lends count (new ++ ((e.source p).caches ++ others)))
      (setSource p f) fun _ e => Tends count p others e₀ e := by
  rintro e ⟨A, hφ, hlends⟩
  obtain ⟨hperm, hfd, hclosed⟩ := hf (e.source p) hφ
  refine ⟨A.put hfd hclosed fun h => (hw _ h).elim A.writes id, ?_⟩
  simp only [Function.update_self]
  rw [← List.append_assoc] at hlends
  exact hlends.perm (hperm.symm.append_right others)

/-- One of the two caches of a source: the pointer to it, and how it is set. -/
structure Slot where
  cache : Source → Ptr
  put : Ptr → Source → Source
  caches_put : ∀ r s, cache s = NULL → (put r s).caches.Perm ([r].filter (· ≠ NULL) ++ s.caches)
  fd_put : ∀ r s, (put r s).sourceFd = s.sourceFd ∧ (put r s).closed = s.closed
  put_cache : ∀ s, put (cache s) (put NULL s) = s
  cache_put : ∀ r s, cache (put r s) = r
  writes_put : ∀ s, (put NULL s).writeCache ≠ NULL → s.writeCache ≠ NULL

/-- A source without a cache in the slot asks for one. -/
theorem takeCache_keeps (hfits : Fits count) (slot : Slot) {f g : Source → Source} {s₀ : Source}
    (hf : Plain f) (hg : Plain g) (hcache : ∀ s, slot.cache (f s) = slot.cache s)
    (hw : ∀ r s, (slot.put r s).writeCache ≠ NULL → s.writeCache ≠ NULL ∨ e₀.handles.write = true)
    (hs : slot.cache s₀ = NULL) :
    Triple (fun e => Tends count p others e₀ e ∧ e.source p = s₀)
      (do
        setSource p f
        let cache ← cacheAlloc readcacheSize
        setSource p (slot.put cache)
        if cache = NULL then
          setSource p g
          return QP_ERROR
        else return QP_SUCCESS)
      fun _ e => Tends count p others e₀ e := by
  have hstart : Triple (fun e => Tends count p others e₀ e ∧ e.source p = s₀) (setSource p f)
      fun _ e => Tends count p others e₀ e ∧ slot.cache (e.source p) = NULL := by
    rintro e ⟨H, rfl⟩
    refine ⟨setSource_keeps hf e H, ?_⟩
    simp only [Function.update_self, hcache, hs]
  refine hstart.bind fun _ => (cacheAlloc_tends hfits (slot.cache · = NULL) _).bind fun cache => ?_
  have hset : Triple (fun e => Aside p e₀ e ∧ slot.cache (e.source p) = NULL ∧
      ((cache = NULL ∧ e.Lends count ((e.source p).caches ++ others)) ∨
        (cache ≠ NULL ∧ e.Lends count (cache :: ((e.source p).caches ++ others)))))
      (setSource p (slot.put cache)) fun _ e => Tends count p others e₀ e := by
    refine (setSource_tends ([cache].filter (· ≠ NULL)) (fun s hs =>
      ⟨slot.caches_put cache s hs, slot.fd_put cache s⟩) (hw cache)).conseq ?_ fun _ _ h => h
    rintro e ⟨A, hφ, ⟨hc, hl⟩ | ⟨hc, hl⟩⟩
    · exact ⟨A, hφ, by simpa [hc] using hl⟩
    · exact ⟨A, hφ, by simpa [hc] using hl⟩
  refine hset.bind fun _ => Triple.ite (fun _ => ?_) fun _ => Keeps.pure _
  exact (setSource_keeps hg).bind fun _ => Keeps.pure _

/-- The caches of a source with a cache in the slot are that cache and those of the source without it. -/
theorem Slot.caches_perm (slot : Slot) {s : Source} (hs : slot.cache s ≠ NULL) :
    s.caches.Perm (slot.cache s :: (slot.put NULL s).caches) := by
  have hput := slot.caches_put (slot.cache s) (slot.put NULL s) (slot.cache_put NULL s)
  rwa [slot.put_cache, List.filter_cons_of_pos (by simpa using hs), List.filter_nil] at hput

/-- A source gives the cache in the slot back. -/
theorem giveCache_keeps (slot : Slot) {f : Source → Source} {s₀ : Source} (hf : Plain f)
    (hcache : ∀ s, slot.cache (f s) = slot.cache s) (hs : slot.cache s₀ ≠ NULL) :
    Triple (fun e => Tends count p others e₀ e ∧ e.source p = s₀)
      (do
        cacheFree (slot.cache s₀)
        setSource p fun s => slot.put NULL (f s)
        return QP_SUCCESS)
      fun _ e => Tends count p others e₀ e ∧ e.source p = slot.put NULL (f s₀) := by
  rintro e ⟨H, rfl⟩
  obtain ⟨s₁, hs₁⟩ : ∃ s₁, s₁ = f (e.source p) := ⟨_, rfl⟩
  obtain ⟨hread, hwrite, hfd, hclosed⟩ := hf (e.source p)
  have hsame : s₁.caches = (e.source p).caches := by
    rw [hs₁, Source.caches, hread, hwrite]
    rfl
  have hheld : slot.cache s₁ = slot.cache (e.source p) := by rw [hs₁, hcache]
  have hperm : (e.source p).caches.Perm (slot.cache (e.source p) :: (slot.put NULL s₁).caches) := by
    rw [← hsame, ← hheld]
    exact slot.caches_perm (hheld ▸ hs)
  obtain ⟨caches, hrun, hlends⟩ := cacheFree_run (H.lends.perm (hperm.append_right others))
  rw [run_bind hrun]
  have A : Aside p e₀ { e with caches := caches } := H.aside.congr rfl rfl rfl rfl rfl rfl
  refine ⟨⟨A.put ?_ ?_ fun h => H.aside.writes (hwrite ▸ slot.writes_put _ h), ?_⟩, ?_⟩
  · exact (slot.fd_put _ _).1.trans hfd
  · exact (slot.fd_put _ _).2.trans hclosed
  · simp only [Function.update_self, ← hs₁]
    exact hlends
  · simp only [Function.update_self]

def readSlot : Slot where
  cache := Source.readCache
  put r s := { s with readCache := r }
  caches_put r s hs := by
    by_cases hr : r = NULL <;> simp [Source.caches, hs, hr]
  fd_put _ _ := ⟨rfl, rfl⟩
  put_cache _ := rfl
  cache_put _ _ := rfl
  writes_put _ h := h

def writeSlot : Slot where
  cache := Source.writeCache
  put r s := { s with writeCache := r }
  caches_put r s hs := by
    by_cases hr : r = NULL
    · simp [Source.caches, hs, hr]
    · by_cases hread : s.readCache = NULL
      · simp [Source.caches, hs, hr, hread]
      · simpa [Source.caches, hs, hr, hread] using List.Perm.swap r s.readCache []
  fd_put _ _ := ⟨rfl, rfl⟩
  put_cache _ := rfl
  cache_put _ _ := rfl
  writes_put _ h := absurd rfl h

theorem sourceAllocReadCache_keeps (hfits : Fits count) : Keeps (Tends count p others e₀) (sourceAllocReadCache p) := by
  refine getSource_knows.bind fun s => Triple.ite (fun _ => Triple.pure fun _ h => h.1) fun hne => ?_
  refine takeCache_keeps hfits readSlot (g := fun s => { s with readCacheSize := 0 })
    (fun _ => ⟨rfl, rfl, rfl, rfl⟩) (fun _ => ⟨rfl, rfl, rfl, rfl⟩) (fun _ => rfl) (fun _ _ => .inl) ?_
  exact not_not.mp (not_or.mp hne).2

theorem sourceAllocWriteCache_keeps (hfits : Fits count) (hw : e₀.handles.write = true) :
    Keeps (Tends count p others e₀) (sourceAllocWriteCache p) := by
  refine getSource_knows.bind fun s => Triple.ite (fun _ => Triple.pure fun _ h => h.1) fun hne => ?_
  refine takeCache_keeps hfits writeSlot (g := fun s => { s with writeCacheSize := 0 })
    (fun _ => ⟨rfl, rfl, rfl, rfl⟩) (fun _ => ⟨rfl, rfl, rfl, rfl⟩) (fun _ => rfl) (fun _ _ _ => .inr hw) ?_
  exact not_not.mp (not_or.mp hne).2

theorem getSource_eq {P : Event → Prop} {s₀ : Source} :
    Triple (fun e => P e ∧ e.source p = s₀) (getSource p) fun s e => s = s₀ ∧ P e ∧ e.source p = s₀ := by
  rintro e ⟨h, hs⟩
  exact ⟨hs, h, hs⟩

theorem sourceFreeReadCache_tends (hp : p ≠ NULL) (s₀ : Source) :
    Triple (fun e => Tends count p others e₀ e ∧ e.source p = s₀) (sourceFreeReadCache p)
      fun _ e => Tends count p others e₀ e ∧ e.source p = s₀.dropRead := by
  refine getSource_eq.bind fun s => Triple.given fun hs => ?_
  subst hs
  by_cases hnull : s.readCache = NULL
  · rw [if_pos (.inr hnull), Source.dropRead, if_pos hnull]
    exact Keeps.pure _
  · rw [if_neg (not_or.mpr ⟨hp, hnull⟩), Source.dropRead, if_neg hnull]
    exact giveCache_keeps readSlot (f := fun s => { s with readCacheSize := 0 }) (fun _ => ⟨rfl, rfl, rfl, rfl⟩)
      (fun _ => rfl) hnull

theorem sourceFreeWriteCache_tends (hp : p ≠ NULL) (s₀ : Source) :
    Triple (fun e => Tends count p others e₀ e ∧ e.source p = s₀) (sourceFreeWriteCache p)
      fun _ e => Tends count p others e₀ e ∧ e.source p = s₀.dropWrite := by
  refine getSource_eq.bind fun s => Triple.given fun hs => ?_
  subst hs
  by_cases hnull : s.writeCache = NULL
  · rw [if_pos (.inr hnull), Source.dropWrite, if_pos hnull]
    exact Keeps.pure _
  · rw [if_neg (not_or.mpr ⟨hp, hnull⟩), Source.dropWrite, if_neg hnull]
    exact giveCache_keeps writeSlot (f := fun s => { s with writeCacheSize := 0 }) (fun _ => ⟨rfl, rfl, rfl, rfl⟩)
      (fun _ => rfl) hnull

theorem sourceFreeReadCache_keeps (hp : p ≠ NULL) : Keeps (Tends count p others e₀) (sourceFreeReadCache p) :=
  fun e H => Triple.conseq (sourceFreeReadCache_tends hp (e.source p)) (fun _ h => h) (fun _ _ h => h.1) e ⟨H, rfl⟩

theorem sourceFreeWriteCache_keeps (hp : p ≠ NULL) : Keeps (Tends count p others e₀) (sourceFreeWriteCache p) :=
  fun e H => Triple.conseq (sourceFreeWriteCache_tends hp (e.source p)) (fun _ h => h) (fun _ _ h => h.1) e ⟨H, rfl⟩

/-- What giving a cache back leaves of the event. -/
theorem sourceFreeReadCache_run (hp : p ≠ NULL) (H : Tends count p others e₀ e) :
    ∃ caches r, sourceFreeReadCache p e = .ok (r, { e with caches := caches }.putSource p (e.source p).dropRead) := by
  unfold sourceFreeReadCache Source.dropRead
  rw [run_bind getSource_run]
  by_cases hnull : (e.source p).readCache = NULL
  · rw [if_pos (.inr hnull), if_pos hnull]
    exact ⟨e.caches, QP_ERROR, congrArg (fun e => Except.ok (QP_ERROR, e)) putSource_self.symm⟩
  · rw [if_neg (not_or.mpr ⟨hp, hnull⟩), if_neg hnull]
    obtain ⟨caches, hrun, -⟩ := cacheFree_run (H.lends.perm ((readSlot.caches_perm hnull).append_right others))
    exact ⟨caches, _, run_bind hrun⟩

theorem sourceFreeWriteCache_run (hp : p ≠ NULL) (H : Tends count p others e₀ e) :
    ∃ caches r, sourceFreeWriteCache p e = .ok (r, { e with caches := caches }.putSource p (e.source p).dropWrite) := by
  unfold sourceFreeWriteCache Source.dropWrite
  rw [run_bind getSource_run]
  by_cases hnull : (e.source p).writeCache = NULL
  · rw [if_pos (.inr hnull), if_pos hnull]
    exact ⟨e.caches, QP_ERROR, congrArg (fun e => Except.ok (QP_ERROR, e)) putSource_self.symm⟩
  · rw [if_neg (not_or.mpr ⟨hp, hnull⟩), if_neg hnull]
    obtain ⟨caches, hrun, -⟩ := cacheFree_run (H.lends.perm ((writeSlot.caches_perm hnull).append_right others))
    exact ⟨caches, _, run_bind hrun⟩

/-! ### Reading and writing -/

theorem readRound_keeps (rest : Nat) : Keeps (Tends count p others e₀) (readRound p rest) := by
  refine (getSource_keeps p).bind fun s => (sysRead_keeps _ _ _).bind fun r => Keeps.ite (Keeps.ite ?_ ?_) ?_
  · exact sourceSetShutdown_keeps.bind fun _ => Keeps.pure _
  · exact Keeps.pure _
  · refine Keeps.bind (setSource_keeps fun _ => ⟨rfl, rfl, rfl, rfl⟩) fun _ => (getSource_keeps p).bind fun s => ?_
    refine Keeps.ite ?_ (Keeps.ite (Keeps.pure _) (Keeps.pure _))
    exact handle_keeps.bind fun _ => (Keeps.when (record_keeps _)).bind fun _ => Keeps.pure _

theorem sourceRead_keeps (hfits : Fits count) (fuel : Nat) : Keeps (Tends count p others e₀) (sourceRead fuel p) := by
  refine Keeps.ite (Keeps.pure _) (Keeps.bind (setSource_keeps fun _ => ⟨rfl, rfl, rfl, rfl⟩) fun _ => ?_)
  refine (getSource_keeps p).bind fun s => Keeps.ite ?_ ((getSource_keeps p).bind fun _ => Keeps.pure _)
  refine Keeps.bind (setSource_keeps fun _ => ⟨rfl, rfl, rfl, rfl⟩) fun _ => ?_
  refine (sourceAllocReadCache_keeps hfits).bind fun r => Keeps.ite ?_ ?_
  · exact sourceSetShutdown_keeps.bind fun _ => Keeps.pure _
  · refine (getSource_keeps p).bind fun s => (Keeps.loop readRound_keeps _ _).bind fun well => Keeps.ite ?_ (Keeps.pure _)
    exact (getSource_keeps p).bind fun _ => Keeps.pure _

theorem writeRound_keeps (hp : p ≠ NULL) (state : Nat × Int) :
    Keeps (Tends count p others e₀) (writeRound p state) := by
  refine (getSource_keeps p).bind fun s => (sysWrite_keeps _ _ _).bind fun r => Keeps.ite (Keeps.ite ?_ ?_) ?_
  · refine sourceSetShutdown_keeps.bind fun _ => (sourceFreeReadCache_keeps hp).bind fun _ => ?_
    exact Keeps.bind (setSource_keeps fun _ => ⟨rfl, rfl, rfl, rfl⟩) fun _ => Keeps.pure _
  · exact Keeps.bind (setSource_keeps fun _ => ⟨rfl, rfl, rfl, rfl⟩) fun _ => Keeps.pure _
  · refine Keeps.ite ?_ (Keeps.ite (Keeps.pure _) (Keeps.pure _))
    exact (sourceFreeWriteCache_keeps hp).bind fun _ => Keeps.pure _

theorem sourceWrite_keeps (hp : p ≠ NULL) (fuel : Nat) : Keeps (Tends count p others e₀) (sourceWrite fuel p) := by
  refine (getSource_keeps p).bind fun s => Keeps.ite (Keeps.pure _) (Keeps.ite ?_ (Keeps.pure _))
  refine Keeps.bind (setSource_keeps fun _ => ⟨rfl, rfl, rfl, rfl⟩) fun _ => ?_
  exact (Keeps.loop (writeRound_keeps hp) _ _).bind fun _ => Keeps.pure _

/-! ### The handlers of the caller -/

theorem readHandler_keeps : Keeps (Tends count p others e₀) (readHandler p) := by
  refine handle_keeps.bind fun h => Keeps.ite ?_ (Keeps.pure _)
  refine reply_keeps.bind fun r => (getSource_keeps p).bind fun s => Keeps.get.bind fun e => ?_
  exact (record_keeps _).bind fun _ => Keeps.pure _

theorem processRead_keeps (hfits : Fits count) (hp : p ≠ NULL) : Keeps (Tends count p others e₀) (processRead p) := by
  refine readHandler_keeps.bind fun ret => (sourceFreeReadCache_keeps hp).bind fun _ => (getSource_keeps p).bind fun s => ?_
  refine Keeps.bind (Keeps.when (setSource_keeps fun _ => ⟨rfl, rfl, rfl, rfl⟩)) fun _ => ?_
  refine (Keeps.when sourceSetShutdown_keeps).bind fun _ => (getSource_keeps p).bind fun s => ?_
  have hhandle : Triple (Tends count p others e₀) handle fun h e => h = e₀.handles ∧ Tends count p others e₀ e :=
    fun e H => ⟨H.aside.handles, H⟩
  refine hhandle.bind fun h => Triple.given fun hh => Triple.when (fun hc => ?_) fun _ _ H => H
  -- Only an event with a write handler asks for a write cache.
  have hw : e₀.handles.write = true := hh ▸ hc.2.2
  exact (sourceAllocWriteCache_keeps hfits hw).bind fun _ => Keeps.when sourceSetShutdown_keeps

/-- A source with a write cache has a write handler to call. -/
theorem writeHandler_keeps (hw : e₀.handles.write = true) : Keeps (Tends count p others e₀) (writeHandler p) := by
  have hhandle : Triple (Tends count p others e₀) handle fun h e => h = e₀.handles ∧ Tends count p others e₀ e :=
    fun e H => ⟨H.aside.handles, H⟩
  refine hhandle.bind fun h => Triple.given fun hh => Triple.ite (fun _ => ?_) fun hn => absurd (hh ▸ hw) hn
  refine reply_keeps.bind fun r => (getSource_keeps p).bind fun s => (store_keeps _ _ _).bind fun _ => ?_
  exact Keeps.bind (setSource_keeps fun _ => ⟨rfl, rfl, rfl, rfl⟩) fun _ => (record_keeps _).bind fun _ => Keeps.pure _

theorem processWrite_keeps (hp : p ≠ NULL) (hw : e₀.handles.write = true) :
    Keeps (Tends count p others e₀) (processWrite p) := by
  refine (writeHandler_keeps hw).bind fun ret => Keeps.ite ?_ ?_
  · exact sourceSetShutdown_keeps.bind fun _ => (sourceFreeWriteCache_keeps hp).bind fun _ => Keeps.pure _
  · refine handle_keeps.bind fun h => (Keeps.when (record_keeps _)).bind fun _ => ?_
    exact Keeps.when (setSource_keeps fun _ => ⟨rfl, rfl, rfl, rfl⟩)

end Event

end QPHi
