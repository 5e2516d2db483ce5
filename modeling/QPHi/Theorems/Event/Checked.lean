import QPHi.Theorems.Event.Turn

/-! Every `read` and `write` of `qp_event_dispatch_queue` stays inside the cache of its source: with calls that check their
    range the queue does what it does without. -/

namespace QPHi
open Command

variable {owned : Prop} {n count room x : Nat} {fl : List Nat} {p : Ptr} {e e' e₀ : Event} {Q R : Source → Prop}

/-- A write cache has bytes to send, and they fit into it. -/
def Source.InBounds (s : Source) : Prop :=
  s.writeCache ≠ NULL → s.writeCacheCurOffset < s.writeCacheOffset ∧ s.writeCacheOffset ≤ readcacheSize

/-- The source is about to ask for `rest` bytes. -/
structure Source.Fetches (rest : Nat) (s : Source) : Prop where
  cache : s.readCache ≠ NULL
  size : s.readCacheSize = readcacheSize
  fits : s.readCacheOffset ≤ readcacheSize
  rest : rest = readcacheSize - s.readCacheOffset
  bounds : s.InBounds

/-- The source has sent the first `state.1` bytes of its write cache, and `state.2` are to be sent. -/
structure Source.Flushes (state : Nat × Int) (s : Source) : Prop where
  cache : s.writeCache ≠ NULL
  less : state.1 < s.writeCacheOffset
  fits : s.writeCacheOffset ≤ readcacheSize
  rest : state.2 = (s.writeCacheOffset - state.1 : Nat)
  kept : s.writeCacheCurOffset < s.writeCacheOffset

/-- A write cache was asked for in this turn, if there is one. -/
def Source.Fresh (s : Source) : Prop := s.writeCache ≠ NULL → s.writeCacheCurOffset = 0

namespace Event

/-! ### The queue with other calls of `read` and `write` -/

section
variable (read write : Ptr → Nat → Nat → EventM (Int × Bool))

def readRoundWith (source : Ptr) (rest : Nat) : EventM (Next Nat Bool) := do
  let s ← getSource source
  let r ← read source (s.readCache + s.readCacheOffset) rest
  readAnswer source r

def sourceReadWith (fuel : Nat) (source : Ptr) : EventM Nat := do
  if source = NULL then return 0
  else
    setSource source fun s => { s with readCacheOffset := 0 }
    if (← getSource source).read then
      setSource source fun s => { s with read := false }
      if (← sourceAllocReadCache source) = QP_ERROR then
        sourceSetShutdown source
        return sizeError
      else
        let s ← getSource source
        let well ← loop (readRoundWith read source) fuel (subWord s.readCacheSize s.readCacheOffset)
        if well then return (← getSource source).readCacheOffset else return sizeError
    else return (← getSource source).readCacheOffset

def writeRoundWith (source : Ptr) (state : Nat × Int) : EventM (Next (Nat × Int) (Option Nat)) := do
  let s ← getSource source
  let r ← write source (s.writeCache + state.1) (unsigned state.2)
  writeAnswer source state s r

def sourceWriteWith (fuel : Nat) (source : Ptr) : EventM Nat := do
  let s ← getSource source
  if source = NULL ∨ s.writeCache = NULL then return sizeError
  else if s.write then
    setSource source fun s => { s with write := false }
    let sent ← loop (writeRoundWith write source) fuel
      (s.writeCacheCurOffset, signed (subWord s.writeCacheOffset s.writeCacheCurOffset))
    return sent.getD sizeError
  else return s.writeCacheCurOffset

def dispatchSourceWith (fuel : Nat) (source : Ptr) : EventM Unit := do
  setSource source Source.marked
  let s ← getSource source
  when (s.shutdown || s.read || s.write) (do
    when s.shutdown (sourceSetShutdown source)
    let _ ← sourceWriteWith write fuel source
    let _ ← sourceReadWith read fuel source
    finishTurn source)

def dispatchQueueWith (fuel : Nat) : List Ptr → EventM Unit
  | [] => return ()
  | source :: ready => do
    dispatchSourceWith read write fuel source
    dispatchQueueWith fuel ready

end

/-- With the calls of the kernel this is `qp_event_dispatch_queue`. -/
theorem dispatchQueueWith_sys (fuel : Nat) (ready : List Ptr) :
    dispatchQueueWith sysRead sysWrite fuel ready = dispatchQueue fuel ready := by
  induction ready with
  | nil => rfl
  | cons p ready ih =>
    show (do dispatchSource fuel p; dispatchQueueWith sysRead sysWrite fuel ready) = _
    rw [ih]
    rfl

/-- The range of `k` bytes at `buf` lies in the first `size` bytes of the block at `base`. -/
def Inside (base size buf k : Nat) : Prop := base ≠ NULL ∧ base ≤ buf ∧ buf + k ≤ base + size ∧ 0 ≤ signed k

instance (base size buf k : Nat) : Decidable (Inside base size buf k) := inferInstanceAs (Decidable (_ ∧ _))

/-- `read` into memory that is checked: only the read cache may be written to. -/
def checkedRead (source : Ptr) (buf k : Nat) : EventM (Int × Bool) := do
  let s ← getSource source
  if Inside s.readCache readcacheSize buf k then sysRead source buf k else stuck

/-- `write` from memory that is checked: only the part of the write cache that was filled may be sent. -/
def checkedWrite (source : Ptr) (buf k : Nat) : EventM (Int × Bool) := do
  let s ← getSource source
  if Inside s.writeCache s.writeCacheOffset buf k ∧ s.writeCacheOffset ≤ readcacheSize then sysWrite source buf k else stuck

def checkedQueue (fuel : Nat) (ready : List Ptr) : EventM Unit := dispatchQueueWith checkedRead checkedWrite fuel ready

/-- A write handler that goes well stores a count between 1 and the size of the cache. -/
def Documented (e : Event) : Prop :=
  ∀ k, 0 ≤ (e.replies k).result → 1 ≤ (e.replies k).bytes ∧ (e.replies k).bytes ≤ readcacheSize

/-! ### What the functions of a source keep -/

/-- Since `e₀` the sources that were in bounds have stayed there, if the write handler does as it is documented. -/
structure Sound (e₀ e : Event) : Prop where
  replies : e.replies = e₀.replies
  bounds : e₀.Documented → ∀ q, (e₀.source q).InBounds → (e.source q).InBounds

/-- The same while a function of the source `p` runs, which has `Q`. -/
structure Stage (e₀ : Event) (p : Ptr) (Q : Source → Prop) (e : Event) : Prop where
  replies : e.replies = e₀.replies
  source : e₀.Documented → Q (e.source p)
  others : e₀.Documented → ∀ q, q ≠ p → (e₀.source q).InBounds → (e.source q).InBounds

theorem Sound.refl (e : Event) : Sound e e := ⟨rfl, fun _ _ h => h⟩

theorem Sound.stage (h : Sound e₀ e) (p : Ptr) : Stage e₀ p (fun s => (e₀.source p).InBounds → s.InBounds) e :=
  ⟨h.replies, fun hdoc => h.bounds hdoc p, fun hdoc q _ => h.bounds hdoc q⟩

theorem Stage.sound (h : Stage e₀ p (fun s => (e₀.source p).InBounds → s.InBounds) e) : Sound e₀ e := by
  refine ⟨h.replies, fun hdoc q hq => ?_⟩
  by_cases hqp : q = p
  · subst hqp
    exact h.source hdoc hq
  · exact h.others hdoc q hqp hq

theorem Stage.conseq (h : Stage e₀ p Q e) (hQ : e₀.Documented → ∀ s, Q s → R s) : Stage e₀ p R e :=
  ⟨h.replies, fun hdoc => hQ hdoc _ (h.source hdoc), h.others⟩

theorem Stage.mono (h : Stage e₀ p Q e) (hQ : ∀ s, Q s → R s) : Stage e₀ p R e := h.conseq fun _ => hQ

theorem Stage.congr (h : Stage e₀ p Q e) (hreplies : e'.replies = e.replies) (hsource : e'.source = e.source) :
    Stage e₀ p Q e' := by
  refine ⟨hreplies.trans h.replies, fun hdoc => ?_, fun hdoc q hq hb => ?_⟩
  · rw [hsource]
    exact h.source hdoc
  · rw [hsource]
    exact h.others hdoc q hq hb

theorem setSource_stage {f : Source → Source} (hf : ∀ s, Q s → R (f s)) :
    Fueled (Stage e₀ p Q) (setSource p f) fun _ => Stage e₀ p R := by
  intro e h
  refine ⟨h.replies, fun hdoc => ?_, fun hdoc q hq hb => ?_⟩
  · show R (Function.update e.source p (f (e.source p)) p)
    rw [Function.update_self]
    exact hf _ (h.source hdoc)
  · show (Function.update e.source p (f (e.source p)) q).InBounds
    rw [Function.update_of_ne hq]
    exact h.others hdoc q hq hb

/-- What is read of the source is what it is. -/
theorem getSource_stage : Fueled (Stage e₀ p Q) (getSource p) fun s => Stage e₀ p fun s' => s' = s ∧ Q s' :=
  fun _ h => ⟨h.replies, fun hdoc => ⟨rfl, h.source hdoc⟩, h.others⟩

theorem record_stage (call : Call) : Stays (Stage e₀ p Q) (record call) := fun _ h => h.congr rfl rfl

theorem cacheAlloc_stage (size : Nat) : Stays (Stage e₀ p Q) (cacheAlloc size) := by
  intro e h
  rw [cacheAlloc_eq]
  split
  · trivial
  · exact h.congr rfl rfl

theorem cacheFree_stage (cache : Ptr) : Stays (Stage e₀ p Q) (cacheFree cache) :=
  cacheFree_stays (fun _ _ _ h => h.congr rfl rfl) cache

theorem sourceSetShutdown_stage (hQ : ∀ s, Q s → Q { s with shutdown := true, stat := .close }) :
    Stays (Stage e₀ p Q) (sourceSetShutdown p) := Stays.when (setSource_stage hQ)

theorem sourceFreeReadCache_stage (hQ : ∀ s, Q s → Q { s with readCacheSize := 0, readCache := NULL }) :
    Stays (Stage e₀ p Q) (sourceFreeReadCache p) := by
  refine (getSource_stays p).bind fun s => Stays.ite (Stays.pure _) ((cacheFree_stage _).bind fun _ => ?_)
  exact Stays.bind (setSource_stage hQ) fun _ => Stays.pure _

/-- A source that had a write cache has none. -/
theorem sourceFreeWriteCache_stage (hp : p ≠ NULL) (hQ : ∀ s, s.writeCache = NULL → R s) :
    Fueled (Stage e₀ p Q) (sourceFreeWriteCache p) fun _ => Stage e₀ p R := by
  refine getSource_stage.bind fun s => Fueled.ite (fun hnull => Fueled.pure fun e h => ?_) fun _ => ?_
  · exact h.mono fun s' hs => hQ s' (hs.1 ▸ hnull.resolve_left hp)
  · refine Fueled.bind (cacheFree_stage _) fun _ => ?_
    exact Fueled.bind (setSource_stage fun s _ => hQ _ rfl) fun _ => Fueled.pure fun _ h => h

/-- A read cache that was allocated is as large as every cache. -/
theorem sourceAllocReadCache_stage : Fueled (Stage e₀ p fun s => s.InBounds ∧ s.readCacheOffset = 0) (sourceAllocReadCache p)
    fun r => Stage e₀ p fun s => s.InBounds ∧ (r ≠ QP_ERROR → s.Fetches readcacheSize) := by
  refine Fueled.bind (getSource_stays p) fun s => Fueled.ite (fun _ => Fueled.pure fun _ h => ?_) fun _ => ?_
  · exact h.mono fun s hs => ⟨hs.1, fun hr => absurd rfl hr⟩
  refine Fueled.bind (setSource_stage (R := fun s => s.InBounds ∧ s.readCacheOffset = 0 ∧ s.readCacheSize = readcacheSize)
    fun s hs => ⟨hs.1, hs.2, rfl⟩) fun _ => Fueled.bind (cacheAlloc_stage _) fun cache => ?_
  refine Fueled.bind (setSource_stage (R := fun s => s.InBounds ∧ s.readCacheOffset = 0 ∧ s.readCacheSize = readcacheSize ∧
    s.readCache = cache) fun s hs => ⟨hs.1, hs.2.1, hs.2.2, rfl⟩) fun _ => Fueled.ite (fun _ => ?_) fun hcache => ?_
  · refine Fueled.bind (setSource_stage (R := Source.InBounds) fun s hs => hs.1) fun _ => Fueled.pure fun _ h => ?_
    exact h.mono fun s hs => ⟨hs, fun hr => absurd rfl hr⟩
  · refine Fueled.pure fun _ h => h.mono fun s hs => ?_
    obtain ⟨hbounds, hoffset, hsize, rfl⟩ := hs
    refine ⟨hbounds, fun _ => ⟨hcache, hsize, ?_, ?_, hbounds⟩⟩
    · rw [hoffset]
      exact Nat.zero_le _
    · rw [hoffset, Nat.sub_zero]

theorem sourceAllocWriteCache_stage : Stays (Stage e₀ p Source.Fresh) (sourceAllocWriteCache p) := by
  refine (getSource_stays p).bind fun s => Stays.ite (Stays.pure _) ?_
  refine Fueled.bind (setSource_stage (R := fun s => s.writeCacheCurOffset = 0) fun _ _ => rfl) fun _ => ?_
  refine Fueled.bind (cacheAlloc_stage _) fun cache => ?_
  refine Fueled.bind (setSource_stage (R := Source.Fresh) fun s hs _ => hs) fun _ => Stays.ite ?_ (Stays.pure _)
  exact Stays.bind (setSource_stage fun _ hs => hs) fun _ => Stays.pure _

/-! ### The handlers -/

theorem readHandler_stage : Stays (Stage e₀ p Q) (readHandler p) := by
  refine handle_stays.bind fun h => Stays.ite (Stays.bind (fun _ h => h.congr rfl rfl) fun r => ?_) (Stays.pure _)
  exact (getSource_stays p).bind fun s => Stays.get.bind fun e => (record_stage _).bind fun _ => Stays.pure _

theorem processRead_stage : Stays (Stage e₀ p Source.Fresh) (processRead p) := by
  refine readHandler_stage.bind fun ret => (sourceFreeReadCache_stage fun _ h => h).bind fun _ => (getSource_stays p).bind fun s => ?_
  refine Stays.bind (Stays.when (setSource_stage fun _ h => h)) fun _ => ?_
  refine (Stays.when (sourceSetShutdown_stage fun _ h => h)).bind fun _ => (getSource_stays p).bind fun s => ?_
  refine handle_stays.bind fun h => Stays.when (sourceAllocWriteCache_stage.bind fun _ => Stays.when ?_)
  exact sourceSetShutdown_stage fun _ h => h

/-- A write handler that goes well fills a cache from its start. -/
theorem writeHandler_stage : Fueled (Stage e₀ p Source.Fresh) (writeHandler p)
    fun ret => Stage e₀ p fun s => e₀.Documented → 0 ≤ ret → s.InBounds := by
  have hreply : Fueled (Stage e₀ p Source.Fresh) reply fun r e =>
      (e₀.Documented → 0 ≤ r.result → 1 ≤ r.bytes ∧ r.bytes ≤ readcacheSize) ∧ Stage e₀ p Source.Fresh e := by
    intro e h
    refine ⟨fun hdoc => ?_, h.congr rfl rfl⟩
    show 0 ≤ (e.replies e.clock).result → _
    rw [h.replies]
    exact hdoc _
  refine Fueled.bind handle_stays fun h => Fueled.ite (fun _ => ?_) fun _ => Fueled.stuck
  refine hreply.bind fun r => Fueled.given fun hr => ?_
  refine Fueled.bind (getSource_stays p) fun s => Fueled.bind (R := fun _ => Stage e₀ p Source.Fresh) ?_ fun _ => ?_
  · exact fun _ h => h.congr rfl rfl
  refine Fueled.bind (setSource_stage (R := fun s => e₀.Documented → 0 ≤ r.result → s.InBounds) fun s hs hdoc hret hcache => ?_)
    fun _ => ?_
  · obtain ⟨hsome, hfits⟩ := hr hdoc hret
    refine ⟨?_, hfits⟩
    rw [hs hcache]
    exact hsome
  · exact Fueled.bind (record_stage _) fun _ => Fueled.pure fun _ h => h

theorem processWrite_stage (hp : p ≠ NULL) :
    Fueled (Stage e₀ p Source.Fresh) (processWrite p) fun _ => Stage e₀ p Source.InBounds := by
  refine writeHandler_stage.bind fun ret => Fueled.ite (fun _ => ?_) fun hwell => ?_
  · refine Fueled.bind (sourceSetShutdown_stage fun _ h => h) fun _ => ?_
    exact Fueled.bind (sourceFreeWriteCache_stage hp fun _ hnull h => absurd hnull h) fun _ => Fueled.pure fun _ h => h
  · refine Fueled.bind (R := fun _ => Stage e₀ p Source.InBounds) (fun _ h => ?_) fun h => ?_
    · exact h.conseq fun hdoc s hs => hs hdoc (Int.not_lt.mp hwell)
    exact Stays.bind (Stays.when (record_stage _)) fun _ => Stays.when (setSource_stage fun _ h => h)

/-! ### Sources that come and go -/

/-- A function of one source that keeps it in bounds. -/
theorem stays_sound {α : Type} {m : EventM α} (h : Stays (Stage e₀ p fun s => (e₀.source p).InBounds → s.InBounds) m) :
    Stays (Sound e₀) m := h.conseq (fun _ hs => hs.stage p) fun _ _ hs => hs.sound

theorem sourceClose_stage (hQ : ∀ s, Q s → Q { s with sourceFd := QP_FD_INVALID }) : Stays (Stage e₀ p Q) (sourceClose p) := by
  refine Stays.ite (Stays.pure _) ((getSource_stays p).bind fun s => Stays.bind (Stays.when ?_) fun _ => ?_)
  · exact fun _ h => h.congr rfl rfl
  · exact Stays.bind (setSource_stage hQ) fun _ => Stays.pure _

theorem removeevent_sound : Stays (Sound e₀) (removeevent p) := by
  refine Fueled.ite (fun _ => Stays.pure _) fun hp => stays_sound (p := p) ?_
  refine handle_stays.bind fun h => (Stays.when (record_stage _)).bind fun _ => (sourceClose_stage fun _ h => h).bind fun _ => ?_
  refine (sourceFreeReadCache_stage fun _ h => h).bind fun _ => ?_
  refine Stays.bind (sourceFreeWriteCache_stage hp fun _ hnull _ h => absurd hnull h) fun _ => ?_
  exact Stays.bind (fun _ h => h.congr rfl rfl) fun _ => Stays.pure _

theorem addevent_sound (fd timeout : Int) (listen autoClose : Bool) : Stays (Sound e₀) (addevent fd timeout listen autoClose) := by
  have hget : Fueled (Sound e₀) (MonadState.get : EventM Event) fun a e => a = e ∧ Sound e₀ e := fun _ h => ⟨rfl, h⟩
  refine hget.bind fun a => Fueled.ite (fun _ => Fueled.pure fun _ h => h.2) fun _ => Fueled.ite (fun _ => ?_) fun _ => ?_
  swap
  · exact Fueled.pure fun _ h => h.2
  obtain ⟨pool, source⟩ := a.pool.poolAlloc a.eventPool sizeofSource
  refine Fueled.bind (R := fun _ => Sound e₀) ?_ fun _ => Fueled.ite (fun _ => Fueled.stuck) fun _ => ?_
  · rintro e ⟨rfl, h⟩
    exact ⟨h.replies, h.bounds⟩
  have hset : ∀ f : Source → Source, (∀ s, s.InBounds → (f s).InBounds) → Stays (Sound e₀) (setSource source f) :=
    fun f hf => stays_sound (setSource_stage fun s hs hb => hf s (hs hb))
  have hadd : Stays (Sound e₀) (evAdd source) := fun _ h => ⟨h.replies, h.bounds⟩
  refine Stays.bind (hset _ fun _ h => h) fun _ => Stays.bind hadd fun r => Stays.ite ?_ ?_
  · exact Stays.bind (hset _ fun _ h => h) fun _ => removeevent_sound.bind fun _ => Stays.pure _
  · exact Stays.bind (hset _ fun _ h => h) fun _ => Stays.pure _

theorem acceptRound_sound (timeout : Int) (a : Unit) : Stays (Sound e₀) (acceptRound timeout p a) := by
  have haccept : Stays (Sound e₀) (sourceAccept p) :=
    Stays.ite (Stays.pure _) ((getSource_stays p).bind fun s => fun _ h => ⟨h.replies, h.bounds⟩)
  have hclose : ∀ fd, Stays (Sound e₀) (sysClose fd) := fun _ _ h => ⟨h.replies, h.bounds⟩
  refine haccept.bind fun r => Stays.ite ((Stays.when (removeevent_sound.bind fun _ => Stays.pure _)).bind fun _ => Stays.pure _) ?_
  refine (addevent_sound _ _ _ _).bind fun ret => (Stays.when (hclose _)).bind fun _ => ?_
  exact (getSource_stays p).bind fun s => Stays.ite (Stays.pure _) (Stays.pure _)

theorem dispatchListenQueue_sound (fuel : Nat) (timeout : Int) (ready : List Ptr) :
    Leaves (Sound e₀) (dispatchListenQueue fuel timeout ready) fun _ => Sound e₀ := by
  induction ready with
  | nil => exact Alike.pure fun _ h => h
  | cons p ready ih =>
    have hround : ∀ a, Leaves (Sound e₀) (acceptRound timeout p a) (Next.Either (fun _ => Sound e₀) fun _ => Sound e₀) := by
      refine fun a => Alike.of_fueled ((acceptRound_sound timeout a).conseq (fun _ h => h) fun x _ h => ?_)
      cases x with
      | again _ => exact h
      | done _ => exact h
    exact (Alike.loop (J := fun _ => Sound e₀) hround fuel ()).bind fun _ => ih

/-- What is left of a turn keeps the source in bounds: a cache that was asked for is filled. -/
theorem finishTurn_sound (hp : p ≠ NULL) :
    Fueled (Stage e₀ p Source.InBounds) (finishTurn p) fun _ => Sound e₀ := by
  have hfill : Fueled (Stage e₀ p Source.Fresh) (do when ((← getSource p).writeCache ≠ NULL) (processWrite p))
      fun _ => Stage e₀ p Source.InBounds := by
    refine getSource_stage.bind fun s => Fueled.when (fun _ => ?_) fun hnull e h => ?_
    · exact (processWrite_stage hp).conseq (fun _ h => h.mono fun _ hs => hs.2) fun _ _ h => h
    · exact h.mono fun s' hs hcache => absurd (hs.1 ▸ hcache) hnull
  refine getSource_stage.bind fun s => Fueled.bind (R := fun _ => Stage e₀ p Source.InBounds) ?_ fun _ => ?_
  · refine Fueled.when (fun hnull => ?_) fun _ e h => h.mono fun _ hs => hs.2
    refine Fueled.bind (R := fun _ => Stage e₀ p Source.Fresh) (fun e h => ?_) fun s => ?_
    · exact h.mono fun s' hs hcache => absurd hnull (hs.1 ▸ hcache)
    · exact Fueled.bind (Stays.when processRead_stage) fun _ => hfill
  · refine Fueled.bind (getSource_stays p) fun s => Fueled.when (fun _ => ?_) fun _ e h => ?_
    · refine Fueled.bind (R := fun _ => Sound e₀) (removeevent_sound.conseq (fun e h => ?_) fun _ _ h => h) fun _ => ?_
      · exact (h.mono fun s hs _ => hs).sound
      · exact Fueled.pure fun _ h => h
    · exact (h.mono fun s hs _ => hs).sound

/-! ### Rounds -/

/-- Calls of `read` and `write` that do what those of the kernel do, as long as they stay inside the cache. -/
structure Passes (e₀ : Event) (p : Ptr) (read write : Ptr → Nat → Nat → EventM (Int × Bool)) : Prop where
  read : ∀ (Q : Source → Prop) (buf k : Nat), (e₀.Documented → ∀ s, Q s → Inside s.readCache readcacheSize buf k) →
    Alike (Stage e₀ p Q) (read p buf k) (sysRead p buf k) fun r e => r.1 ≤ (k : Int) ∧ Stage e₀ p Q e
  write : ∀ (Q : Source → Prop) (buf k : Nat), (e₀.Documented → ∀ s, Q s →
      Inside s.writeCache s.writeCacheOffset buf k ∧ s.writeCacheOffset ≤ readcacheSize) →
    Alike (Stage e₀ p Q) (write p buf k) (sysWrite p buf k) fun r e => r.1 ≤ (k : Int) ∧ Stage e₀ p Q e

theorem sysRead_stage (buf k : Nat) :
    Fueled (Stage e₀ p Q) (sysRead p buf k) fun r e => r.1 ≤ (k : Int) ∧ Stage e₀ p Q e :=
  fun _ h => ⟨Int.min_le_right _ _, h.congr rfl rfl⟩

theorem sysWrite_stage (buf k : Nat) :
    Fueled (Stage e₀ p Q) (sysWrite p buf k) fun r e => r.1 ≤ (k : Int) ∧ Stage e₀ p Q e :=
  fun _ h => ⟨Int.le_trans (Int.min_le_left _ _) (Int.min_le_right _ _), h.congr rfl rfl⟩

theorem passes_sys : Passes e₀ p sysRead sysWrite :=
  ⟨fun _ buf k _ => Alike.of_fueled (sysRead_stage buf k), fun _ buf k _ => Alike.of_fueled (sysWrite_stage buf k)⟩

theorem passes_checked (hdoc : e₀.Documented) : Passes e₀ p checkedRead checkedWrite := by
  refine ⟨fun Q buf k hQ => Alike.of_eq (fun e h => ?_) (sysRead_stage buf k),
    fun Q buf k hQ => Alike.of_eq (fun e h => ?_) (sysWrite_stage buf k)⟩
  · unfold checkedRead
    rw [run_bind getSource_run, if_pos (hQ hdoc _ (h.source hdoc))]
  · unfold checkedWrite
    rw [run_bind getSource_run, if_pos (hQ hdoc _ (h.source hdoc))]

theorem signed_of_le {k : Nat} (hk : k ≤ readcacheSize) : signed k = k := by
  have hword : readcacheSize < 2 ^ 63 := by decide
  exact if_pos (by omega)

theorem fetches_inside {rest : Nat} {s : Source} (F : s.Fetches rest) :
    Inside s.readCache readcacheSize (s.readCache + s.readCacheOffset) rest := by
  have hfits := F.fits
  have hrest := F.rest
  refine ⟨F.cache, Nat.le_add_right _ _, by omega, ?_⟩
  rw [signed_of_le (by omega)]
  exact Int.natCast_nonneg _

/-- A read that gets some bytes leaves the rest of the cache to ask for. -/
theorem fetches_move {rest k : Nat} {s : Source} (F : s.Fetches rest) (hk : k ≤ rest) :
    Source.Fetches (subWord s.readCacheSize (addWord s.readCacheOffset k))
      { s with readCacheOffset := addWord s.readCacheOffset k } := by
  have hfits := F.fits
  have hrest := F.rest
  have hword : readcacheSize < 2 ^ 64 := by decide
  have hoffset : addWord s.readCacheOffset k = s.readCacheOffset + k := addWord_of_lt (by omega)
  refine ⟨F.cache, F.size, ?_, ?_, F.bounds⟩
  · show addWord s.readCacheOffset k ≤ readcacheSize
    omega
  · rw [F.size]
    exact subWord_of_le hword (by omega)

theorem readAnswer_stage (r : Int × Bool) (rest : Nat) :
    Fueled (fun e => r.1 ≤ (rest : Int) ∧ Stage e₀ p (Source.Fetches rest) e) (readAnswer p r)
      (Next.Either (fun rest' => Stage e₀ p (Source.Fetches rest')) fun _ => Stage e₀ p Source.InBounds) := by
  refine Fueled.given fun hle => Fueled.ite (fun _ => Fueled.ite (fun _ => ?_) fun _ => ?_) fun hsome => ?_
  · refine Fueled.bind (sourceSetShutdown_stage fun _ F => ?_) fun _ => Fueled.pure fun _ h => h.mono fun _ F => F.bounds
    exact ⟨F.cache, F.size, F.fits, F.rest, F.bounds⟩
  · exact Fueled.pure fun _ h => h.mono fun _ F => F.bounds
  refine Fueled.bind (setSource_stage (R := fun s => s.Fetches (subWord s.readCacheSize s.readCacheOffset))
    fun s F => fetches_move F (by omega)) fun _ => getSource_stage.bind fun s => ?_
  refine Fueled.ite (fun _ => ?_) fun _ => Fueled.ite (fun _ => ?_) fun _ => ?_
  · refine Fueled.bind handle_stays fun h => Fueled.bind (Stays.when (record_stage _)) fun _ => ?_
    exact Fueled.pure fun _ h => h.mono fun _ hs => hs.2.bounds
  · refine Fueled.pure fun _ h => h.mono fun s' hs => ?_
    obtain ⟨rfl, F⟩ := hs
    exact F
  · exact Fueled.pure fun _ h => h.mono fun _ hs => hs.2.bounds

theorem flushes_inside {state : Nat × Int} {s : Source} (F : s.Flushes state) :
    unsigned state.2 = s.writeCacheOffset - state.1 ∧
      Inside s.writeCache s.writeCacheOffset (s.writeCache + state.1) (unsigned state.2) := by
  have hfits := F.fits
  have hless := F.less
  have hword : readcacheSize < 2 ^ 64 := by decide
  have hrest : unsigned state.2 = s.writeCacheOffset - state.1 := by
    rw [F.rest]
    exact unsigned_natCast (by omega)
  refine ⟨hrest, F.cache, Nat.le_add_right _ _, by omega, ?_⟩
  rw [hrest, signed_of_le (by omega)]
  exact Int.natCast_nonneg _

/-- A write that sends some bytes, but not all, leaves the rest of the cache to send. -/
theorem flushes_move {state : Nat × Int} {s : Source} {k : Nat} (F : s.Flushes state) (hk : k ≤ unsigned state.2)
    (hmore : ¬0 ≥ signed (subWord s.writeCacheOffset (addWord state.1 k))) :
    s.Flushes (addWord state.1 k, signed (subWord s.writeCacheOffset (addWord state.1 k))) := by
  have hfits := F.fits
  have hless := F.less
  have hword : readcacheSize < 2 ^ 64 := by decide
  rw [(flushes_inside F).1] at hk
  have hsent : addWord state.1 k = state.1 + k := addWord_of_lt (by omega)
  have hrest : signed (subWord s.writeCacheOffset (addWord state.1 k)) = (s.writeCacheOffset - (state.1 + k) : Nat) := by
    rw [hsent, subWord_of_le (by omega) (by omega)]
    exact signed_of_le (by omega)
  rw [hrest] at hmore
  refine ⟨F.cache, ?_, F.fits, ?_, F.kept⟩
  · show addWord state.1 k < s.writeCacheOffset
    omega
  · rw [hrest, hsent]

theorem writeAnswer_stage (hp : p ≠ NULL) (s : Source) (state : Nat × Int) (r : Int × Bool) :
    Fueled (fun e => r.1 ≤ (unsigned state.2 : Int) ∧ Stage e₀ p (fun s' => s' = s ∧ s'.Flushes state) e)
      (writeAnswer p state s r)
      (Next.Either (fun state' => Stage e₀ p (Source.Flushes state')) fun _ => Stage e₀ p Source.InBounds) := by
  have hbounds : ∀ s', s' = s ∧ s'.Flushes state → s'.InBounds := fun s' hs _ => ⟨hs.2.kept, hs.2.fits⟩
  refine Fueled.given fun hle => Fueled.ite (fun _ => Fueled.ite (fun _ => ?_) fun _ => ?_) fun hsome => ?_
  · have hdown : Fueled (Stage e₀ p fun s' => s' = s ∧ s'.Flushes state) (sourceSetShutdown p) fun _ => Stage e₀ p Source.InBounds :=
      (sourceSetShutdown_stage (Q := Source.InBounds) fun _ h => h).conseq (fun _ h => h.mono hbounds) fun _ _ h => h
    refine hdown.bind fun _ => Fueled.bind (sourceFreeReadCache_stage fun _ h => h) fun _ => ?_
    exact Fueled.bind (setSource_stage (R := Source.InBounds) fun _ h => h) fun _ => Fueled.pure fun _ h => h
  · -- The position that is kept is before the end.
    refine Fueled.bind (setSource_stage (R := Source.InBounds) fun s' hs _ => ?_) fun _ => Fueled.pure fun _ h => h
    exact ⟨hs.2.less, hs.2.fits⟩
  refine Fueled.ite (fun _ => ?_) fun hmore => Fueled.ite (fun _ => ?_) fun _ => ?_
  · exact Fueled.bind (sourceFreeWriteCache_stage hp fun _ hnull h => absurd hnull h) fun _ => Fueled.pure fun _ h => h
  · refine Fueled.pure fun e h => h.mono fun s' hs => ?_
    obtain ⟨rfl, F⟩ := hs
    exact flushes_move F (by omega) hmore
  · exact Fueled.pure fun _ h => h.mono hbounds

section
variable {read write : Ptr → Nat → Nat → EventM (Int × Bool)} (P : Passes e₀ p read write)
include P

theorem readRound_passes (rest : Nat) :
    Alike (Stage e₀ p (Source.Fetches rest)) (readRoundWith read p rest) (readRoundWith sysRead p rest)
      (Next.Either (fun rest' => Stage e₀ p (Source.Fetches rest')) fun _ => Stage e₀ p Source.InBounds) := by
  refine (Alike.of_fueled getSource_stage).bind fun s => ?_
  refine (P.read (fun s' => s' = s ∧ s'.Fetches rest) _ rest fun _ s' hs => ?_).bind fun r => ?_
  · obtain ⟨rfl, F⟩ := hs
    exact fetches_inside F
  · exact Alike.of_fueled ((readAnswer_stage r rest).conseq (fun _ h => ⟨h.1, h.2.mono fun _ hs => hs.2⟩) fun _ _ h => h)

theorem writeRound_passes (hp : p ≠ NULL) (state : Nat × Int) :
    Alike (Stage e₀ p (Source.Flushes state)) (writeRoundWith write p state) (writeRoundWith sysWrite p state)
      (Next.Either (fun state' => Stage e₀ p (Source.Flushes state')) fun _ => Stage e₀ p Source.InBounds) := by
  refine (Alike.of_fueled getSource_stage).bind fun s => ?_
  refine (P.write (fun s' => s' = s ∧ s'.Flushes state) _ _ fun _ s' hs => ?_).bind fun r => ?_
  · obtain ⟨rfl, F⟩ := hs
    exact ⟨(flushes_inside F).2, F.fits⟩
  · exact Alike.of_fueled (writeAnswer_stage hp s state r)

/-! ### Turns -/

theorem sourceWrite_passes (hp : p ≠ NULL) (fuel : Nat) : Alike (Stage e₀ p Source.InBounds)
    (sourceWriteWith write fuel p) (sourceWriteWith sysWrite fuel p) fun _ => Stage e₀ p Source.InBounds := by
  have hback : ∀ {s : Source} (e : Event), Stage e₀ p (fun s' => s' = s ∧ s'.InBounds) e → Stage e₀ p Source.InBounds e :=
    fun _ h => h.mono fun _ hs => hs.2
  refine (Alike.of_fueled getSource_stage).bind fun s => Alike.ite (fun _ => Alike.pure hback) fun hcache => ?_
  refine Alike.ite (fun _ => ?_) fun _ => Alike.pure hback
  refine (Alike.of_fueled (setSource_stage (R := Source.Flushes
    (s.writeCacheCurOffset, signed (subWord s.writeCacheOffset s.writeCacheCurOffset))) fun s' hs => ?_)).bind fun _ => ?_
  · obtain ⟨rfl, hbounds⟩ := hs
    obtain ⟨hless, hfits⟩ := hbounds (not_or.mp hcache).2
    refine ⟨(not_or.mp hcache).2, hless, hfits, ?_, hless⟩
    have hword : readcacheSize < 2 ^ 64 := by decide
    rw [subWord_of_le (by omega) (by omega)]
    exact signed_of_le (by omega)
  · exact (Alike.loop (writeRound_passes P hp) fuel _).bind fun sent => Alike.pure fun _ h => h

theorem sourceRead_passes (fuel : Nat) : Alike (Stage e₀ p Source.InBounds)
    (sourceReadWith read fuel p) (sourceReadWith sysRead fuel p) fun _ => Stage e₀ p Source.InBounds := by
  have hget : ∀ {Q : Source → Prop}, Leaves (Stage e₀ p Q) (getSource p) fun _ => Stage e₀ p Q :=
    Alike.of_fueled (getSource_stays p)
  refine Alike.ite (fun _ => Alike.pure fun _ h => h) fun _ => ?_
  refine Alike.bind (R := fun _ => Stage e₀ p fun s => s.InBounds ∧ s.readCacheOffset = 0)
    (Alike.of_fueled (setSource_stage fun s h => ⟨h, rfl⟩)) fun _ => hget.bind fun s => Alike.ite (fun _ => ?_) fun _ => ?_
  swap
  · exact hget.bind fun _ => Alike.pure fun _ h => h.mono fun _ hs => hs.1
  refine Alike.bind (R := fun _ => Stage e₀ p fun s => s.InBounds ∧ s.readCacheOffset = 0)
    (Alike.of_fueled (setSource_stage fun s h => h)) fun _ => ?_
  refine (Alike.of_fueled sourceAllocReadCache_stage).bind fun r => Alike.ite (fun _ => ?_) fun hr => ?_
  · refine Alike.bind (R := fun _ => Stage e₀ p Source.InBounds) (Alike.of_fueled ?_) fun _ => Alike.pure fun _ h => h
    exact (sourceSetShutdown_stage fun _ h => h).conseq (fun _ h => h.mono fun _ hs => hs.1) fun _ _ h => h
  refine (Alike.of_fueled getSource_stage).bind fun s => ?_
  -- The first round asks for the whole cache.
  have hstart : ∀ e, Stage e₀ p (fun s' => s' = s ∧ s'.InBounds ∧ (r ≠ QP_ERROR → s'.Fetches readcacheSize)) e →
      Stage e₀ p (Source.Fetches (subWord s.readCacheSize s.readCacheOffset)) e := by
    refine fun e h => h.mono fun s' hs => ?_
    obtain ⟨rfl, -, hfetches⟩ := hs
    obtain ⟨hcache, hsize, hfits, hrest, hbounds⟩ := hfetches hr
    refine ⟨hcache, hsize, hfits, ?_, hbounds⟩
    rw [hsize]
    exact subWord_of_le (by decide) hfits
  refine Alike.bind ((Alike.loop (readRound_passes P) fuel _).conseq hstart fun _ _ h => h) fun well => ?_
  exact Alike.ite (fun _ => hget.bind fun _ => Alike.pure fun _ h => h) fun _ => Alike.pure fun _ h => h

/-- The turn of a source in bounds leaves all in bounds. -/
theorem dispatchSource_passes (hp : p ≠ NULL) (hbounds : e₀.Documented → (e₀.source p).InBounds) (fuel : Nat) :
    Alike (Sound e₀) (dispatchSourceWith read write fuel p) (dispatchSourceWith sysRead sysWrite fuel p)
      fun _ => Sound e₀ := by
  have hstart : ∀ e, Sound e₀ e → Stage e₀ p Source.InBounds e := fun e h => (h.stage p).conseq fun hdoc _ hs => hs (hbounds hdoc)
  have hend : ∀ e, Stage e₀ p Source.InBounds e → Sound e₀ e := fun e h => (h.mono fun _ hs _ => hs).sound
  have hmark : Fueled (Stage e₀ p Source.InBounds) (setSource p Source.marked) fun _ => Stage e₀ p Source.InBounds :=
    setSource_stage fun _ h => h
  refine Alike.conseq ((Alike.of_fueled hmark).bind fun _ => ?_) hstart fun _ _ h => h
  refine Alike.bind (Alike.of_fueled (getSource_stays p)) fun s => Alike.when (fun _ => ?_) fun _ => hend
  refine Alike.bind (Alike.of_fueled (Stays.when (sourceSetShutdown_stage fun _ h => h))) fun _ => ?_
  refine (sourceWrite_passes P hp fuel).bind fun _ => (sourceRead_passes P fuel).bind fun _ => ?_
  exact Alike.of_fueled (finishTurn_sound hp)

end

theorem dispatchQueue_passes {read write : Ptr → Nat → Nat → EventM (Int × Bool)} (P : ∀ p, Passes e₀ p read write)
    {ready : List Ptr} (hready : ∀ p ∈ ready, p ≠ NULL ∧ (e₀.Documented → (e₀.source p).InBounds)) (fuel : Nat) :
    Alike (Sound e₀) (dispatchQueueWith read write fuel ready) (dispatchQueue fuel ready) fun _ => Sound e₀ := by
  rw [← dispatchQueueWith_sys]
  induction ready with
  | nil => exact Alike.pure fun _ h => h
  | cons p ready ih =>
    obtain ⟨hp, hbounds⟩ := hready p List.mem_cons_self
    exact (dispatchSource_passes (P p) hp hbounds fuel).bind fun _ => ih fun q hq => hready q (List.mem_cons_of_mem p hq)

/-! ### Whole runs -/

/-- The sources of the pool are in bounds. -/
def Kept (e : Event) : Prop :=
  ∀ x ∈ elements sizeofSource (e.pool.pool e.eventPool).nsize (e.pool.pool e.eventPool).room, (e.at x).InBounds

theorem Stocked.kept_iff (S : Stocked n count room fl e) : e.Kept ↔ ∀ x ∈ sources n room, (e.at x).InBounds := by
  unfold Kept
  rw [S.pool.nsize, S.pool.room]

theorem Sound.documented (h : Sound e e') : e'.Documented ↔ e.Documented := by
  unfold Documented
  rw [h.replies]

theorem Sound.kept {fl' : List Nat} (h : Sound e e') (S : Stocked n count room fl e) (S' : Stocked n count room fl' e')
    (hkept : e.Kept) (hdoc : e'.Documented) : e'.Kept :=
  S'.kept_iff.mpr fun x hx => h.bounds (h.documented.mp hdoc) _ (S.kept_iff.mp hkept x hx)

theorem Kept.live (hkept : e.Kept) (hp : e.Live p) : (e.source p).InBounds := by
  obtain ⟨x, hx, -, rfl⟩ := hp
  exact hkept x hx

/-- A queue of live sources, with calls of `read` and `write` that pass. -/
theorem Runs.passes {read write : Ptr → Nat → Nat → EventM (Int × Bool)} {ready : List Ptr} {fuel : Nat} {revents : Ptr → Nat}
    (R : Runs owned e) (P : ∀ p, Passes (e.report revents) p read write) (hkept : e.Documented → e.Kept)
    (hlive : ∀ p ∈ ready, e.Live p) :
    dispatchQueueWith read write fuel ready (e.report revents) = dispatchQueue fuel ready (e.report revents) ∧
      After (dispatchQueueWith read write fuel ready) (fun _ => Sound (e.report revents)) (e.report revents) := by
  obtain ⟨n, count, room, fl, -, I⟩ := R.inv
  refine dispatchQueue_passes P (fun p hp => ⟨?_, fun hdoc => (hkept hdoc).live (hlive p hp)⟩) fuel _ (.refl _)
  obtain ⟨x, hx, -, rfl⟩ := I.stocked.live_iff.mp (hlive p hp)
  exact I.stocked.ne_null hx

/-- Every turn of the queue leaves what it finds in bounds. -/
theorem Runs.sound {ready : List Ptr} {fuel : Nat} {revents : Ptr → Nat} (R : Runs owned e) (hkept : e.Documented → e.Kept)
    (hlive : ∀ p ∈ ready, e.Live p) (hcall : dispatchQueue fuel ready (e.report revents) = .ok ((), e')) :
    Sound (e.report revents) e' := by
  obtain ⟨hsame, hsound⟩ : dispatchQueueWith sysRead sysWrite fuel ready (e.report revents) = .ok ((), e') ∧
      After (dispatchQueueWith sysRead sysWrite fuel ready) (fun _ => Sound (e.report revents)) (e.report revents) :=
    hcall ▸ R.passes (fun _ => passes_sys) hkept hlive
  exact hsound _ _ hsame

theorem Runs.kept (R : Runs owned e) (hdoc : e.Documented) : e.Kept := by
  induction R with
  | @init _ e _ _ _ _ _ _ hevent hblock hmanager hmax hkernel hmade =>
    obtain ⟨size, room, fl, -, -, hfree, I⟩ : ∃ size room fl, 1 ≤ size ∧ Fits (size / 2) ∧
      (∀ x ∈ sources (size * 2) room, x ∈ fl) ∧ EventInv owned (size * 2) (size / 2) room fl e :=
        eventInv_init hevent hblock hmanager hmax hkernel hmade
    refine I.stocked.kept_iff.mpr fun x hx hcache => ?_
    have hnone : (e.at x).readCache = NULL ∧ (e.at x).writeCache = NULL := by
      simpa [Source.caches] using I.stocked.idle x (hfree x hx)
    exact absurd hnone.2 hcache
  | openOwn _ _ ih => exact ih hdoc
  | closeOwn _ _ ih => exact ih hdoc
  | @addevent e _ _ _ _ _ _ R hfd hcall ih =>
    obtain ⟨n, count, room, fl, -, I⟩ := R.inv
    obtain ⟨fl', -, I'⟩ := Meets.of_ok (I.addevent hfd _ rfl) hcall
    have hsound := (addevent_sound _ _ _ _ e (.refl e)).of_ok hcall
    exact hsound.kept I.stocked I'.stocked (ih (hsound.documented.mp hdoc)) hdoc
  | @round e _ _ _ _ R hp hcall ih =>
    obtain ⟨n, count, room, fl, -, I⟩ := R.inv
    obtain ⟨fl', I'⟩ := I.round hp hcall
    have hsound := (acceptRound_sound _ _ e (.refl e)).of_ok hcall
    exact hsound.kept I.stocked I'.stocked (ih (hsound.documented.mp hdoc)) hdoc
  | @listen e _ _ _ _ R hnd hlive hcall ih =>
    obtain ⟨n, count, room, fl, -, I⟩ := R.inv
    obtain ⟨fl', I'⟩ := I.listen hnd hlive hcall
    have hsound := (dispatchListenQueue_sound _ _ _ e (.refl e)).2 _ _ hcall
    exact hsound.kept I.stocked I'.stocked (ih (hsound.documented.mp hdoc)) hdoc
  | @dispatch e _ _ revents _ R hnd hlive hcall ih =>
    obtain ⟨n, count, room, fl, hfits, I⟩ := R.inv
    obtain ⟨fl', I'⟩ := I.dispatch hfits hnd hlive hcall
    have hsound := R.sound ih hlive hcall
    have hkept : (e.report revents).Kept := ih (hsound.documented.mp hdoc)
    exact hsound.kept (I.report revents).stocked I'.stocked hkept hdoc

/-- Whatever is reported, and whatever `read`, `write` and the handlers answer: every call of a turn passes its check. -/
theorem queue_inside {ready : List Ptr} (R : Runs owned e) (hdoc : e.Documented) (hnd : ready.Nodup)
    (hlive : ∀ p ∈ ready, e.Live p) (fuel : Nat) (revents : Ptr → Nat) :
    checkedQueue fuel ready (e.report revents) = dispatchQueue fuel ready (e.report revents) ∧
      checkedQueue fuel ready (e.report revents) ≠ .error .stuck := by
  obtain ⟨n, count, room, fl, hfits, I⟩ := R.inv
  have hdoc : (e.report revents).Documented := hdoc
  have hsame : checkedQueue fuel ready (e.report revents) = dispatchQueue fuel ready (e.report revents) :=
    (R.passes (fun _ => passes_checked hdoc) R.kept hlive).1
  have hin := fun p hp => I.stocked.live_iff.mp (hlive p hp)
  refine ⟨hsame, ?_⟩
  rw [hsame]
  exact (dispatchQueue_spec hfits fuel ready hnd hin _ (I.report revents).within).ne_stuck

theorem filledEvent_documented (edge : Bool) : (filledEvent edge).Documented := by
  have R := dripWatched_runs edge fun k => if k = 3 then -1 else 1
  have hdoc : (dripWatched edge fun k => if k = 3 then -1 else 1).Documented :=
    fun _ _ => ⟨show 1 ≤ 2 by decide, show 2 ≤ readcacheSize by decide⟩
  obtain ⟨r, hcall⟩ := after_ok (m := dispatchQueue 9 [50472])
    (e := (dripWatched edge fun k => if k = 3 then -1 else 1).report fun _ => EPOLL_IN) (by cases edge <;> decide +kernel)
  have hlive : ∀ p ∈ [50472], (dripWatched edge fun k => if k = 3 then -1 else 1).Live p :=
    fun _ hp => List.mem_singleton.mp hp ▸ dripWatched_live edge _
  exact (R.sound R.kept hlive hcall).documented.mpr hdoc

/-- Its next turn sends the two bytes, and reads. -/
theorem queue_inside_filled :
    checkedQueue 9 [50472] ((filledEvent true).report fun _ => EPOLL_IN) =
        dispatchQueue 9 [50472] ((filledEvent true).report fun _ => EPOLL_IN) ∧
      checkedQueue 9 [50472] ((filledEvent true).report fun _ => EPOLL_IN) ≠ .error .stuck :=
  queue_inside (filledEvent_runs true) (filledEvent_documented true) (List.nodup_singleton _)
    (fun _ hp => List.mem_singleton.mp hp ▸ filledEvent_live true) 9 _

end Event

end QPHi
