import QPHi.Theorems.Event.Send

/-! Receiving: what `read` returned is what the read handler got, followed by what a read cache still holds, as long as
    no turn begins with a read cache that was not handed over. -/

namespace QPHi
open Command

variable {count : Nat} {p : Ptr} {others : List Nat} {e e₀ e₁ : Event} {handed₀ read₀ held : List UInt8}

/-- The bytes that `read` returned for the source `p`, and those that its read handler got. -/
def Call.readBy (p : Ptr) : Call → List UInt8
  | .read q _ _ _ data => if q = p then data else []
  | _ => []

def Call.handed (p : Ptr) : Call → List UInt8
  | .readHandler q _ data _ => if q = p then data else []
  | _ => []

/-- `read` and `write` get on or are to be tried again, and the write handler fills in some bytes that fit. -/
structure Reply.Obliging (r : Reply) : Prop where
  polite : r.Polite
  some : 1 ≤ r.bytes
  fits : r.bytes ≤ readcacheSize

/-- A source that goes on; if it has a write cache, there is something left to send. -/
structure Source.Steady (s : Source) : Prop where
  shutdown : s.shutdown = false
  writeClose : s.writeClose = false
  unsent : s.writeCache ≠ NULL → s.writeCacheCurOffset < s.writeCacheOffset ∧ s.writeCacheOffset ≤ readcacheSize

/-- A source that is to be read and has no read cache yet. -/
structure Source.Asking (s : Source) : Prop where
  readCache : s.readCache = NULL
  read : s.read = true

/-- A source that has handed over what was read; its write cache, if it got one, is to be filled. -/
structure Source.Replying (s : Source) : Prop where
  shutdown : s.shutdown = false
  writeClose : s.writeClose = false
  readCache : s.readCache = NULL
  start : s.writeCache ≠ NULL → s.writeCacheCurOffset = 0

/-- A source once the flags of a turn are set. -/
def Source.marked (s : Source) : Source :=
  { s with
    shutdown := Event.bit (s.shutdown.toNat ||| (s.revents &&& (EPOLL_RDHUP ||| EPOLL_HUP ||| EPOLL_ERR)))
    read := Event.bit (s.read.toNat ||| (s.revents ||| EPOLL_IN))
    write := Event.bit (s.write.toNat ||| (s.revents ||| EPOLL_OUT)) }

/-- The kernel reports that the source can be read, that it can be written, both or nothing. -/
def Source.Reported (s : Source) : Prop := s.revents ∈ [0, EPOLL_IN, EPOLL_OUT, EPOLL_IN ||| EPOLL_OUT]

theorem Source.Reported.marked {s : Source} (hs : s.Reported) (S : s.Steady) :
    s.marked.Steady ∧ s.marked.read = true := by
  have hflags : ∀ revents ∈ [0, EPOLL_IN, EPOLL_OUT, EPOLL_IN ||| EPOLL_OUT], ∀ read : Bool,
      Event.bit (false.toNat ||| (revents &&& (EPOLL_RDHUP ||| EPOLL_HUP ||| EPOLL_ERR))) = false ∧
        Event.bit (read.toNat ||| (revents ||| EPOLL_IN)) = true := by decide
  obtain ⟨hshutdown, hread⟩ := hflags s.revents hs s.read
  refine ⟨⟨?_, S.writeClose, S.unsent⟩, hread⟩
  show Event.bit (s.shutdown.toNat ||| _) = false
  rw [S.shutdown]
  exact hshutdown

/-- A source that was registered, and not to listen. -/
structure Source.Registered (s : Source) : Prop where
  listen : s.listen = false
  shutdown : s.shutdown = false
  writeClose : s.writeClose = false
  readCache : s.readCache = NULL
  writeCache : s.writeCache = NULL

namespace Event

/-- In a turn of `p` that began in `e₁`: behind `handed₀` the read handler got some bytes, and behind `read₀` these and
    `held` were read. -/
structure Streaming (count : Nat) (p : Ptr) (others : List Nat) (e₁ : Event) (handed₀ read₀ held : List UInt8) (e : Event) :
    Prop where
  tends : Tends count p others e₁ e
  obliging : ∀ i, e.clock ≤ i → (e.replies i).Obliging
  stream : ∃ delivered, e.gathered (Call.handed p) = handed₀ ++ delivered ∧
    e.gathered (Call.readBy p) = read₀ ++ (delivered ++ held)

namespace Streaming

theorem putSource (H : Streaming count p others e₁ handed₀ read₀ held e) {f : Source → Source} (hf : Plain f) :
    Streaming count p others e₁ handed₀ read₀ held (e.putSource p (f (e.source p))) :=
  ⟨setSource_keeps hf e H.tends, H.obliging, H.stream⟩

theorem first (H : Streaming count p others e₁ handed₀ read₀ held e) : (e.replies e.clock).Obliging :=
  H.obliging e.clock (Nat.le_refl _)

/-- An answer is taken. -/
theorem answer (H : Streaming count p others e₁ handed₀ read₀ held e) :
    Streaming count p others e₁ handed₀ read₀ held { e with clock := e.clock + 1 } :=
  ⟨reply_keeps e H.tends, fun i hi => H.obliging i (Nat.le_of_succ_le hi), H.stream⟩

/-- A call that neither reads for `p` nor hands over to its read handler. -/
theorem call (H : Streaming count p others e₁ handed₀ read₀ held e) (call : Call) (hhanded : call.handed p = [])
    (hread : call.readBy p = []) : Streaming count p others e₁ handed₀ read₀ held { e with trace := call :: e.trace } := by
  obtain ⟨delivered, hd, hr⟩ := H.stream
  refine ⟨record_keeps call e H.tends, H.obliging, delivered, ?_, ?_⟩
  · show e.gathered (Call.handed p) ++ call.handed p = _
    rw [hhanded, List.append_nil, hd]
  · show e.gathered (Call.readBy p) ++ call.readBy p = _
    rw [hread, List.append_nil, hr]

end Streaming

/-! ### Writing -/

/-- What holds until the source is read. -/
structure Awaiting (count : Nat) (p : Ptr) (others : List Nat) (e₁ : Event) (handed₀ read₀ held : List UInt8) (e : Event) :
    Prop where
  streaming : Streaming count p others e₁ handed₀ read₀ held e
  steady : (e.source p).Steady
  asking : (e.source p).Asking

/-- What holds before a round of `qp_event_source_write` in a turn. -/
structure Writing (count : Nat) (p : Ptr) (others : List Nat) (e₁ : Event) (handed₀ read₀ held : List UInt8) (k : Nat)
    (state : Nat × Int) (e : Event) : Prop where
  streaming : Streaming count p others e₁ handed₀ read₀ held e
  steady : (e.source p).Steady
  asking : (e.source p).Asking
  cache : (e.source p).writeCache ≠ NULL
  offset : (e.source p).writeCacheOffset = state.1 + k
  rest : state.2 = k
  some : 1 ≤ k

theorem writeRound_steady (hp : p ≠ NULL) (k : Nat) (state : Nat × Int) :
    Total (Writing count p others e₁ handed₀ read₀ held k state) (writeRound p state) fun x e =>
      match x with
      | .again state' => ∃ k' < k, Writing count p others e₁ handed₀ read₀ held k' state' e
      | .done _ => Awaiting count p others e₁ handed₀ read₀ held e := by
  obtain ⟨pos, rest⟩ := state
  intro e W
  have hsome := W.some
  have hoffset : (e.source p).writeCacheOffset = pos + k := W.offset
  obtain rfl : rest = k := W.rest
  obtain ⟨-, hfits⟩ := W.steady.unsent W.cache
  rw [hoffset] at hfits
  have hwrote : ∀ result, Streaming count p others e₁ handed₀ read₀ held (e.wrote p pos k result) := fun result =>
    W.streaming.answer.call _ rfl rfl
  rcases writeRound_run hp W.streaming.tends hsome hfits hoffset W.steady.writeClose W.streaming.first.polite with
    ⟨c, hc, hpos, hout⟩ | ⟨result, hneg, hrun⟩
  · rcases hout with ⟨-, caches, hrun⟩ | ⟨hshort, -, hrun⟩ | ⟨-, -, hrun⟩
    · have T := (writeRound_keeps hp _ e W.streaming.tends).of_ok hrun
      refine ⟨_, _, hrun, ⟨T, (hwrote c).obliging, (hwrote c).stream⟩, ?_, ?_⟩
      all_goals rw [putSource_source, Source.dropWrite, if_neg W.cache]
      · exact ⟨W.steady.shutdown, W.steady.writeClose, fun h => absurd rfl h⟩
      · exact ⟨W.asking.readCache, W.asking.read⟩
    · have hrest : (e.source p).writeCacheOffset = pos + c + (k - c) := by omega
      exact ⟨_, _, hrun, k - c, by omega, hwrote c, W.steady, W.asking, W.cache, hrest, rfl, by omega⟩
    · exact ⟨_, _, hrun, hwrote c, W.steady, W.asking⟩
  · refine ⟨_, _, hrun, (hwrote result).putSource (f := fun s => { s with writeCacheCurOffset := pos })
      fun _ => ⟨rfl, rfl, rfl, rfl⟩, ?_, ?_⟩
    all_goals rw [putSource_source]
    · have hless : pos < (e.source p).writeCacheOffset := by omega
      exact ⟨W.steady.shutdown, W.steady.writeClose, fun _ => ⟨hless, hoffset ▸ hfits⟩⟩
    · exact ⟨W.asking.readCache, W.asking.read⟩

theorem sourceWrite_steady (hp : p ≠ NULL) {fuel : Nat} (hfuel : readcacheSize < fuel) :
    Total (Awaiting count p others e₁ handed₀ read₀ held) (sourceWrite fuel p)
      fun _ => Awaiting count p others e₁ handed₀ read₀ held := by
  rintro e ⟨H, S, A⟩
  unfold sourceWrite
  rw [run_bind getSource_run]
  by_cases hnull : (e.source p).writeCache = NULL
  · rw [if_pos (.inr hnull)]
    exact ⟨_, _, rfl, H, S, A⟩
  rw [if_neg (not_or.mpr ⟨hp, hnull⟩)]
  obtain ⟨hless, hfits⟩ := S.unsent hnull
  have hword : readcacheSize < 2 ^ 63 := by decide
  by_cases hwrite : (e.source p).write = true
  · have hrest : signed (subWord (e.source p).writeCacheOffset (e.source p).writeCacheCurOffset) =
        ((e.source p).writeCacheOffset - (e.source p).writeCacheCurOffset : Nat) := by
      rw [subWord_of_le (by omega) (by omega), signed, if_pos (by omega)]
    rw [if_pos hwrite, run_bind (setSource_run _), hrest]
    have hstart : Writing count p others e₁ handed₀ read₀ held
        ((e.source p).writeCacheOffset - (e.source p).writeCacheCurOffset)
        ((e.source p).writeCacheCurOffset, (((e.source p).writeCacheOffset - (e.source p).writeCacheCurOffset : Nat) : Int))
        (e.putSource p { e.source p with write := false }) := by
      have hput := H.putSource (f := fun s => { s with write := false }) fun _ => ⟨rfl, rfl, rfl, rfl⟩
      refine ⟨hput, ?_, ?_, ?_, ?_, rfl, by omega⟩
      all_goals rw [putSource_source]
      · exact ⟨S.shutdown, S.writeClose, S.unsent⟩
      · exact ⟨A.readCache, A.read⟩
      · exact hnull
      · exact (Nat.add_sub_cancel' (Nat.le_of_lt hless)).symm
    have hrounds : (e.source p).writeCacheOffset - (e.source p).writeCacheCurOffset < fuel := by omega
    obtain ⟨sent, e', hloop, hend⟩ := Total.loop (Q := fun _ => Awaiting count p others e₁ handed₀ read₀ held)
      (fun k state => (writeRound_steady hp k state).conseq (fun _ h => h) fun x _ h => by cases x <;> exact h)
      hrounds _ _ hstart
    exact ⟨_, e', run_bind hloop, hend⟩
  · rw [if_neg hwrite]
    exact ⟨_, _, rfl, H, S, A⟩

/-! ### Reading -/

/-- The next cache that is asked for is granted. -/
def Grants (e : Event) : Prop := After (cacheAlloc readcacheSize) (fun cache _ => cache ≠ NULL) e

theorem Grants.putSource (G : e.Grants) (s : Source) : (e.putSource p s).Grants := by
  intro cache e' h
  rw [cacheAlloc_eq] at h
  split at h
  next => cases h
  next caches cache' hrun =>
    cases h
    have hsame : cacheAlloc readcacheSize e = .ok (cache, { e with caches := caches, clock := e.clock + 1 }) := by
      rw [cacheAlloc_eq]
      exact hrun ▸ rfl
    exact G cache _ hsame

theorem sysRead_run (buf k : Nat) :
    sysRead p buf k e = .ok ((min (e.replies e.clock).count k, (e.replies e.clock).retry), { e with
      clock := e.clock + 1
      memory := Buffer.store e.memory buf (min (e.replies e.clock).count k).toNat (e.replies e.clock).data
      trace := .read p buf k (min (e.replies e.clock).count k)
        (bytesAt (e.replies e.clock).data 0 (min (e.replies e.clock).count k).toNat) :: e.trace }) := rfl

/-- A source without a cache in the slot gets one. -/
theorem takeCache_granted (hfits : Fits count) (slot : Slot) {f g : Source → Source} (hf : Plain f) (hg : Plain g)
    (hcache : ∀ s, slot.cache (f s) = slot.cache s)
    (hw : ∀ r s, (slot.put r s).writeCache ≠ NULL → s.writeCache ≠ NULL ∨ e₁.handles.write = true)
    (H : Streaming count p others e₁ handed₀ read₀ held e) (hnull : slot.cache (e.source p) = NULL) (G : e.Grants) :
    ∃ cache e', (do
        setSource p f
        let cache ← cacheAlloc readcacheSize
        setSource p (slot.put cache)
        if cache = NULL then
          setSource p g
          return QP_ERROR
        else return QP_SUCCESS : EventM Int) e = .ok (QP_SUCCESS, e') ∧
      Streaming count p others e₁ handed₀ read₀ held e' ∧ cache ≠ NULL ∧ e'.source p = slot.put cache (f (e.source p)) := by
  obtain ⟨caches, cache, halloc, -⟩ := cacheAlloc_run hfits (H.putSource hf).tends.lends readcacheSize
  have hgranted : cache ≠ NULL := G.putSource _ _ _ halloc
  have hrun : (do
      setSource p f
      let cache ← cacheAlloc readcacheSize
      setSource p (slot.put cache)
      if cache = NULL then
        setSource p g
        return QP_ERROR
      else return QP_SUCCESS : EventM Int) e = .ok (QP_SUCCESS,
        { e with caches := caches, clock := e.clock + 1 }.putSource p (slot.put cache (f (e.source p)))) := by
    rw [run_bind (setSource_run _), run_bind halloc, run_bind (setSource_run _), if_neg hgranted]
    simp only [putSource, Function.update_self, Function.update_idem]
    rfl
  have T := (takeCache_keeps hfits slot hf hg hcache hw hnull e ⟨H.tends, rfl⟩).of_ok hrun
  exact ⟨cache, _, hrun, ⟨T, H.answer.obliging, H.stream⟩, hgranted, putSource_source _⟩

theorem sourceAllocReadCache_granted (hfits : Fits count) (hp : p ≠ NULL)
    (H : Streaming count p others e₁ handed₀ read₀ held e) (hnull : (e.source p).readCache = NULL) (G : e.Grants) :
    ∃ cache e', sourceAllocReadCache p e = .ok (QP_SUCCESS, e') ∧ Streaming count p others e₁ handed₀ read₀ held e' ∧
      cache ≠ NULL ∧ e'.source p = { e.source p with readCacheSize := readcacheSize, readCache := cache } := by
  unfold sourceAllocReadCache
  rw [run_bind getSource_run, if_neg (not_or.mpr ⟨hp, not_not.mpr hnull⟩)]
  exact takeCache_granted hfits readSlot (g := fun s => { s with readCacheSize := 0 }) (fun _ => ⟨rfl, rfl, rfl, rfl⟩)
    (fun _ => ⟨rfl, rfl, rfl, rfl⟩) (fun _ => rfl) (fun _ _ => .inl) H hnull G

theorem sourceAllocWriteCache_granted (hfits : Fits count) (hp : p ≠ NULL) (hwrite : e₁.handles.write = true)
    (H : Streaming count p others e₁ handed₀ read₀ held e) (hnull : (e.source p).writeCache = NULL) (G : e.Grants) :
    ∃ cache e', sourceAllocWriteCache p e = .ok (QP_SUCCESS, e') ∧ Streaming count p others e₁ handed₀ read₀ held e' ∧
      cache ≠ NULL ∧ e'.source p =
        { e.source p with writeCacheSize := readcacheSize, writeCacheCurOffset := 0, writeCache := cache } := by
  unfold sourceAllocWriteCache
  rw [run_bind getSource_run, if_neg (not_or.mpr ⟨hp, not_not.mpr hnull⟩)]
  exact takeCache_granted hfits writeSlot (g := fun s => { s with writeCacheSize := 0 }) (fun _ => ⟨rfl, rfl, rfl, rfl⟩)
    (fun _ => ⟨rfl, rfl, rfl, rfl⟩) (fun _ => rfl) (fun _ _ _ => .inr hwrite) H hnull G

/-- The bytes that a read cache holds. -/
def unread (p : Ptr) (e : Event) : List UInt8 := bytesAt e.memory (e.source p).readCache (e.source p).readCacheOffset

/-- What holds once the source is read: its read cache holds what was not handed over. -/
structure Loaded (count : Nat) (p : Ptr) (others : List Nat) (e₁ : Event) (handed₀ read₀ : List UInt8) (e : Event) : Prop where
  streaming : Streaming count p others e₁ handed₀ read₀ (e.unread p) e
  steady : (e.source p).Steady
  cache : (e.source p).readCache ≠ NULL

/-- What holds before a round of `qp_event_source_read` in a turn. -/
structure Reading (count : Nat) (p : Ptr) (others : List Nat) (e₁ : Event) (handed₀ read₀ : List UInt8) (k rest : Nat)
    (e : Event) : Prop where
  loaded : Loaded count p others e₁ handed₀ read₀ e
  size : (e.source p).readCacheSize = readcacheSize
  offset : (e.source p).readCacheOffset + rest = readcacheSize
  some : 1 ≤ rest
  rounds : k = rest

/-- `read` puts the bytes of its answer behind those that were held. -/
theorem Streaming.read (H : Streaming count p others e₁ handed₀ read₀ held e) (buf k c : Nat) (result : Int)
    (data : Nat → UInt8) : Streaming count p others e₁ handed₀ read₀ (held ++ bytesAt data 0 c) { e with
      clock := e.clock + 1
      memory := Buffer.store e.memory buf c data
      trace := .read p buf k result (bytesAt data 0 c) :: e.trace } := by
  obtain ⟨delivered, hd, hr⟩ := H.stream
  refine ⟨record_keeps _ _ (store_keeps buf c data _ (reply_keeps e H.tends)), H.answer.obliging, delivered, ?_, ?_⟩
  · show e.gathered (Call.handed p) ++ [] = _
    rw [List.append_nil, hd]
  · show e.gathered (Call.readBy p) ++ (if p = p then _ else _) = _
    rw [if_pos rfl, hr, List.append_assoc, List.append_assoc]

theorem readRound_streams (k rest : Nat) :
    Total (Reading count p others e₁ handed₀ read₀ k rest) (readRound p rest) fun x e =>
      match x with
      | .again rest' => ∃ k' < k, Reading count p others e₁ handed₀ read₀ k' rest' e
      | .done _ => Loaded count p others e₁ handed₀ read₀ e := by
  intro e R
  have hrest := R.some
  have hoffset := R.offset
  have hk := R.rounds
  have hword : readcacheSize < 2 ^ 63 := by decide
  obtain ⟨reply, hreply⟩ : ∃ reply, reply = e.replies e.clock := ⟨_, rfl⟩
  have hpolite : reply.Polite := hreply ▸ R.loaded.streaming.first.polite
  unfold readRound
  rw [run_bind getSource_run, run_bind (sysRead_run _ _), ← hreply]
  obtain ⟨c, hc⟩ : ∃ c, c = (min reply.count rest).toNat := ⟨_, rfl⟩
  have H := R.loaded.streaming.read ((e.source p).readCache + (e.source p).readCacheOffset) rest c
    (min reply.count rest) reply.data
  obtain ⟨e', he'⟩ : ∃ e', e' = { e with
      clock := e.clock + 1
      memory := Buffer.store e.memory ((e.source p).readCache + (e.source p).readCacheOffset) c reply.data
      trace := .read p ((e.source p).readCache + (e.source p).readCacheOffset) rest (min reply.count rest)
        (bytesAt reply.data 0 c) :: e.trace } := ⟨_, rfl⟩
  have hsource : e'.source p = e.source p := by rw [he']
  have hunread : bytesAt e'.memory (e.source p).readCache ((e.source p).readCacheOffset + c) =
      e.unread p ++ bytesAt reply.data 0 c := by
    rw [he']
    exact Buffer.slice_store_next
  rw [← he'] at H
  rw [← hc, ← he']
  rcases hpolite with hpos | ⟨hneg, hretry⟩
  · have hcount : min reply.count rest = c := by omega
    have hsome : ¬ (c : Int) < 1 := by omega
    have hnext : addWord (e'.source p).readCacheOffset c = (e.source p).readCacheOffset + c := by
      rw [hsource, addWord_of_lt (by omega)]
    obtain ⟨s, hs⟩ : ∃ s, s = { e.source p with readCacheOffset := (e.source p).readCacheOffset + c } := ⟨_, rfl⟩
    have H' : Streaming count p others e₁ handed₀ read₀ ((e'.putSource p s).unread p) (e'.putSource p s) := by
      have hheld : (e'.putSource p s).unread p = e.unread p ++ bytesAt reply.data 0 c := by
        rw [unread, putSource_source, hs]
        exact hunread
      have hput := H.putSource (f := fun s => { s with readCacheOffset := addWord s.readCacheOffset c })
        fun _ => ⟨rfl, rfl, rfl, rfl⟩
      rw [hheld, hs]
      rw [hnext, hsource] at hput
      exact hput
    have hsteady : s.Steady := by
      rw [hs]
      exact ⟨R.loaded.steady.shutdown, R.loaded.steady.writeClose, R.loaded.steady.unsent⟩
    have hcache : s.readCache ≠ NULL := by
      rw [hs]
      exact R.loaded.cache
    have hleft : subWord s.readCacheSize s.readCacheOffset = rest - c := by
      have hsize : s.readCacheSize = readcacheSize := by rw [hs, ← R.size]
      have hpos : s.readCacheOffset = (e.source p).readCacheOffset + c := by rw [hs]
      rw [hsize, hpos, subWord_of_le (by omega) (by omega)]
      omega
    simp only [hcount, if_neg hsome, Int.toNat_natCast]
    rw [run_bind (setSource_run _), hnext, hsource, ← hs, run_bind getSource_run, putSource_source, hleft]
    by_cases hfull : rest - c = 0
    · rw [if_pos hfull, run_bind (show handle _ = .ok (_, e'.putSource p s) from rfl)]
      unfold Command.when
      split
      · exact ⟨_, _, rfl, H'.call _ rfl rfl, by rwa [putSource_source], by rwa [putSource_source]⟩
      · exact ⟨_, _, rfl, H', by rwa [putSource_source], by rwa [putSource_source]⟩
    · rw [if_neg hfull]
      split
      · refine ⟨_, _, rfl, rest - c, by omega, ⟨H', ?_, ?_⟩, ?_, ?_, by omega, rfl⟩
        all_goals rw [putSource_source]
        · exact hsteady
        · exact hcache
        · rw [hs, ← R.size]
        · rw [hs]
          show (e.source p).readCacheOffset + c + (rest - c) = readcacheSize
          omega
      · exact ⟨_, _, rfl, H', by rwa [putSource_source], by rwa [putSource_source]⟩
  · have hnone : min reply.count rest < 1 := by omega
    have hstay : ¬ (min reply.count (rest : Int) = 0 ∨ (!reply.retry) = true) := by
      rw [hretry]
      simp
      omega
    have hzero : c = 0 := by omega
    have hsame : e'.unread p = e.unread p := by
      rw [unread, hsource]
      rw [hzero] at hunread
      exact hunread.trans (List.append_nil _)
    simp only [if_pos hnone, if_neg hstay]
    rw [hzero] at H
    refine ⟨_, _, rfl, ?_, hsource ▸ R.loaded.steady, hsource ▸ R.loaded.cache⟩
    rw [hsame]
    exact (List.append_nil (e.unread p)) ▸ H

/-- A source without a read cache gets one, and it holds what was read. -/
theorem sourceRead_streams (hfits : Fits count) (hp : p ≠ NULL) {fuel : Nat} (hfuel : readcacheSize < fuel) :
    Total (fun e => Awaiting count p others e₁ handed₀ read₀ [] e ∧ e.Grants) (sourceRead fuel p)
      fun _ => Loaded count p others e₁ handed₀ read₀ := by
  rintro e ⟨⟨H, S, A⟩, G⟩
  obtain ⟨s, hs⟩ : ∃ s, s = { e.source p with readCacheOffset := 0, read := false } := ⟨_, rfl⟩
  have H' : Streaming count p others e₁ handed₀ read₀ [] (e.putSource p s) :=
    hs ▸ H.putSource (f := fun s => { s with readCacheOffset := 0, read := false }) fun _ => ⟨rfl, rfl, rfl, rfl⟩
  have hnull : ((e.putSource p s).source p).readCache = NULL := by
    rw [putSource_source, hs]
    exact A.readCache
  obtain ⟨cache, e', halloc, H'', hcache, hsource⟩ := sourceAllocReadCache_granted hfits hp H' hnull (G.putSource s)
  rw [putSource_source] at hsource
  have hstart : Reading count p others e₁ handed₀ read₀ readcacheSize readcacheSize e' := by
    have hempty : e'.unread p = [] := by
      rw [unread, hsource, hs]
      rfl
    refine ⟨⟨hempty.symm ▸ H'', ?_, ?_⟩, ?_, ?_, by decide, rfl⟩
    all_goals rw [hsource, hs]
    · exact ⟨S.shutdown, S.writeClose, S.unsent⟩
    · exact hcache
    · exact Nat.zero_add _
  have hrest : subWord (e'.source p).readCacheSize (e'.source p).readCacheOffset = readcacheSize := by
    rw [hsource, hs]
    show subWord readcacheSize 0 = readcacheSize
    rw [subWord_of_le (by decide) (Nat.zero_le _), Nat.sub_zero]
  have hne : QP_SUCCESS ≠ QP_ERROR := by decide
  obtain ⟨well, e'', hloop, hend⟩ := Total.loop (Q := fun _ => Loaded count p others e₁ handed₀ read₀)
    (fun k rest => (readRound_streams k rest).conseq (fun _ h => h) fun x _ h => by cases x <;> exact h) hfuel _ _ hstart
  have hput : (e.putSource p { e.source p with readCacheOffset := 0 }).putSource p
      { e.source p with readCacheOffset := 0, read := false } = e.putSource p s := by
    simp [putSource, hs]
  unfold sourceRead
  rw [if_neg hp, run_bind (setSource_run _), run_bind getSource_run, putSource_source, if_pos A.read,
    run_bind (setSource_run _), putSource_source, hput, run_bind halloc, if_neg hne, run_bind getSource_run, hrest, run_bind hloop]
  split
  · exact ⟨_, _, rfl, hend⟩
  · exact ⟨_, _, rfl, hend⟩

/-! ### The handlers -/

theorem readHandler_run (hread : e.handles.read = true) :
    readHandler p e = .ok ((e.replies e.clock).result, { e with
      clock := e.clock + 1
      trace := .readHandler p (e.source p).stat (e.unread p) (e.replies e.clock).result :: e.trace }) := by
  unfold readHandler
  rw [run_bind (show handle e = .ok (e.handles, e) from rfl), if_pos hread]
  rfl

/-- The read handler gets what is held. -/
theorem Streaming.hand (H : Streaming count p others e₁ handed₀ read₀ held e) (stat : EventStat) (result : Int) :
    Streaming count p others e₁ handed₀ read₀ [] { e with
      clock := e.clock + 1
      trace := .readHandler p stat held result :: e.trace } := by
  obtain ⟨delivered, hd, hr⟩ := H.stream
  refine ⟨record_keeps _ _ (reply_keeps e H.tends), H.answer.obliging, delivered ++ held, ?_, ?_⟩
  · show e.gathered (Call.handed p) ++ (if p = p then _ else _) = _
    rw [if_pos rfl, hd, List.append_assoc]
  · show e.gathered (Call.readBy p) ++ [] = _
    rw [List.append_nil, List.append_nil, hr]

/-- The handlers of a source that has been read: the read handler does not fail, the write cache that it asks for is
    granted, and the write handler fills it. -/
def Replied (p : Ptr) (e : Event) : Prop :=
  After (readHandler p) (fun ret e => 0 ≤ ret ∧ (0 < ret → After (sourceFreeReadCache p) (fun _ e => e.Grants) e)) e ∧
    After (processRead p) (fun _ e => (e.source p).writeCache ≠ NULL → After (writeHandler p) (fun ret _ => 0 < ret) e) e

theorem processRead_streams (hfits : Fits count) (hp : p ≠ NULL) (hread : e₁.handles.read = true)
    (hwrite : e₁.handles.write = true) (L : Loaded count p others e₁ handed₀ read₀ e)
    (hnull : (e.source p).writeCache = NULL) (A : Replied p e) :
    ∃ e', processRead p e = .ok ((), e') ∧ Streaming count p others e₁ handed₀ read₀ [] e' ∧ (e'.source p).Replying := by
  obtain ⟨H, S, -⟩ := L
  have hrun := readHandler_run (p := p) (H.tends.aside.handles ▸ hread)
  obtain ⟨ret, hret⟩ : ∃ ret, ret = (e.replies e.clock).result := ⟨_, rfl⟩
  have Hhand := H.hand (e.source p).stat ret
  obtain ⟨e₂, he₂⟩ : ∃ e₂, e₂ = { e with
      clock := e.clock + 1
      trace := .readHandler p (e.source p).stat (e.unread p) ret :: e.trace } := ⟨_, rfl⟩
  rw [← hret, ← he₂] at hrun
  rw [← he₂] at Hhand
  have hsource₂ : e₂.source p = e.source p := by rw [he₂]
  obtain ⟨hpos, hgrant⟩ := A.1 _ _ hrun
  obtain ⟨caches, r, hfree⟩ := sourceFreeReadCache_run hp Hhand.tends
  obtain ⟨e₃, he₃⟩ : ∃ e₃, e₃ = { e₂ with caches := caches }.putSource p (e₂.source p).dropRead := ⟨_, rfl⟩
  rw [← he₃] at hfree
  have Hfree : Streaming count p others e₁ handed₀ read₀ [] e₃ := by
    refine ⟨(sourceFreeReadCache_keeps hp e₂ Hhand.tends).of_ok hfree, ?_, ?_⟩
    · rw [he₃]
      exact Hhand.obliging
    · rw [he₃]
      exact Hhand.stream
  have hsource₃ : e₃.source p = (e.source p).dropRead := by rw [he₃, putSource_source, hsource₂]
  -- From here on only the state of the source changes, until it asks for a write cache.
  obtain ⟨stat, hstat⟩ : ∃ stat,
      when ((e₃.source p).stat = .new ∧ ret > QP_ERROR) (setSource p fun s => { s with stat := .process }) e₃ =
        .ok ((), e₃.putSource p { e₃.source p with stat := stat }) := by
    unfold Command.when
    split
    · exact ⟨_, rfl⟩
    · exact ⟨(e₃.source p).stat, congrArg (fun e => Except.ok ((), e)) putSource_self.symm⟩
  obtain ⟨e₄, he₄⟩ : ∃ e₄, e₄ = e₃.putSource p { e₃.source p with stat := stat } := ⟨_, rfl⟩
  have H₄ : Streaming count p others e₁ handed₀ read₀ [] e₄ :=
    he₄ ▸ Hfree.putSource (f := fun s => { s with stat := stat }) fun _ => ⟨rfl, rfl, rfl, rfl⟩
  have hsource₄ : e₄.source p = { (e.source p).dropRead with stat := stat } := by
    rw [he₄, putSource_source, hsource₃]
  have hdrop : (e.source p).dropRead.shutdown = false ∧ (e.source p).dropRead.writeClose = false ∧
      (e.source p).dropRead.writeCache = NULL := by
    unfold Source.dropRead
    split
    · exact ⟨S.shutdown, S.writeClose, hnull⟩
    · exact ⟨S.shutdown, S.writeClose, hnull⟩
  obtain ⟨hshutdown, hclose, hnone⟩ := hdrop
  have hwrite₄ : e₄.handles.write = true := H₄.tends.aside.handles ▸ hwrite
  unfold processRead
  rw [run_bind hrun, run_bind hfree, run_bind getSource_run, run_bind hstat, ← he₄, run_bind (run_skip (by omega)),
    run_bind getSource_run, run_bind (show handle e₄ = .ok (e₄.handles, e₄) from rfl), hsource₄, hshutdown, hwrite₄]
  by_cases hask : ret > 0
  · have hnull₄ : (e₄.source p).writeCache = NULL := by rw [hsource₄, ← hnone]
    have G : e₄.Grants := he₄ ▸ (hgrant hask _ _ hfree).putSource _
    obtain ⟨cache, e₅, halloc, H₅, -, hsource₅⟩ := sourceAllocWriteCache_granted hfits hp hwrite H₄ hnull₄ G
    rw [run_when ⟨hask, rfl, rfl⟩, run_bind halloc, run_skip (by decide)]
    refine ⟨e₅, rfl, H₅, ?_⟩
    rw [hsource₅, hsource₄]
    exact ⟨hshutdown, hclose, (e.source p).dropRead_readCache, fun _ => rfl⟩
  · rw [run_skip fun h => hask h.1]
    refine ⟨e₄, rfl, H₄, ?_⟩
    rw [hsource₄]
    exact ⟨hshutdown, hclose, (e.source p).dropRead_readCache, fun h => absurd hnone h⟩

theorem writeHandler_run (hwrite : e.handles.write = true) :
    writeHandler p e = .ok ((e.replies e.clock).result, { e with
      clock := e.clock + 1
      memory := Buffer.store e.memory (e.source p).writeCache (e.source p).writeCacheSize (e.replies e.clock).data
      trace := .writeHandler p (e.source p).stat (e.source p).writeCacheSize (e.replies e.clock).bytes
        (e.replies e.clock).result :: e.trace }.putSource p
          { e.source p with writeCacheOffset := (e.replies e.clock).bytes }) := by
  unfold writeHandler
  rw [run_bind (show handle e = .ok (e.handles, e) from rfl), if_pos hwrite]
  rfl

/-- The write cache is filled. -/
theorem processWrite_streams (hwrite : e₁.handles.write = true) (H : Streaming count p others e₁ handed₀ read₀ [] e)
    (S : (e.source p).Replying) (A : After (writeHandler p) (fun ret _ => 0 < ret) e) :
    ∃ e', processWrite p e = .ok ((), e') ∧ Streaming count p others e₁ handed₀ read₀ [] e' ∧
      (e'.source p).Steady ∧ (e'.source p).readCache = NULL := by
  have hrun := writeHandler_run (p := p) (H.tends.aside.handles ▸ hwrite)
  have hpos := A _ _ hrun
  obtain ⟨reply, hreply⟩ : ∃ reply, reply = e.replies e.clock := ⟨_, rfl⟩
  have hreplied : reply.Obliging := hreply ▸ H.first
  rw [← hreply] at hrun hpos
  obtain ⟨s, hs⟩ : ∃ s, s = { e.source p with writeCacheOffset := reply.bytes } := ⟨_, rfl⟩
  have hfilled : s.Steady ∧ s.readCache = NULL := by
    rw [hs]
    refine ⟨⟨S.shutdown, S.writeClose, fun h => ⟨?_, hreplied.fits⟩⟩, S.readCache⟩
    show (e.source p).writeCacheCurOffset < reply.bytes
    rw [S.start h]
    exact hreplied.some
  obtain ⟨e', he'⟩ : ∃ e', e' = { e with
      clock := e.clock + 1
      memory := Buffer.store e.memory (e.source p).writeCache (e.source p).writeCacheSize reply.data
      trace := .writeHandler p (e.source p).stat (e.source p).writeCacheSize reply.bytes reply.result ::
        e.trace }.putSource p s := ⟨_, rfl⟩
  rw [← hs, ← he'] at hrun
  have H' : Streaming count p others e₁ handed₀ read₀ [] e' := by
    have hcall := H.answer.call
      (.writeHandler p (e.source p).stat (e.source p).writeCacheSize reply.bytes reply.result) rfl rfl
    refine ⟨(writeHandler_keeps hwrite e H.tends).of_ok hrun, ?_, ?_⟩
    · rw [he']
      exact hcall.obliging
    · rw [he']
      exact hcall.stream
  have hsource : e'.source p = s := by rw [he', putSource_source]
  unfold processWrite
  rw [run_bind hrun, if_neg (by omega), run_bind (show handle e' = .ok (e'.handles, e') from rfl)]
  have hend : ∀ e'', Streaming count p others e₁ handed₀ read₀ [] e'' → e''.source p = s →
      Streaming count p others e₁ handed₀ read₀ [] e'' ∧ (e''.source p).Steady ∧ (e''.source p).readCache = NULL := by
    rintro e'' H'' hsource''
    rw [hsource'']
    exact ⟨H'', hfilled⟩
  by_cases hreset : e'.handles.reset = true
  · rw [run_when hreset, run_bind (show record _ e' = .ok ((), _) from rfl), run_skip (by omega)]
    exact ⟨_, rfl, hend _ (H'.call _ rfl rfl) hsource⟩
  · rw [run_bind (run_skip hreset), run_skip (by omega)]
    exact ⟨_, rfl, hend _ H' hsource⟩

/-! ### A turn -/

/-- The bytes that are held for the read handler. -/
def undelivered (p : Ptr) (e : Event) : List UInt8 := if (e.source p).readCache = NULL then [] else e.unread p

/-- In the turn of `p` the caches that are asked for are granted, and the handlers do their work. -/
def Answered (fuel : Nat) (p : Ptr) (e : Event) : Prop :=
  After (do setSource p Source.marked; let _ ← sourceWrite fuel p)
    (fun _ e => e.Grants ∧ After (sourceRead fuel p) (fun _ e => (e.source p).writeCache = NULL → Replied p e) e) e

instance (e : Event) : Decidable e.Grants := inferInstanceAs (Decidable (After _ _ _))

instance (p : Ptr) (e : Event) : Decidable (Replied p e) := inferInstanceAs (Decidable (After _ _ _ ∧ After _ _ _))

instance (fuel : Nat) (p : Ptr) (e : Event) : Decidable (Answered fuel p e) := inferInstanceAs (Decidable (After _ _ _))

theorem dispatchSource_streams (hfits : Fits count) (hp : p ≠ NULL) (hread : e₁.handles.read = true)
    (hwrite : e₁.handles.write = true) {fuel : Nat} (hfuel : readcacheSize < fuel)
    (H : Streaming count p others e₁ handed₀ read₀ [] e) (S : (e.source p).Steady) (hnull : (e.source p).readCache = NULL)
    (hreport : (e.source p).Reported) (A : Answered fuel p e) :
    ∃ e', dispatchSource fuel p e = .ok ((), e') ∧
      Streaming count p others e₁ handed₀ read₀ (e'.undelivered p) e' ∧ (e'.source p).Steady := by
  have hplain : Plain Source.marked := fun _ => ⟨rfl, rfl, rfl, rfl⟩
  obtain ⟨hsteady, hasks⟩ := hreport.marked S
  have hstart : Awaiting count p others e₁ handed₀ read₀ [] (e.putSource p (e.source p).marked) := by
    refine ⟨H.putSource hplain, ?_, ?_⟩
    all_goals rw [putSource_source]
    · exact hsteady
    · exact ⟨hnull, hasks⟩
  obtain ⟨sent, e₂, hsend, W⟩ := sourceWrite_steady hp hfuel _ hstart
  have hbefore : (do setSource p Source.marked; let _ ← sourceWrite fuel p : EventM Unit) e = .ok ((), e₂) := by
    rw [run_bind (setSource_run _), run_bind hsend]
    rfl
  obtain ⟨hgrant, hreplies⟩ := A () e₂ hbefore
  obtain ⟨got, e₃, hget, L⟩ := sourceRead_streams hfits hp hfuel e₂ ⟨W, hgrant⟩
  have hreply := hreplies _ _ hget
  obtain ⟨e₄, hhandle, H₄, S₄⟩ : ∃ e₄, when ((e₃.source p).writeCache = NULL) (do
        when ((← getSource p).readCache ≠ NULL) (processRead p)
        when ((← getSource p).writeCache ≠ NULL) (processWrite p)) e₃ = .ok ((), e₄) ∧
      Streaming count p others e₁ handed₀ read₀ (e₄.undelivered p) e₄ ∧ (e₄.source p).Steady := by
    by_cases hidle : (e₃.source p).writeCache = NULL
    · obtain ⟨hreplied, hfills⟩ := hreply hidle
      obtain ⟨e₄, hprocess, H₄, S₄⟩ := processRead_streams hfits hp hread hwrite L hidle ⟨hreplied, hfills⟩
      rw [run_when hidle, run_bind getSource_run, run_when L.cache, run_bind hprocess, run_bind getSource_run]
      have hnone : ∀ e' : Event, (e'.source p).readCache = NULL → e'.undelivered p = [] := fun _ h => if_pos h
      by_cases hcache₄ : (e₄.source p).writeCache = NULL
      · rw [run_skip (not_not.mpr hcache₄)]
        refine ⟨e₄, rfl, hnone e₄ S₄.readCache ▸ H₄, S₄.shutdown, S₄.writeClose, fun h => absurd hcache₄ h⟩
      · obtain ⟨e₅, hfill, H₅, S₅, hnull₅⟩ := processWrite_streams hwrite H₄ S₄ (hfills _ _ hprocess hcache₄)
        rw [run_when hcache₄, hfill]
        exact ⟨e₅, rfl, hnone e₅ hnull₅ ▸ H₅, S₅⟩
    · -- The response is not sent yet: what was read stays where it is.
      rw [run_skip hidle]
      have hheld : e₃.undelivered p = e₃.unread p := if_neg L.cache
      exact ⟨e₃, rfl, hheld ▸ L.streaming, L.steady⟩
  have hgo : ((e.source p).marked.shutdown || (e.source p).marked.read || (e.source p).marked.write) = true := by
    rw [hasks]
    simp
  have hshut : ¬ (e.source p).marked.shutdown = true := by rw [hsteady.shutdown]; decide
  unfold dispatchSource
  rw [run_bind (setSource_run _)]
  change ∃ e', (getSource p >>= _) (e.putSource p (e.source p).marked) = .ok ((), e') ∧ _
  rw [run_bind getSource_run, putSource_source, run_when hgo, run_bind (run_skip hshut),
    run_bind hsend, run_bind hget, run_bind getSource_run, run_bind hhandle, run_bind getSource_run, run_skip]
  · exact ⟨e₄, rfl, H₄, S₄⟩
  · rw [S₄.shutdown]
    decide

/-! ### Runs of turns -/

/-- A turn of `qp_event_dispatch_queue` with the source `p`, if the state allows for it. -/
def Turn (p : Ptr) (ok : Event → Prop) (e e' : Event) : Prop :=
  ok e ∧ ∃ fuel > readcacheSize, ∃ revents, ((e.report revents).source p).Reported ∧ Answered fuel p (e.report revents) ∧
    dispatchQueue fuel [p] (e.report revents) = .ok ((), e')

/-- Since `e₀` the source goes on, and what `read` returned is what the read handler got and what is held for it. -/
structure ReadOnce (p : Ptr) (e₀ e : Event) : Prop where
  live : e.Live p
  shutdown : (e.source p).shutdown = false
  stream : ∃ delivered, e.gathered (Call.handed p) = e₀.gathered (Call.handed p) ++ delivered ∧
    e.gathered (Call.readBy p) = e₀.gathered (Call.readBy p) ++ (delivered ++ e.undelivered p)

/-- What holds between two turns. -/
structure Ongoing (p : Ptr) (e₀ e : Event) : Prop where
  runs : Runs False e
  once : ReadOnce p e₀ e
  steady : (e.source p).Steady
  handles : e.handles.read = true ∧ e.handles.write = true
  obliging : ∀ i, e.clock ≤ i → (e.replies i).Obliging

theorem Ongoing.turn (B : Ongoing p e₀ e) (hnull : (e.source p).readCache = NULL) {fuel : Nat}
    (hfuel : readcacheSize < fuel) {revents : Ptr → Nat} (hreport : ((e.report revents).source p).Reported)
    (A : Answered fuel p (e.report revents)) :
    ∃ e', dispatchQueue fuel [p] (e.report revents) = .ok ((), e') ∧ Ongoing p e₀ e' := by
  obtain ⟨size, count, room, fl, hfits, I⟩ := B.runs.inv
  obtain ⟨x, hx, -, rfl⟩ := I.stocked.live_iff.mp B.once.live
  have T := (I.report revents).stocked.tends hx
  have hempty : e.undelivered (x + sizeofPoolElm) = [] := if_pos hnull
  have H : Streaming count (x + sizeofPoolElm) _ (e.report revents) (e₀.gathered (Call.handed (x + sizeofPoolElm)))
      (e₀.gathered (Call.readBy (x + sizeofPoolElm))) [] (e.report revents) := ⟨T, B.obliging, hempty ▸ B.once.stream⟩
  have hsteady : ((e.report revents).source (x + sizeofPoolElm)).Steady :=
    ⟨B.steady.shutdown, B.steady.writeClose, B.steady.unsent⟩
  have hread : (e.report revents).handles.read = true := B.handles.1
  obtain ⟨e', hcall, H', S'⟩ :=
    dispatchSource_streams hfits (I.stocked.ne_null hx) hread B.handles.2 hfuel H hsteady hnull hreport A
  have hqueue : dispatchQueue fuel [x + sizeofPoolElm] (e.report revents) = .ok ((), e') := run_bind hcall
  have hlive : e'.Live (x + sizeofPoolElm) := by
    have hpool : e'.pool = e.pool := H'.tends.aside.pool
    have heventPool : e'.eventPool = e.eventPool := H'.tends.aside.eventPool
    unfold Live FreeList
    rw [hpool, heventPool]
    exact B.once.live
  refine ⟨e', hqueue, ?_, ⟨hlive, S'.shutdown, H'.stream⟩, S', H'.tends.aside.handles.symm ▸ B.handles, H'.obliging⟩
  exact .dispatch B.runs (List.nodup_singleton _) (fun p hp => List.mem_singleton.mp hp ▸ B.once.live) hqueue

/-- A turn in which the descriptor 5 can be read. -/
def turned (e : Event) : Event := after (dispatchQueue 4097 [50472]) (e.report fun _ => EPOLL_IN)

theorem turned_turn {ok : Event → Prop} {e : Event} (hok : ok e) (hanswered : Answered 4097 50472 (e.report fun _ => EPOLL_IN))
    (hends : (dispatchQueue 4097 [50472] (e.report fun _ => EPOLL_IN)).isOk = true) : Turn 50472 ok e (turned e) := by
  obtain ⟨_, hcall⟩ := after_ok hends
  have hreport : ((e.report fun _ => EPOLL_IN).source 50472).Reported := by
    show EPOLL_IN ∈ [0, EPOLL_IN, EPOLL_OUT, EPOLL_IN ||| EPOLL_OUT]
    decide
  exact ⟨hok, 4097, by decide, _, hreport, hanswered, hcall⟩

set_option maxRecDepth 4000 in
theorem dripWatched_registered (edge : Bool) (counts : Nat → Int) : ((dripWatched edge counts).source 50472).Registered := by
  constructor <;> cases edge <;> rfl

theorem dripWatched_obliging (edge : Bool) {counts : Nat → Int} (hcounts : ∀ k, counts k ≠ 0) :
    ∀ i, (dripWatched edge counts).clock ≤ i → ((dripWatched edge counts).replies i).Obliging := by
  intro i _
  refine ⟨?_, show 1 ≤ 2 by decide, show 2 ≤ readcacheSize by decide⟩
  have hne := hcounts i
  obtain hpos | hneg : 0 < counts i ∨ counts i < 0 := by omega
  · exact .inl hpos
  · exact .inr ⟨hneg, rfl⟩

/-- As long as no turn begins with a read cache that was not handed over, every byte that is read reaches the read handler
    once, and the source goes on; and such a turn ends. -/
theorem turns_read_once (R : Runs False e₀) (hlive : e₀.Live p) (S : (e₀.source p).Registered)
    (hhandles : e₀.handles.read = true ∧ e₀.handles.write = true) (hreplies : ∀ i, e₀.clock ≤ i → (e₀.replies i).Obliging)
    (hturns : Relation.ReflTransGen (Turn p fun e => (e.source p).readCache = NULL) e₀ e) :
    ReadOnce p e₀ e ∧
      ((e.source p).readCache = NULL → ∀ fuel > readcacheSize, ∀ revents, ((e.report revents).source p).Reported →
        Answered fuel p (e.report revents) → ∃ e', dispatchQueue fuel [p] (e.report revents) = .ok ((), e')) := by
  have hstart : Ongoing p e₀ e₀ := by
    have hempty : e₀.undelivered p = [] := if_pos S.readCache
    have hstream : ReadOnce p e₀ e₀ := ⟨hlive, S.shutdown, [], by simp, by simp [hempty]⟩
    exact ⟨R, hstream, ⟨S.shutdown, S.writeClose, fun h => absurd S.writeCache h⟩, hhandles, hreplies⟩
  have hrun : Ongoing p e₀ e := by
    induction hturns with
    | refl => exact hstart
    | tail _ hturn B =>
      obtain ⟨hnull, fuel, hfuel, revents, hreport, A, hcall⟩ := hturn
      obtain ⟨e', hcall', B'⟩ := B.turn hnull hfuel hreport A
      cases hcall.symm.trans hcall'
      exact B'
  refine ⟨hrun.once, fun hnull fuel hfuel revents hreport A => ?_⟩
  obtain ⟨e', hcall, -⟩ := hrun.turn hnull hfuel hreport A
  exact ⟨e', hcall⟩

theorem turns_read_once_first : ReadOnce 50472 (dripWatched false fun _ => 1) (turned (dripWatched false fun _ => 1)) :=
  (turns_read_once (dripWatched_runs false _) (dripWatched_live false _) (dripWatched_registered false _) ⟨rfl, rfl⟩
    (dripWatched_obliging false fun _ => by decide)
    (.single (turned_turn (by decide +kernel) (by decide +kernel) (by decide +kernel)))).1

/-- A response that waits: the next turn leaves what it reads in the read cache, and the turn after it removes the
    source. -/
theorem turns_not_read_once :
    ¬ ∀ e₀ p e, Runs False e₀ → e₀.Live p → (e₀.source p).Registered → e₀.handles.read = true ∧ e₀.handles.write = true →
      (∀ i, e₀.clock ≤ i → (e₀.replies i).Obliging) → Relation.ReflTransGen (Turn p fun _ => True) e₀ e → ReadOnce p e₀ e := by
  intro h
  obtain ⟨counts, hcounts⟩ : ∃ counts : Nat → Int, counts = fun k => if k = 6 then -1 else 1 := ⟨_, rfl⟩
  have hne : ∀ k, counts k ≠ 0 := by
    intro k
    rw [hcounts]
    show (if k = 6 then (-1 : Int) else 1) ≠ 0
    split <;> decide
  have hturns : Relation.ReflTransGen (Turn 50472 fun _ => True) (dripWatched false counts)
      (turned (turned (turned (dripWatched false counts)))) := by
    rw [hcounts]
    exact .tail (.tail (.single (turned_turn trivial (by decide +kernel) (by decide +kernel)))
      (turned_turn trivial (by decide +kernel) (by decide +kernel))) (turned_turn trivial (by decide +kernel) (by decide +kernel))
  have honce := h _ _ _ (dripWatched_runs false counts) (dripWatched_live false counts) (dripWatched_registered false counts)
    ⟨rfl, rfl⟩ (dripWatched_obliging false hne) hturns
  have hdown := honce.shutdown
  rw [hcounts] at hdown
  have hup : ((turned (turned (turned (dripWatched false fun k => if k = 6 then -1 else 1)))).source 50472).shutdown = true := by
    decide +kernel
  exact absurd (hup.symm.trans hdown) (by decide)

end Event

end QPHi
