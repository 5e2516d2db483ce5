import QPHi.Theorems.Event.Run
import QPHi.Theorems.Pool.Destroy

/-! The functions of one source write to this source, never take its shutdown flag back, and make calls for it only; and
    their loops end after less than 2^64 rounds. -/

namespace QPHi
open Command

variable {p : Ptr} {e e' : Event}

namespace Event

/-- What is true of an event after every change of the source `p` that does not take its shutdown flag back, after every
    call in `own`, and after every change of what is neither a source nor a call. -/
structure Frame (p : Ptr) (own : Call → Prop) (I : Event → Prop) : Prop where
  source : ∀ e s, ((e.source p).shutdown = true → s.shutdown = true) → I e → I (e.putSource p s)
  call : ∀ e call, own call → I e → I { e with trace := call :: e.trace }
  rest : ∀ e e', e'.trace = e.trace → e'.source = e.source → I e → I e'

variable {own : Call → Prop} {I : Event → Prop}

theorem getSource_stays (q : Ptr) : Stays I (getSource q) := fun _ hI => hI

theorem handle_stays : Stays I handle := fun _ hI => hI

/-- Giving a cache back uses no more memory. -/
theorem cacheFree_stays (hI : ∀ e (caches : Heap), caches.live ⊆ e.caches.live → I e → I { e with caches := caches })
    (cache : Ptr) : Stays I (cacheFree cache) := by
  intro e h
  rw [cacheFree_eq]
  cases hfree : e.caches.managerFree e.sourceCachePool cache with
  | none => trivial
  | some st => exact hI e st.1 (managerFree_live hfree) h

/-- The part of a round behind the call. -/
def readAnswer (p : Ptr) (r : Int × Bool) : EventM (Next Nat Bool) := do
  if r.1 < 1 then
    if r.1 = 0 ∨ !r.2 then
      sourceSetShutdown p
      return .done false
    else return .done true
  else
    setSource p fun s => { s with readCacheOffset := addWord s.readCacheOffset r.1.toNat }
    let s ← getSource p
    if subWord s.readCacheSize s.readCacheOffset = 0 then
      when (← handle).reset (record (.reset p (if s.writeCache ≠ NULL then EPOLL_OUT else 0)))
      return .done true
    else if s.edge then return .again (subWord s.readCacheSize s.readCacheOffset)
    else return .done true

theorem readRound_eq (rest : Nat) : readRound p rest = (do
    let s ← getSource p
    let r ← sysRead p (s.readCache + s.readCacheOffset) rest
    readAnswer p r) := rfl

def writeAnswer (p : Ptr) (state : Nat × Int) (s : Source) (r : Int × Bool) : EventM (Next (Nat × Int) (Option Nat)) := do
  if r.1 < 1 then
    if r.1 = 0 ∨ !r.2 ∨ s.writeClose then
      sourceSetShutdown p
      let _ ← sourceFreeReadCache p
      setSource p fun s => { s with writeClose := false, write := false }
      return .done none
    else
      setSource p fun s => { s with writeCacheCurOffset := state.1 }
      return .done (some state.1)
  else
    let rest := addWord state.1 r.1.toNat
    let ret := signed (subWord s.writeCacheOffset rest)
    if 0 ≥ ret then
      let _ ← sourceFreeWriteCache p
      return .done (some rest)
    else if s.edge then return .again (rest, ret)
    else return .done (some rest)

theorem writeRound_eq (state : Nat × Int) : writeRound p state = (do
    let s ← getSource p
    let r ← sysWrite p (s.writeCache + state.1) (unsigned state.2)
    writeAnswer p state s r) := rfl

/-- The measure of a loop that is to move `subWord a b` bytes and has moved `c` of them. -/
theorem subWord_addWord {a b c : Nat} (hc : 1 ≤ c) (hle : c ≤ subWord a b) : subWord a (addWord b c) = subWord a b - c := by
  simp only [subWord, addWord] at hle ⊢
  omega

theorem subWord_lt (a b : Nat) : subWord a b < 2 ^ 64 := Nat.mod_lt _ (by decide)

namespace Frame
variable (F : Frame p own I)
include F

theorem setSource {f : Source → Source} (hf : ∀ s, s.shutdown = true → (f s).shutdown = true) : Stays I (setSource p f) :=
  fun e hI => F.source e (f (e.source p)) (hf _) hI

theorem reply : Stays I reply := fun e hI => F.rest e _ rfl rfl hI

theorem record {call : Call} (hown : own call) : Stays I (record call) := fun e hI => F.call e call hown hI

theorem store (a n : Nat) (data : Nat → UInt8) : Stays I (store a n data) := fun e hI => F.rest e _ rfl rfl hI

theorem cacheAlloc (size : Nat) : Stays I (cacheAlloc size) := by
  intro e hI
  rw [cacheAlloc_eq]
  split
  · trivial
  · exact F.rest e _ rfl rfl hI

theorem cacheFree (cache : Ptr) : Stays I (cacheFree cache) := cacheFree_stays (fun e _ _ hI => F.rest e _ rfl rfl hI) cache

theorem sourceSetShutdown : Stays I (sourceSetShutdown p) := Stays.when (F.setSource fun _ _ => rfl)

/-! ### Caches -/

theorem sourceAllocReadCache : Stays I (sourceAllocReadCache p) := by
  refine (getSource_stays p).bind fun s => Stays.ite (Stays.pure _) ?_
  refine Stays.bind (F.setSource fun _ h => h) fun _ => (F.cacheAlloc _).bind fun cache => ?_
  refine Stays.bind (F.setSource fun _ h => h) fun _ => Stays.ite (Stays.bind (F.setSource fun _ h => h) fun _ => ?_) ?_
  · exact Stays.pure _
  · exact Stays.pure _

theorem sourceAllocWriteCache : Stays I (sourceAllocWriteCache p) := by
  refine (getSource_stays p).bind fun s => Stays.ite (Stays.pure _) ?_
  refine Stays.bind (F.setSource fun _ h => h) fun _ => (F.cacheAlloc _).bind fun cache => ?_
  refine Stays.bind (F.setSource fun _ h => h) fun _ => Stays.ite (Stays.bind (F.setSource fun _ h => h) fun _ => ?_) ?_
  · exact Stays.pure _
  · exact Stays.pure _

theorem sourceFreeReadCache : Stays I (sourceFreeReadCache p) := by
  refine (getSource_stays p).bind fun s => Stays.ite (Stays.pure _) ((F.cacheFree _).bind fun _ => ?_)
  exact Stays.bind (F.setSource fun _ h => h) fun _ => Stays.pure _

theorem sourceFreeWriteCache : Stays I (sourceFreeWriteCache p) := by
  refine (getSource_stays p).bind fun s => Stays.ite (Stays.pure _) ((F.cacheFree _).bind fun _ => ?_)
  exact Stays.bind (F.setSource fun _ h => h) fun _ => Stays.pure _

/-! ### Rounds -/

theorem sysRead (hread : ∀ buf k result data, own (.read p buf k result data)) (buf k : Nat) : Stays I (sysRead p buf k) :=
  F.reply.bind fun _ => (F.store _ _ _).bind fun _ => (F.record (hread _ _ _ _)).bind fun _ => Stays.pure _

theorem sysWrite (hwrite : ∀ buf k result data, own (.write p buf k result data)) (buf k : Nat) : Stays I (sysWrite p buf k) :=
  F.reply.bind fun _ => Stays.get.bind fun _ => (F.record (hwrite _ _ _ _)).bind fun _ => Stays.pure _

theorem readAnswer (hreset : ∀ flag, own (.reset p flag)) (r : Int × Bool) : Stays I (readAnswer p r) := by
  refine Stays.ite (Stays.ite ?_ (Stays.pure _)) ?_
  · exact F.sourceSetShutdown.bind fun _ => Stays.pure _
  · refine Stays.bind (F.setSource fun _ h => h) fun _ => (getSource_stays p).bind fun s => ?_
    refine Stays.ite ?_ (Stays.ite (Stays.pure _) (Stays.pure _))
    exact handle_stays.bind fun _ => (Stays.when (F.record (hreset _))).bind fun _ => Stays.pure _

theorem readRound (hread : ∀ buf k result data, own (.read p buf k result data)) (hreset : ∀ flag, own (.reset p flag))
    (rest : Nat) : Stays I (readRound p rest) :=
  (getSource_stays p).bind fun _ => (F.sysRead hread _ _).bind (F.readAnswer hreset)

theorem writeAnswer (state : Nat × Int) (s : Source) (r : Int × Bool) : Stays I (writeAnswer p state s r) := by
  refine Stays.ite (Stays.ite ?_ ?_) ?_
  · refine F.sourceSetShutdown.bind fun _ => F.sourceFreeReadCache.bind fun _ => ?_
    exact Stays.bind (F.setSource fun _ h => h) fun _ => Stays.pure _
  · exact Stays.bind (F.setSource fun _ h => h) fun _ => Stays.pure _
  · refine Stays.ite ?_ (Stays.ite (Stays.pure _) (Stays.pure _))
    exact F.sourceFreeWriteCache.bind fun _ => Stays.pure _

theorem writeRound (hwrite : ∀ buf k result data, own (.write p buf k result data)) (state : Nat × Int) :
    Stays I (writeRound p state) :=
  (getSource_stays p).bind fun s => (F.sysWrite hwrite _ _).bind (F.writeAnswer state s)

end Frame

/-! ### Measures -/

theorem Frame.any (p : Ptr) : Frame p (fun _ => True) fun _ => True :=
  ⟨fun _ _ _ _ => trivial, fun _ _ _ _ => trivial, fun _ _ _ _ _ => trivial⟩

/-- A round that leaves after a command with enough fuel. -/
theorem leaves {α β γ : Type} {P : Event → Prop} {J : α → Event → Prop} {m : EventM γ} {b : β} (h : Stays (fun _ => True) m) :
    Fueled P (do let _ ← m; return Next.done b : EventM (Next α β)) (Next.Either J fun _ _ => True) :=
  (h.conseq (fun _ _ => trivial) fun _ _ h => h).bind fun _ => Fueled.pure fun _ _ => trivial

/-- What `qp_event_source_read` asks for next is the rest of the cache. -/
def ReadRest (p : Ptr) (n rest : Nat) (e : Event) : Prop :=
  n = rest ∧ rest = subWord (e.source p).readCacheSize (e.source p).readCacheOffset

theorem readRound_lowers (n rest : Nat) : Fueled (ReadRest p n rest) (readRound p rest)
    (Next.Either (fun rest' e => ∃ n' < n, ReadRest p n' rest' e) fun _ _ => True) := by
  refine Fueled.bind (R := fun _ => ReadRest p n rest) (getSource_stays p) fun s => ?_
  have hcall : Fueled (ReadRest p n rest) (sysRead p (s.readCache + s.readCacheOffset) rest) fun r e =>
      ReadRest p n rest e ∧ r.1 ≤ (rest : Int) := fun e h => ⟨h, Int.min_le_right _ _⟩
  refine hcall.bind fun r => Fueled.ite (fun _ => Fueled.ite (fun _ => ?_) fun _ => ?_) fun hsome => ?_
  · exact leaves (Frame.any p).sourceSetShutdown
  · exact Fueled.pure fun _ _ => trivial
  have hmove : Fueled (fun e => ReadRest p n rest e ∧ r.1 ≤ (rest : Int))
      (setSource p fun s => { s with readCacheOffset := addWord s.readCacheOffset r.1.toNat })
      fun _ e => ∃ rest' < n, ReadRest p rest' rest' e := by
    rintro e ⟨⟨hn, hrest⟩, hle⟩
    refine ⟨rest - r.1.toNat, by omega, rfl, ?_⟩
    simp only [Function.update_self]
    rw [subWord_addWord (by omega) (by omega), ← hrest]
  refine hmove.bind fun _ => ?_
  have hknow : Fueled (fun e => ∃ rest' < n, ReadRest p rest' rest' e) (getSource p) fun s e =>
      ∃ rest' < n, rest' = subWord s.readCacheSize s.readCacheOffset ∧ ReadRest p rest' rest' e := by
    rintro e ⟨rest', hless, h⟩
    exact ⟨rest', hless, h.2, h⟩
  refine hknow.bind fun s => Fueled.ite (fun _ => ?_) fun _ => Fueled.ite (fun _ => ?_) fun _ => ?_
  · exact Fueled.bind (R := fun _ _ => True) (fun _ _ => trivial) fun h => leaves (Stays.when ((Frame.any p).record trivial))
  · refine Fueled.pure fun e h => ?_
    obtain ⟨rest', hless, rfl, h⟩ := h
    exact ⟨_, hless, h⟩
  · exact Fueled.pure fun _ _ => trivial

/-- What `qp_event_source_write` asks for next is the rest of the cache. -/
def WriteRest (p : Ptr) (n : Nat) (state : Nat × Int) (e : Event) : Prop :=
  n = unsigned state.2 ∧ state.2 = signed (subWord (e.source p).writeCacheOffset state.1)

theorem unsigned_signed {a : Nat} (h : a < 2 ^ 64) : unsigned (signed a) = a := by
  unfold unsigned signed
  split
  · omega
  · omega

theorem writeRound_lowers (n : Nat) (state : Nat × Int) : Fueled (WriteRest p n state) (writeRound p state)
    (Next.Either (fun state' e => ∃ n' < n, WriteRest p n' state' e) fun _ _ => True) := by
  have hknow : Fueled (WriteRest p n state) (getSource p) fun s e =>
      n = unsigned state.2 ∧ n = subWord s.writeCacheOffset state.1 ∧ e.source p = s := by
    rintro e ⟨hn, hrest⟩
    refine ⟨hn, ?_, rfl⟩
    rw [hn, hrest, unsigned_signed (subWord_lt _ _)]
  refine hknow.bind fun s => ?_
  have hcall : Fueled (fun e => n = unsigned state.2 ∧ n = subWord s.writeCacheOffset state.1 ∧ e.source p = s)
      (sysWrite p (s.writeCache + state.1) (unsigned state.2)) fun r e =>
        n = subWord s.writeCacheOffset state.1 ∧ r.1 ≤ (n : Int) ∧ e.source p = s := by
    rintro e ⟨hn, hrest, hs⟩
    refine ⟨hrest, ?_, hs⟩
    rw [hn]
    exact Int.le_trans (Int.min_le_left _ _) (Int.min_le_right _ _)
  refine hcall.bind fun r => Fueled.ite (fun _ => Fueled.ite (fun _ => ?_) fun _ => ?_) fun hsome => ?_
  · refine Fueled.bind (R := fun _ _ => True) ?_ fun _ => Fueled.bind (R := fun _ _ => True) ?_ fun _ => leaves ?_
    · exact (Frame.any p).sourceSetShutdown.conseq (fun _ _ => trivial) fun _ _ h => h
    · exact (Frame.any p).sourceFreeReadCache
    · exact (Frame.any p).setSource fun _ h => h
  · exact leaves ((Frame.any p).setSource fun _ h => h)
  refine Fueled.ite (fun _ => ?_) fun hmore => Fueled.ite (fun _ => ?_) fun _ => Fueled.pure fun _ _ => trivial
  · exact leaves (Frame.any p).sourceFreeWriteCache
  · refine Fueled.pure fun e h => ?_
    obtain ⟨hrest, hle, hs⟩ := h
    have hmoves := subWord_addWord (a := s.writeCacheOffset) (b := state.1) (c := r.1.toNat) (by omega) (by omega)
    rw [hmoves, ← hrest]
    have hlt : n - r.1.toNat < 2 ^ 64 := by
      have := subWord_lt s.writeCacheOffset state.1
      omega
    refine ⟨n - r.1.toNat, by omega, (unsigned_signed hlt).symm, ?_⟩
    rw [hs, hmoves, ← hrest]

/-! ### Whole functions -/

theorem getSource_known {P : Event → Prop} : Fueled P (getSource p) fun s e => e.source p = s ∧ P e := fun _ h => ⟨rfl, h⟩

theorem sourceWrite_idle (fuel : Nat) (h : (e.source p).writeCache = NULL ∨ (e.source p).write = false) :
    ∃ r, sourceWrite fuel p e = .ok (r, e) := by
  unfold sourceWrite
  rw [run_bind getSource_run]
  by_cases hnull : p = NULL ∨ (e.source p).writeCache = NULL
  · rw [if_pos hnull]
    exact ⟨_, rfl⟩
  · have hwrite : ¬(e.source p).write = true := by
      rw [h.resolve_left (not_or.mp hnull).2]
      decide
    rw [if_neg hnull, if_neg hwrite]
    exact ⟨_, rfl⟩

/-- A call of `qp_event_source_write` that has something to do. -/
theorem sourceWrite_goes {J : Nat × Int → Event → Prop} {Q : Event → Prop} {fuel : Nat} (hp : p ≠ NULL)
    (hcache : (e.source p).writeCache ≠ NULL) (hwrite : (e.source p).write = true)
    (hstart : J ((e.source p).writeCacheCurOffset, signed (subWord (e.source p).writeCacheOffset (e.source p).writeCacheCurOffset))
      (e.putSource p { e.source p with write := false }))
    (hround : ∀ state, Fueled (J state) (writeRound p state) (Next.Either J fun _ => Q)) (hfuel : 2 ^ 64 ≤ fuel) :
    Settles (fun _ => Q) (sourceWrite fuel p e) := by
  unfold sourceWrite
  rw [run_bind getSource_run, if_neg (not_or.mpr ⟨hp, hcache⟩), if_pos hwrite, run_bind (setSource_run _)]
  have hlt : unsigned (signed (subWord (e.source p).writeCacheOffset (e.source p).writeCacheCurOffset)) < fuel := by
    rw [unsigned_signed (subWord_lt _ _)]
    exact Nat.lt_of_lt_of_le (subWord_lt _ _) hfuel
  refine Fueled.bind (Fueled.loop_within writeRound_lowers hround hlt _) (fun sent => ?_) _
    ⟨⟨rfl, by rw [putSource_source]⟩, hstart⟩
  exact Fueled.pure fun _ h => h

theorem sourceWrite_stays {fuel : Nat} (hset : Stays I (setSource p fun s => { s with write := false }))
    (hround : ∀ state, Stays I (writeRound p state)) (hfuel : 2 ^ 64 ≤ fuel) : Stays I (sourceWrite fuel p) := by
  intro e hI
  by_cases hnull : p = NULL ∨ (e.source p).writeCache = NULL
  · unfold sourceWrite
    rw [run_bind getSource_run, if_pos hnull]
    exact hI
  · obtain ⟨hp, hcache⟩ := not_or.mp hnull
    cases hwrite : (e.source p).write with
    | false =>
      obtain ⟨r, hrun⟩ := sourceWrite_idle fuel (.inr hwrite)
      rw [hrun]
      exact hI
    | true =>
      refine sourceWrite_goes (J := fun _ => I) hp hcache hwrite (hset e hI) (fun state => ?_) hfuel
      exact (hround state).conseq (fun _ h => h) fun x _ h => by cases x <;> exact h

namespace Frame
variable (F : Frame p own I)
include F

theorem sourceRead (hread : ∀ buf k result data, own (.read p buf k result data)) (hreset : ∀ flag, own (.reset p flag))
    {fuel : Nat} (hfuel : 2 ^ 64 ≤ fuel) : Stays I (sourceRead fuel p) := by
  refine Stays.ite (Stays.pure _) (Stays.bind (F.setSource fun _ h => h) fun _ => (getSource_stays p).bind fun s => ?_)
  refine Stays.ite ?_ ((getSource_stays p).bind fun _ => Stays.pure _)
  refine Stays.bind (F.setSource fun _ h => h) fun _ => F.sourceAllocReadCache.bind fun r => Stays.ite ?_ ?_
  · exact F.sourceSetShutdown.bind fun _ => Stays.pure _
  · refine Fueled.bind getSource_known fun s => Fueled.bind (R := fun _ => I) ?_ fun well => ?_
    · have hlt : subWord s.readCacheSize s.readCacheOffset < fuel := Nat.lt_of_lt_of_le (subWord_lt _ _) hfuel
      refine (Stays.loop (F.readRound hread hreset) readRound_lowers hlt _).conseq (fun e h => ?_) fun _ _ h => h
      exact ⟨⟨rfl, by rw [h.1]⟩, h.2⟩
    · exact Stays.ite ((getSource_stays p).bind fun _ => Stays.pure _) (Stays.pure _)

theorem sourceWrite (hwrite : ∀ buf k result data, own (.write p buf k result data)) {fuel : Nat} (hfuel : 2 ^ 64 ≤ fuel) :
    Stays I (sourceWrite fuel p) := sourceWrite_stays (F.setSource fun _ h => h) (F.writeRound hwrite) hfuel

theorem readHandler (hcall : ∀ stat data result, own (.readHandler p stat data result)) : Stays I (readHandler p) := by
  refine handle_stays.bind fun h => Stays.ite (F.reply.bind fun r => ?_) (Stays.pure _)
  refine (getSource_stays p).bind fun s => Stays.get.bind fun e => (F.record (hcall _ _ _)).bind fun _ => Stays.pure _

theorem writeHandler (hcall : ∀ stat size bytes result, own (.writeHandler p stat size bytes result)) :
    Stays I (writeHandler p) := by
  refine handle_stays.bind fun h => Stays.ite (F.reply.bind fun r => ?_) Fueled.stuck
  refine (getSource_stays p).bind fun s => (F.store _ _ _).bind fun _ => Stays.bind (F.setSource fun _ h => h) fun _ => ?_
  exact (F.record (hcall _ _ _ _)).bind fun _ => Stays.pure _

theorem processRead (hcall : ∀ stat data result, own (.readHandler p stat data result)) : Stays I (processRead p) := by
  refine (F.readHandler hcall).bind fun ret => F.sourceFreeReadCache.bind fun _ => (getSource_stays p).bind fun s => ?_
  refine Stays.bind (Stays.when (F.setSource fun _ h => h)) fun _ => (Stays.when F.sourceSetShutdown).bind fun _ => ?_
  refine (getSource_stays p).bind fun s => handle_stays.bind fun h => Stays.when ?_
  exact F.sourceAllocWriteCache.bind fun _ => Stays.when F.sourceSetShutdown

theorem processWrite (hcall : ∀ stat size bytes result, own (.writeHandler p stat size bytes result))
    (hreset : ∀ flag, own (.reset p flag)) : Stays I (processWrite p) := by
  refine (F.writeHandler hcall).bind fun ret => Stays.ite ?_ ?_
  · exact F.sourceSetShutdown.bind fun _ => F.sourceFreeWriteCache.bind fun _ => Stays.pure _
  · refine handle_stays.bind fun h => (Stays.when (F.record (hreset _))).bind fun _ => ?_
    exact Stays.when (F.setSource fun _ h => h)

theorem sourceClose (hclose : ∀ fd, own (.close fd)) : Stays I (sourceClose p) := by
  refine Stays.ite (Stays.pure _) ((getSource_stays p).bind fun s => Stays.bind (Stays.when ?_) fun _ => ?_)
  · exact Stays.bind (fun e hI => F.rest e _ rfl rfl hI) fun _ => F.record (hclose _)
  · exact Stays.bind (F.setSource fun _ h => h) fun _ => Stays.pure _

theorem removeevent (hdel : own (.del p)) (hclose : ∀ fd, own (.close fd)) : Stays I (removeevent p) := by
  refine Stays.ite (Stays.pure _) (handle_stays.bind fun h => (Stays.when (F.record hdel)).bind fun _ => ?_)
  refine (F.sourceClose hclose).bind fun _ => F.sourceFreeReadCache.bind fun _ => F.sourceFreeWriteCache.bind fun _ => ?_
  exact Stays.bind (fun e hI => F.rest e _ rfl rfl hI) fun _ => Stays.pure _

end Frame

end Event

end QPHi
