import Mathlib.Logic.Relation
import QPHi.Lib.Buffer
import QPHi.Theorems.Event.Run

/-! Sending a write cache: what `write` has accepted is the part of the cache that was sent, and the cache is given back
    with its last byte. In level mode the position is not kept after a short write. -/

namespace QPHi
open Command

variable {n m count pos : Nat} {p : Ptr} {others : List Nat} {e e₀ : Event}

/-- The bytes of a call of `write` for the source `p`. -/
def Call.sent (p : Ptr) : Call → List UInt8
  | .write q _ _ _ data => if q = p then data else []
  | _ => []

/-- Every `read` and `write` gets on, or is to be tried again. -/
def Reply.Polite (r : Reply) : Prop := 0 < r.count ∨ (r.count < 0 ∧ r.retry = true)

/-- A write cache, with the size that `qp_event_source_alloc_write_cache` sets, and `n` bytes in it that were not sent
    yet. -/
structure Source.Filled (n : Nat) (s : Source) : Prop where
  cache : s.writeCache ≠ NULL
  size : s.writeCacheSize = readcacheSize
  start : s.writeCacheCurOffset = 0
  offset : s.writeCacheOffset = n
  some : 1 ≤ n
  fits : n ≤ s.writeCacheSize
  writeClose : s.writeClose = false

namespace Event

/-- The bytes that `f` finds in some calls, the last of which comes first. -/
def joined (f : Call → List UInt8) (trace : List Call) : List UInt8 := trace.foldr (fun call bytes => bytes ++ f call) []

/-- The bytes that `f` finds in the calls so far. -/
def gathered (f : Call → List UInt8) (e : Event) : List UInt8 := joined f e.trace

theorem joined_append (f : Call → List UInt8) (calls trace : List Call) :
    joined f (calls ++ trace) = joined f trace ++ joined f calls := by
  induction calls with
  | nil => exact (List.append_nil _).symm
  | cons call calls ih =>
    show joined f (calls ++ trace) ++ f call = joined f trace ++ (joined f calls ++ f call)
    rw [ih, List.append_assoc]

/-- `source->write` is set before a call. -/
def armed (p : Ptr) (e : Event) : Event := e.putSource p { e.source p with write := true }

theorem bytesAt_eq (memory : Nat → UInt8) (a n : Nat) : bytesAt memory a n = Buffer.slice memory a n := rfl

theorem sysWrite_run (buf k : Nat) (hk : k ≤ readcacheSize) :
    sysWrite p buf k e = .ok ((min (e.replies e.clock).count k, (e.replies e.clock).retry), { e with
      clock := e.clock + 1
      trace := .write p buf k (min (e.replies e.clock).count k) (bytesAt e.memory buf (min (e.replies e.clock).count k).toNat) ::
        e.trace }) := by
  have hmin : min (min (e.replies e.clock).count k) (2 ^ 63 - 1) = min (e.replies e.clock).count k := by
    rw [readcacheSize] at hk
    omega
  rw [← hmin]
  rfl

theorem unsigned_natCast {k : Nat} (hk : k < 2 ^ 64) : unsigned (k : Int) = k := by
  rw [unsigned]
  omega

/-- `write` has answered `result` to a call for `k` bytes from `pos` on. -/
def wrote (p : Ptr) (pos k : Nat) (result : Int) (e : Event) : Event :=
  { e with
    clock := e.clock + 1
    trace := .write p ((e.source p).writeCache + pos) k result (bytesAt e.memory ((e.source p).writeCache + pos) result.toNat) ::
      e.trace }

/-- `write` accepts some of `k` bytes: if these are all, the cache is given back, else an edge-triggered source goes on. -/
theorem writeRound_accepts (hp : p ≠ NULL) (H : Tends count p others e₀ e) {k : Nat} (hk : 1 ≤ k) (hfits : pos + k ≤ readcacheSize)
    (hoffset : (e.source p).writeCacheOffset = pos + k) (hpos : 0 < (e.replies e.clock).count) :
    ∃ c : Nat, min (e.replies e.clock).count k = c ∧ 1 ≤ c ∧
      ((c = k ∧ ∃ caches, writeRound p (pos, k) e =
          .ok (.done (some (pos + c)), { e.wrote p pos k c with caches := caches }.putSource p (e.source p).dropWrite)) ∨
        (c < k ∧ (e.source p).edge = true ∧ writeRound p (pos, k) e = .ok (.again (pos + c, (k - c : Nat)), e.wrote p pos k c)) ∨
        (c < k ∧ (e.source p).edge = false ∧ writeRound p (pos, k) e = .ok (.done (some (pos + c)), e.wrote p pos k c))) := by
  have hword : readcacheSize < 2 ^ 63 := by decide
  obtain ⟨reply, hreply⟩ : ∃ reply, reply = e.replies e.clock := ⟨_, rfl⟩
  have hcall : sysWrite p ((e.source p).writeCache + pos) k e =
      .ok ((min reply.count k, reply.retry), e.wrote p pos k (min reply.count k)) := hreply ▸ sysWrite_run _ _ (by omega)
  rw [← hreply] at hpos ⊢
  unfold writeRound
  simp only [run_bind getSource_run, unsigned_natCast (by omega : k < 2 ^ 64), run_bind hcall]
  obtain ⟨c, hc⟩ : ∃ c : Nat, min reply.count k = c := ⟨_, (Int.toNat_of_nonneg (by omega)).symm⟩
  have hsome : ¬ (c : Int) < 1 := by omega
  have hrest : addWord pos c = pos + c := addWord_of_lt (by omega)
  have hret : signed (subWord (e.source p).writeCacheOffset (pos + c)) = (k - c : Nat) := by
    rw [hoffset, subWord_of_le (by omega) (by omega), signed, if_pos (by omega)]
    omega
  refine ⟨c, hc, by omega, ?_⟩
  simp only [hc, Int.toNat_natCast, hrest, hret, if_neg hsome]
  by_cases hall : c = k
  · have hend : (0 : Int) ≥ (k - c : Nat) := by omega
    obtain ⟨caches, r, hfree⟩ := sourceFreeWriteCache_run hp (record_keeps _ _ (reply_keeps e H))
    refine .inl ⟨hall, caches, ?_⟩
    rw [if_pos hend]
    exact run_bind hfree
  · have hmore : ¬ (0 : Int) ≥ (k - c : Nat) := by omega
    rw [if_neg hmore]
    cases hedge : (e.source p).edge with
    | true => exact .inr (.inl ⟨by omega, rfl, rfl⟩)
    | false => exact .inr (.inr ⟨by omega, rfl, rfl⟩)

/-- A round with `k` bytes left to send. Some are accepted, or `write` is to be tried again, and the position is kept. -/
theorem writeRound_run (hp : p ≠ NULL) (H : Tends count p others e₀ e) {k : Nat} (hk : 1 ≤ k) (hfits : pos + k ≤ readcacheSize)
    (hoffset : (e.source p).writeCacheOffset = pos + k) (hclose : (e.source p).writeClose = false)
    (hpolite : (e.replies e.clock).Polite) :
    (∃ c : Nat, min (e.replies e.clock).count k = c ∧ 1 ≤ c ∧
      ((c = k ∧ ∃ caches, writeRound p (pos, k) e =
          .ok (.done (some (pos + c)), { e.wrote p pos k c with caches := caches }.putSource p (e.source p).dropWrite)) ∨
        (c < k ∧ (e.source p).edge = true ∧ writeRound p (pos, k) e = .ok (.again (pos + c, (k - c : Nat)), e.wrote p pos k c)) ∨
        (c < k ∧ (e.source p).edge = false ∧ writeRound p (pos, k) e = .ok (.done (some (pos + c)), e.wrote p pos k c)))) ∨
      ∃ result < 0, writeRound p (pos, k) e =
        .ok (.done (some pos), (e.wrote p pos k result).putSource p { e.source p with writeCacheCurOffset := pos }) := by
  rcases hpolite with hpos | ⟨hneg, hretry⟩
  · exact .inl (writeRound_accepts hp H hk hfits hoffset hpos)
  obtain ⟨reply, hreply⟩ : ∃ reply, reply = e.replies e.clock := ⟨_, rfl⟩
  have hcall : sysWrite p ((e.source p).writeCache + pos) k e =
      .ok ((min reply.count k, reply.retry), e.wrote p pos k (min reply.count k)) := hreply ▸ sysWrite_run _ _ (by omega)
  have hword : readcacheSize < 2 ^ 63 := by decide
  rw [← hreply] at hneg hretry
  unfold writeRound
  simp only [run_bind getSource_run, unsigned_natCast (by omega : k < 2 ^ 64), run_bind hcall]
  have hnone : min reply.count k < 1 := by omega
  have hstay : ¬ (min reply.count (k : Int) = 0 ∨ (!reply.retry) = true ∨ (e.source p).writeClose = true) := by
    rw [hretry, hclose]
    simp
    omega
  refine .inr ⟨min reply.count k, by omega, ?_⟩
  simp only [if_pos hnone, if_neg hstay]
  rfl

/-- While the write cache of `p` is sent, since `e₀`: its first `m` bytes were accepted. -/
structure Sending (count : Nat) (p : Ptr) (others : List Nat) (e₀ : Event) (m : Nat) (e : Event) : Prop where
  tends : Tends count p others e₀ e
  calls : e₀.trace <:+ e.trace
  memory : e.memory = e₀.memory
  sent : e.gathered (Call.sent p) = e₀.gathered (Call.sent p) ++ bytesAt e₀.memory (e₀.source p).writeCache m

/-- The write cache still has the bytes behind `m`. In level mode none of them was sent. -/
structure Pending (n : Nat) (s₀ : Source) (m : Nat) (s : Source) : Prop where
  cache : s.writeCache = s₀.writeCache
  offset : s.writeCacheOffset = n
  writeClose : s.writeClose = false
  edge : s.edge = s₀.edge
  less : m < n
  level : s₀.edge = true ∨ m = 0

/-- Between two calls: the position is kept in the source, or all is sent and the cache is given back. -/
def Between (count : Nat) (p : Ptr) (others : List Nat) (n : Nat) (e₀ : Event) (m : Nat) (e : Event) : Prop :=
  Sending count p others e₀ m e ∧
    ((Pending n (e₀.source p) m (e.source p) ∧ (e.source p).writeCacheCurOffset = m) ∨
      ((e.source p).writeCache = NULL ∧ m = n))

/-- A call that does not send a part only, if the source is level-triggered. -/
def SendsWhole (n : Nat) (p : Ptr) (e : Event) : Prop :=
  (e.source p).edge = true ∨ (e.replies e.clock).count ≤ 0 ∨ n ≤ (e.replies e.clock).count

theorem Sending.setSource {f : Source → Source} (hf : Plain f) (h : Sending count p others e₀ m e) :
    Sending count p others e₀ m (e.putSource p (f (e.source p))) :=
  ⟨setSource_keeps hf e h.tends, h.calls, h.memory, h.sent⟩

theorem Sending.wrote (h : Sending count p others e₀ m e) (hcache : (e.source p).writeCache = (e₀.source p).writeCache) (k : Nat)
    (result : Int) : Sending count p others e₀ (m + result.toNat) (e.wrote p m k result) := by
  refine ⟨record_keeps _ _ (reply_keeps _ h.tends), h.calls.trans (List.suffix_cons _ _), h.memory, ?_⟩
  show e.gathered (Call.sent p) ++ (if p = p then _ else _) = _
  rw [if_pos rfl, h.sent, h.memory, hcache, List.append_assoc, bytesAt_eq, bytesAt_eq, bytesAt_eq, Buffer.slice_append]

/-- The next `k` answers are polite. -/
def Polite (k : Nat) (e : Event) : Prop := ∀ i < k, (e.replies (e.clock + i)).Polite

theorem Polite.next {e' : Event} {j : Nat} (h : e.Polite k) (hj : j < k) (hreplies : e'.replies = e.replies)
    (hclock : e'.clock = e.clock + 1) : e'.Polite j := by
  intro i hi
  rw [hreplies, hclock, Nat.add_right_comm, Nat.add_assoc]
  exact h (i + 1) (by omega)

/-- What holds before a round: `state.1` bytes are sent and `state.2` are to be sent. -/
def SendRound (count : Nat) (p : Ptr) (others : List Nat) (n : Nat) (e₀ : Event) (k : Nat) (state : Nat × Int) (e : Event) : Prop :=
  Sending count p others e₀ state.1 e ∧ Pending n (e₀.source p) state.1 (e.source p) ∧ state.2 = (n - state.1 : Nat) ∧
    k = n - state.1 ∧ e.Polite k ∧ SendsWhole n p e

/-- A round that goes on has sent some more; one that leaves has kept the position in the source, or all is sent. -/
theorem writeRound_total (hp : p ≠ NULL) (hn : n ≤ readcacheSize) (k : Nat) (state : Nat × Int) :
    Total (SendRound count p others n e₀ k state) (writeRound p state) fun x e =>
      match x with
      | .again state' => ∃ k' < k, SendRound count p others n e₀ k' state' e
      | .done _ => ∃ m ≤ n, Between count p others n e₀ m e := by
  obtain ⟨pos, rest⟩ := state
  rintro e ⟨S, P, hrest, hk, hpolite, hwhole⟩
  simp only at hrest hk S P
  subst hrest hk
  have hless : pos < n := P.less
  have hoffset : (e.source p).writeCacheOffset = pos + (n - pos) := by
    rw [P.offset]
    omega
  rcases writeRound_run hp S.tends (by omega) (by omega) hoffset P.writeClose (hpolite 0 (by omega)) with
    ⟨c, hc, hsome, hout⟩ | ⟨result, hneg, hrun⟩
  · have S' := S.wrote P.cache (n - pos) c
    rw [Int.toNat_natCast] at S'
    rcases hout with ⟨hall, caches, hrun⟩ | ⟨hshort, hedge, hrun⟩ | ⟨hshort, hlevel, hrun⟩
    · have T := (writeRound_keeps hp _ e S.tends).of_ok hrun
      have hend : pos + c = n := by omega
      rw [hend] at S'
      refine ⟨_, _, hrun, n, Nat.le_refl n, ⟨T, S'.calls, S'.memory, S'.sent⟩, .inr ⟨?_, rfl⟩⟩
      rw [putSource_source, Source.dropWrite_writeCache]
    · have hnext : ((n - pos - c : Nat) : Int) = (n - (pos + c) : Nat) := by omega
      refine ⟨_, _, hrun, n - (pos + c), by omega, S', ?_, hnext, rfl, hpolite.next (by omega) rfl rfl, .inl hedge⟩
      exact ⟨P.cache, P.offset, P.writeClose, P.edge, by omega, .inl (P.edge.symm.trans hedge)⟩
    · -- In level mode `write` has accepted all.
      have hpos : pos = 0 := by
        rcases P.level with hedge | hzero
        · rw [← P.edge, hlevel] at hedge
          cases hedge
        · exact hzero
      rcases hwhole with hedge | hnone | hmany
      · rw [hlevel] at hedge
        cases hedge
      · omega
      · omega
  · have S' := S.wrote P.cache (n - pos) result
    rw [Int.toNat_of_nonpos (Int.le_of_lt hneg), Nat.add_zero] at S'
    refine ⟨_, _, hrun, pos, Nat.le_of_lt hless, S'.setSource (f := fun s => { s with writeCacheCurOffset := pos })
      (fun _ => ⟨rfl, rfl, rfl, rfl⟩), .inl ?_⟩
    rw [putSource_source]
    exact ⟨⟨P.cache, P.offset, P.writeClose, P.edge, P.less, P.level⟩, rfl⟩

/-- A call of `qp_event_source_write` between two calls ends, and again some part of the cache is sent. -/
theorem sourceWrite_total (hp : p ≠ NULL) (hn : n ≤ readcacheSize)
    (hheld : (e₀.source p).writeCache ≠ NULL) {fuel : Nat} (hfuel : n < fuel) (hm : m ≤ n) (B : Between count p others n e₀ m e)
    (hpolite : e.Polite n) (hwhole : (e.source p).writeCache ≠ NULL → SendsWhole n p e) :
    ∃ r e', sourceWrite fuel p (e.armed p) = .ok (r, e') ∧ ∃ m' ≤ n, Between count p others n e₀ m' e' := by
  obtain ⟨S, hstate⟩ := B
  have hword : readcacheSize < 2 ^ 63 := by decide
  obtain ⟨s, hs⟩ : ∃ s, s = { e.source p with write := true } := ⟨_, rfl⟩
  have S' : Sending count p others e₀ m (e.putSource p s) :=
    hs ▸ S.setSource (f := fun s => { s with write := true }) fun _ => ⟨rfl, rfl, rfl, rfl⟩
  unfold sourceWrite armed
  rw [← hs, run_bind getSource_run, putSource_source]
  rcases hstate with ⟨P, hcur⟩ | ⟨hnull, hall⟩
  · have hless := P.less
    have hcache : s.writeCache ≠ NULL := by
      rw [hs]
      exact P.cache ▸ hheld
    have hpos : s.writeCacheCurOffset = m := by rw [hs, ← hcur]
    have hrest : signed (subWord s.writeCacheOffset m) = (n - m : Nat) := by
      have hoffset : s.writeCacheOffset = n := by rw [hs, ← P.offset]
      rw [hoffset, subWord_of_le (by omega) hm, signed, if_pos (by omega)]
    rw [if_neg (not_or.mpr ⟨hp, hcache⟩), if_pos (by rw [hs]), hpos, hrest, run_bind (setSource_run _), putSource_source]
    have hstart : SendRound count p others n e₀ (n - m) (m, ((n - m : Nat) : Int))
        ((e.putSource p s).putSource p { s with write := false }) := by
      have hround := S'.setSource (f := fun s => { s with write := false }) fun _ => ⟨rfl, rfl, rfl, rfl⟩
      have hwhole := hwhole (P.cache ▸ hheld)
      rw [putSource_source] at hround
      refine ⟨hround, ?_, rfl, rfl, fun i hi => hpolite i (by omega), ?_⟩
      · rw [putSource_source, hs]
        exact ⟨P.cache, P.offset, P.writeClose, P.edge, P.less, P.level⟩
      · unfold SendsWhole
        rw [putSource_source, hs]
        exact hwhole
    have hrounds : n - m < fuel := by omega
    obtain ⟨sent, e', hloop, m', hm', B'⟩ := Total.loop (Q := fun _ e => ∃ m ≤ n, Between count p others n e₀ m e)
      (fun k state => (writeRound_total hp hn k state).conseq (fun _ h => h) fun x _ h => by cases x <;> exact h)
      hrounds _ _ hstart
    exact ⟨_, e', run_bind hloop, m', hm', B'⟩
  · have hcache : s.writeCache = NULL := by rw [hs, ← hnull]
    rw [if_pos (.inr hcache)]
    exact ⟨_, _, rfl, n, Nat.le_refl n, hall ▸ S', .inr ⟨by rw [putSource_source, hcache], rfl⟩⟩

/-! ### Runs of calls -/

/-- A call of `qp_event_source_write` with `source->write` set, if the state allows for it. -/
def Sends (n : Nat) (p : Ptr) (ok : Event → Prop) (e e' : Event) : Prop :=
  e.Polite n ∧ ok e ∧ ∃ fuel > n, ∃ r, sourceWrite fuel p (e.armed p) = .ok (r, e')

/-- A call that sends nothing, or does not lose its position. -/
def Careful (n : Nat) (p : Ptr) (e : Event) : Prop := (e.source p).writeCache ≠ NULL → SendsWhole n p e

/-- Since `e₀` the first `m` bytes of the write cache were accepted, and at every point before some of them; all of them
    as soon as the cache is given back. -/
structure SentOnce (n : Nat) (p : Ptr) (e₀ : Event) (m : Nat) (e : Event) : Prop where
  le : m ≤ n
  calls : e₀.trace <:+ e.trace
  sent : e.gathered (Call.sent p) = e₀.gathered (Call.sent p) ++ bytesAt e₀.memory (e₀.source p).writeCache m
  before : ∀ trace, e₀.trace <:+ trace → trace <:+ e.trace → ∃ k ≤ m,
    joined (Call.sent p) trace = e₀.gathered (Call.sent p) ++ bytesAt e₀.memory (e₀.source p).writeCache k
  given : (e.source p).writeCache = NULL ↔ m = n

theorem Sending.before (S : Sending count p others e₀ m e) {trace : List Call} (h₀ : e₀.trace <:+ trace) (h : trace <:+ e.trace) :
    ∃ k ≤ m, joined (Call.sent p) trace = e₀.gathered (Call.sent p) ++ bytesAt e₀.memory (e₀.source p).writeCache k := by
  obtain ⟨calls, rfl⟩ := h₀
  obtain ⟨rest, hrest⟩ := h
  obtain ⟨bytes, hbytes⟩ : ∃ bytes, bytes = joined (Call.sent p) calls := ⟨_, rfl⟩
  have hsent : bytes ++ joined (Call.sent p) rest = Buffer.slice e₀.memory (e₀.source p).writeCache m := by
    have h := S.sent
    rw [gathered, ← hrest, joined_append, joined_append, ← hbytes, List.append_assoc] at h
    exact List.append_cancel_left h
  have hle : bytes.length ≤ m := by
    have h := congrArg List.length hsent
    rw [List.length_append, Buffer.length_slice] at h
    omega
  have htake := Buffer.take_slice (b := e₀.memory) (i := (e₀.source p).writeCache) hle
  rw [← hsent, List.take_left' rfl] at htake
  exact ⟨bytes.length, hle, by rw [joined_append, ← hbytes, bytesAt_eq, ← htake]; rfl⟩

theorem Between.sentOnce (hheld : (e₀.source p).writeCache ≠ NULL) (hm : m ≤ n) (B : Between count p others n e₀ m e) :
    SentOnce n p e₀ m e := by
  obtain ⟨S, hstate⟩ := B
  refine ⟨hm, S.calls, S.sent, fun trace => S.before, ?_⟩
  rcases hstate with ⟨P, -⟩ | ⟨hnull, hall⟩
  · have hless := P.less
    exact ⟨fun h => absurd (P.cache.symm.trans h) hheld, fun h => by omega⟩
  · exact ⟨fun _ => hall, fun _ => hnull⟩

/-- It has been read once, and its write cache holds two bytes. -/
def filledEvent (edge : Bool) : Event :=
  after (dispatchQueue 9 [50472]) ((dripWatched edge fun k => if k = 3 then -1 else 1).report fun _ => EPOLL_IN)

theorem filledEvent_runs (edge : Bool) : Runs False (filledEvent edge) := by
  obtain ⟨r, hcall⟩ := after_ok (m := dispatchQueue 9 [50472])
    (e := (dripWatched edge fun k => if k = 3 then -1 else 1).report fun _ => EPOLL_IN) (by cases edge <;> decide +kernel)
  exact .dispatch (dripWatched_runs edge _) (List.nodup_singleton _)
    (fun p hp => List.mem_singleton.mp hp ▸ dripWatched_live edge _) hcall

theorem filledEvent_live (edge : Bool) : (filledEvent edge).Live 50472 := by
  have hfree : (filledEvent edge).FreeList [50304, 50152, 50000] := by
    have hlast : (filledEvent edge).pool.next 50000 = (filledEvent edge).eventPool := by cases edge <;> decide +kernel
    refine ⟨⟨?_, ?_, ?_, hlast⟩, ?_⟩
    all_goals cases edge <;> decide +kernel
  exact hfree.live (x := 50456) (by cases edge <;> decide +kernel) (by decide)

theorem filledEvent_filled (edge : Bool) : ((filledEvent edge).source 50472).Filled 2 := by
  constructor <;> cases edge <;> decide +kernel

/-- A write cache that was filled in a run is sent once, as long as no call in level mode sends a part of it only; and
    such a call ends. -/
theorem sends_once (R : Runs False e₀) (hlive : e₀.Live p) (F : (e₀.source p).Filled n)
    (hsends : Relation.ReflTransGen (Sends n p (Careful n p)) e₀ e) :
    (∃ m, SentOnce n p e₀ m e) ∧
      (e.Polite n → Careful n p e → ∀ fuel > n, ∃ r e', sourceWrite fuel p (e.armed p) = .ok (r, e')) := by
  obtain ⟨size, count, room, fl, -, I⟩ := R.inv
  obtain ⟨x, hx, -, rfl⟩ := I.stocked.live_iff.mp hlive
  have hp := I.stocked.ne_null hx
  have hn : n ≤ readcacheSize := F.size ▸ F.fits
  obtain ⟨others, hothers⟩ : ∃ others, others = e₀.cachesOf ((sources size room).erase x) := ⟨_, rfl⟩
  have hstart : Between count (x + sizeofPoolElm) others n e₀ 0 e₀ := by
    refine ⟨⟨hothers ▸ I.stocked.tends hx, List.suffix_rfl, rfl, (List.append_nil _).symm⟩, .inl ⟨?_, F.start⟩⟩
    exact ⟨rfl, F.offset, F.writeClose, rfl, F.some, .inr rfl⟩
  have hrun : ∃ m ≤ n, Between count (x + sizeofPoolElm) others n e₀ m e := by
    induction hsends with
    | refl => exact ⟨0, Nat.zero_le n, hstart⟩
    | tail _ hstep ih =>
      obtain ⟨m, hm, B⟩ := ih
      obtain ⟨hpolite, hwhole, fuel, hfuel, r, hcall⟩ := hstep
      obtain ⟨r', e', hcall', hB⟩ := sourceWrite_total hp hn F.cache hfuel hm B hpolite hwhole
      cases hcall.symm.trans hcall'
      exact hB
  obtain ⟨m, hm, B⟩ := hrun
  refine ⟨⟨m, B.sentOnce F.cache hm⟩, fun hpolite hwhole fuel hfuel => ?_⟩
  obtain ⟨r, e', hcall, -⟩ := sourceWrite_total hp hn F.cache hfuel hm B hpolite hwhole
  exact ⟨r, e', hcall⟩

theorem sends_once_two :
    ∃ m, SentOnce 2 50472 (filledEvent true) m (after (sourceWrite 3 50472) ((filledEvent true).armed 50472)) := by
  obtain ⟨r, hcall⟩ := after_ok (m := sourceWrite 3 50472) (e := (filledEvent true).armed 50472) (by decide +kernel)
  have hpolite : (filledEvent true).Polite 2 := by
    unfold Polite Reply.Polite
    decide +kernel
  have hcareful : Careful 2 50472 (filledEvent true) := fun _ => .inl (by decide +kernel)
  exact (sends_once (filledEvent_runs true) (filledEvent_live true) (filledEvent_filled true)
    (.single ⟨hpolite, hcareful, 3, by decide, r, hcall⟩)).1

/-- In level mode the first byte is sent again. -/
theorem sends_twice :
    ¬ ∀ e₀ p n e, Runs False e₀ → e₀.Live p → (e₀.source p).Filled n →
      Relation.ReflTransGen (Sends n p fun _ => True) e₀ e → ∃ m, SentOnce n p e₀ m e := by
  intro h
  obtain ⟨e₁, he₁⟩ : ∃ e₁, e₁ = after (sourceWrite 3 50472) ((filledEvent false).armed 50472) := ⟨_, rfl⟩
  obtain ⟨e₂, he₂⟩ : ∃ e₂, e₂ = after (sourceWrite 3 50472) (e₁.armed 50472) := ⟨_, rfl⟩
  obtain ⟨r₁, hcall₁⟩ := after_ok (m := sourceWrite 3 50472) (e := (filledEvent false).armed 50472) (by decide +kernel)
  obtain ⟨r₂, hcall₂⟩ := after_ok (m := sourceWrite 3 50472) (e := e₁.armed 50472) (by rw [he₁]; decide +kernel)
  have hpolite₀ : (filledEvent false).Polite 2 := by
    unfold Polite Reply.Polite
    decide +kernel
  have hpolite₁ : e₁.Polite 2 := by
    rw [he₁]
    unfold Polite Reply.Polite
    decide +kernel
  have hsends : Relation.ReflTransGen (Sends 2 50472 fun _ => True) (filledEvent false) e₂ :=
    .tail (.single ⟨hpolite₀, trivial, 3, by decide, r₁, he₁ ▸ hcall₁⟩) ⟨hpolite₁, trivial, 3, by decide, r₂, he₂ ▸ hcall₂⟩
  obtain ⟨m, hm⟩ := h _ _ _ _ (filledEvent_runs false) (filledEvent_live false) (filledEvent_filled false) hsends
  have hsent := hm.sent
  have htwice : e₂.gathered (Call.sent 50472) = [0, 0] := by
    rw [he₂, he₁]
    decide +kernel
  have hnone : (filledEvent false).gathered (Call.sent 50472) = [] := by decide +kernel
  have hbytes : bytesAt (filledEvent false).memory ((filledEvent false).source 50472).writeCache 2 = [0, 1] := by decide +kernel
  rw [htwice, hnone, List.nil_append] at hsent
  have hlength := congrArg List.length hsent
  rw [bytesAt_eq, Buffer.length_slice] at hlength
  rw [← hlength] at hsent
  exact absurd (hsent.trans hbytes) (by decide)

end Event

end QPHi
