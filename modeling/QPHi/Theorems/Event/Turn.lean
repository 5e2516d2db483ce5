import QPHi.Theorems.Event.Frame
import QPHi.Theorems.Event.Receive

/-! Acting on what the kernel reports: for which sources a turn of `qp_event_dispatch_queue` reads, writes and removes what
    it is asked to, whatever `read`, `write` and the handlers answer. -/

namespace QPHi
open Command

variable {n count room x : Nat} {fl : List Nat} {p q : Ptr} {fuel : Nat} {e e' : Event}

/-- A call of `read`, or of `write`, for the source `p`. -/
def Call.isRead (p : Ptr) : Call → Bool
  | .read q _ _ _ _ => q = p
  | _ => false

def Call.isWrite (p : Ptr) : Call → Bool
  | .write q _ _ _ _ => q = p
  | _ => false

/-- The kernel reports one of the events in `flags`. -/
def Source.Reports (s : Source) (flags : Nat) : Prop := s.revents &&& flags ≠ 0

/-- The flags of a turn are clear. -/
structure Source.Clear (s : Source) : Prop where
  read : s.read = false
  write : s.write = false
  shutdown : s.shutdown = false

/-- The write cache has bytes to send. -/
def Source.Unsent (s : Source) : Prop := s.writeCache ≠ NULL ∧ s.writeCacheCurOffset < s.writeCacheOffset

/-- A source that is to be read, and has a read cache or is shut down already. -/
structure Source.Blocked (s : Source) : Prop where
  read : s.read = true
  full : s.readCache ≠ NULL ∨ s.shutdown = true

structure Source.Refused (s : Source) : Prop where
  read : s.read = true
  down : s.shutdown = true

/-- All is sent, and the source is to be closed then. -/
structure Source.Parting (s : Source) : Prop where
  cache : s.writeCache ≠ NULL
  writeClose : s.writeClose = true
  sent : subWord s.writeCacheOffset s.writeCacheCurOffset = 0

theorem Event.bit_eq (n : Nat) : Event.bit n = n.testBit 0 := (Nat.testBit_zero n).symm

/-- The masks of the shutdown flag and of the write flag do not have the bit that is kept. -/
theorem Source.marked_flags (s : Source) :
    s.marked.shutdown = s.shutdown ∧ s.marked.read = true ∧ s.marked.write = (s.write || s.revents.testBit 0) := by
  have hbool : ∀ b : Bool, b.toNat.testBit 0 = b := by decide
  have hdown : (EPOLL_RDHUP ||| EPOLL_HUP ||| EPOLL_ERR).testBit 0 = false := by decide
  have hin : EPOLL_IN.testBit 0 = true := by decide
  have hout : EPOLL_OUT.testBit 0 = false := by decide
  simp only [Source.marked, Event.bit_eq, Nat.testBit_or, Nat.testBit_and, hbool, hdown, hin, hout, Bool.and_false,
    Bool.or_false, Bool.or_true, and_self]

theorem Source.reports_in_iff (s : Source) : s.Reports EPOLL_IN ↔ s.revents.testBit 0 = true := by
  rw [Source.Reports, EPOLL_IN, Nat.and_one_is_mod, Nat.testBit_zero, decide_eq_true_eq]
  omega

namespace Event

/-- How many calls of a kind were made so far. -/
def calls (f : Call → Bool) (e : Event) : Nat := e.trace.countP f

/-! ### What a turn keeps -/

theorem frame_silent (p : Ptr) (f : Call → Bool) (n : Nat) : Frame p (fun call => f call = false) fun e => e.calls f = n := by
  refine ⟨fun _ _ _ h => h, fun e call hcall h => ?_, fun e e' htrace _ h => ?_⟩
  · show List.countP f (call :: e.trace) = n
    rw [List.countP_cons_of_neg (by simp [hcall])]
    exact h
  · unfold calls
    rw [htrace]
    exact h

theorem frame_called (p : Ptr) (f : Call → Bool) (n : Nat) : Frame p (fun _ => True) fun e => n < e.calls f := by
  refine ⟨fun _ _ _ h => h, fun e call _ h => ?_, fun e e' htrace _ h => ?_⟩
  · exact Nat.lt_of_lt_of_le h (List.Sublist.countP_le (List.sublist_cons_self call e.trace))
  · unfold calls
    rw [htrace]
    exact h

theorem frame_down (p : Ptr) : Frame p (fun _ => True) fun e => (e.source p).shutdown = true := by
  refine ⟨fun e s hs h => ?_, fun _ _ _ h => h, fun e e' _ hsource h => ?_⟩
  · rw [putSource_source]
    exact hs h
  · rw [hsource]
    exact h

theorem frame_other (hq : q ≠ p) (s : Source) : Frame p (fun _ => True) fun e => e.source q = s := by
  refine ⟨fun e s' _ h => ?_, fun _ _ _ h => h, fun e e' _ hsource h => ?_⟩
  · exact (Function.update_of_ne hq _ _).trans h
  · rw [hsource]
    exact h

/-- The part of a turn behind the read. -/
def finishTurn (p : Ptr) : EventM Unit := do
  when ((← getSource p).writeCache = NULL) (do
    when ((← getSource p).readCache ≠ NULL) (processRead p)
    when ((← getSource p).writeCache ≠ NULL) (processWrite p))
  when (← getSource p).shutdown (do let _ ← removeevent p)

/-- Calls that a turn may make behind the read. -/
structure Quiet (p : Ptr) (own : Call → Prop) : Prop where
  readHandler : ∀ stat data result, own (.readHandler p stat data result)
  writeHandler : ∀ stat size bytes result, own (.writeHandler p stat size bytes result)
  reset : ∀ flag, own (.reset p flag)
  del : own (.del p)
  close : ∀ fd, own (.close fd)

section
variable {own : Call → Prop} {I : Event → Prop}

theorem Frame.finishTurn (F : Frame p own I) (Q : Quiet p own) : Stays I (finishTurn p) := by
  refine (getSource_stays p).bind fun s => (Stays.when ?_).bind fun _ => (getSource_stays p).bind fun s => Stays.when ?_
  · refine (getSource_stays p).bind fun s => (Stays.when (F.processRead Q.readHandler)).bind fun _ => ?_
    exact (getSource_stays p).bind fun s => Stays.when (F.processWrite Q.writeHandler Q.reset)
  · exact (F.removeevent Q.del Q.close).bind fun _ => Stays.pure _

theorem Frame.dispatchSource (F : Frame p own I) (Q : Quiet p own) (hread : ∀ buf k result data, own (.read p buf k result data))
    (hwrite : ∀ buf k result data, own (.write p buf k result data)) (hfuel : 2 ^ 64 ≤ fuel) : Stays I (dispatchSource fuel p) := by
  have hmark : ∀ s : Source, s.shutdown = true → s.marked.shutdown = true := fun s h => s.marked_flags.1.trans h
  refine Stays.bind (F.setSource hmark) fun _ => (getSource_stays p).bind fun s => Stays.when ?_
  refine (Stays.when F.sourceSetShutdown).bind fun _ => (F.sourceWrite hwrite hfuel).bind fun _ => ?_
  exact (F.sourceRead hread Q.reset hfuel).bind fun _ => F.finishTurn Q

end

/-- A turn of a source whose flags are clear. -/
theorem dispatchSource_eq (hclear : (e.source p).Clear) :
    dispatchSource fuel p e = (do let _ ← sourceWrite fuel p; let _ ← sourceRead fuel p; finishTurn p : EventM Unit)
      (e.putSource p (e.source p).marked) := by
  obtain ⟨hdown, hread, -⟩ := (e.source p).marked_flags
  have hgo : ((e.source p).marked.shutdown || (e.source p).marked.read || (e.source p).marked.write) = true := by
    rw [hread]
    simp
  have hskip : ¬(e.source p).marked.shutdown = true := by
    rw [hdown, hclear.shutdown]
    decide
  unfold dispatchSource
  rw [run_bind (setSource_run _)]
  change (getSource p >>= _) (e.putSource p (e.source p).marked) = _
  rw [run_bind getSource_run, putSource_source, run_when hgo, run_bind (run_skip hskip)]
  rfl

/-! ### Sources that do not get to a read -/

/-- What is asked for of a source and of the memory, while the source changes and caches are given back. -/
structure Holds (replies : Nat → Reply) (K : Heap → Prop) (Q : Source → Prop) (p : Ptr) (e : Event) : Prop where
  source : Q (e.source p)
  replies : e.replies = replies
  caches : K e.caches

section
variable {replies : Nat → Reply} {K : Heap → Prop} {Q Q' : Source → Prop}

theorem setSource_holds {f : Source → Source} (hf : ∀ s, Q s → Q' (f s)) :
    Fueled (Holds replies K Q p) (setSource p f) fun _ => Holds replies K Q' p := by
  intro e h
  refine ⟨?_, h.replies, h.caches⟩
  show Q' (Function.update e.source p (f (e.source p)) p)
  rw [Function.update_self]
  exact hf _ h.source

theorem sourceSetShutdown_holds (hp : p ≠ NULL) (hf : ∀ s, Q s → Q' { s with shutdown := true, stat := .close }) :
    Fueled (Holds replies K Q p) (sourceSetShutdown p) fun _ => Holds replies K Q' p :=
  Fueled.when (fun _ => setSource_holds hf) fun hnull => absurd hp hnull

variable (hK : ∀ h h' : Heap, h'.live ⊆ h.live → K h → K h')
include hK

theorem sourceFreeReadCache_holds (hQ : ∀ s, Q s → Q { s with readCacheSize := 0, readCache := NULL }) :
    Stays (Holds replies K Q p) (sourceFreeReadCache p) := by
  refine (getSource_stays p).bind fun s => Stays.ite (Stays.pure _) ?_
  refine (cacheFree_stays (fun e caches hsub h => ⟨h.source, h.replies, hK _ _ hsub h.caches⟩) _).bind fun _ => ?_
  exact Stays.bind (setSource_holds hQ) fun _ => Stays.pure _

theorem sourceFreeWriteCache_holds (hQ : ∀ s, Q s → Q { s with writeCacheSize := 0, writeCache := NULL }) :
    Stays (Holds replies K Q p) (sourceFreeWriteCache p) := by
  refine (getSource_stays p).bind fun s => Stays.ite (Stays.pure _) ?_
  refine (cacheFree_stays (fun e caches hsub h => ⟨h.source, h.replies, hK _ _ hsub h.caches⟩) _).bind fun _ => ?_
  exact Stays.bind (setSource_holds hQ) fun _ => Stays.pure _

end

theorem any_heap (h h' : Heap) (_ : h'.live ⊆ h.live) (_ : (fun _ : Heap => True) h) : (fun _ : Heap => True) h' := trivial

theorem writeRound_blocked {replies : Nat → Reply} (hp : p ≠ NULL) (state : Nat × Int) :
    Stays (Holds replies (fun _ => True) Source.Blocked p) (writeRound p state) := by
  have hcall : ∀ buf k, Stays (Holds replies (fun _ => True) Source.Blocked p) (sysWrite p buf k) :=
    fun _ _ _ h => ⟨h.source, h.replies, h.caches⟩
  refine (getSource_stays p).bind fun s => (hcall _ _).bind fun r => Stays.ite (Stays.ite ?_ ?_) ?_
  · -- The read cache is given back, but the source is shut down before.
    have hdown : Fueled (Holds replies (fun _ => True) Source.Blocked p) (sourceSetShutdown p)
        fun _ => Holds replies (fun _ => True) Source.Refused p := sourceSetShutdown_holds hp fun s h => ⟨h.read, rfl⟩
    refine hdown.bind fun _ => Fueled.bind (sourceFreeReadCache_holds any_heap fun s h => ⟨h.read, h.down⟩) fun _ => ?_
    refine Fueled.bind (setSource_holds fun s h => ?_) fun _ => Fueled.pure fun _ h => h
    exact ⟨h.read, .inr h.down⟩
  · exact Stays.bind (setSource_holds fun s h => ⟨h.read, h.full⟩) fun _ => Stays.pure _
  · refine Stays.ite ?_ (Stays.ite (Stays.pure _) (Stays.pure _))
    exact (sourceFreeWriteCache_holds any_heap fun s h => ⟨h.read, h.full⟩).bind fun _ => Stays.pure _

theorem sourceWrite_blocked {replies : Nat → Reply} (hp : p ≠ NULL) (hfuel : 2 ^ 64 ≤ fuel) :
    Stays (Holds replies (fun _ => True) Source.Blocked p) (sourceWrite fuel p) :=
  sourceWrite_stays (setSource_holds fun _ h => ⟨h.read, h.full⟩) (writeRound_blocked hp) hfuel

/-- There is no room for another read cache. -/
theorem sourceRead_full (hp : p ≠ NULL) (hread : (e.source p).read = true) (hcache : (e.source p).readCache ≠ NULL) :
    sourceRead fuel p e = .ok (sizeError, e.putSource p
      { e.source p with readCacheOffset := 0, read := false, shutdown := true, stat := .close }) := by
  obtain ⟨s, hs⟩ : ∃ s, s = { e.source p with readCacheOffset := 0, read := false } := ⟨_, rfl⟩
  have halloc : sourceAllocReadCache p (e.putSource p s) = .ok (QP_ERROR, e.putSource p s) := by
    unfold sourceAllocReadCache
    rw [run_bind getSource_run, putSource_source, if_pos (.inr (by rw [hs]; exact hcache))]
    rfl
  have hset : (e.putSource p { e.source p with readCacheOffset := 0 }).putSource p s = e.putSource p s := by
    unfold putSource
    simp only [Function.update_idem]
  unfold sourceRead sourceSetShutdown
  rw [if_neg hp, run_bind (setSource_run _), run_bind getSource_run, putSource_source, if_pos hread, run_bind (setSource_run _),
    putSource_source, ← hs, hset, run_bind halloc, if_pos rfl, run_when hp, run_bind (setSource_run _), putSource_source, hs]
  unfold putSource
  simp only [Function.update_idem]
  rfl

theorem sourceRead_blocked {replies : Nat → Reply} (hp : p ≠ NULL) (hfuel : 2 ^ 64 ≤ fuel) :
    Fueled (Holds replies (fun _ => True) Source.Blocked p) (sourceRead fuel p) fun _ e => (e.source p).shutdown = true := by
  rintro e ⟨B, -, -⟩
  by_cases hcache : (e.source p).readCache ≠ NULL
  · rw [sourceRead_full hp B.read hcache]
    show (Function.update e.source p _ p).shutdown = true
    rw [Function.update_self]
  · exact (frame_down p).sourceRead (fun _ _ _ _ => trivial) (fun _ => trivial) hfuel e (B.full.resolve_left hcache)

/-! ### The turn of one source -/

theorem marked_write (hclear : (e.source p).Clear) : (e.source p).marked.write = true ↔ (e.source p).Reports EPOLL_IN := by
  rw [(e.source p).marked_flags.2.2, hclear.write, Bool.false_or, Source.reports_in_iff]

/-- A turn is a write, a read, and what is left. -/
theorem dispatchSource_settles {R R' Q : Event → Prop} (hclear : (e.source p).Clear)
    (hwrite : Settles (fun _ => R) (sourceWrite fuel p (e.putSource p (e.source p).marked)))
    (hread : Fueled R (sourceRead fuel p) fun _ => R') (hend : Fueled R' (finishTurn p) fun _ => Q) :
    Settles (fun _ => Q) (dispatchSource fuel p e) := by
  rw [dispatchSource_eq hclear]
  have hstart : Fueled (fun s => s = e.putSource p (e.source p).marked) (sourceWrite fuel p) fun _ => R := by
    rintro s rfl
    exact hwrite
  exact Fueled.bind hstart (fun _ => hread.bind fun _ => hend) _ rfl

theorem sourceWrite_off (fuel : Nat) (hclear : (e.source p).Clear) (hin : ¬(e.source p).Reports EPOLL_IN) :
    ∃ r, sourceWrite fuel p (e.putSource p (e.source p).marked) = .ok (r, e.putSource p (e.source p).marked) := by
  refine sourceWrite_idle fuel (.inr ?_)
  rw [putSource_source]
  exact Bool.eq_false_iff.mpr ((marked_write hclear).not.mpr hin)

theorem quiet_down : Quiet p fun _ => True := ⟨fun _ _ _ => trivial, fun _ _ _ _ => trivial, fun _ => trivial, trivial, fun _ => trivial⟩

theorem quiet_read : Quiet p fun call => call.isRead q = false := ⟨fun _ _ _ => rfl, fun _ _ _ _ => rfl, fun _ => rfl, rfl, fun _ => rfl⟩

theorem quiet_write : Quiet p fun call => call.isWrite q = false := ⟨fun _ _ _ => rfl, fun _ _ _ _ => rfl, fun _ => rfl, rfl, fun _ => rfl⟩

/-- A source with a read cache is shut down. -/
theorem dispatchSource_full (hp : p ≠ NULL) (hclear : (e.source p).Clear) (hcache : (e.source p).readCache ≠ NULL)
    (hfuel : 2 ^ 64 ≤ fuel) : Settles (fun _ s => (s.source p).shutdown = true) (dispatchSource fuel p e) := by
  refine dispatchSource_settles hclear (sourceWrite_blocked hp hfuel _ ⟨?_, rfl, trivial⟩) (sourceRead_blocked hp hfuel)
    ((frame_down p).finishTurn quiet_down)
  rw [putSource_source]
  exact ⟨(e.source p).marked_flags.2.1, .inl hcache⟩

/-- Such a source is not read, unless a write has given its cache back. -/
theorem dispatchSource_unread (hp : p ≠ NULL) (hclear : (e.source p).Clear) (hcache : (e.source p).readCache ≠ NULL)
    (hin : ¬(e.source p).Reports EPOLL_IN) :
    Settles (fun _ s => s.calls (Call.isRead p) = e.calls (Call.isRead p)) (dispatchSource fuel p e) := by
  obtain ⟨r, hoff⟩ := sourceWrite_off fuel hclear hin
  refine dispatchSource_settles (R := fun s => s = e.putSource p (e.source p).marked) hclear ?_ ?_
    ((frame_silent p (Call.isRead p) _).finishTurn quiet_read)
  · rw [hoff]
    rfl
  · rintro s rfl
    rw [sourceRead_full hp]
    · rfl
    · rw [putSource_source]
      exact (e.source p).marked_flags.2.1
    · rw [putSource_source]
      exact hcache

theorem dispatchSource_unsent (hclear : (e.source p).Clear) (hin : ¬(e.source p).Reports EPOLL_IN) (hfuel : 2 ^ 64 ≤ fuel) :
    Settles (fun _ s => s.calls (Call.isWrite p) = e.calls (Call.isWrite p)) (dispatchSource fuel p e) := by
  obtain ⟨r, hoff⟩ := sourceWrite_off fuel hclear hin
  have F := frame_silent p (Call.isWrite p) (e.calls (Call.isWrite p))
  refine dispatchSource_settles hclear ?_ (F.sourceRead (fun _ _ _ _ => rfl) (fun _ => rfl) hfuel) (F.finishTurn quiet_write)
  rw [hoff]
  rfl

/-- A round that makes a call of the kind has made more of them at its end, whether or not it goes on. -/
theorem round_called {α β γ : Type} {f : Call → Bool} {m : Nat} {call : EventM γ} {rest : γ → EventM (Next α β)}
    (hcall : Fueled (fun e => m ≤ e.calls f) call fun _ e => ∃ c trace, f c = true ∧ m ≤ trace.countP f ∧ e.trace = c :: trace)
    (hrest : ∀ r, Stays (fun e => m < e.calls f) (rest r)) :
    Fueled (fun e => m ≤ e.calls f) (call >>= rest) (Next.Either (fun _ e => m ≤ e.calls f) fun _ e => m < e.calls f) := by
  have hmore : Fueled (fun e => m ≤ e.calls f) call fun _ e => m < e.calls f := by
    refine hcall.conseq (fun _ h => h) fun _ e h => ?_
    obtain ⟨c, trace, hc, hm, htrace⟩ := h
    rw [calls, htrace, List.countP_cons_of_pos hc]
    exact Nat.lt_succ_of_le hm
  refine hmore.bind fun r => (hrest r).conseq (fun _ h => h) fun x e h => ?_
  cases x with
  | again _ => exact Nat.le_of_lt h
  | done _ => exact h

theorem writeRound_calls (m : Nat) (state : Nat × Int) : Fueled (fun e => m ≤ e.calls (Call.isWrite p)) (writeRound p state)
    (Next.Either (fun _ e => m ≤ e.calls (Call.isWrite p)) fun _ e => m < e.calls (Call.isWrite p)) := by
  rw [writeRound_eq]
  refine Fueled.bind (getSource_stays p) fun s => round_called (fun e h => ⟨_, _, ?_, h, rfl⟩) fun r => ?_
  · simp [Call.isWrite]
  · exact (frame_called p (Call.isWrite p) m).writeAnswer state s r

theorem dispatchSource_writes (hp : p ≠ NULL) (hclear : (e.source p).Clear) (hin : (e.source p).Reports EPOLL_IN)
    (hcache : (e.source p).writeCache ≠ NULL) (hfuel : 2 ^ 64 ≤ fuel) :
    Settles (fun _ s => e.calls (Call.isWrite p) < s.calls (Call.isWrite p)) (dispatchSource fuel p e) := by
  have F := frame_called p (Call.isWrite p) (e.calls (Call.isWrite p))
  refine dispatchSource_settles hclear ?_ (F.sourceRead (fun _ _ _ _ => trivial) (fun _ => trivial) hfuel)
    (F.finishTurn quiet_down)
  refine sourceWrite_goes hp ?_ ?_ (Nat.le_refl _) (writeRound_calls _) hfuel
  all_goals rw [putSource_source]
  · exact hcache
  · exact (marked_write hclear).mpr hin

theorem writeRound_parts (hp : p ≠ NULL) (state : Nat × Int) :
    Fueled (fun e => state.2 = 0 ∧ (e.source p).writeClose = true) (writeRound p state)
      (Next.Either (fun state' e => state'.2 = 0 ∧ (e.source p).writeClose = true) fun _ e => (e.source p).shutdown = true) := by
  rw [writeRound_eq]
  have hknow : Fueled (fun e => state.2 = 0 ∧ (e.source p).writeClose = true) (getSource p)
      fun s _ => state.2 = 0 ∧ s.writeClose = true := fun _ h => h
  refine hknow.bind fun s => ?_
  have hcall : Fueled (fun _ => state.2 = 0 ∧ s.writeClose = true) (sysWrite p (s.writeCache + state.1) (unsigned state.2))
      fun r _ => r.1 < 1 ∧ s.writeClose = true := by
    rintro e ⟨hzero, hclose⟩
    rw [hzero]
    exact ⟨Int.lt_of_le_of_lt (Int.le_trans (Int.min_le_left _ _) (Int.min_le_right _ _)) (by decide), hclose⟩
  refine hcall.bind fun r => ?_
  rintro e ⟨hnone, hclose⟩
  unfold writeAnswer
  rw [if_pos hnone, if_pos (.inr (.inr hclose))]
  have F := frame_down p
  have hset : Fueled (Holds e.replies (fun _ => True) (fun _ => True) p) (sourceSetShutdown p)
      fun _ => Holds e.replies (fun _ => True) (fun s => s.shutdown = true) p := sourceSetShutdown_holds hp fun _ _ => rfl
  have hdown := hset.conseq (fun _ h => h) fun _ _ h => h.source
  refine Fueled.bind hdown (fun _ => Fueled.bind F.sourceFreeReadCache fun _ => ?_) e ⟨trivial, rfl, trivial⟩
  exact Fueled.bind (F.setSource fun _ h => h) fun _ => Fueled.pure fun _ h => h

theorem dispatchSource_parts (hp : p ≠ NULL) (hclear : (e.source p).Clear) (hin : (e.source p).Reports EPOLL_IN)
    (hparting : (e.source p).Parting) (hfuel : 2 ^ 64 ≤ fuel) :
    Settles (fun _ s => (s.source p).shutdown = true) (dispatchSource fuel p e) := by
  have F := frame_down p
  refine dispatchSource_settles hclear ?_ (F.sourceRead (fun _ _ _ _ => trivial) (fun _ => trivial) hfuel)
    (F.finishTurn quiet_down)
  refine sourceWrite_goes hp ?_ ?_ ?_ (writeRound_parts hp) hfuel
  all_goals rw [putSource_source]
  · exact hparting.cache
  · exact (marked_write hclear).mpr hin
  · refine ⟨?_, ?_⟩
    · show signed (subWord (e.source p).writeCacheOffset (e.source p).writeCacheCurOffset) = 0
      rw [hparting.sent]
      rfl
    · rw [putSource_source]
      exact hparting.writeClose

/-! ### The queue around a turn -/

/-- The source `p` is as it was, and no call was made for it. -/
structure Untouched (p : Ptr) (s : Source) (reads writes : Nat) (e : Event) : Prop where
  source : e.source p = s
  reads : e.calls (Call.isRead p) = reads
  writes : e.calls (Call.isWrite p) = writes

theorem frame_untouched (hq : p ≠ q) (s : Source) (i j : Nat) :
    Frame q (fun call => call.isRead p = false ∧ call.isWrite p = false) (Untouched p s i j) where
  source e s' hs h := ⟨(frame_other hq s).source e s' hs h.source, h.reads, h.writes⟩
  call e call hcall h := ⟨h.source, (frame_silent q (Call.isRead p) i).call e call hcall.1 h.reads,
    (frame_silent q (Call.isWrite p) j).call e call hcall.2 h.writes⟩
  rest e e' ht hs h := ⟨(frame_other hq s).rest e e' ht hs h.source, (frame_silent q (Call.isRead p) i).rest e e' ht hs h.reads,
    (frame_silent q (Call.isWrite p) j).rest e e' ht hs h.writes⟩

theorem dispatchQueue_untouched {ready : List Ptr} (hp : p ∉ ready) (s : Source) (i j : Nat) (hfuel : 2 ^ 64 ≤ fuel) :
    Stays (Untouched p s i j) (dispatchQueue fuel ready) := by
  induction ready with
  | nil => exact Stays.pure _
  | cons q ready ih =>
    obtain ⟨hq, hp⟩ := not_or.mp (List.mem_cons.not.mp hp)
    have hcall : (decide (q = p)) = false := decide_eq_false (Ne.symm hq)
    have hquiet : Quiet q fun call => call.isRead p = false ∧ call.isWrite p = false :=
      ⟨fun _ _ _ => ⟨rfl, rfl⟩, fun _ _ _ _ => ⟨rfl, rfl⟩, fun _ => ⟨rfl, rfl⟩, ⟨rfl, rfl⟩, fun _ => ⟨rfl, rfl⟩⟩
    refine Stays.bind ?_ fun _ => ih hp
    exact (frame_untouched hq s i j).dispatchSource hquiet (fun _ _ _ _ => ⟨hcall, rfl⟩) (fun _ _ _ _ => ⟨rfl, hcall⟩) hfuel

theorem dispatchQueue_append (ready ready' : List Ptr) :
    dispatchQueue fuel (ready ++ ready') = (do dispatchQueue fuel ready; dispatchQueue fuel ready') := by
  induction ready with
  | nil => rfl
  | cons q ready ih =>
    show (do dispatchSource fuel q; dispatchQueue fuel (ready ++ ready')) = _
    rw [ih]
    exact (bind_assoc _ _ _).symm

variable {owned : Prop} {ready : List Ptr}

/-- A queue that `p` is not in. -/
theorem dispatchQueue_others (hfits : Fits count) (I : EventInv owned n count room fl e) (hnd : ready.Nodup)
    (hlive : ∀ q ∈ ready, InUse n room fl q) (hp : p ∉ ready) (hfuel : 2 ^ 64 ≤ fuel) :
    ∃ e', dispatchQueue fuel ready e = .ok ((), e') ∧
      (∃ fl', fl ⊆ fl' ∧ (∀ y ∈ fl', y ∈ fl ∨ y + sizeofPoolElm ∈ ready) ∧ EventInv owned n count room fl' e') ∧
      Untouched p (e.source p) (e.calls (Call.isRead p)) (e.calls (Call.isWrite p)) e' := by
  have hsafe : Triple (fun s => s = e) (dispatchQueue fuel ready) fun _ s =>
      ∃ fl', fl ⊆ fl' ∧ (∀ y ∈ fl', y ∈ fl ∨ y + sizeofPoolElm ∈ ready) ∧ EventInv owned n count room fl' s := by
    refine (dispatchQueue_ends hfits fuel fl ready hnd hlive).conseq (fun s h => ?_) fun _ _ h => h
    exact ⟨fl, List.Subset.refl fl, List.Subset.refl fl, h ▸ I⟩
  have hsame : Fueled (fun s => s = e) (dispatchQueue fuel ready)
      fun _ => Untouched p (e.source p) (e.calls (Call.isRead p)) (e.calls (Call.isWrite p)) := by
    refine (dispatchQueue_untouched hp _ _ _ hfuel).conseq (fun s h => ?_) fun _ _ h => h
    rw [h]
    exact ⟨rfl, rfl, rfl⟩
  obtain ⟨_, e', hrun, hends, hsame⟩ := Fueled.total hsafe hsame e rfl
  exact ⟨e', hrun, hends, hsame⟩

theorem EventInv.not_live (I : EventInv owned n count room fl e) (hx : x ∈ fl) : ¬e.Live (x + sizeofPoolElm) := by
  intro hlive
  obtain ⟨y, -, hy, heq⟩ := I.stocked.live_iff.mp hlive
  exact hy (Nat.add_right_cancel heq ▸ hx)

/-- The turn of one source, and what the turns of the others leave of it. -/
theorem dispatchQueue_turn (hfits : Fits count) (I : EventInv owned n count room fl e) (hnd : ready.Nodup)
    (hlive : ∀ q ∈ ready, InUse n room fl q) (hp : p ∈ ready) (hfuel : 2 ^ 64 ≤ fuel) :
    ∃ e₁ e₂ e', dispatchQueue fuel ready e = .ok ((), e') ∧ dispatchSource fuel p e₁ = .ok ((), e₂) ∧
      Untouched p (e.source p) (e.calls (Call.isRead p)) (e.calls (Call.isWrite p)) e₁ ∧
      Untouched p (e₂.source p) (e₂.calls (Call.isRead p)) (e₂.calls (Call.isWrite p)) e' ∧
      ((e₂.source p).shutdown = true → ¬e'.Live p) := by
  obtain ⟨front, back, rfl⟩ := List.append_of_mem hp
  obtain ⟨x, hx, hfl, rfl⟩ := hlive p hp
  obtain ⟨hfront, hnd, hapart⟩ := List.nodup_append.mp hnd
  obtain ⟨hpback, hback⟩ := List.nodup_cons.mp hnd
  have hpfront : x + sizeofPoolElm ∉ front := fun h => hapart _ h _ List.mem_cons_self rfl
  obtain ⟨e₁, hrun₁, ⟨fl₁, -, hfrom, I₁⟩, U₁⟩ :=
    dispatchQueue_others hfits I hfront (fun q hq => hlive q (List.mem_append_left _ hq)) hpfront hfuel
  have hfl₁ : x ∉ fl₁ := fun h => (hfrom x h).elim hfl hpfront
  have hends := Fueled.total (dispatchSource_spec hfits I₁ hx hfl₁ fuel) <|
    ((Frame.any (x + sizeofPoolElm)).dispatchSource quiet_down (fun _ _ _ _ => trivial) (fun _ _ _ _ => trivial) hfuel).conseq
      (fun _ _ => trivial) fun _ _ h => h
  obtain ⟨_, e₂, hrun₂, T, -⟩ := hends e₁ rfl
  obtain ⟨fl₂, I₂, hsub, hgone⟩ : ∃ fl₂, EventInv owned n count room fl₂ e₂ ∧ (∀ y ∈ fl₂, y = x ∨ y ∈ fl₁) ∧
      ((e₂.at x).shutdown = true → x ∈ fl₂) := by
    rcases T with ⟨I₂, -⟩ | ⟨I₂, hup⟩
    · exact ⟨x :: fl₁, I₂, fun y => List.mem_cons.mp, fun _ => List.mem_cons_self⟩
    · exact ⟨fl₁, I₂, fun y => .inr, fun hdown => absurd (hup.symm.trans hdown) (by decide)⟩
  have hlive₂ : ∀ q ∈ back, InUse n room fl₂ q := by
    intro q hq
    obtain ⟨y, hy, hyfl, rfl⟩ := hlive q (List.mem_append_right _ (List.mem_cons_of_mem _ hq))
    refine ⟨y, hy, fun hmem => ?_, rfl⟩
    rcases hsub y hmem with rfl | hmem
    · exact hpback hq
    · exact (hfrom y hmem).elim hyfl fun h => hapart _ h _ (List.mem_cons_of_mem _ hq) rfl
  obtain ⟨e', hrun', ⟨fl', hfl', -, I'⟩, U'⟩ := dispatchQueue_others hfits I₂ hback hlive₂ hpback hfuel
  refine ⟨e₁, e₂, e', ?_, hrun₂, U₁, U', fun hdown => I'.not_live (hfl' (hgone hdown))⟩
  rw [dispatchQueue_append, run_bind hrun₁]
  show (do dispatchSource fuel (x + sizeofPoolElm); dispatchQueue fuel back : EventM Unit) e₁ = _
  rw [run_bind hrun₂, hrun']

end Event

end QPHi
