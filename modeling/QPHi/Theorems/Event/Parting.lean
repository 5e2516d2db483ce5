import QPHi.Theorems.Event.Send

/-! A source that is to be closed behind its last byte: in which runs of `qp_event_source_write` it is shut down by the call
    that sends this byte, and by no call before. -/

namespace QPHi
open Command

variable {n count k : Nat} {p b : Ptr} {others : List Nat} {e e' e₀ : Event} {first : Reply}

/-- A call of `write` for the source `p` that sends the byte before the address `b`. -/
def Call.endsAt (p b : Ptr) : Call → Prop
  | .write q buf _ result _ => q = p ∧ 0 < result ∧ buf + result.toNat = b
  | _ => False

/-- A write cache with `n` bytes in it that were not sent yet, in a source that is to be closed behind them. -/
structure Source.Closing (n : Nat) (s : Source) : Prop where
  cache : s.writeCache ≠ NULL
  size : s.writeCacheSize = readcacheSize
  start : s.writeCacheCurOffset = 0
  offset : s.writeCacheOffset = n
  some : 1 ≤ n
  fits : n ≤ s.writeCacheSize
  writeClose : s.writeClose = true
  up : s.shutdown = false

namespace Event

/-- Since `e₀` the byte before the address `b` was sent. -/
def SentLast (p b : Ptr) (e₀ e : Event) : Prop := ∃ calls, e.trace = calls ++ e₀.trace ∧ ∃ call ∈ calls, call.endsAt p b

/-- Since `e₀` the source `p` was shut down if and only if the last of the `n` bytes of its write cache was sent. -/
def ClosesOnTime (n : Nat) (p : Ptr) (e₀ e : Event) : Prop :=
  (e.source p).shutdown = true ↔ SentLast p ((e₀.source p).writeCache + n) e₀ e

/-- A call in level mode that gets a part of the `n` bytes through. -/
def Drips (n : Nat) (p : Ptr) (e : Event) : Prop :=
  (e.source p).edge = false ∧ 0 < (e.replies e.clock).count ∧ (e.replies e.clock).count < n

theorem sentLast_refl (e : Event) : ¬SentLast p b e e := by
  rintro ⟨calls, htrace, call, hcall, -⟩
  have hnil : calls = [] := List.self_eq_append_left.mp htrace
  rw [hnil] at hcall
  cases hcall

theorem sentLast_cons {call : Call} (hcalls : e₀.trace <:+ e.trace) (htrace : e'.trace = call :: e.trace) :
    SentLast p b e₀ e' ↔ call.endsAt p b ∨ SentLast p b e₀ e := by
  obtain ⟨calls, hcalls⟩ := hcalls
  have hsame : ∀ calls', e'.trace = calls' ++ e₀.trace ↔ calls' = call :: calls := by
    intro calls'
    rw [htrace, ← hcalls, ← List.cons_append]
    exact ⟨fun h => (List.append_cancel_right h).symm, fun h => h ▸ rfl⟩
  constructor
  · rintro ⟨calls', htrace', call', hmem, hends⟩
    rw [(hsame calls').mp htrace'] at hmem
    rcases List.mem_cons.mp hmem with rfl | hmem
    · exact .inl hends
    · exact .inr ⟨calls, hcalls.symm, call', hmem, hends⟩
  · rintro (hends | ⟨calls', htrace', call', hmem, hends⟩)
    · exact ⟨call :: calls, (hsame _).mpr rfl, call, List.mem_cons_self, hends⟩
    · refine ⟨call :: calls, (hsame _).mpr rfl, call', List.mem_cons_of_mem call ?_, hends⟩
      rw [← hcalls] at htrace'
      exact List.append_cancel_right htrace' ▸ hmem

/-- Since `e₀` the source has not been shut down, and its last byte has not been sent. -/
structure Unclosed (count : Nat) (p : Ptr) (others : List Nat) (n : Nat) (e₀ e : Event) : Prop where
  tends : Tends count p others e₀ e
  calls : e₀.trace <:+ e.trace
  unsent : ¬SentLast p ((e₀.source p).writeCache + n) e₀ e
  cache : (e.source p).writeCache = (e₀.source p).writeCache
  offset : (e.source p).writeCacheOffset = n
  start : (e.source p).writeCacheCurOffset = 0
  writeClose : (e.source p).writeClose = true
  up : (e.source p).shutdown = false
  edge : (e.source p).edge = (e₀.source p).edge

theorem Unclosed.closesOnTime (U : Unclosed count p others n e₀ e) : ClosesOnTime n p e₀ e := by
  refine iff_of_false ?_ U.unsent
  rw [U.up]
  decide

theorem Unclosed.setWrite (U : Unclosed count p others n e₀ e) (write : Bool) :
    Unclosed count p others n e₀ (e.putSource p { e.source p with write := write }) := by
  refine ⟨setSource_keeps (f := fun s => { s with write := write }) (fun _ => ⟨rfl, rfl, rfl, rfl⟩) e U.tends, U.calls, ?_, ?_,
    ?_, ?_, ?_, ?_, ?_⟩
  · exact U.unsent
  all_goals rw [putSource_source]
  · exact U.cache
  · exact U.offset
  · exact U.start
  · exact U.writeClose
  · exact U.up
  · exact U.edge

/-- `write` has answered before the last byte. -/
theorem Unclosed.wrote (U : Unclosed count p others n e₀ e) {pos : Nat} {result : Int} (hless : pos + result.toNat < n ∨ result ≤ 0) :
    Unclosed count p others n e₀ (e.wrote p pos k result) := by
  refine ⟨record_keeps _ _ (reply_keeps _ U.tends), U.calls.trans (List.suffix_cons _ _), ?_, U.cache, U.offset, U.start,
    U.writeClose, U.up, U.edge⟩
  rw [sentLast_cons U.calls rfl]
  rintro (⟨-, hsome, hend⟩ | hsent)
  · rw [U.cache] at hend
    omega
  · exact U.unsent hsent

/-- Before a round of a call whose first answer is `first`: `state.1` bytes are sent and `state.2` are to be sent. -/
structure CloseRound (count : Nat) (p : Ptr) (others : List Nat) (n : Nat) (e₀ : Event) (first : Reply) (k : Nat)
    (state : Nat × Int) (e : Event) : Prop where
  unclosed : Unclosed count p others n e₀ e
  less : state.1 < n
  rest : state.2 = (n - state.1 : Nat)
  rounds : k = n - state.1
  polite : e.Polite k
  level : (e₀.source p).edge = true ∨ (state.1 = 0 ∧ e.replies e.clock = first)

/-- What a call leaves: in level mode a part was sent, or it has gone wrong. -/
def ClosedOr (count : Nat) (p : Ptr) (others : List Nat) (n : Nat) (e₀ : Event) (first : Reply) (e : Event) : Prop :=
  (((e₀.source p).edge = false ∧ 0 < first.count ∧ first.count < n) ∧ Unclosed count p others n e₀ e) ∨
    (¬((e₀.source p).edge = false ∧ 0 < first.count ∧ first.count < n) ∧ ¬ClosesOnTime n p e₀ e)

/-- A `write` that is to be tried again shuts the source down. -/
theorem writeRound_closes (hp : p ≠ NULL) (H : Tends count p others e₀ e) (hk : k ≤ readcacheSize)
    (hclose : (e.source p).writeClose = true) (hneg : (e.replies e.clock).count < 0) (pos : Nat) :
    ∃ e' result, writeRound p (pos, k) e = .ok (.done none, e') ∧ (e'.source p).shutdown = true ∧ result < 0 ∧
      e'.trace = (e.wrote p pos k result).trace := by
  have hword : readcacheSize < 2 ^ 63 := by decide
  obtain ⟨reply, hreply⟩ : ∃ reply, reply = e.replies e.clock := ⟨_, rfl⟩
  have hcall : sysWrite p ((e.source p).writeCache + pos) k e =
      .ok ((min reply.count k, reply.retry), e.wrote p pos k (min reply.count k)) := hreply ▸ sysWrite_run _ _ hk
  rw [← hreply] at hneg
  have hnone : min reply.count (k : Int) < 1 := by omega
  have H' : Tends count p others e₀ (e.wrote p pos k (min reply.count k)) := record_keeps _ _ (reply_keeps _ H)
  obtain ⟨e₁, he₁⟩ : ∃ e₁, e₁ = (e.wrote p pos k (min reply.count k)).putSource p
      { e.source p with shutdown := true, stat := .close } := ⟨_, rfl⟩
  have hshut : sourceSetShutdown p (e.wrote p pos k (min reply.count k)) = .ok ((), e₁) := by
    rw [sourceSetShutdown, run_when hp, he₁]
    rfl
  obtain ⟨caches, r, hfree⟩ := sourceFreeReadCache_run hp ((sourceSetShutdown_keeps _ H').of_ok hshut)
  obtain ⟨e₂, he₂⟩ : ∃ e₂, e₂ = { e₁ with caches := caches }.putSource p (e₁.source p).dropRead := ⟨_, rfl⟩
  rw [← he₂] at hfree
  have hrun : writeRound p (pos, k) e =
      .ok (.done none, e₂.putSource p { e₂.source p with writeClose := false, write := false }) := by
    unfold writeRound
    simp only [run_bind getSource_run, unsigned_natCast (by omega : k < 2 ^ 64), run_bind hcall, if_pos hnone,
      if_pos (Or.inr (Or.inr hclose)), run_bind hshut, run_bind hfree]
    rfl
  refine ⟨_, min reply.count k, hrun, ?_, by omega, ?_⟩
  · rw [putSource_source, he₂, putSource_source]
    show (e₁.source p).dropRead.shutdown = true
    rw [Source.dropRead_shutdown, he₁, putSource_source]
  · rw [he₂, he₁]
    rfl

/-- A round that goes on has sent some more of the write cache of an edge-triggered source; one that leaves has sent a part of it
    in level mode, or it has gone wrong. -/
theorem writeRound_closing (hp : p ≠ NULL) (hn : n ≤ readcacheSize) (k : Nat) (state : Nat × Int) :
    Total (CloseRound count p others n e₀ first k state) (writeRound p state) fun x e =>
      match x with
      | .again state' => ∃ k' < k, CloseRound count p others n e₀ first k' state' e
      | .done _ => ClosedOr count p others n e₀ first e := by
  obtain ⟨pos, rest⟩ := state
  rintro e ⟨U, hless, hrest, hk, hpolite, hlevel⟩
  simp only at hrest hk hless hlevel
  subst hrest hk
  have hoffset : (e.source p).writeCacheOffset = pos + (n - pos) := by
    rw [U.offset]
    omega
  rcases hpolite 0 (by omega) with hpos | ⟨hneg, -⟩
  · obtain ⟨c, hc, hsome, hout⟩ := writeRound_accepts hp U.tends (by omega) (by omega) hoffset hpos
    rw [Nat.add_zero] at hpos
    rcases hout with ⟨hall, caches, hrun⟩ | ⟨hshort, hedge, hrun⟩ | ⟨hshort, hedge, hrun⟩
    · refine ⟨_, _, hrun, .inr ⟨?_, fun honce => ?_⟩⟩
      · rintro ⟨hedge, -, hfew⟩
        obtain ⟨hzero, hfirst⟩ := hlevel.resolve_left (by rw [hedge]; decide)
        rw [hfirst] at hc
        omega
      · have hsent : SentLast p ((e₀.source p).writeCache + n) e₀ (e.wrote p pos (n - pos) c) := by
          refine (sentLast_cons U.calls rfl).mpr (.inl ?_)
          show p = p ∧ (0 : Int) < c ∧ (e.source p).writeCache + pos + (c : Int).toNat = (e₀.source p).writeCache + n
          rw [U.cache, Int.toNat_natCast]
          refine ⟨rfl, by omega, ?_⟩
          rw [Nat.add_assoc, hall, Nat.add_sub_cancel' (Nat.le_of_lt hless)]
        have hdown := honce.mpr hsent
        rw [putSource_source, Source.dropWrite_shutdown, U.up] at hdown
        cases hdown
    · refine ⟨_, _, hrun, n - (pos + c), by omega, U.wrote (.inl ?_), ?_, ?_, rfl, hpolite.next (by omega) rfl rfl,
        .inl (U.edge ▸ hedge)⟩
      · omega
      · show pos + c < n
        omega
      · show ((n - pos - c : Nat) : Int) = (n - (pos + c) : Nat)
        omega
    · have hedge : (e₀.source p).edge = false := U.edge ▸ hedge
      obtain ⟨hzero, hfirst⟩ := hlevel.resolve_left (by rw [hedge]; decide)
      rw [hfirst] at hc hpos
      exact ⟨_, _, hrun, .inl ⟨⟨hedge, hpos, by omega⟩, U.wrote (.inl (by omega))⟩⟩
  · obtain ⟨e', result, hrun, hdown, hresult, htrace⟩ :=
      writeRound_closes hp U.tends (by omega : n - pos ≤ readcacheSize) U.writeClose hneg pos
    refine ⟨_, _, hrun, .inr ⟨?_, fun honce => ?_⟩⟩
    · rintro ⟨hedge, hpos, -⟩
      obtain ⟨-, hfirst⟩ := hlevel.resolve_left (by rw [hedge]; decide)
      rw [Nat.add_zero, hfirst] at hneg
      omega
    · rcases (sentLast_cons U.calls htrace).mp (honce.mp hdown) with ⟨-, hsome, -⟩ | hsent
      · omega
      · exact U.unsent hsent

/-- A call of `qp_event_source_write` for such a source ends. -/
theorem sourceWrite_closing (hp : p ≠ NULL) (hn : n ≤ readcacheSize) (hsome : 1 ≤ n) (hheld : (e₀.source p).writeCache ≠ NULL)
    {fuel : Nat} (hfuel : n < fuel) (U : Unclosed count p others n e₀ e) (hpolite : e.Polite n) :
    ∃ r e', sourceWrite fuel p (e.armed p) = .ok (r, e') ∧ ClosedOr count p others n e₀ (e.replies e.clock) e' := by
  have hword : readcacheSize < 2 ^ 63 := by decide
  have U₁ : Unclosed count p others n e₀ (e.armed p) := U.setWrite true
  have hwrite : ((e.armed p).source p).write = true := by rw [armed, putSource_source]
  have hcache : ((e.armed p).source p).writeCache ≠ NULL := U₁.cache ▸ hheld
  have hrest : signed (subWord n 0) = (n - 0 : Nat) := by
    rw [subWord_of_le (by omega) (by omega), signed, if_pos (by omega)]
  unfold sourceWrite
  rw [run_bind getSource_run, if_neg (not_or.mpr ⟨hp, hcache⟩), if_pos hwrite, U₁.offset, U₁.start, hrest,
    run_bind (setSource_run _)]
  have hstart : CloseRound count p others n e₀ (e.replies e.clock) (n - 0) (0, ((n - 0 : Nat) : Int))
      ((e.armed p).putSource p { (e.armed p).source p with write := false }) :=
    ⟨U₁.setWrite false, hsome, rfl, rfl, hpolite, .inr ⟨rfl, rfl⟩⟩
  obtain ⟨sent, e', hloop, hend⟩ := Total.loop (Q := fun _ => ClosedOr count p others n e₀ (e.replies e.clock))
    (fun k state => (writeRound_closing hp hn k state).conseq (fun _ h => h) fun x _ h => by cases x <;> exact h)
    (by omega : n - 0 < fuel) _ _ hstart
  exact ⟨_, e', run_bind hloop, hend⟩

/-! ### Runs of calls -/

/-- An event whose write handler fills in two bytes and asks for the source to be closed behind them; `write` answers with
    `sent`. -/
def partingBare (sent : Int) : Event :=
  { bareEvent with replies := fun k => ⟨7, if k = 6 then sent else 1, true, if k = 5 then 0 else 1, 2, UInt8.ofNat,
    20000 + 200 * k, 100000 + 10000 * k⟩ }

def partingEvent (sent : Int) : Event := (eventInit 1000 50000 2 true false (partingBare sent)).getD (partingBare sent)

/-- The descriptor 5 has been added. -/
def partingWatched (sent : Int) : Event := after (addevent 5 0 false false) (partingEvent sent)

/-- It has been read once, and its write cache holds two bytes. -/
def partingFilled (sent : Int) : Event :=
  after (dispatchQueue 9 [50472]) ((partingWatched sent).report fun _ => EPOLL_IN)

theorem partingWatched_runs (sent : Int) : Runs False (partingWatched sent) := by
  have hmade : eventInit 1000 50000 2 true false (partingBare sent) = some (partingEvent sent) := rfl
  have hcall : addevent 5 0 false false (partingEvent sent) = .ok (QP_SUCCESS, partingWatched sent) := rfl
  exact .addevent (bareEvent_made hmade (by decide) rfl rfl rfl) False.elim hcall

theorem partingWatched_live (sent : Int) : (partingWatched sent).Live 50472 := by
  have hfree : (partingWatched sent).FreeList [50304, 50152, 50000] :=
    ⟨⟨rfl, rfl, rfl, rfl⟩, show 1072 ∉ [50304, 50152, 50000] by decide⟩
  exact hfree.live (x := 50456) (show 50456 ∈ elements sizeofSource 4 50000 by decide) (by decide)

theorem partingFilled_runs (sent : Int) (hsent : sent = 1 ∨ sent = 2) : Runs False (partingFilled sent) := by
  obtain ⟨r, hcall⟩ := after_ok (m := dispatchQueue 9 [50472]) (e := (partingWatched sent).report fun _ => EPOLL_IN)
    (by rcases hsent with rfl | rfl <;> decide +kernel)
  exact .dispatch (partingWatched_runs sent) (List.nodup_singleton _)
    (fun p hp => List.mem_singleton.mp hp ▸ partingWatched_live sent) hcall

theorem partingFilled_live (sent : Int) (hsent : sent = 1 ∨ sent = 2) : (partingFilled sent).Live 50472 := by
  have hfree : (partingFilled sent).FreeList [50304, 50152, 50000] := by
    have hlast : (partingFilled sent).pool.next 50000 = (partingFilled sent).eventPool := by
      rcases hsent with rfl | rfl <;> decide +kernel
    refine ⟨⟨?_, ?_, ?_, hlast⟩, ?_⟩
    all_goals rcases hsent with rfl | rfl <;> decide +kernel
  exact hfree.live (x := 50456) (by rcases hsent with rfl | rfl <;> decide +kernel) (by decide)

theorem partingFilled_closing (sent : Int) (hsent : sent = 1 ∨ sent = 2) : ((partingFilled sent).source 50472).Closing 2 := by
  constructor <;> rcases hsent with rfl | rfl <;> decide +kernel

/-- A source that is to be closed behind its last byte is shut down on time as long as every call gets a part of the bytes
    through in level mode; a call that does anything else is the first after which it is not; and every call ends. -/
theorem closes_on_time_iff (R : Runs False e₀) (hlive : e₀.Live p) (C : (e₀.source p).Closing n)
    (hsends : Relation.ReflTransGen (Sends n p (Drips n p)) e₀ e) :
    ClosesOnTime n p e₀ e ∧ (∀ e', Sends n p (fun _ => True) e e' → (ClosesOnTime n p e₀ e' ↔ Drips n p e)) ∧
      (e.Polite n → ∀ fuel > n, ∃ r e', sourceWrite fuel p (e.armed p) = .ok (r, e')) := by
  obtain ⟨size, count, room, fl, -, I⟩ := R.inv
  obtain ⟨x, hx, -, rfl⟩ := I.stocked.live_iff.mp hlive
  have hp := I.stocked.ne_null hx
  have hn : n ≤ readcacheSize := C.size ▸ C.fits
  obtain ⟨others, hothers⟩ : ∃ others, others = e₀.cachesOf ((sources size room).erase x) := ⟨_, rfl⟩
  have hstart : Unclosed count (x + sizeofPoolElm) others n e₀ e₀ :=
    ⟨hothers ▸ I.stocked.tends hx, List.suffix_rfl, sentLast_refl e₀, rfl, C.offset, C.start, C.writeClose, C.up, rfl⟩
  have hends : ∀ {e : Event}, Unclosed count (x + sizeofPoolElm) others n e₀ e → e.Polite n → ∀ fuel > n, ∃ r e',
      sourceWrite fuel (x + sizeofPoolElm) (e.armed (x + sizeofPoolElm)) = .ok (r, e') ∧
        ((Drips n (x + sizeofPoolElm) e ∧ Unclosed count (x + sizeofPoolElm) others n e₀ e') ∨
          (¬Drips n (x + sizeofPoolElm) e ∧ ¬ClosesOnTime n (x + sizeofPoolElm) e₀ e')) := by
    intro e U hpolite fuel hfuel
    obtain ⟨r, e', hcall, hend⟩ := sourceWrite_closing hp hn C.some C.cache hfuel U hpolite
    rw [ClosedOr, ← U.edge] at hend
    exact ⟨r, e', hcall, hend⟩
  have hrun : Unclosed count (x + sizeofPoolElm) others n e₀ e := by
    induction hsends with
    | refl => exact hstart
    | tail _ hstep ih =>
      obtain ⟨hpolite, hdrips, fuel, hfuel, r, hcall⟩ := hstep
      obtain ⟨r', e', hcall', hend⟩ := hends ih hpolite fuel hfuel
      cases hcall.symm.trans hcall'
      rcases hend with ⟨-, U⟩ | ⟨hnot, -⟩
      · exact U
      · exact absurd hdrips hnot
  refine ⟨hrun.closesOnTime, fun e' hstep => ?_, fun hpolite fuel hfuel => ?_⟩
  · obtain ⟨hpolite, -, fuel, hfuel, r, hcall⟩ := hstep
    obtain ⟨r', e'', hcall', hend⟩ := hends hrun hpolite fuel hfuel
    cases hcall.symm.trans hcall'
    rcases hend with ⟨hdrips, U⟩ | ⟨hnot, hlate⟩
    · exact iff_of_true U.closesOnTime hdrips
    · exact iff_of_false hlate hnot
  · obtain ⟨r, e', hcall, -⟩ := hends hrun hpolite fuel hfuel
    exact ⟨r, e', hcall⟩

/-- The first of the two bytes gets through. -/
theorem closes_on_time_iff_part :
    ClosesOnTime 2 50472 (partingFilled 1) (after (sourceWrite 3 50472) ((partingFilled 1).armed 50472)) := by
  obtain ⟨r, hcall⟩ := after_ok (m := sourceWrite 3 50472) (e := (partingFilled 1).armed 50472) (by decide +kernel)
  have hpolite : (partingFilled 1).Polite 2 := by
    unfold Polite Reply.Polite
    decide +kernel
  have hdrips : Drips 2 50472 (partingFilled 1) := by
    unfold Drips
    decide +kernel
  exact (closes_on_time_iff (partingFilled_runs 1 (.inl rfl)) (partingFilled_live 1 (.inl rfl)) (partingFilled_closing 1 (.inl rfl))
    (.single ⟨hpolite, hdrips, 3, by decide, r, hcall⟩)).1

/-- Both bytes get through, and the source is not shut down. -/
theorem closes_late : ∃ e, Runs False (partingFilled 2) ∧ (partingFilled 2).Live 50472 ∧
    ((partingFilled 2).source 50472).Closing 2 ∧ Sends 2 50472 (fun _ => True) (partingFilled 2) e ∧
    SentLast 50472 (((partingFilled 2).source 50472).writeCache + 2) (partingFilled 2) e ∧
    (e.source 50472).shutdown = false ∧ ¬ClosesOnTime 2 50472 (partingFilled 2) e := by
  obtain ⟨e, he⟩ : ∃ e, e = after (sourceWrite 3 50472) ((partingFilled 2).armed 50472) := ⟨_, rfl⟩
  obtain ⟨r, hcall⟩ := after_ok (m := sourceWrite 3 50472) (e := (partingFilled 2).armed 50472) (by decide +kernel)
  have hpolite : (partingFilled 2).Polite 2 := by
    unfold Polite Reply.Polite
    decide +kernel
  have hup : (e.source 50472).shutdown = false := by
    rw [he]
    decide +kernel
  have hsent : SentLast 50472 (((partingFilled 2).source 50472).writeCache + 2) (partingFilled 2) e := by
    have htrace : e.trace = .write 50472 ((partingFilled 2).source 50472).writeCache 2 2 [0, 1] :: (partingFilled 2).trace := by
      rw [he]
      decide +kernel
    generalize ((partingFilled 2).source 50472).writeCache = cache at htrace ⊢
    exact ⟨[_], htrace, _, List.mem_singleton_self _, rfl, (by decide : (0 : Int) < 2), rfl⟩
  refine ⟨e, partingFilled_runs 2 (.inr rfl), partingFilled_live 2 (.inr rfl), partingFilled_closing 2 (.inr rfl),
    ⟨hpolite, trivial, 3, by decide, r, he ▸ hcall⟩, hsent, hup, fun honce => ?_⟩
  rw [honce.mpr hsent] at hup
  cases hup

end Event

end QPHi
