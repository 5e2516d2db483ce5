import QPHi.Theorems.Wire.Run

/-! What the two processes can rely on: the bytes arrive in order, messages of agreed sizes arrive one by one, the calls are
    those of the whole functions, and no receive waits in vain for bytes that are being sent. -/

namespace QPHi
open Buffer Command

/-! ### Lists -/

/-- Lists of the same lengths that begin alike when they are put together are alike. -/
theorem prefix_of_flatten {α : Type} {L M : List (List α)} (hlengths : L.map List.length <+: M.map List.length)
    (h : L.flatten <+: M.flatten) : L <+: M := by
  induction L generalizing M with
  | nil => exact List.nil_prefix
  | cons l L ih =>
    cases M with
    | nil => exact absurd hlengths (by simp)
    | cons m M =>
      rw [List.map_cons, List.map_cons, List.cons_prefix_cons] at hlengths
      obtain ⟨hlength, hrest⟩ := hlengths
      rw [List.flatten_cons, List.flatten_cons] at h
      obtain ⟨more, hmore⟩ := h
      rw [List.append_assoc] at hmore
      obtain ⟨rfl, hflat⟩ := List.append_inj hmore hlength
      exact List.cons_prefix_cons.mpr ⟨rfl, ih hrest ⟨more, hflat⟩⟩

namespace Wire

variable {capacity ndone m : Nat} {s s' : Wire} {t u : Transfer} {fd : Fd} {answers : List FdAnswer} {state : Nat × Nat}

/-! ### Rounds with answers that fit -/

/-- The sender puts the next `m` bytes on the stream. -/
theorem sends (hcall : s.sending = some t) (hat : t.At ndone) (hm : 0 < m ∧ ndone + m ≤ t.nbytes.1 ∧ m ≤ transferMax)
    (hroom : s.sender.accepted.length + m ≤ s.receiver.obtained + capacity) :
    Step capacity s { s with
      sender := wrote (t.vptr + ndone) m (answered (t.nbytes.1 - ndone) (.count m) [] s.sender)
      sending := some (t.onward [.count m] (t.vptr + (ndone + m), ndone + m)) } := by
  obtain ⟨hm, hle, hmax⟩ := hm
  refine .sendAgain hcall ?_ rfl ?_
  · rw [hat.1]
    exact round_moves wrote t.nbytes.2 hle hm hmax (decide_eq_true (by omega)) rfl
  · show (s.sender.accepted ++ _).length ≤ _
    rw [List.length_append, length_slice]
    exact hroom

/-- The receiver takes the next `m` bytes. -/
theorem receives (hcall : s.receiving = some t) (hat : t.At ndone) (hm : 0 < m ∧ ndone + m ≤ t.nbytes.1 ∧ m ≤ transferMax)
    (hthere : s.receiver.obtained + m ≤ s.sender.accepted.length) :
    Step capacity s { s with
      receiver := got (t.vptr + ndone) m (answered (t.nbytes.1 - ndone) (.count m) [] (s.asksRecv [.count m]))
      receiving := some (t.onward [.count m] (t.vptr + (ndone + m), ndone + m)) } := by
  obtain ⟨hm, hle, hmax⟩ := hm
  refine .recvAgain hcall ?_ rfl hthere
  rw [hat.1]
  exact round_moves got t.nbytes.2 hle hm hmax (decide_eq_true (by omega)) rfl

/-- The sender returns when all is sent. -/
theorem sendReturns (hcall : s.sending = some t) (hat : t.At t.nbytes.1)
    (hroom : s.sender.accepted.length ≤ s.receiver.obtained + capacity) :
    Step capacity s { s with
      sender := s.asksSend []
      sending := none
      sent := s.sent ++ [s.sentReport t [] t.nbytes.1 (s.asksSend [])] } := by
  refine .sendDone hcall ?_ rfl hroom
  rw [hat.1]
  exact round_stop wrote (decide_eq_false (Nat.lt_irrefl _))

/-- The receiver returns when nothing more comes. -/
theorem recvReturns (hcall : s.receiving = some t) (hat : t.At ndone) (hpos : 0 < t.nbytes.1)
    (hordered : s.receiver.obtained ≤ s.sender.accepted.length) :
    Step capacity s { s with
      receiver := answered (t.nbytes.1 - ndone) (.count 0) [] (s.asksRecv [.count 0])
      receiving := none
      received := s.received ++
        [receivedReport t [.count 0] ndone (answered (t.nbytes.1 - ndone) (.count 0) [] (s.asksRecv [.count 0]))] } := by
  refine .recvDone hcall ?_ rfl hordered
  rw [hat.1]
  exact round_ends got_zero t.nbytes.2 hat.2 (decide_eq_true hpos) rfl

/-- Nothing has been sent. -/
def quiet : Wire := ⟨⟨[], [], [], fun _ => 0, 0, fun _ => 0⟩, ⟨[], [], [], fun _ => 0, 0, fun _ => 0⟩, none, none, [], []⟩

theorem quiet_reachable (capacity : Nat) : Reachable capacity quiet := Trans.Reachable.start ⟨rfl, rfl, rfl, rfl, rfl, rfl⟩

/-- Two messages of three and two bytes have been sent in pieces of two, one, one and one byte, and received in pieces of one,
    two, one and one byte; a byte of a third message is on its way. -/
theorem exists_reachable_messages : ∃ s, Reachable 4 s ∧ s.messages = [[1, 2, 3], [4, 5], [6, 7]] ∧
    s.sent.map (fun r => (r.nbytes.1, r.result)) = [(3, 3), (2, 2)] ∧
    s.sent.map (fun r => r.answers) = [[.count 2, .count 1], [.count 1, .count 1]] ∧
    s.received.map (fun r => (r.nbytes.1, r.result, r.bytes)) = [(3, 3, [1, 2, 3]), (2, 2, [4, 5])] ∧
    s.received.map (fun r => r.answers) = [[.count 1, .count 2, .count 0], [.count 1, .count 1, .count 0]] ∧
    s.sentBytes = [1, 2, 3, 4, 5, 6] ∧ s.receivedBytes = [1, 2, 3, 4, 5] := by
  have h₁ := (quiet_reachable 4).tail (.send (fun a => UInt8.ofNat (a - 15)) 16 3 rfl)
  have h₂ := h₁.tail (.recv (fun _ => 0) 32 3 rfl)
  have h₃ := h₂.tail (sends (m := 2) rfl ⟨rfl, Nat.zero_le _⟩ (by decide) (by decide))
  have h₄ := h₃.tail (receives (m := 1) rfl ⟨rfl, Nat.zero_le _⟩ (by decide) (by decide))
  have h₅ := h₄.tail (sends (m := 1) rfl ⟨rfl, by decide⟩ (by decide) (by decide))
  have h₆ := h₅.tail (sendReturns rfl ⟨rfl, by decide⟩ (by decide))
  have h₇ := h₆.tail (receives (m := 2) rfl ⟨rfl, by decide⟩ (by decide) (by decide))
  have h₈ := h₇.tail (recvReturns rfl ⟨rfl, by decide⟩ (by decide) (by decide))
  have h₉ := h₈.tail (.send (fun a => UInt8.ofNat (a - 15)) 19 2 rfl)
  have h₁₀ := h₉.tail (.recv (fun _ => 0) 32 2 rfl)
  have h₁₁ := h₁₀.tail (sends (m := 1) rfl ⟨rfl, Nat.zero_le _⟩ (by decide) (by decide))
  have h₁₂ := h₁₁.tail (sends (m := 1) rfl ⟨rfl, by decide⟩ (by decide) (by decide))
  have h₁₃ := h₁₂.tail (sendReturns rfl ⟨rfl, by decide⟩ (by decide))
  have h₁₄ := h₁₃.tail (receives (m := 1) rfl ⟨rfl, Nat.zero_le _⟩ (by decide) (by decide))
  have h₁₅ := h₁₄.tail (receives (m := 1) rfl ⟨rfl, by decide⟩ (by decide) (by decide))
  have h₁₆ := h₁₅.tail (recvReturns rfl ⟨rfl, by decide⟩ (by decide) (by decide))
  have h₁₇ := h₁₆.tail (.send (fun a => UInt8.ofNat (a - 15)) 21 2 rfl)
  have h₁₈ := h₁₇.tail (sends (m := 1) rfl ⟨rfl, Nat.zero_le _⟩ (by decide) (by decide))
  exact ⟨_, h₁₈, rfl, rfl, rfl, rfl, rfl, rfl, rfl⟩

/-! ### The stream -/

/-- What was received is the beginning of what was sent, the rest is on its way and not more than the capacity. The calls
    report what they have moved: their bytes together are those that the kernel has accepted from the sender, and those that
    it has delivered to the receiver. -/
theorem reachable_streams (h : Reachable capacity s) :
    s.receivedBytes <+: s.sentBytes ∧ s.sentBytes.length ≤ s.receivedBytes.length + capacity ∧
      s.sender.accepted = s.sentBytes ∧ s.receivedBytes = s.sender.accepted.take s.receiver.obtained ∧
      (∀ r ∈ s.sent, r.result ≤ r.nbytes.1 ∧ r.bytes.length = r.nbytes.1) ∧
      ∀ r ∈ s.received, r.result ≤ r.nbytes.1 ∧ r.bytes.length = r.result := by
  have I := h.inv
  have hordered := I.ordered
  refine ⟨?_, ?_, I.accepted, I.obtained, I.sent, I.received⟩
  · rw [I.obtained, ← I.accepted]
    exact List.take_prefix _ _
  · rw [I.obtained, ← I.accepted, List.length_take, Nat.min_eq_left hordered]
    exact I.room

theorem reachable_streams_messages : ∃ s, Reachable 4 s ∧ s.messages = [[1, 2, 3], [4, 5], [6, 7]] ∧
    s.sentBytes = [1, 2, 3, 4, 5, 6] ∧ s.receivedBytes = [1, 2, 3, 4, 5] ∧ s.sent.length = 2 ∧ s.received.length = 2 ∧
    s.receivedBytes <+: s.sentBytes ∧ s.sender.accepted = s.sentBytes ∧
    ∀ r ∈ s.received, r.result ≤ r.nbytes.1 ∧ r.bytes.length = r.result := by
  obtain ⟨s, h, hmessages, hsent, -, hreceived, -, hout, hin⟩ := exists_reachable_messages
  obtain ⟨hbegins, -, haccepted, -, -, hreports⟩ := reachable_streams h
  have htwo := congrArg List.length hsent
  have htwo' := congrArg List.length hreceived
  rw [List.length_map] at htwo htwo'
  exact ⟨s, h, hmessages, hout, hin, htwo, htwo', hbegins, haccepted, hreports⟩

/-- What was sent is the beginning of the messages, if all of each was sent. -/
theorem Inv.sent_prefix (I : Inv capacity s) (hsent : ∀ r ∈ s.sent, r.result = r.nbytes.1) :
    s.sentBytes <+: s.messages.flatten := by
  have hfull : s.sent.flatMap Report.moved = (s.sent.map Report.bytes).flatten := by
    rw [List.flatMap_def]
    refine congrArg List.flatten (List.map_congr_left fun r hr => ?_)
    rw [Report.moved, hsent r hr, ← (I.sent r hr).2, List.take_length]
  rw [sentBytes, messages, List.flatten_append, hfull]
  refine (List.prefix_append_right_inj _).mpr ?_
  cases hcall : s.sending with
  | none => simp [partlySent, hcall]
  | some t =>
    obtain ⟨ndone, hat⟩ := I.sending t hcall
    simp only [partlySent, hcall, hat.1, Option.map_some, Option.toList_some, List.flatten_cons, List.flatten_nil, List.append_nil]
    rw [← take_slice hat.2]
    exact List.take_prefix _ _

theorem Inv.received_prefix (I : Inv capacity s) : (s.received.map Report.bytes).flatten <+: s.sentBytes := by
  have hbytes : s.received.flatMap Report.moved = (s.received.map Report.bytes).flatten := by
    rw [List.flatMap_def]
    refine congrArg List.flatten (List.map_congr_left fun r hr => ?_)
    rw [Report.moved, ← (I.received r hr).2, List.take_length]
  refine (?_ : _ <+: s.receivedBytes).trans ?_
  · rw [← hbytes]
    exact List.prefix_append _ _
  · rw [I.obtained, ← I.accepted]
    exact List.take_prefix _ _

/-- If no call falls short, and the receiver asks for the sizes that the sender uses, then it gets the messages of the
    sender, each in one call. -/
theorem reachable_framed (h : Reachable capacity s) (hsent : ∀ r ∈ s.sent, r.result = r.nbytes.1)
    (hreceived : ∀ r ∈ s.received, r.result = r.nbytes.1)
    (hsizes : s.received.map (fun r => r.nbytes.1) <+: s.messages.map List.length) :
    s.received.map Report.bytes <+: s.messages := by
  have I := h.inv
  refine prefix_of_flatten ?_ (I.received_prefix.trans (I.sent_prefix hsent))
  have hlengths : (s.received.map Report.bytes).map List.length = s.received.map fun r => r.nbytes.1 := by
    rw [List.map_map]
    refine List.map_congr_left fun r hr => ?_
    exact (I.received r hr).2.trans (hreceived r hr)
  rw [hlengths]
  exact hsizes

theorem reachable_framed_messages : ∃ s, Reachable 4 s ∧ s.messages = [[1, 2, 3], [4, 5], [6, 7]] ∧ s.sent.length = 2 ∧
    s.received.map Report.bytes = [[1, 2, 3], [4, 5]] ∧ s.received.map Report.bytes <+: s.messages := by
  obtain ⟨s, h, hmessages, hsent, -, hreceived, -⟩ := exists_reachable_messages
  have htwo := congrArg List.length hsent
  rw [List.length_map] at htwo
  have hsizes := congrArg (List.map Prod.fst) hreceived
  have hbytes := congrArg (List.map fun x => x.2.2) hreceived
  rw [List.map_map] at hsizes hbytes
  have hall : ∀ x ∈ s.sent.map fun r => (r.nbytes.1, r.result), x.2 = x.1 := by simp [hsent]
  have hall' : ∀ x ∈ s.received.map fun r => (r.nbytes.1, r.result, r.bytes), x.2.1 = x.1 := by simp [hreceived]
  refine ⟨s, h, hmessages, htwo, hbytes, reachable_framed h (List.forall_mem_map.mp hall) (List.forall_mem_map.mp hall') ?_⟩
  rw [hmessages]
  exact ⟨[2], congrArg (· ++ [2]) hsizes⟩

/-! ### The rounds of a call are a run of the whole function -/

/-- The call is the run of `qp_fd_writen` that gets the answers of its rounds, and no others. -/
structure Writes (r : Report) : Prop where
  bytes : r.bytes = slice r.start.memory r.vptr r.nbytes.1
  used : r.finish.script = []
  run : ∀ fuel, r.answers.length < fuel →
    Fd.fdWriten fuel r.vptr r.nbytes { r.start with script := r.answers } = .ok (r.result, r.finish)

/-- The call is the run of `qp_fd_readn` that gets the answers of its rounds, and no others, and the bytes of `stream`. -/
structure Reads (stream : Nat → UInt8) (r : Report) : Prop where
  bytes : r.bytes = slice r.finish.memory r.vptr r.result
  used : r.finish.script = []
  run : ∀ fuel, r.answers.length < fuel →
    Fd.fdReadn fuel r.vptr r.nbytes { r.start with script := r.answers, incoming := stream } =
      .ok (r.result, { r.finish with incoming := stream })

/-- `incoming` gives the bytes that the receiver has obtained. -/
def Brings (s : Wire) (incoming : Nat → UInt8) : Prop := ∀ i < s.receiver.obtained, incoming i = s.stream i

/-- The answers so far bring the function from where it began to where it is. -/
structure Follows (s : Wire) : Prop where
  sending : ∀ t, s.sending = some t → t.start.memory = s.sender.memory ∧ ∀ fuel script,
    Fd.fdWriten (t.answers.length + fuel) t.vptr t.nbytes { t.start with script := t.answers ++ script } =
      loop (writenRound t.nbytes) fuel t.state { s.sender with script := script }
  receiving : ∀ t, s.receiving = some t → ∀ fuel script incoming, s.Brings incoming →
    Fd.fdReadn (t.answers.length + fuel) t.vptr t.nbytes { t.start with script := t.answers ++ script, incoming := incoming } =
      loop (readnRound t.nbytes) fuel t.state { s.receiver with script := script, incoming := incoming }
  sent : ∀ r ∈ s.sent, Writes r
  received : ∀ r ∈ s.received, ∀ incoming, s.Brings incoming → Reads incoming r

theorem follows_init (h : Init s) : Follows s := by
  obtain ⟨-, -, hsending, hreceiving, hsent, hreceived⟩ := h
  exact ⟨by simp [hsending], by simp [hreceiving], by simp [hsent], by simp [hreceived]⟩

/-- What was obtained is not touched when the stream grows. -/
theorem Brings.of_grown {incoming : Nat → UInt8} (h : Brings { s with sender := fd } incoming) (I : Inv capacity s)
    {more : List UInt8} (hgrown : fd.accepted = s.sender.accepted ++ more) : s.Brings incoming := by
  intro i hi
  have hlt : i < s.sender.accepted.length := Nat.lt_of_lt_of_le hi I.ordered
  rw [h i hi, stream, stream, hgrown, List.getD_eq_getElem?_getD, List.getD_eq_getElem?_getD, List.getElem?_append_left hlt]

/-- An amount of fuel that is more than two lists of answers. -/
theorem exists_fuel {earlier answers : List FdAnswer} {fuel : Nat} (h : (earlier ++ answers).length < fuel) :
    ∃ rest, fuel = earlier.length + (rest + 1) := by
  rw [List.length_append] at h
  exact ⟨fuel - earlier.length - 1, by omega⟩

theorem Follows.sendAgain (F : Follows s) (I : Inv capacity s) (hcall : s.sending = some t)
    (hrun : writenRound t.nbytes t.state (s.asksSend answers) = .ok (.again state, fd)) (hused : fd.script = []) :
    Follows { s with sender := fd, sending := some (t.onward answers state) } := by
  obtain ⟨ndone, hat⟩ := I.sending t hcall
  obtain ⟨m, -, haccepted, hmemory⟩ := puts hat hrun
  obtain ⟨hstart, hfollows⟩ := F.sending t hcall
  refine ⟨?_, fun t' ht' fuel script incoming h => F.receiving t' ht' fuel script incoming (h.of_grown I haccepted), F.sent,
    fun r hr incoming h => F.received r hr incoming (h.of_grown I haccepted)⟩
  rintro t' ⟨⟩
  refine ⟨hstart.trans hmemory.symm, fun fuel script => ?_⟩
  rw [hat.1] at hrun hfollows
  obtain ⟨answer, hanswer⟩ := round_again wrote (fun _ _ _ => rfl) t.nbytes.2 hat.2 hrun hused
  obtain rfl : answers = [answer] := hanswer
  have hlength : (t.onward [answer] state).answers.length = t.answers.length + 1 := List.length_append
  have hmore := round_append wrote (fun _ _ _ _ => rfl) t.nbytes.2 hat.2 hrun script
  rw [hused] at hmore
  have hnext := (hfollows (fuel + 1) ([answer] ++ script)).trans (loop_again hmore)
  rw [← Nat.add_assoc, Nat.add_right_comm, ← hlength, ← List.append_assoc] at hnext
  exact hnext

theorem Follows.sendDone (F : Follows s) (I : Inv capacity s) {r : Nat} (hcall : s.sending = some t)
    (hrun : writenRound t.nbytes t.state (s.asksSend answers) = .ok (.done r, fd)) (hused : fd.script = []) :
    Follows { s with sender := fd, sending := none, sent := s.sent ++ [s.sentReport t answers r fd] } := by
  obtain ⟨ndone, hat⟩ := I.sending t hcall
  obtain ⟨m, -, haccepted, -⟩ := puts hat hrun
  obtain ⟨hstart, hfollows⟩ := F.sending t hcall
  refine ⟨by simp, fun t' ht' fuel script incoming h => F.receiving t' ht' fuel script incoming (h.of_grown I haccepted),
    fun r' hr' => ?_, fun r' hr' incoming h => F.received r' hr' incoming (h.of_grown I haccepted)⟩
  rcases List.mem_append.mp hr' with hr' | hr'
  · exact F.sent r' hr'
  · obtain rfl := List.mem_singleton.mp hr'
    refine ⟨congrArg (fun memory => slice memory t.vptr t.nbytes.1) hstart.symm, hused, fun fuel hfuel => ?_⟩
    obtain ⟨rest, rfl⟩ := exists_fuel hfuel
    exact (hfollows (rest + 1) answers).trans (loop_done hrun)

/-- A round of the receiver is the same on any stream that gives the bytes it has obtained, with more answers to come. -/
theorem readnRound_elsewhere {x : Next (Nat × Nat) Nat} (hat : t.At ndone)
    (hrun : readnRound t.nbytes t.state (s.asksRecv answers) = .ok (x, fd)) (hused : fd.script = [])
    {incoming : Nat → UInt8} (hbrings : Brings { s with receiver := fd } incoming) (script : List FdAnswer) :
    readnRound t.nbytes t.state { s.receiver with script := answers ++ script, incoming := incoming } =
      .ok (x, { fd with script := script, incoming := incoming }) := by
  rw [hat.1] at hrun ⊢
  have hcongr := round_congr t.nbytes.2 hat.2 hrun hbrings
  have hmore := round_append got (fun _ _ _ _ => rfl) t.nbytes.2 hat.2 hcongr script
  rw [hused] at hmore
  exact hmore

/-- What a round has obtained is added to what was there. -/
theorem Brings.before (hat : t.At ndone) (hrun : readnRound t.nbytes t.state (s.asksRecv answers) = .ok (x, fd))
    (hthere : fd.obtained ≤ s.sender.accepted.length) {incoming : Nat → UInt8}
    (h : Brings { s with receiver := fd } incoming) : s.Brings incoming := by
  obtain ⟨m, T⟩ := takes hat hrun hthere
  intro i hi
  exact h i (by rw [T.obtained]; exact Nat.lt_of_lt_of_le hi (Nat.le_add_right _ _))

theorem Follows.recvAgain (F : Follows s) (I : Inv capacity s) (hcall : s.receiving = some t)
    (hrun : readnRound t.nbytes t.state (s.asksRecv answers) = .ok (.again state, fd)) (hused : fd.script = [])
    (hthere : fd.obtained ≤ s.sender.accepted.length) :
    Follows { s with receiver := fd, receiving := some (t.onward answers state) } := by
  obtain ⟨ndone, hat⟩ := I.receiving t hcall
  have hfollows := F.receiving t hcall
  refine ⟨F.sending, ?_, F.sent, fun r hr incoming h => F.received r hr incoming (h.before hat hrun hthere)⟩
  rintro t' ⟨⟩ fuel script incoming hbrings
  have hround := readnRound_elsewhere hat hrun hused hbrings script
  have hnext := (hfollows (fuel + 1) (answers ++ script) incoming (hbrings.before hat hrun hthere)).trans (loop_again hround)
  rw [hat.1] at hrun
  obtain ⟨answer, hanswer⟩ := round_again got (fun _ _ _ => rfl) t.nbytes.2 hat.2 hrun hused
  obtain rfl : answers = [answer] := hanswer
  have hlength : (t.onward [answer] state).answers.length = t.answers.length + 1 := List.length_append
  rw [← Nat.add_assoc, Nat.add_right_comm, ← hlength, ← List.append_assoc] at hnext
  exact hnext

theorem Follows.recvDone (F : Follows s) (I : Inv capacity s) {r : Nat} (hcall : s.receiving = some t)
    (hrun : readnRound t.nbytes t.state (s.asksRecv answers) = .ok (.done r, fd)) (hused : fd.script = [])
    (hthere : fd.obtained ≤ s.sender.accepted.length) :
    Follows { s with receiver := fd, receiving := none, received := s.received ++ [receivedReport t answers r fd] } := by
  obtain ⟨ndone, hat⟩ := I.receiving t hcall
  refine ⟨F.sending, by simp, F.sent, fun r' hr' incoming hbrings => ?_⟩
  have hbefore : s.Brings incoming := hbrings.before hat hrun hthere
  rcases List.mem_append.mp hr' with hr' | hr'
  · exact F.received r' hr' incoming hbefore
  · obtain rfl := List.mem_singleton.mp hr'
    refine ⟨rfl, hused, fun fuel hfuel => ?_⟩
    obtain ⟨rest, rfl⟩ := exists_fuel hfuel
    have hround := readnRound_elsewhere hat hrun hused hbrings []
    rw [List.append_nil] at hround
    have hend := (F.receiving t hcall (rest + 1) answers incoming hbefore).trans (loop_done hround)
    rw [← hused] at hend
    exact hend

theorem Follows.step (F : Follows s) (I : Inv capacity s) (h : Step capacity s s') : Follows s' := by
  cases h with
  | send memory vptr nbytes hidle =>
    refine ⟨?_, F.receiving, F.sent, F.received⟩
    rintro t ⟨⟩
    refine ⟨rfl, fun fuel script => ?_⟩
    rw [begin, List.length_nil, Nat.zero_add]
    rfl
  | sendAgain hcall hrun hused _ => exact F.sendAgain I hcall hrun hused
  | sendDone hcall hrun hused _ => exact F.sendDone I hcall hrun hused
  | recv memory vptr nbytes hidle =>
    refine ⟨F.sending, ?_, F.sent, F.received⟩
    rintro t ⟨⟩ fuel script incoming -
    rw [begin, List.length_nil, Nat.zero_add]
    rfl
  | recvAgain hcall hrun hused hthere => exact F.recvAgain I hcall hrun hused hthere
  | recvDone hcall hrun hused hthere => exact F.recvDone I hcall hrun hused hthere

theorem Reachable.follows (h : Reachable capacity s) : Follows s := by
  have hboth : Inv capacity s ∧ Follows s := by
    refine @Trans.Reachable.invariant _ _ _ s (fun s => Inv capacity s ∧ Follows s) h ?_ ?_
    · exact fun _ h₀ => ⟨inv_init h₀, follows_init h₀⟩
    · exact fun _ _ hI hs => ⟨hI.1.step hs, hI.2.step hI.1 hs⟩
  exact hboth.2

/-- The result of a call tells what it has put on the stream behind what was there, and what it has taken from where the
    receiver was. -/
theorem Writes.accepted {r : Report} (W : Writes r) : r.finish.accepted = r.start.accepted ++ r.moved := by
  obtain ⟨hle, S, -⟩ := (Fd.fdWriten_spec (r.answers.length + 1) r.vptr r.nbytes { r.start with script := r.answers }
    { r.start with script := r.answers } ⟨(List.append_nil _).symm, rfl⟩).of_ok (W.run _ (Nat.lt_succ_self _))
  rw [S.accepted, Report.moved, W.bytes, take_slice hle]

theorem Reads.moved {stream : Nat → UInt8} {r : Report} (R : Reads stream r) :
    r.finish.obtained = r.start.obtained + r.result ∧ r.moved = slice stream r.start.obtained r.result := by
  obtain ⟨-, S, -⟩ := (Fd.fdReadn_spec (r.answers.length + 1) r.vptr r.nbytes
    { r.start with script := r.answers, incoming := stream } { r.start with script := r.answers, incoming := stream }
    ⟨rfl, rfl, rfl, fun _ _ => rfl⟩).of_ok (R.run _ (Nat.lt_succ_self _))
  refine ⟨S.obtained, ?_⟩
  rw [Report.moved, R.bytes, take_slice (Nat.le_refl _)]
  exact S.stored

/-- Every call that has returned, in whatever order its rounds were made with those of the other process, is the run of the
    whole function on the answers of its own rounds: a send has put what it reports behind what was on the stream when it
    began, and a receive has taken what came next in the stream. -/
theorem reachable_calls (h : Reachable capacity s) :
    (∀ r ∈ s.sent, Writes r ∧ r.finish.accepted = r.start.accepted ++ r.moved) ∧
      ∀ r ∈ s.received, Reads s.stream r ∧ r.finish.obtained = r.start.obtained + r.result ∧
        r.moved = slice s.stream r.start.obtained r.result := by
  have F := h.follows
  constructor
  · intro r hr
    exact ⟨F.sent r hr, (F.sent r hr).accepted⟩
  · intro r hr
    have R := F.received r hr s.stream fun _ _ => rfl
    exact ⟨R, R.moved⟩

theorem reachable_calls_messages : ∃ s, Reachable 4 s ∧ s.messages = [[1, 2, 3], [4, 5], [6, 7]] ∧
    s.sent.map (fun r => r.answers) = [[.count 2, .count 1], [.count 1, .count 1]] ∧
    s.received.map (fun r => r.answers) = [[.count 1, .count 2, .count 0], [.count 1, .count 1, .count 0]] ∧
    (∀ r ∈ s.sent, Writes r) ∧ ∀ r ∈ s.received, Reads s.stream r := by
  obtain ⟨s, h, hmessages, -, hsent, -, hreceived, -, -⟩ := exists_reachable_messages
  obtain ⟨hwrites, hreads⟩ := reachable_calls h
  exact ⟨s, h, hmessages, hsent, hreceived, fun r hr => (hwrites r hr).1, fun r hr => (hreads r hr).1⟩

/-! ### A receive comes to its end -/

/-- The bytes that the receiver still waits for, those on their way, and those of the message that are not sent yet. -/
def wanted (s : Wire) : Nat :=
  match s.receiving with
  | none => 0
  | some t => t.nbytes.1 - t.state.2

def onItsWay (s : Wire) : Nat := s.sender.accepted.length - s.receiver.obtained

def unsent (s : Wire) : Nat :=
  match s.sending with
  | none => 0
  | some t => t.nbytes.1 - t.state.2

/-- The sender puts bytes on the stream that is empty. -/
theorem Inv.exists_send (I : Inv capacity s) (hcapacity : 0 < capacity) (hempty : s.onItsWay = 0) (hunsent : 0 < s.unsent) :
    ∃ s', Step capacity s s' ∧ s'.receiving = s.receiving ∧ s'.received = s.received ∧ 0 < s'.onItsWay ∧
      s'.onItsWay + s'.unsent = s.onItsWay + s.unsent := by
  cases hcall : s.sending with
  | none => simp [unsent, hcall] at hunsent
  | some t =>
    obtain ⟨ndone, hat⟩ := I.sending t hcall
    have hrest : s.unsent = t.nbytes.1 - ndone := by simp only [unsent, hcall, hat.1]
    obtain ⟨m, hm⟩ : ∃ m, m = min (min (t.nbytes.1 - ndone) transferMax) capacity := ⟨_, rfl⟩
    have hmax : transferMax = 2147479552 := rfl
    have hpos : 0 < m := by omega
    have hordered := I.ordered
    have hempty' : s.sender.accepted.length - s.receiver.obtained = 0 := hempty
    have hlength : ∀ buf fd, (wrote buf m fd).accepted.length = fd.accepted.length + m := fun buf fd => by simp [wrote]
    refine ⟨_, sends hcall hat ⟨hpos, by omega, by omega⟩ (by omega), rfl, rfl, ?_, ?_⟩
    · simp only [onItsWay, hlength]
      show 0 < s.sender.accepted.length + m - s.receiver.obtained
      omega
    · rw [hrest]
      simp only [onItsWay, unsent, hlength]
      show s.sender.accepted.length + m - s.receiver.obtained + (t.nbytes.1 - (ndone + m)) = _
      omega

/-- The receiver takes bytes that are on their way. -/
theorem Inv.exists_recv (I : Inv capacity s) (hcall : s.receiving = some t) (hway : 0 < s.onItsWay) (hwanted : 0 < s.wanted) :
    ∃ s' t', Step capacity s s' ∧ s'.receiving = some t' ∧ t'.nbytes = t.nbytes ∧ s'.received = s.received ∧
      s'.wanted < s.wanted ∧ (s.wanted ≤ s.onItsWay + s.unsent → s'.wanted ≤ s'.onItsWay + s'.unsent) := by
  obtain ⟨ndone, hat⟩ := I.receiving t hcall
  have hrest : s.wanted = t.nbytes.1 - ndone := by simp only [wanted, hcall, hat.1]
  obtain ⟨m, hm⟩ : ∃ m, m = min (min (t.nbytes.1 - ndone) transferMax) s.onItsWay := ⟨_, rfl⟩
  have hmax : transferMax = 2147479552 := rfl
  have hpos : 0 < m := by omega
  have hthere : s.onItsWay = s.sender.accepted.length - s.receiver.obtained := rfl
  refine ⟨_, _, receives hcall hat ⟨hpos, by omega, by omega⟩ (by omega), rfl, rfl, rfl, ?_, fun hcoming => ?_⟩
  · show t.nbytes.1 - (ndone + m) < s.wanted
    omega
  · show t.nbytes.1 - (ndone + m) ≤ s.sender.accepted.length - (s.receiver.obtained + m) + s.unsent
    omega

/-- The receiver has all that it wants. -/
theorem Inv.exists_done (I : Inv capacity s) (hcall : s.receiving = some t) (hwanted : s.wanted = 0) :
    ∃ s' r, Step capacity s s' ∧ s'.received = s.received ++ [r] ∧ r.nbytes = t.nbytes ∧ r.result = t.nbytes.1 := by
  obtain ⟨ndone, hat⟩ := I.receiving t hcall
  have hrest : s.wanted = t.nbytes.1 - ndone := by simp only [wanted, hcall, hat.1]
  have hall : ndone = t.nbytes.1 := Nat.le_antisymm hat.2 (by omega)
  rcases Nat.eq_zero_or_pos t.nbytes.1 with hzero | hpos
  · -- The loop of `qp_fd_readn` is left by its condition.
    have hrun : readnRound t.nbytes t.state (s.asksRecv []) = .ok (.done ndone, s.asksRecv []) := by
      rw [hat.1]
      exact round_stop got (decide_eq_false (hzero ▸ Nat.lt_irrefl 0))
    exact ⟨_, _, .recvDone hcall hrun rfl I.ordered, rfl, rfl, hall⟩
  · exact ⟨_, _, recvReturns hcall hat hpos I.ordered, rfl, rfl, hall⟩

/-- Whatever has happened, a receive that waits for no more bytes than are on their way or being sent can come to its end
    with all of them. -/
theorem reachable_completes (hcapacity : 0 < capacity) (h : Reachable capacity s) (hcall : s.receiving = some t)
    (hcoming : s.wanted ≤ s.onItsWay + s.unsent) :
    ∃ s' r, Relation.ReflTransGen (Step capacity) s s' ∧ s'.received = s.received ++ [r] ∧ r.nbytes = t.nbytes ∧
      r.result = t.nbytes.1 := by
  have I := h.inv
  clear h
  -- What is wanted gets less, and before that an empty stream is filled.
  induction hn : 2 * s.wanted + (if s.onItsWay = 0 then 1 else 0) using Nat.strongRecOn generalizing s t with
  | _ n ih =>
    subst hn
    by_cases hwanted : s.wanted = 0
    · obtain ⟨s', r, hstep, hr⟩ := I.exists_done hcall hwanted
      exact ⟨s', r, .single hstep, hr⟩
    · by_cases hway : s.onItsWay = 0
      · obtain ⟨s', hstep, hreceiving, hreceived, hway', hsame⟩ := I.exists_send hcapacity hway (by omega)
        have hwanted' : s'.wanted = s.wanted := by simp only [wanted, hreceiving]
        obtain ⟨s'', r, hrun, hr⟩ := ih _ (by rw [hwanted', if_pos hway, if_neg (by omega)]; omega) (hreceiving.trans hcall)
          (by omega) (I.step hstep) rfl
        rw [hreceived] at hr
        exact ⟨s'', r, .head hstep hrun, hr⟩
      · obtain ⟨s', t', hstep, hcall', hnbytes, hreceived, hless, hcoming'⟩ := I.exists_recv hcall (by omega) (by omega)
        obtain ⟨s'', r, hrun, hr⟩ := ih _ (by rw [if_neg hway]; split <;> omega) hcall' (hcoming' hcoming) (I.step hstep) rfl
        rw [hreceived, hnbytes] at hr
        exact ⟨s'', r, .head hstep hrun, hr⟩

/-- Both calls have begun, and no byte has been sent. -/
theorem reachable_completes_message : ∃ s s' r, Reachable 1 s ∧ s.onItsWay = 0 ∧ Relation.ReflTransGen (Step 1) s s' ∧
    s'.received = [r] ∧ r.result = 3 := by
  have h₁ := (quiet_reachable 1).tail (.send (fun _ => 7) 16 3 rfl)
  have h₂ := h₁.tail (.recv (fun _ => 0) 32 3 rfl)
  obtain ⟨s', r, hrun, hreceived, -, hresult⟩ := reachable_completes Nat.one_pos h₂ rfl (Nat.le_refl 3)
  exact ⟨_, s', r, h₂, rfl, hrun, hreceived, hresult⟩

end Wire

end QPHi
