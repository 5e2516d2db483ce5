import QPHi.Theorems.Wire.Rounds

/-! Whatever the order of the two processes: what was received is the beginning of what was sent, no more than the capacity
    is on its way, and every call that has returned did what the whole function does. -/

namespace QPHi
open Buffer Command

/-- A call is at `ndone` bytes. -/
def Transfer.At (t : Transfer) (ndone : Nat) : Prop := t.state = (t.vptr + ndone, ndone) ∧ ndone ≤ t.nbytes.1

@[simp] theorem Transfer.onward_vptr (t : Transfer) (answers : List FdAnswer) (state : Nat × Nat) :
    (t.onward answers state).vptr = t.vptr := rfl

@[simp] theorem Transfer.onward_state (t : Transfer) (answers : List FdAnswer) (state : Nat × Nat) :
    (t.onward answers state).state = state := rfl

@[simp] theorem Transfer.report_moved (t : Transfer) (answers : List FdAnswer) (bytes : List UInt8) (r : Nat) (fd : Fd) :
    (t.report answers bytes r fd).moved = bytes.take r := rfl

namespace Wire

variable {capacity ndone m : Nat} {s s' : Wire} {t : Transfer} {fd : Fd} {answers : List FdAnswer} {x : Next (Nat × Nat) Nat}

/-- What the call in progress has sent. -/
def partlySent (s : Wire) : List UInt8 :=
  match s.sending with
  | none => []
  | some t => slice s.sender.memory t.vptr t.state.2

/-- What the call in progress has stored. -/
def partlyReceived (s : Wire) : List UInt8 :=
  match s.receiving with
  | none => []
  | some t => slice s.receiver.memory t.vptr t.state.2

def sentBytes (s : Wire) : List UInt8 := s.sent.flatMap Report.moved ++ s.partlySent

def receivedBytes (s : Wire) : List UInt8 := s.received.flatMap Report.moved ++ s.partlyReceived

/-! ### What a step does -/

/-- A round of the sender has put `m` bytes on the stream. -/
structure Puts (s : Wire) (t : Transfer) (ndone m : Nat) (x : Next (Nat × Nat) Nat) (fd : Fd) : Prop where
  round : Round t.vptr ndone (t.nbytes.1 - ndone) x m
  accepted : fd.accepted = s.sender.accepted ++ slice s.sender.memory (t.vptr + ndone) m
  memory : fd.memory = s.sender.memory

theorem puts (hat : t.At ndone) (hrun : writenRound t.nbytes t.state (s.asksSend answers) = .ok (x, fd)) :
    ∃ m, Puts s t ndone m x fd := by
  rw [hat.1] at hrun
  obtain ⟨m, script, calls, hround, rfl⟩ := round_outcome wrote_zero t.nbytes.2 hat.2 hrun
  exact ⟨m, hround, rfl, rfl⟩

/-- The bytes of the stream from `n` on. -/
theorem slice_stream {l : List UInt8} {n : Nat} (h : n + m ≤ l.length) :
    slice (fun i => l.getD (n + i) 0) 0 m = (l.drop n).take m := by
  refine List.ext_getElem (by rw [length_slice, List.length_take, List.length_drop]; omega) fun i hi hi' => ?_
  rw [length_slice] at hi
  have hlt : n + i < l.length := by omega
  simp [slice, List.getD_eq_getElem?_getD, hlt]

/-- A round of the receiver has taken `m` bytes from the stream. -/
structure Takes (s : Wire) (t : Transfer) (ndone m : Nat) (x : Next (Nat × Nat) Nat) (fd : Fd) : Prop where
  round : Round t.vptr ndone (t.nbytes.1 - ndone) x m
  obtained : fd.obtained = s.receiver.obtained + m
  stored : slice fd.memory t.vptr (ndone + m) =
    slice s.receiver.memory t.vptr ndone ++ (s.sender.accepted.drop s.receiver.obtained).take m

theorem takes (hat : t.At ndone) (hrun : readnRound t.nbytes t.state (s.asksRecv answers) = .ok (x, fd))
    (hthere : fd.obtained ≤ s.sender.accepted.length) : ∃ m, Takes s t ndone m x fd := by
  rw [hat.1] at hrun
  obtain ⟨m, script, calls, hround, rfl⟩ := round_outcome got_zero t.nbytes.2 hat.2 hrun
  have hlast : s.receiver.obtained + m ≤ s.sender.accepted.length := hthere
  refine ⟨m, hround, rfl, ?_⟩
  rw [← slice_stream hlast]
  show slice (store s.receiver.memory (t.vptr + ndone) m fun i => s.sender.accepted.getD (s.receiver.obtained + i) 0) t.vptr
    (ndone + m) = _
  exact slice_store_next

/-! ### The invariant -/

structure Inv (capacity : Nat) (s : Wire) : Prop where
  sending : ∀ t, s.sending = some t → ∃ ndone, t.At ndone
  receiving : ∀ t, s.receiving = some t → ∃ ndone, t.At ndone
  accepted : s.sender.accepted = s.sentBytes
  obtained : s.receivedBytes = s.sender.accepted.take s.receiver.obtained
  ordered : s.receiver.obtained ≤ s.sender.accepted.length
  room : s.sender.accepted.length ≤ s.receiver.obtained + capacity
  sent : ∀ r ∈ s.sent, r.result ≤ r.nbytes.1 ∧ r.bytes.length = r.nbytes.1
  received : ∀ r ∈ s.received, r.result ≤ r.nbytes.1 ∧ r.bytes.length = r.result

theorem inv_init (h : Init s) : Inv capacity s := by
  obtain ⟨haccepted, hobtained, hsending, hreceiving, hsent, hreceived⟩ := h
  refine ⟨by simp [hsending], by simp [hreceiving], ?_, ?_, ?_, ?_, by simp [hsent], by simp [hreceived]⟩
  · simp [haccepted, sentBytes, partlySent, hsending, hsent]
  · simp [haccepted, receivedBytes, partlyReceived, hreceiving, hreceived]
  · simp [hobtained]
  · simp [haccepted]

/-- The stream has grown, and has room. -/
theorem Inv.obtained_grown (I : Inv capacity s) {more : List UInt8} (hgrown : fd.accepted = s.sender.accepted ++ more) :
    s.receivedBytes = fd.accepted.take s.receiver.obtained ∧ s.receiver.obtained ≤ fd.accepted.length := by
  have hordered := I.ordered
  rw [hgrown, List.take_append_of_le_length hordered, List.length_append]
  exact ⟨I.obtained, by omega⟩

theorem Inv.send (I : Inv capacity s) (hidle : s.sending = none) (memory : Nat → UInt8) (vptr : Nat) (nbytes : Size) :
    Inv capacity { s with
      sender := { s.sender with memory := memory }
      sending := some (begin { s.sender with memory := memory } vptr nbytes) } := by
  refine ⟨?_, I.receiving, ?_, I.obtained, I.ordered, I.room, I.sent, I.received⟩
  · rintro t ⟨⟩
    exact ⟨0, rfl, Nat.zero_le _⟩
  · show s.sender.accepted = _
    rw [I.accepted]
    simp [sentBytes, partlySent, hidle, begin]

theorem Inv.sendAgain (I : Inv capacity s) {state : Nat × Nat} (hcall : s.sending = some t)
    (hrun : writenRound t.nbytes t.state (s.asksSend answers) = .ok (.again state, fd))
    (hroom : fd.accepted.length ≤ s.receiver.obtained + capacity) :
    Inv capacity { s with sender := fd, sending := some (t.onward answers state) } := by
  obtain ⟨ndone, hat⟩ := I.sending t hcall
  obtain ⟨m, hround, haccepted, hmemory⟩ := puts hat hrun
  cases hround with
  | again hle =>
    obtain ⟨hobtained, hordered⟩ := I.obtained_grown haccepted
    refine ⟨?_, I.receiving, ?_, hobtained, hordered, hroom, I.sent, I.received⟩
    · rintro t' ⟨⟩
      exact ⟨ndone + m, rfl, Nat.add_le_of_le_sub' hat.2 hle⟩
    · show fd.accepted = _
      rw [haccepted, I.accepted]
      simp only [sentBytes, partlySent, hcall, hat.1, hmemory, List.append_assoc, slice_append, Transfer.onward_vptr,
        Transfer.onward_state]

theorem Inv.sendDone (I : Inv capacity s) {r : Nat} (hcall : s.sending = some t)
    (hrun : writenRound t.nbytes t.state (s.asksSend answers) = .ok (.done r, fd))
    (hroom : fd.accepted.length ≤ s.receiver.obtained + capacity) :
    Inv capacity { s with sender := fd, sending := none, sent := s.sent ++ [s.sentReport t answers r fd] } := by
  obtain ⟨ndone, hat⟩ := I.sending t hcall
  obtain ⟨m, hround, haccepted, hmemory⟩ := puts hat hrun
  cases hround with
  | done =>
    obtain ⟨hobtained, hordered⟩ := I.obtained_grown haccepted
    refine ⟨by simp, I.receiving, ?_, hobtained, hordered, hroom, fun r' hr' => ?_, I.received⟩
    · show fd.accepted = _
      rw [haccepted, I.accepted]
      simp [sentBytes, partlySent, hcall, hat.1, sentReport, take_slice hat.2]
    · rcases List.mem_append.mp hr' with hr' | hr'
      · exact I.sent r' hr'
      · rw [List.mem_singleton.mp hr']
        exact ⟨hat.2, length_slice⟩

theorem Inv.recv (I : Inv capacity s) (hidle : s.receiving = none) (memory : Nat → UInt8) (vptr : Nat) (nbytes : Size) :
    Inv capacity { s with
      receiver := { s.receiver with memory := memory }
      receiving := some (begin { s.receiver with memory := memory } vptr nbytes) } := by
  refine ⟨I.sending, ?_, I.accepted, ?_, I.ordered, I.room, I.sent, I.received⟩
  · rintro t ⟨⟩
    exact ⟨0, rfl, Nat.zero_le _⟩
  · show _ = s.sender.accepted.take s.receiver.obtained
    rw [← I.obtained]
    simp [receivedBytes, partlyReceived, hidle, begin]

/-- A round of the receiver goes on with the bytes that come next. -/
theorem Inv.taken (I : Inv capacity s) (hcall : s.receiving = some t) (hat : t.At ndone) (T : Takes s t ndone m x fd) :
    s.received.flatMap Report.moved ++ slice fd.memory t.vptr (ndone + m) = s.sender.accepted.take fd.obtained ∧
      s.sender.accepted.length ≤ fd.obtained + capacity := by
  have hroom := I.room
  have hobtained := T.obtained
  refine ⟨?_, by omega⟩
  rw [T.stored, hobtained, List.take_add, ← I.obtained]
  simp [receivedBytes, partlyReceived, hcall, hat.1]

theorem Inv.recvAgain (I : Inv capacity s) {state : Nat × Nat} (hcall : s.receiving = some t)
    (hrun : readnRound t.nbytes t.state (s.asksRecv answers) = .ok (.again state, fd))
    (hthere : fd.obtained ≤ s.sender.accepted.length) :
    Inv capacity { s with receiver := fd, receiving := some (t.onward answers state) } := by
  obtain ⟨ndone, hat⟩ := I.receiving t hcall
  obtain ⟨m, T⟩ := takes hat hrun hthere
  obtain ⟨htaken, hroom⟩ := I.taken hcall hat T
  have hround := T.round
  cases hround with
  | again hle =>
    refine ⟨I.sending, ?_, I.accepted, htaken, hthere, hroom, I.sent, I.received⟩
    rintro t' ⟨⟩
    exact ⟨ndone + m, rfl, Nat.add_le_of_le_sub' hat.2 hle⟩

theorem Inv.recvDone (I : Inv capacity s) {r : Nat} (hcall : s.receiving = some t)
    (hrun : readnRound t.nbytes t.state (s.asksRecv answers) = .ok (.done r, fd))
    (hthere : fd.obtained ≤ s.sender.accepted.length) :
    Inv capacity { s with receiver := fd, receiving := none, received := s.received ++ [receivedReport t answers r fd] } := by
  obtain ⟨ndone, hat⟩ := I.receiving t hcall
  obtain ⟨m, T⟩ := takes hat hrun hthere
  obtain ⟨htaken, hroom⟩ := I.taken hcall hat T
  have hround := T.round
  cases hround with
  | done =>
    refine ⟨I.sending, by simp, I.accepted, ?_, hthere, hroom, I.sent, fun r' hr' => ?_⟩
    · rw [Nat.add_zero] at htaken
      have hmoved : (receivedReport t answers r fd).moved = slice fd.memory t.vptr r := take_slice (Nat.le_refl _)
      simpa [receivedBytes, partlyReceived, hmoved] using htaken
    · rcases List.mem_append.mp hr' with hr' | hr'
      · exact I.received r' hr'
      · rw [List.mem_singleton.mp hr']
        exact ⟨hat.2, length_slice⟩

theorem Inv.step (I : Inv capacity s) (h : Step capacity s s') : Inv capacity s' := by
  cases h with
  | send memory vptr nbytes hidle => exact I.send hidle memory vptr nbytes
  | sendAgain hcall hrun _ hroom => exact I.sendAgain hcall hrun hroom
  | sendDone hcall hrun _ hroom => exact I.sendDone hcall hrun hroom
  | recv memory vptr nbytes hidle => exact I.recv hidle memory vptr nbytes
  | recvAgain hcall hrun _ hthere => exact I.recvAgain hcall hrun hthere
  | recvDone hcall hrun _ hthere => exact I.recvDone hcall hrun hthere

theorem Reachable.inv (h : Reachable capacity s) : Inv capacity s :=
  Trans.Reachable.invariant h (fun _ => inv_init) fun _ _ I hs => I.step hs

end Wire

end QPHi
