import QPHi.File

/-! What is written to a file for direct I/O: the bytes that have reached the descriptor, followed by those in the write
    buffer, are the bytes that were passed to `qp_file_write`. -/

namespace QPHi
open Buffer Loop

/-- A file for direct I/O whose first `last` buffered bytes complete the written ones to `sent`; `write` gets on, and
    the descriptor is open. -/
structure Carries (size last : Nat) (sent : List UInt8) (file : File) : Prop where
  direct : file.isDirectIO = true
  inited : file.file.isInited = true
  valid : file.file.isValid = true
  replies : ∀ n, 1 ≤ file.file.replies n
  size : file.wrbufSize = size
  stream : file.file.written ++ slice file.wrbuf 0 last = sent

/-- The state between two operations. -/
structure Faithful (size : Nat) (sent : List UInt8) (file : File) : Prop where
  carries : Carries size file.wrbufOffset sent file
  offset : file.wrbufOffset < size

variable {size last len : Nat} {sent : List UInt8} {file : File} {data : Nat → UInt8}

/-! ### Flushing -/

theorem Descriptor.writes_bound {fd : Descriptor} {n : Nat} (h : 1 ≤ fd.replies fd.clock) (hn : 1 ≤ n) :
    0 < fd.writes n ∧ (fd.writes n).toNat ≤ n := by
  unfold Descriptor.writes
  omega

/-- A flush of some bytes writes at least one of them and keeps the others. -/
theorem Carries.flush (h : Carries size last sent file) (full : Bool) (hlast : last = if full then file.wrbufSize else file.wrbufOffset)
    (hpos : 1 ≤ last) :
    Carries size (fileFlush file full).1.wrbufOffset sent (fileFlush file full).1 ∧
      (fileFlush file full).1.wrbufOffset < last ∧
      (fileFlush file full).2 = (size - (fileFlush file full).1.wrbufOffset : Nat) := by
  obtain ⟨hwrites, hcount⟩ := Descriptor.writes_bound (h.replies _) hpos
  unfold fileFlush
  rw [if_pos h.direct]
  simp only [← hlast, Descriptor.write, if_pos hwrites]
  refine ⟨⟨h.direct, h.inited, h.valid, h.replies, h.size, ?_⟩, ?_, ?_⟩
  · have hsplit : slice file.wrbuf 0 (file.file.writes last).toNat ++ slice file.wrbuf (file.file.writes last).toNat
        (last - (file.file.writes last).toNat) = slice file.wrbuf 0 last := by
      simpa using slice_split (b := file.wrbuf) (i := 0) hcount
    simp only [slice_store, slice_offset, Nat.add_zero, List.append_assoc]
    rw [hsplit, h.stream]
  · omega
  · rw [h.size]

/-- A flush of nothing is a `write` of no bytes. -/
theorem flush_empty (hdirect : file.isDirectIO = true) (hreply : 1 ≤ file.file.replies file.file.clock)
    (hoffset : file.wrbufOffset = 0) :
    fileFlush file false = ({ file with file := { file.file with clock := file.file.clock + 1 }, wrbufOffsetlast := 0 }, 0) := by
  have hwrites : file.file.writes 0 = 0 := by
    unfold Descriptor.writes
    omega
  unfold fileFlush
  rw [if_pos hdirect]
  simp [Descriptor.write, hoffset, hwrites]

theorem Faithful.flush (h : Faithful size sent file) : Faithful size sent (fileFlush file false).1 ∧
    ((fileFlush file false).2 ≤ 0 ∧ (fileFlush file false).1.wrbufOffset = 0 ∨
      0 < (fileFlush file false).2 ∧ (fileFlush file false).1.wrbufOffset < file.wrbufOffset) := by
  by_cases hzero : file.wrbufOffset = 0
  · have hc := h.carries
    rw [flush_empty hc.direct (hc.replies _) hzero]
    exact ⟨⟨⟨hc.direct, hc.inited, hc.valid, hc.replies, hc.size, hc.stream⟩, h.offset⟩, .inl ⟨Int.le_refl 0, hzero⟩⟩
  · obtain ⟨hcarries, hless, hret⟩ := h.carries.flush false rfl (Nat.pos_of_ne_zero hzero)
    have hoffset := h.offset
    exact ⟨⟨hcarries, by omega⟩, .inr ⟨by omega, hless⟩⟩

/-! ### Writing -/

/-- What fits into the buffer is appended to it. -/
theorem Faithful.copyIn (h : Faithful size sent file) (data : Nat → UInt8) (n offset : Nat) :
    Carries size (file.wrbufOffset + n) (sent ++ slice data 0 n) (file.copyIn data n offset) := by
  have hc := h.carries
  refine ⟨hc.direct, hc.inited, hc.valid, hc.replies, hc.size, ?_⟩
  rw [File.copyIn, slice_store_append, ← List.append_assoc, hc.stream]

/-- A round leaves with all bytes taken, or goes on with fewer. -/
theorem Faithful.round (h : Faithful size sent file) (all : Nat) (data : Nat → UInt8) (len : Nat) :
    (∃ file' r, writeRound all (data, len, file) = some (.done (file', r)) ∧ Faithful size (sent ++ slice data 0 len) file') ∨
      ∃ fill file', writeRound all (data, len, file) = some (.again (fun i => data (fill + i), len - fill, file')) ∧
        0 < fill ∧ fill ≤ len ∧ Faithful size (sent ++ slice data 0 fill) file' := by
  have hsize := h.carries.size
  have hoffset := h.offset
  unfold writeRound
  by_cases hfits : file.wrbufSize > file.wrbufOffset + len
  · simp only [if_pos hfits]
    exact .inl ⟨_, _, rfl, h.copyIn data len _, hsize ▸ hfits⟩
  · simp only [if_neg hfits]
    have hfull := h.copyIn data (file.wrbufSize - file.wrbufOffset) (file.wrbufSize - file.wrbufOffset)
    rw [Nat.add_sub_cancel' (by omega)] at hfull
    obtain ⟨hcarries, hless, hret⟩ := hfull.flush true rfl (by omega)
    have hfaithful := Faithful.mk hcarries (hsize ▸ hless)
    by_cases hrest : len - (file.wrbufSize - file.wrbufOffset) = 0
    · have hlen : file.wrbufSize - file.wrbufOffset = len := by omega
      rw [hlen] at hfaithful ⊢
      simp only [Nat.sub_self, or_true, if_true]
      exact .inl ⟨_, _, rfl, hfaithful⟩
    · have hon : ¬(1 > (fileFlush (file.copyIn data (file.wrbufSize - file.wrbufOffset) (file.wrbufSize - file.wrbufOffset)) true).2 ∨
          len - (file.wrbufSize - file.wrbufOffset) = 0) := by omega
      simp only [if_neg hon]
      exact .inr ⟨_, _, rfl, by omega, by omega, hfaithful⟩

/-- `qp_file_write` takes all bytes, however few the kernel takes at once. -/
theorem Faithful.write (h : Faithful size sent file) (data : Nat → UInt8) (len : Nat) :
    ∃ file' r, Returns (fun fuel => fileWrite fuel data len file) (file', r) ∧
      Faithful size (sent ++ slice data 0 len) file' := by
  -- What is taken so far and what is left of `data` make up the whole; every round takes at least one byte.
  have hround : ∀ m (state : (Nat → UInt8) × Nat × File), (state.2.1 = m ∧ ∃ taken, Faithful size taken state.2.2 ∧
      taken ++ slice state.1 0 state.2.1 = sent ++ slice data 0 len) →
      (∃ answer, writeRound len state = some (.done answer) ∧ Faithful size (sent ++ slice data 0 len) answer.1) ∨
        ∃ state' m', writeRound len state = some (.again state') ∧ m' < m ∧ state'.2.1 = m' ∧
          ∃ taken, Faithful size taken state'.2.2 ∧ taken ++ slice state'.1 0 state'.2.1 = sent ++ slice data 0 len := by
    rintro m ⟨data', len', file'⟩ ⟨rfl, taken, hfaithful, htaken⟩
    rw [← htaken]
    rcases hfaithful.round len data' len' with ⟨file'', r, hdone, hpost⟩ | ⟨fill, file'', hagain, hpos, hle, hpost⟩
    · exact .inl ⟨_, hdone, hpost⟩
    · refine .inr ⟨_, _, hagain, Nat.sub_lt (Nat.lt_of_lt_of_le hpos hle) hpos, rfl, _, hpost, ?_⟩
      have hsplit := slice_split (b := data') (i := 0) hle
      rw [Nat.zero_add] at hsplit
      rw [slice_offset, Nat.add_zero, List.append_assoc, hsplit]
  obtain ⟨answer, hpost, hreturns⟩ := iterate_returns _ _ hround (s := (data, len, file)) ⟨rfl, sent, h, rfl⟩
  refine ⟨answer.1, answer.2, hreturns.congr fun fuel => ?_, hpost⟩
  unfold fileWrite
  simp [h.carries.inited, h.carries.direct]

/-! ### Closing -/

theorem Faithful.drain (h : Faithful size sent file) :
    ∃ file', Returns (fun fuel => fileDrain fuel file) file' ∧ Faithful size sent file' ∧ file'.wrbufOffset = 0 := by
  have hround : ∀ m (state : File), (state.wrbufOffset = m ∧ Faithful size sent state) →
      (∃ answer, closeRound state = some (.done answer) ∧ Faithful size sent answer ∧ answer.wrbufOffset = 0) ∨
        ∃ state' m', closeRound state = some (.again state') ∧ m' < m ∧ state'.wrbufOffset = m' ∧ Faithful size sent state' := by
    rintro m state ⟨rfl, hfaithful⟩
    obtain ⟨hflushed, ⟨hret, hzero⟩ | ⟨hret, hless⟩⟩ := hfaithful.flush
    · exact .inl ⟨_, if_neg (Int.not_lt.mpr hret), hflushed, hzero⟩
    · exact .inr ⟨_, _, if_pos hret, hless, rfl, hflushed⟩
  by_cases hzero : 0 < file.wrbufOffset
  · obtain ⟨file', hpost, hreturns⟩ := iterate_returns _ _ hround (s := file) ⟨rfl, h⟩
    exact ⟨file', hreturns.congr fun fuel => if_pos ⟨h.carries.direct, hzero⟩, hpost⟩
  · exact ⟨file, .of_eq fun fuel => if_neg fun hdrain => hzero hdrain.2, h, Nat.eq_zero_of_not_pos hzero⟩

/-- `qp_file_close` writes all that is in the buffer. -/
theorem Faithful.close (h : Faithful size sent file) :
    ∃ file', Returns (fun fuel => fileClose fuel file) (file', QP_SUCCESS) ∧ file'.wrbufOffset = 0 ∧ file'.wrbufOffset < file'.wrbufSize ∧
      file'.file.written ++ slice file'.wrbuf 0 file'.wrbufOffset = sent := by
  obtain ⟨file', hreturns, hfaithful, hzero⟩ := h.drain
  have hclose : file'.file.close = ({ file'.file with isValid := false }, QP_SUCCESS) := if_pos hfaithful.carries.valid
  refine ⟨{ file' with file := file'.file.close.1 }, ?_, hzero, ?_, ?_⟩
  · refine (hreturns.bind (g := fun _ file => some ({ file with file := file.file.close.1 }, file.file.close.2)) ?_).congr
      fun fuel => if_pos h.carries.valid
    refine .of_eq fun fuel => ?_
    rw [hclose]
  · exact hfaithful.carries.size ▸ hfaithful.offset
  · rw [hclose]
    exact hfaithful.carries.stream

/-! ### Runs -/

inductive FileOp where
  | write (data : Nat → UInt8) (len : Nat)
  | flush

/-- One operation on a file; the results are left out. -/
def FileOp.run (fuel : Nat) (file : File) : FileOp → Option File
  | .write data len => (fileWrite fuel data len file).map (·.1)
  | .flush => some (fileFlush file false).1

def FileOp.runAll (fuel : Nat) : List FileOp → File → Option File
  | [], file => some file
  | op :: ops, file => op.run fuel file >>= runAll fuel ops

/-- The bytes that are passed to `qp_file_write`. -/
def FileOp.bytes : FileOp → List UInt8
  | .write data len => slice data 0 len
  | .flush => []

theorem Faithful.op (h : Faithful size sent file) (op : FileOp) :
    ∃ file', Returns (fun fuel => op.run fuel file) file' ∧ Faithful size (sent ++ op.bytes) file' := by
  cases op with
  | write data len =>
    obtain ⟨file', r, ⟨n, hn⟩, hfaithful⟩ := h.write data len
    refine ⟨file', ⟨n, fun m hm => ?_⟩, hfaithful⟩
    simp only [FileOp.run, hn m hm]
    rfl
  | flush =>
    rw [FileOp.bytes, List.append_nil]
    exact ⟨_, .of_eq fun _ => rfl, h.flush.1⟩

theorem Faithful.ops (ops : List FileOp) : ∀ {sent : List UInt8} {file : File}, Faithful size sent file →
    ∃ file', Returns (fun fuel => FileOp.runAll fuel ops file) file' ∧ Faithful size (sent ++ ops.flatMap FileOp.bytes) file' := by
  induction ops with
  | nil =>
    intro sent file h
    rw [List.flatMap_nil, List.append_nil]
    exact ⟨file, .of_eq fun _ => rfl, h⟩
  | cons op ops ih =>
    intro sent file h
    obtain ⟨file', hreturns, hfaithful⟩ := h.op op
    obtain ⟨file'', hreturns', hfaithful'⟩ := ih hfaithful
    rw [List.flatMap_cons, ← List.append_assoc]
    exact ⟨file'', hreturns.bind hreturns', hfaithful'⟩

/-- The operations on a freshly opened file for direct I/O end, and the bytes that have reached the descriptor, followed
    by those in the buffer, are the bytes that were passed to `qp_file_write`; `qp_file_close` leaves nothing behind. -/
theorem writes_faithful (size : Nat) (hsize : 1 ≤ size) (fd : Descriptor) (hwritten : fd.written = [])
    (hreplies : ∀ n, 1 ≤ fd.replies n) (wrbuf rdbuf : Nat → UInt8) (ops : List FileOp) :
    ∃ file, Returns (fun fuel => FileOp.runAll fuel ops (fileOpen (fileInit true size fd wrbuf rdbuf)).1) file ∧
      file.file.written ++ slice file.wrbuf 0 file.wrbufOffset = ops.flatMap FileOp.bytes ∧
      file.wrbufOffset < file.wrbufSize ∧
      ∃ file', Returns (fun fuel => fileClose fuel file) (file', QP_SUCCESS) ∧ file'.wrbufOffset = 0 ∧
        file'.wrbufOffset < file'.wrbufSize ∧
        file'.file.written ++ slice file'.wrbuf 0 file'.wrbufOffset = ops.flatMap FileOp.bytes := by
  have hopen : Faithful size [] (fileOpen (fileInit true size fd wrbuf rdbuf)).1 := by
    have hdirect : (true && decide (0 < size)) = true := decide_eq_true hsize
    simp only [fileOpen, fileInit, hdirect, Bool.false_eq_true, if_false, if_true]
    exact ⟨⟨rfl, rfl, rfl, hreplies, rfl, by simpa using hwritten⟩, hsize⟩
  obtain ⟨file, hreturns, hfaithful⟩ := Faithful.ops ops hopen
  rw [List.nil_append] at hfaithful
  exact ⟨file, hreturns, hfaithful.carries.stream, hfaithful.carries.size ▸ hfaithful.offset, hfaithful.close⟩

/-- Three bytes through a buffer of two, of which the kernel takes one at a time. -/
theorem writes_faithful_three : ∃ file, Returns (fun fuel => FileOp.runAll fuel [.write (fun i => UInt8.ofNat (7 + i)) 3, .flush]
    (fileOpen (fileInit true 2 ⟨[], [], fun _ => 1, 0, true, false⟩ (fun _ => 0) fun _ => 0)).1) file ∧
      file.file.written ++ slice file.wrbuf 0 file.wrbufOffset = [7, 8, 9] := by
  obtain ⟨file, hreturns, hstream, -⟩ := writes_faithful 2 (by decide) ⟨[], [], fun _ => 1, 0, true, false⟩ rfl
    (fun _ => Int.le_refl 1) (fun _ => 0) (fun _ => 0) [.write (fun i => UInt8.ofNat (7 + i)) 3, .flush]
  exact ⟨file, hreturns, hstream⟩

end QPHi
