import QPHi.Theorems.File.Write

/-! What a call of `qp_file_write` on a file for direct I/O returns and leaves behind, for any answers of `write`: the
    buffer is filled and flushed as a whole until the rest of the data fits, or a flush fails. -/

namespace QPHi
open Buffer Loop

/-! ### The answers of a call -/

namespace File

/-- What flush number `n` of the call is answered, which asks for a whole buffer. -/
def answer (file : File) (n : Nat) : Int := min (file.file.replies (file.file.clock + n)) file.wrbufSize

/-- The bytes that the first `n` flushes write. -/
def flushed (file : File) : Nat → Nat
  | 0 => 0
  | n + 1 => file.flushed n + (file.answer n).toNat

/-- The bytes that are in the buffer before fill number `n`. -/
def level (file : File) : Nat → Nat
  | 0 => file.wrbufOffset
  | n + 1 => file.wrbufSize - (file.answer n).toNat

/-- The bytes of the data that are taken after fill number `n`. -/
def filled (file : File) (n : Nat) : Nat := file.wrbufSize - file.wrbufOffset + file.flushed n

/-- The bytes of the data that are taken before fill number `n`. -/
def taken (file : File) : Nat → Nat
  | 0 => 0
  | n + 1 => file.filled n

end File

variable {file file' : File} {data data' : Nat → UInt8} {len len' n m : Nat} {r : Int}

theorem File.answer_le (file : File) (n : Nat) : (file.answer n).toNat ≤ file.wrbufSize := by
  have hle : file.answer n ≤ file.wrbufSize := Int.min_le_right _ _
  omega

/-- What is written and buffered are the old bytes of the buffer and those that are taken. -/
theorem File.taken_add (hoffset : file.wrbufOffset < file.wrbufSize) (n : Nat) :
    file.taken n + file.wrbufOffset = file.flushed n + file.level n := by
  cases n with
  | zero => simp [File.taken, File.flushed, File.level]
  | succ n =>
    have hle := file.answer_le n
    simp only [File.taken, File.filled, File.flushed, File.level]
    omega

theorem File.level_lt (hoffset : file.wrbufOffset < file.wrbufSize) (hgoes : ∀ i < n, 1 ≤ file.answer i) :
    file.level n < file.wrbufSize := by
  cases n with
  | zero => exact hoffset
  | succ n =>
    have hpos := hgoes n (Nat.lt_succ_self n)
    simp only [File.level]
    omega

theorem File.filled_eq (hoffset : file.wrbufOffset < file.wrbufSize) (hgoes : ∀ i < n, 1 ≤ file.answer i) :
    file.filled n = file.taken n + (file.wrbufSize - file.level n) := by
  have htaken := file.taken_add hoffset n
  have hlevel := File.level_lt hoffset hgoes
  rw [File.filled]
  omega

theorem File.filled_lt (hgoes : 1 ≤ file.answer n) : file.filled n < file.filled (n + 1) := by
  simp only [File.filled, File.flushed]
  omega

theorem File.filled_le (hgoes : ∀ i < n, 1 ≤ file.answer i) (hm : m ≤ n) : file.filled m ≤ file.filled n := by
  induction n with
  | zero =>
    obtain rfl := Nat.le_zero.mp hm
    exact Nat.le_refl _
  | succ n ih =>
    rcases Nat.lt_or_ge n m with hlt | hge
    · obtain rfl : m = n + 1 := by omega
      exact Nat.le_refl _
    · exact Nat.le_trans (ih (fun i hi => hgoes i (Nat.lt_succ_of_lt hi)) hge)
        (Nat.le_of_lt (File.filled_lt (hgoes n (Nat.lt_succ_self n))))

/-! ### The rounds -/

/-- What has reached the descriptor since `file`, followed by what is in the buffer, is what was in the buffer followed
    by the first `c` bytes of the data. -/
def Retains (file : File) (data : Nat → UInt8) (c : Nat) (file' : File) : Prop :=
  ∃ bytes, file'.file.written = file.file.written ++ bytes ∧
    bytes ++ slice file'.wrbuf 0 file'.wrbufOffset = slice file.wrbuf 0 file.wrbufOffset ++ slice data 0 c

/-- The state of the call before fill number `n`. -/
structure Midway (file : File) (data : Nat → UInt8) (len n : Nat) (data' : Nat → UInt8) (len' : Nat) (file' : File) :
    Prop where
  direct : file'.isDirectIO = true
  size : file'.wrbufSize = file.wrbufSize
  replies : file'.file.replies = file.file.replies
  clock : file'.file.clock = file.file.clock + n
  offset : file'.wrbufOffset = file.level n
  goes : ∀ i < n, 1 ≤ file.answer i
  left : n = 0 ∨ 0 < len'
  rest : file.taken n + len' = len
  advanced : data' = fun i => data (file.taken n + i)
  written : ∃ bytes, file'.file.written = file.file.written ++ bytes ∧ bytes.length = file.flushed n ∧
    bytes ++ slice file'.wrbuf 0 file'.wrbufOffset = slice file.wrbuf 0 file.wrbufOffset ++ slice data 0 (file.taken n)

/-- How a call ends: the rest of the data fits, the last flush follows the last byte, or a flush fails. -/
inductive Ended (file : File) (data : Nat → UInt8) (len : Nat) : File → Int → Prop
  | fits {n : Nat} {file' : File} (hgoes : ∀ i < n, 1 ≤ file.answer i) (hleft : n = 0 ∨ file.taken n < len)
      (hroom : len < file.filled n) (hretains : Retains file data len file') :
      Ended file data len file' (len - file.taken n : Nat)
  | full {n : Nat} {file' : File} (hgoes : ∀ i < n, 1 ≤ file.answer i) (hlast : 1 ≤ file.answer n)
      (hlen : file.filled n = len) (hretains : Retains file data len file') : Ended file data len file' len
  | failed {n : Nat} {file' : File} {bytes : List UInt8} (hgoes : ∀ i < n, 1 ≤ file.answer i)
      (hfails : file.answer n < 1) (hlen : file.filled n ≤ len)
      (hwritten : file'.file.written = file.file.written ++ bytes) (hbytes : bytes.length = file.flushed n)
      (hoffset : file'.wrbufOffset = file.wrbufSize - file.level n)
      (hstream : bytes ++ slice file'.wrbuf 0 file.wrbufSize =
        slice file.wrbuf 0 file.wrbufOffset ++ slice data 0 (file.filled n)) :
      Ended file data len file' (if file.filled n = len then len else file.answer n)

/-- A flush of the whole buffer that gets on. -/
structure Flushed (file file' : File) : Prop where
  direct : file'.isDirectIO = file.isDirectIO
  size : file'.wrbufSize = file.wrbufSize
  replies : file'.file.replies = file.file.replies
  clock : file'.file.clock = file.file.clock + 1
  offset : file'.wrbufOffset = file.level 1
  written : file'.file.written = file.file.written ++ slice file.wrbuf 0 (file.answer 0).toNat
  buffer : slice file.wrbuf 0 (file.answer 0).toNat ++ slice file'.wrbuf 0 file'.wrbufOffset =
    slice file.wrbuf 0 file.wrbufSize

theorem flush_goes (hdirect : file.isDirectIO = true) (hgoes : 0 < file.answer 0) :
    ∃ file', fileFlush file true = (file', file.answer 0) ∧ Flushed file file' := by
  have hle := file.answer_le 0
  have hwrites : file.file.writes file.wrbufSize = file.answer 0 := rfl
  have hret : ((file.wrbufSize - (file.wrbufSize - (file.answer 0).toNat) : Nat) : Int) = file.answer 0 := by omega
  refine ⟨{ file with
    file := { file.file with
      written := file.file.written ++ slice file.wrbuf 0 (file.answer 0).toNat, clock := file.file.clock + 1 }
    wrbufOffsetlast := file.wrbufSize
    wrbufOffset := file.wrbufSize - (file.answer 0).toNat
    wrbuf := store file.wrbuf 0 (file.wrbufSize - (file.answer 0).toNat) fun i => file.wrbuf ((file.answer 0).toNat + i) },
    ?_, ⟨rfl, rfl, rfl, rfl, rfl, rfl, ?_⟩⟩
  · unfold fileFlush
    rw [if_pos hdirect]
    simp only [if_true, Descriptor.write, hwrites, if_pos hgoes, hret]
  · have hsplit := slice_split (b := file.wrbuf) (i := 0) hle
    rw [Nat.zero_add] at hsplit
    simp only [slice_store, slice_offset, Nat.add_zero]
    exact hsplit

theorem flush_fails (hdirect : file.isDirectIO = true) (hfails : file.answer 0 < 1) :
    ∃ file', fileFlush file true = (file', file.answer 0) ∧ file'.file.written = file.file.written ∧
      file'.wrbuf = file.wrbuf ∧ file'.wrbufOffset = file.wrbufOffset := by
  have hwrites : file.file.writes file.wrbufSize = file.answer 0 := rfl
  have hnone : (file.answer 0).toNat = 0 := by omega
  have hstop : ¬0 < file.answer 0 := by omega
  refine ⟨{ file with file := { file.file with clock := file.file.clock + 1 }, wrbufOffsetlast := file.wrbufSize }, ?_,
    rfl, rfl, rfl⟩
  unfold fileFlush
  rw [if_pos hdirect]
  simp only [if_true, Descriptor.write, hwrites, if_neg hstop, hnone, slice_zero, List.append_nil]

namespace Midway
variable (M : Midway file data len n data' len' file')
include M

/-- Copying `k` bytes in appends them to what is written and buffered. -/
theorem copyIn {bytes : List UInt8} (k offset : Nat) (hstream : bytes ++ slice file'.wrbuf 0 file'.wrbufOffset =
    slice file.wrbuf 0 file.wrbufOffset ++ slice data 0 (file.taken n)) :
    bytes ++ slice (file'.copyIn data' k offset).wrbuf 0 (file'.wrbufOffset + k) =
      slice file.wrbuf 0 file.wrbufOffset ++ slice data 0 (file.taken n + k) := by
  have happend := slice_append (b := data) (i := 0) (m := file.taken n) (n := k)
  rw [Nat.zero_add] at happend
  simp only [File.copyIn, slice_store_append]
  rw [← List.append_assoc, hstream, M.advanced, slice_offset, List.append_assoc, Nat.add_zero, happend]

theorem answer_copyIn (k offset : Nat) : (file'.copyIn data' k offset).answer 0 = file.answer n := by
  simp only [File.answer, File.copyIn, M.replies, M.clock, M.size, Nat.add_zero]

/-- What the fill and the flush of a round leave. -/
theorem next {fill : Nat} (hoffset : file.wrbufOffset < file.wrbufSize) (hfill : fill = file.wrbufSize - file.level n)
    {file'' : File} (F : Flushed (file'.copyIn data' fill fill) file'') :
    ∃ bytes, file''.file.written = file.file.written ++ bytes ∧ bytes.length = file.flushed (n + 1) ∧
      bytes ++ slice file''.wrbuf 0 file''.wrbufOffset =
        slice file.wrbuf 0 file.wrbufOffset ++ slice data 0 (file.filled n) := by
  obtain ⟨bytes, hwritten, hbytes, hstream⟩ := M.written
  have hlevel := File.level_lt hoffset M.goes
  have hfull := M.copyIn fill fill hstream
  have hwhole : file'.wrbufOffset + fill = (file'.copyIn data' fill fill).wrbufSize := by
    have hsize : (file'.copyIn data' fill fill).wrbufSize = file.wrbufSize := M.size
    rw [hsize, M.offset]
    omega
  rw [hwhole, ← F.buffer, ← List.append_assoc, hfill, ← File.filled_eq hoffset M.goes, ← hfill] at hfull
  refine ⟨_, ?_, ?_, hfull⟩
  · rw [F.written, ← List.append_assoc]
    exact congrArg (· ++ _) hwritten
  · rw [List.length_append, hbytes, length_slice, M.answer_copyIn]
    rfl

theorem round (hoffset : file.wrbufOffset < file.wrbufSize) :
    (∃ file'' r, writeRound len (data', len', file') = some (.done (file'', r)) ∧ Ended file data len file'' r) ∨
      ∃ fill file'', writeRound len (data', len', file') = some (.again (fun i => data' (fill + i), len' - fill, file'')) ∧
        len' - fill < len' ∧ Midway file data len (n + 1) (fun i => data' (fill + i)) (len' - fill) file'' := by
  have hlevel := File.level_lt hoffset M.goes
  have hfilled := File.filled_eq hoffset M.goes
  have hrest := M.rest
  obtain ⟨bytes, hwritten, hbytes, hstream⟩ := M.written
  unfold writeRound
  by_cases hfits : file'.wrbufSize > file'.wrbufOffset + len'
  · simp only [if_pos hfits]
    rw [M.size, M.offset] at hfits
    have hlen : len' = len - file.taken n := by omega
    have hall := M.copyIn len' (file'.wrbufOffset + len') hstream
    rw [hrest] at hall
    refine .inl ⟨_, _, rfl, ?_⟩
    rw [hlen] at hall ⊢
    exact .fits M.goes (M.left.imp_right fun h => by omega) (by omega) ⟨bytes, hwritten, hall⟩
  simp only [if_neg hfits]
  rw [M.size, M.offset] at hfits
  obtain ⟨fill, hfill⟩ : ∃ fill, fill = file.wrbufSize - file.level n := ⟨_, rfl⟩
  rw [M.size, M.offset, ← hfill]
  have hanswer := M.answer_copyIn fill fill
  have hdirect : File.isDirectIO (file'.copyIn data' fill fill) = true := M.direct
  by_cases hgoes : 0 < file.answer n
  · obtain ⟨file'', hflush, F⟩ := flush_goes hdirect (hanswer ▸ hgoes)
    obtain ⟨bytes', hwritten', hbytes', hstream'⟩ := M.next hoffset hfill F
    simp only [hflush, hanswer]
    by_cases hdone : len' - fill = 0
    · have hlen : file.filled n = len := by omega
      rw [hlen] at hstream'
      simp only [hdone, or_true, if_true, ne_eq, not_true_eq_false, if_false]
      exact .inl ⟨_, _, rfl, .full M.goes hgoes hlen ⟨bytes', hwritten', hstream'⟩⟩
    · have hon : ¬(1 > file.answer n ∨ len' - fill = 0) := by omega
      simp only [if_neg hon]
      refine .inr ⟨fill, _, rfl, by omega, ⟨F.direct.trans M.direct, F.size.trans M.size, F.replies.trans M.replies,
        ?_, ?_, fun i hi => ?_, .inr (by omega), ?_, ?_, bytes', hwritten', hbytes', hstream'⟩⟩
      · rw [F.clock]
        exact congrArg (· + 1) M.clock
      · rw [F.offset]
        simp only [File.level, hanswer]
        exact congrArg (· - _) M.size
      · rcases Nat.lt_succ_iff_lt_or_eq.mp hi with hi | rfl
        · exact M.goes i hi
        · exact hgoes
      · rw [File.taken]
        omega
      · funext i
        simp only [M.advanced, File.taken, hfilled, hfill, Nat.add_assoc]
  · obtain ⟨file'', hflush, hwritten'', hwrbuf, hoffset''⟩ := flush_fails hdirect (by rw [hanswer]; omega)
    have hstop : 1 > file.answer n ∨ len' - fill = 0 := .inl (by omega)
    have hret : (if len' - fill ≠ 0 then file.answer n else (len : Int)) =
        if file.filled n = len then (len : Int) else file.answer n := by
      by_cases hlast : file.filled n = len
      · rw [if_pos hlast, if_neg (by omega)]
      · rw [if_neg hlast, if_pos (by omega)]
    have hfull := M.copyIn fill fill hstream
    have hwhole : file'.wrbufOffset + fill = file.wrbufSize := by
      rw [M.offset]
      omega
    rw [hwhole, hfill, ← hfilled, ← hfill] at hfull
    simp only [hflush, hanswer, if_pos hstop, hret]
    exact .inl ⟨_, _, rfl, .failed M.goes (by omega) (by omega) (hwritten''.trans hwritten) hbytes
      (hoffset''.trans hfill) (by rw [hwrbuf]; exact hfull)⟩

end Midway

/-- Every call ends. -/
theorem write_ended (hdirect : file.isDirectIO = true) (hinited : file.file.isInited = true)
    (hoffset : file.wrbufOffset < file.wrbufSize) (data : Nat → UInt8) (len : Nat) :
    ∃ file' r, Returns (fun fuel => fileWrite fuel data len file) (file', r) ∧ Ended file data len file' r := by
  have hround : ∀ m (state : (Nat → UInt8) × Nat × File),
      (state.2.1 = m ∧ ∃ n, Midway file data len n state.1 state.2.1 state.2.2) →
      (∃ answer, writeRound len state = some (.done answer) ∧ Ended file data len answer.1 answer.2) ∨
        ∃ state' m', writeRound len state = some (.again state') ∧ m' < m ∧ state'.2.1 = m' ∧
          ∃ n, Midway file data len n state'.1 state'.2.1 state'.2.2 := by
    rintro m ⟨data', len', file'⟩ ⟨rfl, n, M⟩
    rcases M.round hoffset with ⟨file'', r, hdone, hended⟩ | ⟨fill, file'', hagain, hless, M'⟩
    · exact .inl ⟨_, hdone, hended⟩
    · exact .inr ⟨_, _, hagain, hless, rfl, n + 1, M'⟩
  have M : Midway file data len 0 data len file :=
    ⟨hdirect, rfl, rfl, rfl, rfl, fun i hi => absurd hi (Nat.not_lt_zero i), .inl rfl, Nat.zero_add len,
      by simp [File.taken], [], by simp, rfl, by simp [File.taken]⟩
  obtain ⟨answer, hended, hreturns⟩ := iterate_returns _ _ hround (s := (data, len, file)) ⟨rfl, 0, M⟩
  refine ⟨answer.1, answer.2, hreturns.congr fun fuel => ?_, hended⟩
  unfold fileWrite
  simp [hinited, hdirect]

/-! ### The count that is returned -/

/-- The call consumes all of the data and returns its length. -/
def Reports (file : File) (data : Nat → UInt8) (len : Nat) : Prop :=
  ∃ file', Returns (fun fuel => fileWrite fuel data len file) (file', (len : Int)) ∧ Retains file data len file'

/-- While every `write` gets on, the length is returned if and only if the data fits into the buffer, or its last byte
    fills the buffer. -/
theorem write_reports_iff (hdirect : file.isDirectIO = true) (hinited : file.file.isInited = true)
    (hoffset : file.wrbufOffset < file.wrbufSize) (hanswers : ∀ n, 1 ≤ file.file.replies n) (data : Nat → UInt8) (len : Nat) :
    Reports file data len ↔ file.wrbufOffset + len < file.wrbufSize ∨ ∃ n, file.filled n = len := by
  have hgoes : ∀ n, 1 ≤ file.answer n := by
    intro n
    have hreply := hanswers (file.file.clock + n)
    simp only [File.answer]
    omega
  obtain ⟨file', r, hreturns, hended⟩ := write_ended hdirect hinited hoffset data len
  cases hended with
  | @fits n _ _ hleft hroom hretains =>
    cases n with
    | zero =>
      have hroom : len < file.wrbufSize - file.wrbufOffset := hroom
      exact iff_of_true ⟨file', hreturns, hretains⟩ (.inl (by omega))
    | succ n =>
      -- The last round returns what it was left with.
      have hleft : file.filled n < len := hleft.resolve_left (Nat.succ_ne_zero n)
      have hpos : file.wrbufSize - file.wrbufOffset ≤ file.filled n := Nat.le_add_right _ _
      refine iff_of_false ?_ ?_
      · rintro ⟨file'', hreturns', -⟩
        have hret := (Prod.mk.inj (hreturns.unique hreturns')).2
        simp only [File.taken] at hret
        omega
      · rintro (hfits | ⟨k, hk⟩)
        · omega
        · rcases Nat.lt_or_ge n k with hlt | hge
          · have := File.filled_le (fun i _ => hgoes i) (show n + 1 ≤ k from hlt)
            omega
          · have := File.filled_le (fun i _ => hgoes i) hge
            omega
  | @full n _ _ _ hlen hretains => exact iff_of_true ⟨file', hreturns, hretains⟩ (.inr ⟨n, hlen⟩)
  | @failed n _ _ _ hfails =>
    have := hgoes n
    omega

/-- A file with the bytes 0, 1 and so on in its buffer. -/
def sampleFile (size offset : Nat) (replies : Nat → Int) : File :=
  ⟨⟨[], [], replies, 0, true, true⟩, fun i => UInt8.ofNat i, fun _ => 0, size, size, offset, 0, 0, 0, true⟩

theorem write_reports_iff_four : Reports (sampleFile 2 0 fun _ => 2) (fun i => UInt8.ofNat i) 4 :=
  (write_reports_iff rfl rfl (by decide) (fun _ => Int.le_add_one (Int.le_refl 1)) _ 4).mpr (.inr ⟨1, rfl⟩)

/-- Of three bytes one is reported. -/
theorem write_not_reports : ¬Reports (sampleFile 2 0 fun _ => 2) (fun i => UInt8.ofNat i) 3 := by
  rintro ⟨file', ⟨n, hn⟩, -⟩
  have hret : some (1 : Int) = some 3 := congrArg (Option.map Prod.snd) (hn (n + 2) (Nat.le_add_right n 2))
  cases hret

/-! ### Failing flushes -/

/-- What is buffered when the call returns, behind what the descriptor has accepted, is what was buffered before and a
    part of the data: all of it if the call returns a positive count. -/
def Survives (file : File) (data : Nat → UInt8) (len : Nat) : Prop :=
  ∃ file' r, Returns (fun fuel => fileWrite fuel data len file) (file', r) ∧
    ∃ c ≤ len, Retains file data c file' ∧ (0 < r → c = len)

/-- A flush that fails leaves the first `c` bytes of the data behind what was buffered. -/
theorem retains_of_take {bytes : List UInt8} {c k size total : Nat} (hwritten : file'.file.written = file.file.written ++ bytes)
    (hoffset : file'.wrbufOffset = k) (hk : k ≤ size) (hc : bytes.length + k = file.wrbufOffset + c) (htotal : c ≤ total)
    (hstream : bytes ++ slice file'.wrbuf 0 size = slice file.wrbuf 0 file.wrbufOffset ++ slice data 0 total) :
    Retains file data c file' := by
  have htake := congrArg (List.take (bytes.length + k)) hstream
  rw [List.take_length_add_append, take_slice hk, hc, show file.wrbufOffset + c =
    (slice file.wrbuf 0 file.wrbufOffset).length + c by rw [length_slice], List.take_length_add_append,
    take_slice htotal] at htake
  exact ⟨bytes, hwritten, hoffset ▸ htake⟩

theorem Retains.length {bytes : List UInt8} {c : Nat} (h : Retains file data c file')
    (hwritten : file'.file.written = file.file.written ++ bytes) :
    bytes.length + file'.wrbufOffset = file.wrbufOffset + c := by
  obtain ⟨bytes', hwritten', hstream⟩ := h
  obtain rfl := List.append_cancel_left (hwritten.symm.trans hwritten')
  have hlen := congrArg List.length hstream
  simpa using hlen

/-- Nothing is lost if and only if at the flush that fails, if there is one, the buffer was empty before it was filled, or
    data is left and what was accepted and copied in is no less than what was buffered before. -/
theorem write_survives_iff (hdirect : file.isDirectIO = true) (hinited : file.file.isInited = true)
    (hoffset : file.wrbufOffset < file.wrbufSize) (data : Nat → UInt8) (len : Nat) :
    Survives file data len ↔ ∀ n, (∀ i < n, 1 ≤ file.answer i) → file.answer n < 1 → file.filled n ≤ len →
      file.level n = 0 ∨ file.filled n < len ∧ file.wrbufOffset ≤ file.flushed n + (file.wrbufSize - file.level n) := by
  obtain ⟨file', r, hreturns, hended⟩ := write_ended hdirect hinited hoffset data len
  cases hended with
  | @fits n _ hgoes _ hroom hretains =>
    refine iff_of_true ⟨file', _, hreturns, len, Nat.le_refl len, hretains, fun _ => rfl⟩ fun k hgoes' hfails hle => ?_
    rcases Nat.lt_or_ge k n with hlt | hge
    · have := hgoes k hlt
      omega
    · have := File.filled_le hgoes' hge
      omega
  | @full n _ hgoes hlast hlen hretains =>
    refine iff_of_true ⟨file', _, hreturns, len, Nat.le_refl len, hretains, fun _ => rfl⟩ fun k hgoes' hfails hle => ?_
    rcases Nat.lt_trichotomy k n with hlt | rfl | hgt
    · have := hgoes k hlt
      omega
    · omega
    · have hless := File.filled_lt hlast
      have := File.filled_le hgoes' (show n + 1 ≤ k from hgt)
      omega
  | @failed n _ bytes hgoes hfails hle hwritten hbytes hoffset' hstream =>
    have hlevel := File.level_lt hoffset hgoes
    have hfilled := File.filled_eq hoffset hgoes
    have htaken := file.taken_add hoffset n
    constructor
    · rintro ⟨file'', r', hreturns', c, hc, hretains, hpos⟩ k hgoes' hfails' hle'
      obtain ⟨rfl, rfl⟩ := Prod.mk.inj (hreturns.unique hreturns')
      have hlen := hretains.length hwritten
      rw [hbytes, hoffset'] at hlen
      rcases Nat.lt_trichotomy k n with hlt | rfl | hgt
      · have := hgoes k hlt
        omega
      · by_cases hall : file.filled k = len
        · rw [if_pos hall] at hpos
          have := hpos (by omega)
          exact .inl (by omega)
        · exact .inr ⟨by omega, by omega⟩
      · have := hgoes' n hgt
        omega
    · intro hcond
      have hcase := hcond n hgoes hfails hle
      have hold : file.wrbufOffset ≤ file.flushed n + (file.wrbufSize - file.level n) := by omega
      obtain ⟨c, hc⟩ := Nat.exists_eq_add_of_le hold
      refine ⟨file', _, hreturns, c, by omega, retains_of_take hwritten hoffset' (Nat.sub_le _ _) (by rw [hbytes, hc])
        (by omega) hstream, fun hpos => ?_⟩
      by_cases hall : file.filled n = len
      · omega
      · rw [if_neg hall] at hpos
        omega

theorem write_survives_iff_empty : Survives (sampleFile 2 0 fun _ => -1) (fun i => UInt8.ofNat i) 2 := by
  refine (write_survives_iff rfl rfl (by decide) _ 2).mpr fun n hgoes hfails _ => ?_
  cases n with
  | zero => exact .inl rfl
  | succ n =>
    have hfirst := hgoes 0 (Nat.succ_pos n)
    exact absurd hfirst (by decide)

/-- With three bytes in a buffer of four, a failing flush leaves one of them. -/
theorem write_not_survives : ¬Survives (sampleFile 4 3 fun _ => -1) (fun i => UInt8.ofNat i) 2 := by
  rintro ⟨file', r, ⟨n, hn⟩, c, hc, hretains, hpos⟩
  have hrun := hn (n + 1) (Nat.le_add_right n 1)
  have hwritten : some [] = some file'.file.written :=
    congrArg (Option.map fun answer : File × Int => answer.1.file.written) hrun
  have hoffset : some 1 = some file'.wrbufOffset :=
    congrArg (Option.map fun answer : File × Int => answer.1.wrbufOffset) hrun
  have hlen := hretains.length (show file'.file.written = [] ++ [] from (Option.some.inj hwritten).symm)
  rw [← Option.some.inj hoffset] at hlen
  have hthree : (sampleFile 4 3 fun _ => -1).wrbufOffset = 3 := rfl
  rw [hthree, List.length_nil] at hlen
  omega

end QPHi
