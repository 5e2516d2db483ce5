import QPHi.Heap
import QPHi.Lib.Buffer
import QPHi.Lib.Command

/-! The direct I/O of `qp_file.c` at the level of its words and copies: the cursors are words of 64 bits, and a copy that
    leaves its buffer is stuck. What the bytes are does not matter here, so they are of any type. -/

namespace QPHi
open Buffer Command

/-- `QP_FILE_PATH_LEN_MAX`. -/
def pathLenMax : Nat := 1024

/-- A `size_t` as a `ssize_t`. -/
def ssize (n : Nat) : Int := (n : Int).bmod (2 ^ 64)

/-- The size of an object is at most `PTRDIFF_MAX`. -/
abbrev Length := { n : Nat // n < 2 ^ 63 }

/-- The data of a caller. -/
structure Data (α : Type) where
  byte : Nat → α
  len : Length

/-- An open file: the bytes that are still to be read, those that were written, and what the system calls answer. -/
structure Stream (α : Type) where
  content : List α
  written : List α
  replies : Nat → Int
  clock : Nat

/-- `struct qp_file_s` of a file for direct I/O, with the file behind its descriptor. -/
structure Direct (α : Type) where
  wrbuf : Nat → α
  rdbuf : Nat → α
  wrbufSize : Nat
  rdbufSize : Nat
  wrbufOffset : Nat
  wrbufOffsetlast : Nat
  rdbufOffset : Nat
  rdbufOffsetlast : Nat
  isValid : Bool
  stream : Stream α

variable {α : Type}

namespace Direct

/-! ### Copies and system calls -/

/-- `memcpy` from the data of the caller into the write buffer. -/
def copyIn (data : Data α) (source dest n : Nat) : Cmd (Direct α) Unit := do
  let file ← get
  if dest + n ≤ file.wrbufSize ∧ source + n ≤ data.len then
    set { file with wrbuf := store file.wrbuf dest n fun i => data.byte (source + i) }
  else stuck

/-- `memcpy` to the start of the write buffer. -/
def copyDown (source n : Nat) : Cmd (Direct α) Unit := do
  let file ← get
  if source + n ≤ file.wrbufSize then set { file with wrbuf := store file.wrbuf 0 n fun i => file.wrbuf (source + i) }
  else stuck

/-- `memcpy` from the read buffer to the `len` bytes of the caller, with the bytes that are copied. -/
def copyOut (len source dest n : Nat) : Cmd (Direct α) (List α) := do
  let file ← get
  if source + n ≤ file.rdbufSize ∧ dest + n ≤ len then return slice file.rdbuf source n else stuck

/-- What a system call answers about `n` bytes. Without a file it fails. -/
def answer (file : Direct α) (n : Nat) : Int := if file.isValid then min (file.stream.replies file.stream.clock) n else -1

/-- `qp_fd_write` of the first `n` bytes of the write buffer. -/
def fdWrite (n : Nat) : Cmd (Direct α) Int := do
  let file ← get
  if n ≤ file.wrbufSize then
    let ret := file.answer n
    set { file with
      stream.written := file.stream.written ++ slice file.wrbuf 0 ret.toNat
      stream.clock := file.stream.clock + 1 }
    return ret
  else stuck

/-- `qp_fd_read` of at most `n` bytes into the read buffer. -/
def fdRead (n : Nat) : Cmd (Direct α) Int := do
  let file ← get
  if n ≤ file.rdbufSize then
    let ret := file.answer (min n file.stream.content.length)
    set { file with
      rdbuf := store file.rdbuf 0 ret.toNat fun i => file.stream.content.getD i (file.rdbuf i)
      stream.content := file.stream.content.drop ret.toNat
      stream.clock := file.stream.clock + 1 }
    return ret
  else stuck

/-! ### Flushing and tracking -/

/-- `qp_file_flush`. -/
def fileFlush (full : Bool) : Cmd (Direct α) Int := do
  modify fun file => { file with wrbufOffsetlast := if full then file.wrbufSize else file.wrbufOffset }
  let ret ← fdWrite (← get).wrbufOffsetlast
  if 0 < ret then
    modify fun file => { file with wrbufOffset := subWord file.wrbufOffsetlast ret.toNat }
    let file ← get
    when (file.wrbufOffset ≠ 0) (copyDown ret.toNat file.wrbufOffset)
    return ssize (subWord file.wrbufSize file.wrbufOffset)
  else return ret

/-- `qp_file_track`. -/
def fileTrack : Cmd (Direct α) Int := do
  let ret ← fdRead (← get).rdbufSize
  if 0 < ret then
    modify fun file => { file with rdbufOffset := ret.toNat, rdbufOffsetlast := 0 }
    return ssize (← get).rdbufOffset
  else return ret

/-! ### Opening and closing -/

/-- `qp_file_init` with `QP_FILE_DIRECTIO`, in memory of the caller: the two buffers are blocks of their own. What is in
    them is not initialized. -/
def fileInit (wrbuf? rdbuf? : Ptr) (h : Heap) (bufsize : Nat) (wrbuf rdbuf : Nat → α) : Option (Direct α) :=
  let (h, wrbufAt) := h.alloc wrbuf? bufsize
  let (_, rdbufAt) := h.alloc rdbuf? bufsize
  if wrbufAt = NULL ∨ rdbufAt = NULL then none
  else some ⟨wrbuf, rdbuf, bufsize, bufsize, 0, 0, 0, 0, false, ⟨[], [], fun _ => -1, 0⟩⟩

/-- `qp_file_open` of a path with `path` characters. If `open` succeeds, then there is something to read, and there are
    answers to come. -/
def fileOpen (path : Nat) (opened : Option (List α × (Nat → Int))) : Cmd (Direct α) Int := do
  if (← get).isValid ∨ path > pathLenMax then return QP_ERROR
  else
    match opened with
    | none => return QP_ERROR
    | some (content, replies) =>
      modify fun file => { file with isValid := true, stream := ⟨content, [], replies, 0⟩ }
      return QP_SUCCESS

/-- A round of the loop of `qp_file_close`. -/
def closeRound (_ : Unit) : Cmd (Direct α) (Next Unit Unit) := do
  if 0 < (← fileFlush false) then return .again () else return .done ()

/-- `qp_file_close`, when `close` answers with `ret`. -/
def fileClose (fuel : Nat) (ret : Int) : Cmd (Direct α) Int := do
  let file ← get
  if file.isValid then
    -- rest data in buf to file
    when (0 < file.wrbufOffset) (loop closeRound fuel ())
    modify fun file => { file with isValid := false }
    return ret
  else return QP_ERROR

/-! ### Writing and reading -/

/-- A round of the loop of `qp_file_write`: `len` bytes of `data` are to go, from `pos` on. -/
def writeRound (data : Data α) : Nat × Nat → Cmd (Direct α) (Next (Nat × Nat) Int)
  | (pos, len) => do
    modify fun file => { file with wrbufOffsetlast := file.wrbufOffset }
    modify fun file => { file with wrbufOffset := addWord file.wrbufOffset len }
    let file ← get
    if file.wrbufSize > file.wrbufOffset then
      copyIn data pos file.wrbufOffsetlast len
      return .done (ssize len)
    else
      -- fill write buf with writing data
      modify fun file => { file with wrbufOffset := subWord file.wrbufSize file.wrbufOffsetlast }
      let file ← get
      copyIn data pos file.wrbufOffsetlast file.wrbufOffset
      let ret ← fileFlush true
      let len := subWord len file.wrbufOffset
      -- write error
      if 1 > ret ∨ len = 0 then return .done (if len ≠ 0 then ret else ssize data.len)
      else return .again (pos + file.wrbufOffset, len)

/-- `qp_file_write`. -/
def fileWrite (fuel : Nat) (data : Data α) : Cmd (Direct α) Int := loop (writeRound data) fuel (0, data.len)

/-- A round of the loop of `qp_file_read`: `all` bytes are wanted, `len` of them are to go, and what is there is stored
    before `pos`. -/
def readRound (all : Nat) : Nat × Nat × List α → Cmd (Direct α) (Next (Nat × Nat × List α) (Int × List α))
  | (pos, len, stored) => do
    let file ← get
    let rest := subWord file.rdbufOffset file.rdbufOffsetlast
    -- if wanted data size bigger than rest data size in buffer
    if len > rest then
      let bytes ← copyOut all file.rdbufOffsetlast pos rest
      let ret ← fileTrack
      let len := subWord len rest
      if 1 > ret ∨ len = 0 then return .done (if len ≠ 0 then ret else ssize all, stored ++ bytes)
      else return .again (pos + rest, len, stored ++ bytes)
    else
      let bytes ← copyOut all file.rdbufOffsetlast pos len
      modify fun file => { file with rdbufOffsetlast := addWord file.rdbufOffsetlast len }
      return .done (ssize len, stored ++ bytes)

/-- `qp_file_read`, with the bytes that are stored for the caller. -/
def fileRead (fuel : Nat) (len : Length) : Cmd (Direct α) (Int × List α) := loop (readRound len.1) fuel (0, len.1, [])

end Direct

end QPHi
