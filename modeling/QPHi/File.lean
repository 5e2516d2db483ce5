import QPHi.Basic
import QPHi.Lib.Buffer
import QPHi.Lib.Loop

/-! The files of `qp_file.c`, whose direct I/O goes through a write buffer and a read buffer. The kernel answers as it
    likes; its answers come from a sequence that is part of the descriptor. -/

namespace QPHi
open Buffer Loop

/-! ### The descriptor -/

/-- `struct qp_fd_s` and the open file behind it: the bytes that were written, and those that are still to be read. -/
structure Descriptor where
  written : List UInt8
  content : List UInt8
  replies : Nat → Int
  clock : Nat
  isInited : Bool
  isValid : Bool

/-- What the next `write` of `n` bytes returns. -/
def Descriptor.writes (fd : Descriptor) (n : Nat) : Int := min (fd.replies fd.clock) n

/-- What the next `read` of `n` bytes returns: not more than there is. -/
def Descriptor.reads (fd : Descriptor) (n : Nat) : Int := min (fd.replies fd.clock) (min n fd.content.length : Nat)

/-- `qp_fd_write`. -/
def Descriptor.write (fd : Descriptor) (buf : Nat → UInt8) (n : Nat) : Descriptor × Int :=
  ({ fd with written := fd.written ++ slice buf 0 (fd.writes n).toNat, clock := fd.clock + 1 }, fd.writes n)

/-- `qp_fd_read`, with the bytes that are put into the buffer. -/
def Descriptor.read (fd : Descriptor) (n : Nat) : Descriptor × Int × List UInt8 :=
  ({ fd with content := fd.content.drop (fd.reads n).toNat, clock := fd.clock + 1 }, fd.reads n,
    fd.content.take (fd.reads n).toNat)

/-- `qp_fd_close`. -/
def Descriptor.close (fd : Descriptor) : Descriptor × Int :=
  if fd.isValid then ({ fd with isValid := false }, QP_SUCCESS) else (fd, QP_ERROR)

/-! ### Files -/

/-- `struct qp_file_s`. A file has its two buffers if and only if it is one for direct I/O. -/
structure File where
  file : Descriptor
  wrbuf : Nat → UInt8
  rdbuf : Nat → UInt8
  wrbufSize : Nat
  rdbufSize : Nat
  wrbufOffset : Nat
  wrbufOffsetlast : Nat
  rdbufOffset : Nat
  rdbufOffsetlast : Nat
  isDirectIO : Bool

/-- `qp_file_init` with `QP_FILE_DIRECTIO` or without it, when the buffers are allocated. Without a size there is no
    direct I/O. -/
def fileInit (direct : Bool) (bufsize : Nat) (fd : Descriptor) (wrbuf rdbuf : Nat → UInt8) : File :=
  let direct := direct && 0 < bufsize
  let bufsize := if direct then bufsize else 0
  ⟨{ fd with isInited := true, isValid := false }, wrbuf, rdbuf, bufsize, bufsize, 0, 0, 0, 0, direct⟩

/-- `qp_file_open`, when `open` succeeds. -/
def fileOpen (file : File) : File × Int :=
  if file.file.isValid then (file, QP_ERROR)
  else ({ file with file := { file.file with isValid := true } }, QP_SUCCESS)

/-- `qp_file_flush`. -/
def fileFlush (file : File) (full : Bool) : File × Int :=
  if file.isDirectIO then
    let last := if full then file.wrbufSize else file.wrbufOffset
    let (fd, ret) := file.file.write file.wrbuf last
    let file := { file with file := fd, wrbufOffsetlast := last }
    if 0 < ret then
      let rest := last - ret.toNat
      ({ file with wrbufOffset := rest, wrbuf := store file.wrbuf 0 rest fun i => file.wrbuf (ret.toNat + i) },
        (file.wrbufSize - rest : Nat))
    else (file, ret)
  else (file, QP_ERROR)

/-- `qp_file_track`. -/
def fileTrack (file : File) : File × Int :=
  if file.isDirectIO then
    let (fd, ret, bytes) := file.file.read file.rdbufSize
    let file := { file with file := fd, rdbuf := store file.rdbuf 0 bytes.length fun i => bytes.getD i 0 }
    if 0 < ret then ({ file with rdbufOffset := ret.toNat, rdbufOffsetlast := 0 }, ret) else (file, ret)
  else (file, QP_ERROR)

/-- A round of the loop of `qp_file_close`. -/
def closeRound (file : File) : Option (Next File File) :=
  let (file, ret) := fileFlush file false
  if 0 < ret then some (.again file) else some (.done file)

/-- The rest data in the write buffer goes to the file. -/
def fileDrain (fuel : Nat) (file : File) : Option File :=
  if file.isDirectIO ∧ 0 < file.wrbufOffset then iterate closeRound fuel file else some file

/-- `qp_file_close`. -/
def fileClose (fuel : Nat) (file : File) : Option (File × Int) :=
  if file.file.isValid then do
    let file ← fileDrain fuel file
    return ({ file with file := file.file.close.1 }, file.file.close.2)
  else some (file, QP_ERROR)

/-- `n` bytes of `data` are put into the write buffer, and the offset gets a new value. -/
def File.copyIn (file : File) (data : Nat → UInt8) (n offset : Nat) : File :=
  { file with
    wrbufOffsetlast := file.wrbufOffset
    wrbufOffset := offset
    wrbuf := store file.wrbuf file.wrbufOffset n data }

/-- A round of the loop of `qp_file_write`, with the `len` bytes of `data` to go and `all` bytes to write in all. -/
def writeRound (all : Nat) : (Nat → UInt8) × Nat × File → Option (Next ((Nat → UInt8) × Nat × File) (File × Int))
  | (data, len, file) =>
    if file.wrbufSize > file.wrbufOffset + len then some (.done (file.copyIn data len (file.wrbufOffset + len), len))
    else
      -- fill write buf with writing data
      let fill := file.wrbufSize - file.wrbufOffset
      let (file, ret) := fileFlush (file.copyIn data fill fill) true
      -- write error
      if 1 > ret ∨ len - fill = 0 then some (.done (file, if len - fill ≠ 0 then ret else all))
      else some (.again (fun i => data (fill + i), len - fill, file))

/-- `qp_file_write`. -/
def fileWrite (fuel : Nat) (data : Nat → UInt8) (len : Nat) (file : File) : Option (File × Int) :=
  if !file.file.isInited then some (file, QP_ERROR)
  else if !file.isDirectIO then
    let (fd, ret) := file.file.write data len
    some ({ file with file := fd }, ret)
  else iterate (writeRound len) fuel (data, len, file)

/-- The rest data in the read buffer. -/
def File.rest (file : File) : Nat := file.rdbufOffset - file.rdbufOffsetlast

/-- A round of the loop of `qp_file_read`, with `len` bytes to go, the bytes that are stored so far, and `all` bytes
    wanted in all. -/
def readRound (all : Nat) : Nat × List UInt8 × File → Option (Next (Nat × List UInt8 × File) (File × Int × List UInt8))
  | (len, stored, file) =>
    -- if wanted data size bigger than rest data size in buffer
    if len > file.rest then
      let stored := stored ++ slice file.rdbuf file.rdbufOffsetlast file.rest
      let len := len - file.rest
      let (file, ret) := fileTrack file
      if 1 > ret ∨ len = 0 then some (.done (file, if len ≠ 0 then ret else all, stored))
      else some (.again (len, stored, file))
    else
      let stored := stored ++ slice file.rdbuf file.rdbufOffsetlast len
      some (.done ({ file with rdbufOffsetlast := file.rdbufOffsetlast + len }, len, stored))

/-- `qp_file_read`, with the bytes that are stored in `data`. -/
def fileRead (fuel : Nat) (len : Nat) (file : File) : Option (File × Int × List UInt8) :=
  if !file.isDirectIO then
    let (fd, ret, bytes) := file.file.read len
    some ({ file with file := fd }, ret, bytes)
  else iterate (readRound len) fuel (len, [], file)

end QPHi
