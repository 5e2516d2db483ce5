import QPHi.Theorems.Direct.Range
import QPHi.Theorems.File.Write

/-! An open file whose cursors are in range: the functions on words of 64 bits do what the plain ones do, so what is known
    of the plain files holds of these as well. -/

namespace QPHi
open Buffer Command

namespace Direct

/-- The file as a plain one. -/
def toFile (file : Direct UInt8) : File where
  file := ⟨file.stream.written, file.stream.content, file.stream.replies, file.stream.clock, true, file.isValid⟩
  wrbuf := file.wrbuf
  rdbuf := file.rdbuf
  wrbufSize := file.wrbufSize
  rdbufSize := file.rdbufSize
  wrbufOffset := file.wrbufOffset
  wrbufOffsetlast := file.wrbufOffsetlast
  rdbufOffset := file.rdbufOffset
  rdbufOffsetlast := file.rdbufOffsetlast
  isDirectIO := true

/-- An open file whose cursors are in range. -/
structure Live (size : Nat) (file : Direct UInt8) : Prop where
  range : InRange size file
  valid : file.isValid = true

variable {size fuel pos len all : Nat} {file : Direct UInt8} {data : Data UInt8} {stored : List UInt8}

/-! ### Flushing and tracking -/

theorem Live.writes (L : Live size file) (n : Nat) : file.toFile.file.writes n = file.answer n := by
  rw [answer, if_pos L.valid]
  rfl

theorem Live.reads (L : Live size file) (n : Nat) : file.toFile.file.reads n = file.answer (min n file.stream.content.length) := by
  rw [answer, if_pos L.valid]
  rfl

/-- `qp_file_flush` is the plain one. -/
theorem Live.flush (L : Live size file) (hsize : size < 2 ^ 63) (full : Bool) :
    ∃ ret file', fileFlush full file = .ok (ret, file') ∧ Live size file' ∧
      QPHi.fileFlush file.toFile full = (file'.toFile, ret) := by
  have R := L.range
  obtain ⟨ret, file', hrun, R', -⟩ := R.flush (P := fun _ => True) (Q := fun _ => True) hsize full
  refine ⟨ret, file', hrun, ?_⟩
  have hdirect : file.toFile.isDirectIO = true := rfl
  have hlast : (if full then file.toFile.wrbufSize else file.toFile.wrbufOffset) = file.flushLen full := rfl
  have hwrites := L.writes (file.flushLen full)
  unfold QPHi.fileFlush
  rw [if_pos hdirect, hlast]
  rcases fileFlush_cases full (R.wrbufSize ▸ hsize) R.wrbufOffset with ⟨r, hr, hanswer, hflush⟩ | ⟨n, hpos, -, hanswer, hflush⟩
  · cases hrun.symm.trans hflush
    refine ⟨⟨R', L.valid⟩, ?_⟩
    simp only [Descriptor.write, hwrites, hanswer, if_neg (Int.not_lt.mpr hr), Int.toNat_eq_zero.mpr hr]
    rfl
  · cases hrun.symm.trans hflush
    refine ⟨⟨R', L.valid⟩, ?_⟩
    simp only [Descriptor.write, hwrites, hanswer, if_pos (Int.natCast_pos.mpr hpos), Int.toNat_natCast]
    rfl

/-- What `read` has brought is at the start of the buffer. -/
theorem store_content {content : List UInt8} {b : Nat → UInt8} {n : Nat} (h : n ≤ content.length) :
    store b 0 (content.take n).length (fun i => (content.take n).getD i 0) = store b 0 n fun i => content.getD i (b i) := by
  have hlength : (content.take n).length = n := List.length_take_of_le h
  rw [hlength]
  funext j
  unfold store
  split
  next hj =>
    have hlt : j - 0 < n := by omega
    simp only [List.getD_eq_getElem?_getD, List.getElem?_take_of_lt hlt, List.getElem?_eq_getElem (Nat.lt_of_lt_of_le hlt h)]
    rfl
  next => rfl

/-- `qp_file_track` is the plain one. -/
theorem Live.track (L : Live size file) (hsize : size < 2 ^ 63) :
    ∃ ret file', fileTrack file = .ok (ret, file') ∧ Live size file' ∧ QPHi.fileTrack file.toFile = (file'.toFile, ret) := by
  have R := L.range
  have hdirect : file.toFile.isDirectIO = true := rfl
  have hreads : file.toFile.file.reads file.toFile.rdbufSize = file.answer (min file.rdbufSize file.stream.content.length) :=
    L.reads _
  unfold QPHi.fileTrack
  rw [if_pos hdirect]
  rcases fileTrack_cases (R.rdbufSize ▸ hsize) with ⟨ret, hret, hanswer, hrun⟩ | ⟨n, hpos, hle, hcontent, hanswer, hrun⟩
  · refine ⟨_, _, hrun, ⟨{ R with }, L.valid⟩, ?_⟩
    simp only [Descriptor.read, hreads, hanswer, if_neg (Int.not_lt.mpr hret), Int.toNat_eq_zero.mpr hret]
    rw [store_content (Nat.zero_le _)]
    rfl
  · refine ⟨_, _, hrun, ⟨{ R with rdbufOffsetlast := Nat.zero_le _, rdbufOffset := hle }, L.valid⟩, ?_⟩
    simp only [Descriptor.read, hreads, hanswer, if_pos (Int.natCast_pos.mpr hpos), Int.toNat_natCast]
    have hstored := store_content (b := file.rdbuf) hcontent
    simp only [toFile, hstored]
    rfl

/-! ### Writing -/

/-- What is seen of a function that returns a number. -/
def returned (ret : Int) (file : Direct UInt8) : File × Int := (file.toFile, ret)

/-- What is seen of the data that is still to go. -/
def toWrite (data : Data UInt8) (state : Nat × Nat) (file : Direct UInt8) : (Nat → UInt8) × Nat × File :=
  (fun i => data.byte (state.1 + i), state.2, file.toFile)

/-- A round of the loop of `qp_file_write` is one of the plain loop. -/
theorem Live.writeRound (L : Live size file) (hsize : size < 2 ^ 63) (hlen : pos + len = data.len) :
    ∃ next file', Direct.writeRound data (pos, len) file = .ok (next, file') ∧
      Next.Either (fun state file => state.1 + state.2 = data.len.1 ∧ Live size file) (fun _ => Live size) next file' ∧
      QPHi.writeRound data.len (toWrite data (pos, len) file) = some (next.seen (toWrite data) returned file') := by
  have R := L.range
  have hsize' : file.wrbufSize < 2 ^ 63 := R.wrbufSize ▸ hsize
  have hoffset := R.wrbufOffset
  by_cases hfits : file.wrbufOffset + len < file.wrbufSize
  · refine ⟨_, _, writeRound_fits hsize' hlen hfits, ⟨?_, L.valid⟩, if_pos hfits⟩
    exact { R with wrbufOffset := Nat.le_of_lt hfits }
  · obtain ⟨fill, hfill⟩ : ∃ fill, fill = file.wrbufSize - file.wrbufOffset := ⟨_, rfl⟩
    have L' : Live size (file.filled data pos fill fill) :=
      ⟨{ R with wrbufOffset := by show fill ≤ file.wrbufSize; omega }, L.valid⟩
    obtain ⟨ret, file', hflush, L'', hplain⟩ := L'.flush hsize true
    refine ⟨_, file', writeRound_full hsize' hoffset hlen (Nat.not_lt.mp hfits) hfill hflush, ?_⟩
    have hround : QPHi.writeRound data.len (toWrite data (pos, len) file) =
        if 1 > ret ∨ len - fill = 0 then some (.done (file'.toFile, if len - fill ≠ 0 then ret else data.len))
        else some (.again (fun i => data.byte (pos + (fill + i)), len - fill, file'.toFile)) := by
      have hfull : ¬(file.toFile.wrbufSize > file.toFile.wrbufOffset + len) := hfits
      have hfill' : file.toFile.wrbufSize - file.toFile.wrbufOffset = fill := hfill.symm
      have hplain' : QPHi.fileFlush (file.toFile.copyIn (fun i => data.byte (pos + i)) fill fill) true = (file'.toFile, ret) := hplain
      simp only [toWrite, QPHi.writeRound, if_neg hfull, hfill', hplain']
    rw [hround]
    split
    · exact ⟨L'', rfl⟩
    · refine ⟨⟨by show pos + fill + (len - fill) = data.len; omega, L''⟩, ?_⟩
      simp only [Next.seen, toWrite, Nat.add_assoc]

/-- `qp_file_write` is the plain one. -/
theorem Live.write (L : Live size file) (hsize : size < 2 ^ 63) (fuel : Nat) (data : Data UInt8) :
    Mirrors returned (fun _ => Live size) (fileWrite fuel data file) (QPHi.fileWrite fuel data.byte data.len file.toFile) := by
  have hloop := Mirrors.loop (toWrite data) returned (J := fun state file => state.1 + state.2 = data.len.1 ∧ Live size file)
    (fun _ _ h => h.2.writeRound hsize h.1) fuel (a := (0, data.len.1)) ⟨Nat.zero_add _, L⟩
  have hstart : toWrite data (0, data.len.1) file = (data.byte, data.len.1, file.toFile) := by
    simp only [toWrite, Nat.zero_add]
  rw [hstart] at hloop
  exact hloop

/-! ### Reading -/

/-- What is seen of a function that stores bytes for its caller. -/
def delivered (answer : Int × List UInt8) (file : Direct UInt8) : File × Int × List UInt8 := (file.toFile, answer)

/-- What is seen of the bytes that are still wanted. -/
def toRead (state : Nat × Nat × List UInt8) (file : Direct UInt8) : Nat × List UInt8 × File := (state.2.1, state.2.2, file.toFile)

/-- A round of the loop of `qp_file_read` is one of the plain loop. -/
theorem Live.readRound (L : Live size file) (hsize : size < 2 ^ 63) (hlen : pos + len = all) (hall : all < 2 ^ 63) :
    ∃ next file', Direct.readRound all (pos, len, stored) file = .ok (next, file') ∧
      Next.Either (fun state file => state.1 + state.2.1 = all ∧ Live size file) (fun _ => Live size) next file' ∧
      QPHi.readRound all (toRead (pos, len, stored) file) = some (next.seen toRead delivered file') := by
  have R := L.range
  have hlast := R.rdbufOffsetlast
  have hoffset := R.rdbufOffset
  have hsize' : file.rdbufSize < 2 ^ 63 := R.rdbufSize ▸ hsize
  by_cases hthere : len ≤ file.rest
  · refine ⟨_, _, readRound_there hsize' hlast hoffset hlen hall hthere, ⟨?_, L.valid⟩, if_neg (Nat.not_lt.mpr hthere)⟩
    have hrest : file.rest = file.rdbufOffset - file.rdbufOffsetlast := rfl
    exact { R with rdbufOffsetlast := by show file.rdbufOffsetlast + len ≤ file.rdbufOffset; omega }
  · obtain ⟨ret, file', htrack, L', hplain⟩ := L.track hsize
    refine ⟨_, file', readRound_more hsize' hlast hoffset hlen hall (Nat.not_le.mp hthere) htrack, ?_⟩
    have hround : QPHi.readRound all (toRead (pos, len, stored) file) =
        if 1 > ret ∨ len - file.rest = 0 then some (.done (file'.toFile, if len - file.rest ≠ 0 then ret else all,
          stored ++ slice file.rdbuf file.rdbufOffsetlast file.rest))
        else some (.again (len - file.rest, stored ++ slice file.rdbuf file.rdbufOffsetlast file.rest, file'.toFile)) := by
      have hmore : len > file.toFile.rest := Nat.not_le.mp hthere
      simp only [toRead, QPHi.readRound, if_pos hmore, hplain]
      rfl
    rw [hround]
    split
    · exact ⟨L', rfl⟩
    · refine ⟨⟨?_, L'⟩, rfl⟩
      show pos + file.rest + (len - file.rest) = all
      omega

/-- `qp_file_read` is the plain one. -/
theorem Live.read (L : Live size file) (hsize : size < 2 ^ 63) (fuel : Nat) (len : Length) :
    Mirrors delivered (fun _ => Live size) (fileRead fuel len file) (QPHi.fileRead fuel len file.toFile) :=
  Mirrors.loop toRead delivered (J := fun state file => state.1 + state.2.1 = len.1 ∧ Live size file)
    (fun _ _ h => h.2.readRound hsize h.1 len.2) fuel (a := (0, len.1, [])) ⟨Nat.zero_add _, L⟩

/-! ### Closing -/

/-- A round of the loop of `qp_file_close` is one of the plain loop. -/
theorem Live.closeRound (L : Live size file) (hsize : size < 2 ^ 63) :
    ∃ next file', Direct.closeRound () file = .ok (next, file') ∧
      Next.Either (fun _ => Live size) (fun _ => Live size) next file' ∧
      QPHi.closeRound file.toFile = some (next.seen (fun _ => toFile) (fun _ => toFile) file') := by
  obtain ⟨ret, file', hflush, L', hplain⟩ := L.flush hsize false
  unfold Direct.closeRound QPHi.closeRound
  rw [run_bind hflush, hplain]
  by_cases hret : 0 < ret
  · rw [if_pos hret]
    exact ⟨_, _, rfl, L', if_pos hret⟩
  · rw [if_neg hret]
    exact ⟨_, _, rfl, L', if_neg hret⟩

/-- `qp_file_close` is the plain one. -/
theorem Live.close (L : Live size file) (hsize : size < 2 ^ 63) (fuel : Nat) :
    Mirrors returned (fun _ => InRange size) (fileClose fuel QP_SUCCESS file) (QPHi.fileClose fuel file.toFile) := by
  have hvalid := L.valid
  have hvalid' : file.toFile.file.isValid = true := hvalid
  have hdrain : Mirrors (fun _ => toFile) (fun _ => Live size)
      (when (0 < file.wrbufOffset) (loop Direct.closeRound fuel ()) file) (fileDrain fuel file.toFile) := by
    unfold fileDrain
    by_cases hrest : 0 < file.wrbufOffset
    · rw [run_when hrest, if_pos ⟨rfl, hrest⟩]
      exact Mirrors.loop (fun _ => toFile) (fun _ => toFile) (J := fun _ => Live size) (fun _ _ L => L.closeRound hsize) fuel L
    · rw [run_skip hrest, if_neg fun h => hrest h.2]
      exact Mirrors.ok rfl rfl L
  unfold fileClose QPHi.fileClose
  rw [run_bind rfl, if_pos hvalid, if_pos hvalid']
  refine hdrain.bind fun _ file' L' => Mirrors.ok rfl ?_ { L'.range with }
  have hclose : file'.toFile.file.close = ({ file'.toFile.file with isValid := false }, QP_SUCCESS) := if_pos L'.valid
  rw [hclose]
  rfl

/-! ### Runs -/

/-- An operation on a plain file, with the bytes that it stores for the caller. -/
def Op.plain (fuel : Nat) (file : File) : Op UInt8 → Option (File × List UInt8)
  | .openFile _ _ => some ((QPHi.fileOpen file).1, [])
  | .write data => do
    let r ← QPHi.fileWrite fuel data.byte data.len file
    return (r.1, [])
  | .read len => do
    let r ← QPHi.fileRead fuel len file
    return (r.1, r.2.2)
  | .flush full => some ((QPHi.fileFlush file full).1, [])
  | .track => some ((QPHi.fileTrack file).1, [])
  | .close _ => do
    let r ← QPHi.fileClose fuel file
    return (r.1, [])

def Op.plainAll (fuel : Nat) : List (Op UInt8) → File → Option (File × List UInt8)
  | [], file => some (file, [])
  | op :: ops, file => do
    let r ← op.plain fuel file
    let r' ← plainAll fuel ops r.1
    return (r'.1, r.2 ++ r'.2)

/-- What is seen of an operation. -/
def produced (bytes : List UInt8) (file : Direct UInt8) : File × List UInt8 := (file.toFile, bytes)

theorem Live.op (L : Live size file) (hsize : size < 2 ^ 63) (fuel : Nat) {op : Op UInt8} (hop : ∀ ret, op ≠ .close ret) :
    Mirrors produced (fun _ => Live size) (op.run fuel file) (op.plain fuel file.toFile) := by
  cases op with
  | openFile path opened =>
    have hrefused : file.isValid = true ∨ path > pathLenMax := .inl L.valid
    have hopen : fileOpen path opened file = .ok (QP_ERROR, file) := by
      unfold fileOpen
      rw [run_bind rfl, if_pos hrefused]
      rfl
    have hplain : QPHi.fileOpen file.toFile = (file.toFile, QP_ERROR) := if_pos L.valid
    refine Mirrors.ok (run_bind hopen) ?_ L
    rw [Op.plain, hplain]
    rfl
  | write data => exact (L.write hsize fuel data).bind fun _ _ L' => Mirrors.ok rfl rfl L'
  | read len => exact (L.read hsize fuel len).bind fun _ _ L' => Mirrors.ok rfl rfl L'
  | flush full =>
    obtain ⟨ret, file', hrun, L', hplain⟩ := L.flush hsize full
    refine Mirrors.ok (run_bind hrun) ?_ L'
    rw [Op.plain, hplain]
    rfl
  | track =>
    obtain ⟨ret, file', hrun, L', hplain⟩ := L.track hsize
    refine Mirrors.ok (run_bind hrun) ?_ L'
    rw [Op.plain, hplain]
    rfl
  | close ret => exact absurd rfl (hop ret)

/-- Until the file is closed, the operations are the plain ones. -/
theorem Live.ops (L : Live size file) (hsize : size < 2 ^ 63) (fuel : Nat) {ops : List (Op UInt8)}
    (hops : ∀ op ∈ ops, ∀ ret, op ≠ .close ret) :
    Mirrors produced (fun _ => Live size) (Op.runAll fuel ops file) (Op.plainAll fuel ops file.toFile) := by
  induction ops generalizing file with
  | nil => exact Mirrors.ok rfl rfl L
  | cons op ops ih =>
    refine (L.op hsize fuel (hops op List.mem_cons_self)).bind fun bytes file' L' => ?_
    exact (ih L' fun op' hop' => hops op' (List.mem_cons_of_mem op hop')).bind fun _ _ L'' => Mirrors.ok rfl rfl L''

/-! ### What reaches the file -/

def Data.fileOp (data : Data UInt8) : FileOp := .write data.byte data.len

theorem plainAll_writes (datas : List (Data UInt8)) (file : File) :
    Op.plainAll fuel (datas.map Op.write) file = (FileOp.runAll fuel (datas.map Data.fileOp) file).map fun file => (file, []) := by
  induction datas generalizing file with
  | nil => rfl
  | cons data datas ih =>
    simp only [List.map_cons, Op.plainAll, Op.plain, FileOp.runAll, FileOp.run, Data.fileOp, ih]
    cases QPHi.fileWrite fuel data.byte data.len file with
    | none => rfl
    | some r =>
      cases hrest : FileOp.runAll fuel (datas.map Data.fileOp) r.1 with
      | none => simp [hrest]
      | some file' => simp [hrest]

/-- What is passed to `qp_file_write` on a freshly opened file has reached it once it is closed, if `write` never fails. -/
theorem writes_reach {wrbuf? rdbuf? : Ptr} {h : Heap} {wrbuf rdbuf : Nat → UInt8}
    (hinit : fileInit wrbuf? rdbuf? h size wrbuf rdbuf = some file) (hpos : 1 ≤ size) {path : Nat} (hpath : path ≤ pathLenMax)
    (content : List UInt8) {replies : Nat → Int} (hreplies : ∀ n, 1 ≤ replies n) (datas : List (Data UInt8)) :
    ∃ n, ∀ fuel ≥ n, ∃ file', (do
      let _ ← fileOpen path (some (content, replies))
      let _ ← Op.runAll fuel (datas.map Op.write)
      fileClose fuel QP_SUCCESS) file = .ok (QP_SUCCESS, file') ∧
        file'.stream.written = datas.flatMap fun data => slice data.byte 0 data.len := by
  obtain ⟨hsize, hfile⟩ := fileInit_some hinit
  obtain ⟨opened, hopened⟩ : ∃ opened : Direct UInt8, opened = { file with isValid := true, stream := ⟨content, [], replies, 0⟩ } :=
    ⟨_, rfl⟩
  have hopen : fileOpen path (some (content, replies)) file = .ok (QP_SUCCESS, opened) := by
    have hgo : ¬(file.isValid = true ∨ path > pathLenMax) := by
      rw [hfile]
      exact not_or.mpr ⟨Bool.noConfusion, Nat.not_lt.mpr hpath⟩
    unfold fileOpen
    rw [run_bind rfl, if_neg hgo, hopened]
    rfl
  have hlive : Live size opened := by
    rw [hopened, hfile]
    exact ⟨⟨rfl, rfl, Nat.zero_le _, Nat.le_refl _, Nat.zero_le _⟩, rfl⟩
  have hfaithful : Faithful size [] opened.toFile := by
    rw [hopened, hfile]
    exact ⟨⟨rfl, rfl, rfl, hreplies, rfl, rfl⟩, hpos⟩
  obtain ⟨left, ⟨n, hn⟩, hfaithful'⟩ := Faithful.ops (datas.map Data.fileOp) hfaithful
  obtain ⟨closed, ⟨m, hm⟩, hzero, -, hwritten⟩ := hfaithful'.close
  refine ⟨max n m, fun fuel hfuel => ?_⟩
  have hwrites : ∀ op ∈ datas.map Op.write, ∀ ret, op ≠ .close ret := by simp
  have hops := hlive.ops hsize fuel hwrites
  have hleft : FileOp.runAll fuel (datas.map Data.fileOp) opened.toFile = some left := hn fuel (Nat.le_trans (Nat.le_max_left n m) hfuel)
  have hclosed : QPHi.fileClose fuel left = some (closed, QP_SUCCESS) := hm fuel (Nat.le_trans (Nat.le_max_right n m) hfuel)
  rw [plainAll_writes, hleft] at hops
  obtain ⟨bytes, left', hrun, hseen, hlive'⟩ := hops.of_some
  have hseen : left'.toFile = left := congrArg Prod.fst hseen
  have hclose := hlive'.close hsize fuel
  rw [hseen, hclosed] at hclose
  obtain ⟨ret, closed', hrun', hseen', -⟩ := hclose.of_some
  obtain ⟨hfile', rfl⟩ : closed'.toFile = closed ∧ ret = QP_SUCCESS := Prod.mk.inj hseen'
  refine ⟨closed', ?_, ?_⟩
  · rw [run_bind hopen, run_bind hrun, hrun']
  · rw [hzero, slice_zero, List.append_nil, List.nil_append, List.flatMap_map, ← hfile'] at hwritten
    exact hwritten

end Direct

end QPHi
