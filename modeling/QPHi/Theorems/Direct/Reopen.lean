import QPHi.Theorems.Direct.Range

/-! A file for direct I/O that is closed and opened again: `qp_file_open` and `qp_file_close` leave the cursors where they
    are, so the second file is kept apart from what came before it exactly when nothing is left in the two buffers. -/

namespace QPHi
open Buffer Command

namespace Direct

/-- Where a byte comes from: from before the second file was opened, from the second file, or from a write to it. -/
inductive Origin where
  | earlier
  | fromFile
  | fromCaller
deriving DecidableEq, Repr

/-- A byte and where it comes from. -/
structure Traced where
  byte : UInt8
  origin : Origin
deriving DecidableEq, Repr

/-- A read or a write. -/
inductive Transfer where
  | write (data : Data UInt8)
  | read (len : Length)

def Transfer.op (passed : Origin) : Transfer → Op Traced
  | .write data => .write ⟨fun i => ⟨data.byte i, passed⟩, data.len⟩
  | .read len => .read len

/-- A file that can be opened: its path and its content, what the system calls answer, and what `close` answers. -/
structure Target where
  path : Fin (pathLenMax + 1)
  content : List UInt8
  replies : Nat → Int
  closed : Int

/-- A file is opened, read and written, and closed. The result are the bytes that the reads have stored. -/
def session (fuel : Nat) (content passed : Origin) (target : Target) (transfers : List Transfer) : Cmd (Direct Traced) (List Traced) := do
  let _ ← fileOpen target.path (some (target.content.map fun byte => ⟨byte, content⟩, target.replies))
  let bytes ← Op.runAll fuel (transfers.map (Transfer.op passed))
  let _ ← fileClose fuel target.closed
  return bytes

variable {size fuel : Nat} {content passed : Origin} {target : Target} {transfers : List Transfer} {file : Direct Traced}
  {P Q : Traced → Prop}

/-! ### A session -/

/-- The file once `qp_file_open` has opened the target. -/
def opened (file : Direct Traced) (content : Origin) (target : Target) : Direct Traced :=
  { file with
    isValid := true
    stream := ⟨target.content.map fun byte => ⟨byte, content⟩, [], target.replies, 0⟩ }

theorem session_run (hvalid : file.isValid = false) : session fuel content passed target transfers file = (do
    let bytes ← Op.runAll fuel (transfers.map (Transfer.op passed))
    let _ ← fileClose fuel target.closed
    return bytes : Cmd (Direct Traced) (List Traced)) (file.opened content target) := by
  have hgo : ¬(file.isValid = true ∨ target.path.1 > pathLenMax) := by
    rw [hvalid, not_or]
    exact ⟨Bool.noConfusion, Nat.not_lt.mpr (Nat.lt_succ_iff.mp target.path.2)⟩
  have hopen : fileOpen target.path (some (target.content.map fun byte => ⟨byte, content⟩, target.replies)) file =
      .ok (QP_SUCCESS, file.opened content target) := by
    unfold fileOpen
    rw [run_bind rfl, if_neg hgo]
    rfl
  unfold session
  rw [run_bind hopen]

/-- The invariant of a session whose bytes bear the marks that `P` and `Q` ask for. -/
theorem session_sound (hsize : size < 2 ^ 63) (hvalid : file.isValid = false) (S : Sound size P Q (file.opened content target))
    (hpassed : ∀ byte, P ⟨byte, passed⟩) :
    Meets (fun bytes file => (∀ b ∈ bytes, Q b) ∧ file.isValid = false ∧ Sound size P Q file)
      (session fuel content passed target transfers file) := by
  have hfeeds : ∀ op ∈ transfers.map (Transfer.op passed), op.Feeds P Q := by
    intro op hop
    obtain ⟨transfer, -, rfl⟩ := List.mem_map.mp hop
    cases transfer with
    | write data => exact fun i _ => hpassed _
    | read len => trivial
  rw [session_run hvalid]
  have hrun : Triple (Sound size P Q) (do
      let bytes ← Op.runAll fuel (transfers.map (Transfer.op passed))
      let _ ← fileClose fuel target.closed
      return bytes) fun bytes file => (∀ b ∈ bytes, Q b) ∧ file.isValid = false ∧ Sound size P Q file := by
    refine (Op.runAll_sound hsize fuel hfeeds).bind fun bytes => Triple.given fun hbytes => ?_
    exact (fileClose_sound hsize fuel _).bind fun _ => Triple.pure fun file h => ⟨hbytes, h⟩
  exact hrun _ S

/-! ### What is left behind -/

/-- A flush that `write` refuses. -/
theorem fileFlush_refused (full : Bool) (hsize : file.wrbufSize < 2 ^ 63) (hoffset : file.wrbufOffset ≤ file.wrbufSize)
    (hanswer : file.answer (file.flushLen full) ≤ 0) : ∃ ret ≤ 0, fileFlush full file =
      .ok (ret, { file.wrote 0 with wrbufOffsetlast := file.flushLen full }) := by
  rcases fileFlush_cases full hsize hoffset with ⟨ret, hret, -, hrun⟩ | ⟨n, hn, -, hanswer', -⟩
  · exact ⟨ret, hret, hrun⟩
  · omega

/-- `qp_file_close` when no `write` is answered. -/
theorem fileClose_refused (file : Direct Traced) (hsize : file.wrbufSize < 2 ^ 63) (hoffset : file.wrbufOffset ≤ file.wrbufSize)
    (hvalid : file.isValid = true) (hreplies : ∀ n, file.stream.replies n ≤ 0) (ret : Int) :
    ∃ file', fileClose 1 ret file = .ok (ret, file') ∧ file'.stream.written = file.stream.written := by
  unfold fileClose
  rw [run_bind rfl, if_pos hvalid]
  by_cases hrest : 0 < file.wrbufOffset
  · have hanswer : file.answer (file.flushLen false) ≤ 0 := by
      rw [answer, if_pos hvalid]
      exact Int.le_trans (Int.min_le_left _ _) (hreplies _)
    obtain ⟨r, hr, hflush⟩ := fileFlush_refused false hsize hoffset hanswer
    have hround : closeRound () file = .ok (.done (), { file.wrote 0 with wrbufOffsetlast := file.flushLen false }) := by
      unfold closeRound
      rw [run_bind hflush, if_neg (Int.not_lt.mpr hr)]
      rfl
    rw [run_when hrest, run_bind (loop_done hround)]
    exact ⟨_, rfl, List.append_nil _⟩
  · rw [run_bind (run_skip hrest)]
    exact ⟨_, rfl, rfl⟩

/-- A flush of which `write` takes one byte. -/
theorem fileFlush_one (full : Bool) (hsize : file.wrbufSize < 2 ^ 63) (hoffset : file.wrbufOffset ≤ file.wrbufSize)
    (hanswer : file.answer (file.flushLen full) = 1) : fileFlush full file =
      .ok (((file.wrbufSize - (file.flushLen full - 1) : Nat) : Int), file.flushed (file.flushLen full) 1) := by
  rcases fileFlush_cases full hsize hoffset with ⟨ret, hret, hanswer', -⟩ | ⟨n, -, -, hanswer', hrun⟩
  · omega
  · obtain rfl : n = 1 := by omega
    exact hrun

/-- `qp_file_close` when one byte is taken. -/
theorem fileClose_one (file : Direct Traced) (hsize : file.wrbufSize < 2 ^ 63) (hoffset : file.wrbufOffset ≤ file.wrbufSize)
    (hvalid : file.isValid = true) (hrest : 0 < file.wrbufOffset) (hfirst : file.stream.replies file.stream.clock = 1)
    (hnext : file.stream.replies (file.stream.clock + 1) ≤ 0) (ret : Int) :
    ∃ file', fileClose 2 ret file = .ok (ret, file') ∧ file'.stream.written = file.stream.written ++ [file.wrbuf 0] := by
  have hanswer : file.answer (file.flushLen false) = 1 := by
    rw [answer, if_pos hvalid, hfirst]
    exact Int.min_eq_left (Int.ofNat_le.mpr hrest)
  obtain ⟨left, hleft⟩ : ∃ left, left = file.flushed file.wrbufOffset 1 := ⟨_, rfl⟩
  have hround : closeRound () file = .ok (.again (), left) := by
    have hspace : 0 < ((file.wrbufSize - (file.flushLen false - 1) : Nat) : Int) := by
      have hlen : file.flushLen false = file.wrbufOffset := rfl
      omega
    unfold closeRound
    rw [hleft, run_bind (fileFlush_one false hsize hoffset hanswer), if_pos hspace]
    rfl
  have hanswer' : left.answer (left.flushLen false) ≤ 0 := by
    rw [hleft, answer, if_pos (by exact hvalid)]
    exact Int.le_trans (Int.min_le_left _ _) hnext
  have hoffset' : left.wrbufOffset ≤ left.wrbufSize := by
    rw [hleft]
    exact Nat.le_trans (Nat.sub_le _ _) hoffset
  obtain ⟨r, hr, hflush⟩ := fileFlush_refused false (by rw [hleft]; exact hsize) hoffset' hanswer'
  have hlast : closeRound () left = .ok (.done (), { left.wrote 0 with wrbufOffsetlast := left.flushLen false }) := by
    unfold closeRound
    rw [run_bind hflush, if_neg (Int.not_lt.mpr hr)]
    rfl
  unfold fileClose
  rw [run_bind rfl, if_pos hvalid, run_when hrest, run_bind ((loop_again hround).trans (loop_done hlast))]
  refine ⟨_, rfl, ?_⟩
  rw [hleft]
  exact List.append_nil _

/-- A read of one byte that is there. -/
theorem read_one (file : Direct Traced) (hsize : file.rdbufSize < 2 ^ 63) (hlast : file.rdbufOffsetlast < file.rdbufOffset)
    (hoffset : file.rdbufOffset ≤ file.rdbufSize) :
    Op.runAll 1 [.read ⟨1, by decide⟩] file =
      .ok ([file.rdbuf file.rdbufOffsetlast], { file with rdbufOffsetlast := file.rdbufOffsetlast + 1 }) := by
  have hround : readRound 1 (0, 1, []) file = _ := readRound_there hsize (Nat.le_of_lt hlast) hoffset (Nat.zero_add 1)
    (by decide) (Nat.le_sub_of_add_le (Nat.add_comm _ _ ▸ hlast))
  have hread : fileRead 1 ⟨1, by decide⟩ file = _ := loop_done hround
  have hop : Op.run 1 (.read ⟨1, by decide⟩) file = _ := run_bind hread
  exact run_bind hop

/-! ### Both sessions -/

/-- The bytes that were read come from the second file, and those in it were written to it. -/
def Separate (bytes : List Traced) (file : Direct Traced) : Prop :=
  (∀ b ∈ bytes, b.origin = .fromFile) ∧ ∀ b ∈ file.stream.written, b.origin = .fromCaller

instance (bytes : List Traced) (file : Direct Traced) : Decidable (Separate bytes file) := inferInstanceAs (Decidable (_ ∧ _))

/-- What a session that begins with bytes from before leaves. -/
theorem session_left {wrbuf? rdbuf? : Ptr} {h : Heap} {wrbuf rdbuf : Nat → UInt8} {file' : Direct Traced} {bytes : List Traced}
    (hinit : fileInit wrbuf? rdbuf? h size (fun i => ⟨wrbuf i, .earlier⟩) (fun i => ⟨rdbuf i, .earlier⟩) = some file)
    (hrun : session fuel .earlier .earlier target transfers file = .ok (bytes, file')) :
    file'.isValid = false ∧ Sound size (·.origin = .earlier) (·.origin = .earlier) file' := by
  obtain ⟨hsize, hfile⟩ := fileInit_some hinit
  have S : Sound size (·.origin = .earlier) (·.origin = .earlier) file := fileInit_sound hinit
  have S' : Sound size (·.origin = .earlier) (·.origin = .earlier) (file.opened .earlier target) := by
    refine ⟨{ S.range with }, S.filters.buffered, fun b hb => absurd hb List.not_mem_nil, S.filters.unread, fun b hb => ?_⟩
    obtain ⟨byte, -, rfl⟩ := List.mem_map.mp hb
    rfl
  exact ((session_sound hsize (by rw [hfile]) S' fun _ => rfl).of_ok hrun).2

/-- One unread byte is the first one that a read from the second file delivers, though that is empty. -/
theorem session_delivers (R : InRange size file) (hsize : size < 2 ^ 63) (hvalid : file.isValid = false)
    (hunread : file.rdbufOffsetlast < file.rdbufOffset) :
    ∃ file', session 1 .fromFile .fromCaller ⟨0, [], fun _ => -1, 0⟩ [.read ⟨1, by decide⟩] file =
      .ok ([file.rdbuf file.rdbufOffsetlast], file') := by
  obtain ⟨first, hfirst⟩ : ∃ first, first = file.opened .fromFile ⟨0, [], fun _ => -1, 0⟩ := ⟨_, rfl⟩
  have hread : Op.runAll 1 [.read ⟨1, by decide⟩] first =
      .ok ([file.rdbuf file.rdbufOffsetlast], { first with rdbufOffsetlast := first.rdbufOffsetlast + 1 }) := by
    rw [hfirst]
    exact read_one _ (R.rdbufSize ▸ hsize) hunread R.rdbufOffset
  obtain ⟨file', hclose, -⟩ := fileClose_refused { first with rdbufOffsetlast := first.rdbufOffsetlast + 1 }
    (by rw [hfirst]; exact R.wrbufSize ▸ hsize) (by rw [hfirst]; exact R.wrbufOffset) (by rw [hfirst]; rfl)
    (fun n => by rw [hfirst]; exact Int.negSucc_le_zero 0) 0
  refine ⟨file', ?_⟩
  rw [session_run hvalid, ← hfirst]
  exact (run_bind hread).trans (run_bind hclose)

/-- One buffered byte is written to the second file when that is closed at once. -/
theorem session_writes (R : InRange size file) (hsize : size < 2 ^ 63) (hvalid : file.isValid = false)
    (hbuffered : 0 < file.wrbufOffset) :
    ∃ file', session 2 .fromFile .fromCaller ⟨0, [], fun n => if n = 0 then 1 else -1, 0⟩ [] file = .ok ([], file') ∧
      file'.stream.written = [file.wrbuf 0] := by
  obtain ⟨first, hfirst⟩ : ∃ first, first = file.opened .fromFile ⟨0, [], fun n => if n = 0 then 1 else -1, 0⟩ := ⟨_, rfl⟩
  obtain ⟨file', hclose, hwritten⟩ := fileClose_one first (by rw [hfirst]; exact R.wrbufSize ▸ hsize)
    (by rw [hfirst]; exact R.wrbufOffset) (by rw [hfirst]; rfl) (by rw [hfirst]; exact hbuffered) (by rw [hfirst]; rfl)
    (by rw [hfirst]; exact Int.negSucc_le_zero 0) 0
  refine ⟨file', ?_, ?_⟩
  · rw [session_run hvalid, ← hfirst]
    exact (run_bind rfl).trans (run_bind hclose)
  · rw [hwritten, hfirst]
    rfl

/-- A second session is kept apart from what came before it. -/
def Reopens (file : Direct Traced) : Prop := ∀ fuel target transfers,
  After (session fuel .fromFile .fromCaller target transfers) Separate file

/-- The second file is kept apart from the first one, whatever is done with it, if and only if the first session has left
    nothing in the two buffers. -/
theorem reopens_iff {wrbuf? rdbuf? : Ptr} {h : Heap} {wrbuf rdbuf : Nat → UInt8} {file' : Direct Traced} {bytes : List Traced}
    (hinit : fileInit wrbuf? rdbuf? h size (fun i => ⟨wrbuf i, .earlier⟩) (fun i => ⟨rdbuf i, .earlier⟩) = some file)
    (hrun : session fuel .earlier .earlier target transfers file = .ok (bytes, file')) :
    Reopens file' ↔ file'.rdbufOffset = file'.rdbufOffsetlast ∧ file'.wrbufOffset = 0 := by
  obtain ⟨hvalid, S⟩ := session_left hinit hrun
  obtain ⟨hsize, -⟩ := fileInit_some hinit
  have R := S.range
  constructor
  · refine fun hreopens => ⟨?_, ?_⟩
    · by_contra hne
      have hunread : file'.rdbufOffsetlast < file'.rdbufOffset := Nat.lt_of_le_of_ne R.rdbufOffsetlast (Ne.symm hne)
      obtain ⟨file'', hsession⟩ := session_delivers R hsize hvalid hunread
      have hnew := (hreopens _ _ _ _ _ hsession).1 _ (List.mem_singleton.mpr rfl)
      have hold := S.filters.unread _ (Nat.le_refl _) hunread
      exact Origin.noConfusion (hold.symm.trans hnew)
    · by_contra hne
      have hbuffered : 0 < file'.wrbufOffset := Nat.pos_of_ne_zero hne
      obtain ⟨file'', hsession, hwritten⟩ := session_writes R hsize hvalid hbuffered
      have hnew := (hreopens _ _ _ _ _ hsession).2 (file'.wrbuf 0) (by rw [hwritten]; exact List.mem_singleton.mpr rfl)
      have hold := S.filters.buffered 0 hbuffered
      exact Origin.noConfusion (hold.symm.trans hnew)
  · rintro ⟨hread, hwrite⟩ fuel target transfers bytes file'' hsession
    -- With empty buffers, only what the second session brings in is left to be delivered or written.
    have S' : Sound size (·.origin = .fromCaller) (·.origin = .fromFile) (file'.opened .fromFile target) := by
      refine ⟨{ R with }, fun i hi => ?_, fun b hb => absurd hb List.not_mem_nil, fun i hi hi' => ?_, fun b hb => ?_⟩
      · exact absurd (hwrite ▸ hi : i < 0) (Nat.not_lt_zero i)
      · exact absurd (Nat.lt_of_le_of_lt hi hi') (Nat.not_lt.mpr (Nat.le_of_eq hread))
      · obtain ⟨byte, -, rfl⟩ := List.mem_map.mp hb
        rfl
    have hend := (session_sound hsize hvalid S' fun _ => rfl).of_ok hsession
    exact ⟨hend.1, hend.2.2.filters.written⟩

/-- A run that is known by some of its result. -/
theorem run_of_map {β γ : Type} {m : Except Halt (β × Direct Traced)} {f : β × Direct Traced → γ} {c : γ} (h : m.map f = .ok c) :
    ∃ b file, m = .ok (b, file) ∧ f (b, file) = c := by
  cases m with
  | error e => cases h
  | ok r => exact ⟨r.1, r.2, rfl, Except.ok.inj h⟩

/-- All bytes of the first file are read. -/
theorem reopens_iff_read : ∃ bytes file', session 2 .earlier .earlier ⟨1, [7], fun _ => 1, 0⟩ [.read ⟨1, by decide⟩]
    (smallFile ⟨0, .earlier⟩) = .ok (bytes, file') ∧ Reopens file' := by
  have hcall : (session 2 .earlier .earlier ⟨1, [7], fun _ => 1, 0⟩ [.read ⟨1, by decide⟩] (smallFile ⟨0, .earlier⟩)).map
      (fun r => (r.2.rdbufOffset, r.2.rdbufOffsetlast, r.2.wrbufOffset)) = .ok (1, 1, 0) := by decide +kernel
  obtain ⟨bytes, file', hrun, hleft⟩ := run_of_map hcall
  obtain ⟨hoffset, hlast, hwrite⟩ : file'.rdbufOffset = 1 ∧ file'.rdbufOffsetlast = 1 ∧ file'.wrbufOffset = 0 := by
    simpa using hleft
  exact ⟨bytes, file', hrun, (reopens_iff (smallFile_init _) hrun).mpr ⟨hoffset.trans hlast.symm, hwrite⟩⟩

/-- The second byte of the first file is left in the buffer, and the read from the second file delivers it. -/
theorem reopens_mixed : ¬After (do
    let _ ← session 2 .earlier .earlier ⟨1, [7, 8], fun _ => 2, 0⟩ [.read ⟨1, by decide⟩]
    session 2 .fromFile .fromCaller ⟨1, [9], fun _ => 1, 0⟩ [.read ⟨1, by decide⟩]) Separate (smallFile ⟨0, .earlier⟩) := by
  decide +kernel

end Direct

end QPHi
