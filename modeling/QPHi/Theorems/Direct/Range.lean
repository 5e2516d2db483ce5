import QPHi.Direct
import QPHi.Theorems.Pool.Run

/-! The cursors of a file for direct I/O stay inside its buffers, and no copy leaves them, whatever the system calls
    answer. -/

namespace QPHi
open Buffer Command

namespace Direct

variable {α : Type} {size n : Nat} {file : Direct α} {P Q : α → Prop}

theorem ssize_of_lt (h : n < 2 ^ 63) : ssize n = n := by
  refine Int.bmod_eq_of_le ?_ ?_
  · omega
  · omega

theorem store_zero {b data : Nat → α} {i : Nat} : store b i 0 data = b := by
  funext j
  exact if_neg fun h => absurd h.2 (Nat.not_lt.mpr h.1)

/-! ### One operation on a buffer -/

theorem answer_le (file : Direct α) (n : Nat) : file.answer n ≤ n := by
  unfold answer
  split
  · exact Int.min_le_right _ _
  · exact Int.le_trans (by decide) (Int.natCast_nonneg n)

theorem copyIn_run {data : Data α} {source dest : Nat} (hdest : dest + n ≤ file.wrbufSize) (hsource : source + n ≤ data.len) :
    copyIn data source dest n file =
      .ok ((), { file with wrbuf := store file.wrbuf dest n fun i => data.byte (source + i) }) := by
  unfold copyIn
  rw [run_bind rfl, if_pos ⟨hdest, hsource⟩]
  rfl

theorem copyDown_run {source : Nat} (hsource : source + n ≤ file.wrbufSize) :
    copyDown source n file = .ok ((), { file with wrbuf := store file.wrbuf 0 n fun i => file.wrbuf (source + i) }) := by
  unfold copyDown
  rw [run_bind rfl, if_pos hsource]
  rfl

theorem moveRest_run {source : Nat} (hsource : source + n ≤ file.wrbufSize) :
    when (n ≠ 0) (copyDown source n) file =
      .ok ((), { file with wrbuf := store file.wrbuf 0 n fun i => file.wrbuf (source + i) }) := by
  by_cases hn : n = 0
  · rw [run_skip (not_not.mpr hn), hn, store_zero]
  · rw [run_when hn, copyDown_run hsource]

theorem copyOut_run {len source dest : Nat} (hsource : source + n ≤ file.rdbufSize) (hdest : dest + n ≤ len) :
    copyOut len source dest n file = .ok (slice file.rdbuf source n, file) := by
  unfold copyOut
  rw [run_bind rfl, if_pos ⟨hsource, hdest⟩]
  rfl

/-- The file after `write` has taken the first `n` bytes of the buffer. -/
def wrote (file : Direct α) (n : Nat) : Direct α :=
  { file with
    stream.written := file.stream.written ++ slice file.wrbuf 0 n
    stream.clock := file.stream.clock + 1 }

theorem fdWrite_run (h : n ≤ file.wrbufSize) : fdWrite n file = .ok (file.answer n, file.wrote (file.answer n).toNat) := by
  unfold fdWrite
  rw [run_bind rfl, if_pos h]
  rfl

/-- The file after `read` has put `n` bytes into the buffer. -/
def fetched (file : Direct α) (n : Nat) : Direct α :=
  { file with
    rdbuf := store file.rdbuf 0 n fun i => file.stream.content.getD i (file.rdbuf i)
    stream.content := file.stream.content.drop n
    stream.clock := file.stream.clock + 1 }

theorem fdRead_run (h : n ≤ file.rdbufSize) : fdRead n file =
    .ok (file.answer (min n file.stream.content.length), file.fetched (file.answer (min n file.stream.content.length)).toNat) := by
  unfold fdRead
  rw [run_bind rfl, if_pos h]
  rfl

/-! ### Flushing and tracking -/

/-- The bytes that a flush passes to `write`. -/
def flushLen (file : Direct α) (full : Bool) : Nat := if full then file.wrbufSize else file.wrbufOffset

theorem flushLen_le (full : Bool) (hoffset : file.wrbufOffset ≤ file.wrbufSize) : file.flushLen full ≤ file.wrbufSize := by
  cases full with
  | true => exact Nat.le_refl _
  | false => exact hoffset

theorem le_flushLen (full : Bool) (hoffset : file.wrbufOffset ≤ file.wrbufSize) : file.wrbufOffset ≤ file.flushLen full := by
  cases full with
  | true => exact hoffset
  | false => exact Nat.le_refl _

/-- The file after a flush that has got rid of `n` of its `last` bytes. -/
def flushed (file : Direct α) (last n : Nat) : Direct α :=
  { file.wrote n with
    wrbufOffsetlast := last
    wrbufOffset := last - n
    wrbuf := store file.wrbuf 0 (last - n) fun i => file.wrbuf (n + i) }

/-- A flush fails and leaves the buffer alone, or gets rid of some bytes. -/
theorem fileFlush_words (full : Bool) (hsize : file.wrbufSize < 2 ^ 64) (hoffset : file.wrbufOffset ≤ file.wrbufSize) :
    (∃ ret ≤ 0, file.answer (file.flushLen full) = ret ∧
      fileFlush full file = .ok (ret, { file.wrote 0 with wrbufOffsetlast := file.flushLen full })) ∨
      ∃ n, 0 < n ∧ n ≤ file.flushLen full ∧ file.answer (file.flushLen full) = n ∧
        fileFlush full file = .ok (ssize (file.wrbufSize - (file.flushLen full - n)), file.flushed (file.flushLen full) n) := by
  obtain ⟨last, hlast⟩ : ∃ last, last = file.flushLen full := ⟨_, rfl⟩
  have hfits : last ≤ file.wrbufSize := hlast ▸ flushLen_le full hoffset
  obtain ⟨marked, hmarked⟩ : ∃ marked, marked = { file with wrbufOffsetlast := last } := ⟨_, rfl⟩
  have hstart : fileFlush full file = (do
      let ret ← fdWrite last
      if 0 < ret then
        modify fun file => { file with wrbufOffset := subWord file.wrbufOffsetlast ret.toNat }
        let file ← get
        when (file.wrbufOffset ≠ 0) (copyDown ret.toNat file.wrbufOffset)
        return ssize (subWord file.wrbufSize file.wrbufOffset)
      else return ret : Cmd (Direct α) Int) marked := by
    rw [hmarked, hlast]
    rfl
  have hwrite : fdWrite last marked = .ok (file.answer last, marked.wrote (file.answer last).toNat) := by
    rw [fdWrite_run (by rw [hmarked]; exact hfits), hmarked]
    rfl
  rw [hstart, run_bind hwrite, ← hlast]
  by_cases hret : 0 < file.answer last
  · obtain ⟨n, hn⟩ := Int.eq_ofNat_of_zero_le (Int.le_of_lt hret)
    have hle : n ≤ last := Int.ofNat_le.mp (hn ▸ file.answer_le last)
    have hpos : 0 < n := Int.natCast_pos.mp (hn ▸ hret)
    refine .inr ⟨n, hpos, hle, hn, ?_⟩
    have hsub : subWord last n = last - n := subWord_of_le (Nat.lt_of_le_of_lt hfits hsize) hle
    have hspace : subWord file.wrbufSize (last - n) = file.wrbufSize - (last - n) := subWord_of_le hsize (by omega)
    rw [if_pos hret, hn, Int.toNat_natCast, hmarked, run_bind rfl, run_bind rfl]
    show (do
      when (subWord last n ≠ 0) (copyDown n (subWord last n))
      return ssize (subWord file.wrbufSize (subWord last n)) : Cmd (Direct α) Int)
        { file.wrote n with wrbufOffsetlast := last, wrbufOffset := subWord last n } = _
    have hmove : n + (last - n) ≤ file.wrbufSize := by omega
    have hmoved : when (last - n ≠ 0) (copyDown n (last - n))
        { file.wrote n with wrbufOffsetlast := last, wrbufOffset := last - n } = .ok ((), file.flushed last n) :=
      moveRest_run hmove
    rw [hsub, run_bind hmoved, hspace]
    rfl
  · refine .inl ⟨_, Int.not_lt.mp hret, rfl, ?_⟩
    have hzero : (file.answer last).toNat = 0 := Int.toNat_eq_zero.mpr (Int.not_lt.mp hret)
    rw [if_neg hret, hzero, hmarked]
    rfl

/-- In a buffer that exists, a flush tells the room that it has made. -/
theorem fileFlush_cases (full : Bool) (hsize : file.wrbufSize < 2 ^ 63) (hoffset : file.wrbufOffset ≤ file.wrbufSize) :
    (∃ ret ≤ 0, file.answer (file.flushLen full) = ret ∧
      fileFlush full file = .ok (ret, { file.wrote 0 with wrbufOffsetlast := file.flushLen full })) ∨
      ∃ n, 0 < n ∧ n ≤ file.flushLen full ∧ file.answer (file.flushLen full) = n ∧
        fileFlush full file = .ok (((file.wrbufSize - (file.flushLen full - n) : Nat) : Int), file.flushed (file.flushLen full) n) := by
  have hspace : ∀ m, ssize (file.wrbufSize - m) = ((file.wrbufSize - m : Nat) : Int) :=
    fun m => ssize_of_lt (Nat.lt_of_le_of_lt (Nat.sub_le _ _) hsize)
  have hcases := fileFlush_words full (Nat.lt_trans hsize (by decide)) hoffset
  simp only [hspace] at hcases
  exact hcases

/-- The file after a `read` that has put `n` bytes into the buffer. -/
def tracked (file : Direct α) (n : Nat) : Direct α := { file.fetched n with rdbufOffset := n, rdbufOffsetlast := 0 }

/-- `qp_file_track` fails and leaves the buffer alone, or fills it anew. -/
theorem fileTrack_words (file : Direct α) :
    (∃ ret ≤ 0, file.answer (min file.rdbufSize file.stream.content.length) = ret ∧ fileTrack file = .ok (ret, file.fetched 0)) ∨
      ∃ n : Nat, 0 < n ∧ n ≤ file.rdbufSize ∧ n ≤ file.stream.content.length ∧
        file.answer (min file.rdbufSize file.stream.content.length) = n ∧ fileTrack file = .ok (ssize n, file.tracked n) := by
  obtain ⟨most, hmost⟩ : ∃ most, most = min file.rdbufSize file.stream.content.length := ⟨_, rfl⟩
  have hread : fdRead file.rdbufSize file = .ok (file.answer most, file.fetched (file.answer most).toNat) := by
    rw [hmost]
    exact fdRead_run (Nat.le_refl _)
  rw [← hmost]
  unfold fileTrack
  rw [run_bind rfl, run_bind hread]
  by_cases hret : 0 < file.answer most
  · obtain ⟨n, hn⟩ := Int.eq_ofNat_of_zero_le (Int.le_of_lt hret)
    have hle : n ≤ most := Int.ofNat_le.mp (hn ▸ file.answer_le most)
    refine .inr ⟨n, Int.natCast_pos.mp (hn ▸ hret), by omega, by omega, hn, ?_⟩
    rw [if_pos hret, hn, Int.toNat_natCast, run_bind rfl, run_bind rfl]
    rfl
  · refine .inl ⟨_, Int.not_lt.mp hret, rfl, ?_⟩
    rw [if_neg hret, Int.toNat_eq_zero.mpr (Int.not_lt.mp hret)]
    rfl

theorem fileTrack_cases (hsize : file.rdbufSize < 2 ^ 63) :
    (∃ ret ≤ 0, file.answer (min file.rdbufSize file.stream.content.length) = ret ∧ fileTrack file = .ok (ret, file.fetched 0)) ∨
      ∃ n : Nat, 0 < n ∧ n ≤ file.rdbufSize ∧ n ≤ file.stream.content.length ∧
        file.answer (min file.rdbufSize file.stream.content.length) = n ∧ fileTrack file = .ok ((n : Int), file.tracked n) := by
  rcases file.fileTrack_words with hfailed | ⟨n, hpos, hle, hcontent, hanswer, hrun⟩
  · exact .inl hfailed
  · refine .inr ⟨n, hpos, hle, hcontent, hanswer, ?_⟩
    rw [hrun, ssize_of_lt (Nat.lt_of_le_of_lt hle hsize)]

/-! ### What the rounds of the loops do -/

/-- The file after `n` bytes of `data` were put behind those in the buffer. -/
def filled (file : Direct α) (data : Data α) (pos n offset : Nat) : Direct α :=
  { file with
    wrbufOffsetlast := file.wrbufOffset
    wrbufOffset := offset
    wrbuf := store file.wrbuf file.wrbufOffset n fun i => data.byte (pos + i) }

variable {data : Data α} {pos len all : Nat} {stored : List α}

/-- What fits into the buffer is put there. -/
theorem writeRound_fits (hsize : file.wrbufSize < 2 ^ 63) (hlen : pos + len = data.len) (hfits : file.wrbufOffset + len < file.wrbufSize) :
    writeRound data (pos, len) file = .ok (.done (len : Int), file.filled data pos len (file.wrbufOffset + len)) := by
  have hadd : addWord file.wrbufOffset len = file.wrbufOffset + len := addWord_of_lt (by omega)
  have hall := data.len.2
  have hret : ssize len = len := ssize_of_lt (by omega)
  have hcopy : copyIn data pos file.wrbufOffset len
      { file with wrbufOffsetlast := file.wrbufOffset, wrbufOffset := file.wrbufOffset + len } =
        .ok ((), file.filled data pos len (file.wrbufOffset + len)) :=
    copyIn_run (Nat.le_of_lt hfits) (Nat.le_of_eq hlen)
  rw [writeRound, run_bind rfl, run_bind rfl, run_bind rfl]
  simp only [hadd]
  rw [if_pos hfits, run_bind hcopy, hret]
  rfl

/-- Otherwise the buffer is filled up and flushed. -/
theorem writeRound_full (hsize : file.wrbufSize < 2 ^ 63) (hoffset : file.wrbufOffset ≤ file.wrbufSize) (hlen : pos + len = data.len)
    (hfull : file.wrbufSize ≤ file.wrbufOffset + len) {fill : Nat} (hfill : fill = file.wrbufSize - file.wrbufOffset)
    {ret : Int} {file' : Direct α} (hflush : fileFlush true (file.filled data pos fill fill) = .ok (ret, file')) :
    writeRound data (pos, len) file = .ok (if 1 > ret ∨ len - fill = 0 then .done (if len - fill ≠ 0 then ret else data.len)
      else .again (pos + fill, len - fill), file') := by
  have hall := data.len.2
  have hadd : addWord file.wrbufOffset len = file.wrbufOffset + len := addWord_of_lt (by omega)
  have hsub : subWord file.wrbufSize file.wrbufOffset = fill := by rw [subWord_of_le (by omega) hoffset, hfill]
  have hrest : subWord len fill = len - fill := subWord_of_le (by omega) (by omega)
  have hret : ssize data.len = data.len := ssize_of_lt hall
  have hcopy : copyIn data pos file.wrbufOffset fill
      { file with wrbufOffsetlast := file.wrbufOffset, wrbufOffset := fill } = .ok ((), file.filled data pos fill fill) :=
    copyIn_run (by show file.wrbufOffset + fill ≤ file.wrbufSize; omega) (by omega)
  rw [writeRound, run_bind rfl, run_bind rfl, run_bind rfl]
  simp only [hadd]
  rw [if_neg (Nat.not_lt.mpr hfull), run_bind rfl, run_bind rfl]
  simp only [hsub, hrest]
  rw [run_bind hcopy, run_bind hflush, hret]
  split
  · rfl
  · rfl

/-- The unread bytes of the read buffer. -/
def rest (file : Direct α) : Nat := file.rdbufOffset - file.rdbufOffsetlast

theorem rest_eq (hsize : file.rdbufSize < 2 ^ 63) (hlast : file.rdbufOffsetlast ≤ file.rdbufOffset)
    (hoffset : file.rdbufOffset ≤ file.rdbufSize) :
    subWord file.rdbufOffset file.rdbufOffsetlast = file.rest := subWord_of_le (by omega) hlast

/-- What is there is taken from the buffer. -/
theorem readRound_there (hsize : file.rdbufSize < 2 ^ 63) (hlast : file.rdbufOffsetlast ≤ file.rdbufOffset)
    (hoffset : file.rdbufOffset ≤ file.rdbufSize) (hlen : pos + len = all) (hall : all < 2 ^ 63) (hthere : len ≤ file.rest) :
    readRound all (pos, len, stored) file = .ok (.done ((len : Int), stored ++ slice file.rdbuf file.rdbufOffsetlast len),
      { file with rdbufOffsetlast := file.rdbufOffsetlast + len }) := by
  have hrest : file.rest = file.rdbufOffset - file.rdbufOffsetlast := rfl
  have hadd : addWord file.rdbufOffsetlast len = file.rdbufOffsetlast + len := addWord_of_lt (by omega)
  have hret : ssize len = len := ssize_of_lt (by omega)
  have hcopy : copyOut all file.rdbufOffsetlast pos len file = .ok (slice file.rdbuf file.rdbufOffsetlast len, file) :=
    copyOut_run (by omega) (by omega)
  rw [readRound, run_bind rfl]
  simp only [rest_eq hsize hlast hoffset]
  rw [if_neg (Nat.not_lt.mpr hthere), run_bind hcopy, run_bind rfl, hret, ← hadd]
  rfl

/-- Otherwise all unread bytes are taken, and the buffer is filled anew. -/
theorem readRound_more (hsize : file.rdbufSize < 2 ^ 63) (hlast : file.rdbufOffsetlast ≤ file.rdbufOffset)
    (hoffset : file.rdbufOffset ≤ file.rdbufSize) (hlen : pos + len = all) (hall : all < 2 ^ 63) (hmore : file.rest < len)
    {ret : Int} {file' : Direct α} (htrack : fileTrack file = .ok (ret, file')) :
    readRound all (pos, len, stored) file =
      .ok (if 1 > ret ∨ len - file.rest = 0 then
          .done (if len - file.rest ≠ 0 then ret else all, stored ++ slice file.rdbuf file.rdbufOffsetlast file.rest)
        else .again (pos + file.rest, len - file.rest, stored ++ slice file.rdbuf file.rdbufOffsetlast file.rest), file') := by
  have hrest : file.rest = file.rdbufOffset - file.rdbufOffsetlast := rfl
  have hsub : subWord len file.rest = len - file.rest := subWord_of_le (by omega) (Nat.le_of_lt hmore)
  have hret : ssize all = all := ssize_of_lt hall
  have hcopy : copyOut all file.rdbufOffsetlast pos file.rest file =
      .ok (slice file.rdbuf file.rdbufOffsetlast file.rest, file) := copyOut_run (by omega) (by omega)
  rw [readRound, run_bind rfl]
  simp only [rest_eq hsize hlast hoffset]
  rw [if_pos hmore, run_bind hcopy, run_bind htrack, hsub, hret]
  split
  · rfl
  · rfl

/-! ### The invariant -/

/-- The cursors of a file whose buffers have `size` bytes. -/
structure InRange (size : Nat) (file : Direct α) : Prop where
  wrbufSize : file.wrbufSize = size
  rdbufSize : file.rdbufSize = size
  wrbufOffset : file.wrbufOffset ≤ file.wrbufSize
  rdbufOffsetlast : file.rdbufOffsetlast ≤ file.rdbufOffset
  rdbufOffset : file.rdbufOffset ≤ file.rdbufSize

/-- What the bytes are: those in the first `last` places of the write buffer and those that were written satisfy `P`,
    those that are unread and those that are still to be read satisfy `Q`. -/
structure Filters (P Q : α → Prop) (last : Nat) (file : Direct α) : Prop where
  buffered : ∀ i < last, P (file.wrbuf i)
  written : ∀ b ∈ file.stream.written, P b
  unread : ∀ i, file.rdbufOffsetlast ≤ i → i < file.rdbufOffset → Q (file.rdbuf i)
  content : ∀ b ∈ file.stream.content, Q b

/-- The state between two operations. -/
structure Sound (size : Nat) (P Q : α → Prop) (file : Direct α) : Prop where
  range : InRange size file
  filters : Filters P Q file.wrbufOffset file

theorem slice_all {b : Nat → α} {i : Nat} (h : ∀ j < n, P (b (i + j))) : ∀ x ∈ slice b i n, P x := by
  intro x hx
  obtain ⟨j, hj, rfl⟩ := List.mem_map.mp hx
  exact h j (List.mem_range.mp hj)

/-- `write` has taken the first `n` bytes. -/
theorem Filters.wrote {last : Nat} (H : Filters P Q last file) (hn : n ≤ last) : ∀ b ∈ (file.wrote n).stream.written, P b := by
  intro b hb
  rcases List.mem_append.mp hb with hb | hb
  · exact H.written b hb
  · exact slice_all (fun j hj => H.buffered _ (by omega)) b hb

/-- A flush keeps the cursors in range. -/
theorem InRange.flush (R : InRange size file) (hsize : size < 2 ^ 63) (full : Bool) :
    ∃ ret file', fileFlush full file = .ok (ret, file') ∧ InRange size file' ∧
      (Filters P Q (file.flushLen full) file → Filters P Q file'.wrbufOffset file') := by
  have hoffset := R.wrbufOffset
  rcases fileFlush_cases full (R.wrbufSize ▸ hsize) hoffset with ⟨ret, -, -, hrun⟩ | ⟨n, -, hle, -, hrun⟩
  · refine ⟨_, _, hrun, { R with }, fun H => ?_⟩
    exact ⟨fun i hi => H.buffered i (Nat.lt_of_lt_of_le hi (le_flushLen full hoffset)), H.wrote (Nat.zero_le _), H.unread, H.content⟩
  · refine ⟨_, _, hrun, { R with wrbufOffset := ?_ }, fun H => ?_⟩
    · exact Nat.le_trans (Nat.sub_le _ _) (flushLen_le full hoffset)
    · refine ⟨fun i hi => ?_, H.wrote hle, H.unread, H.content⟩
      have hi' : i < file.flushLen full - n := hi
      have hmoved : (file.flushed (file.flushLen full) n).wrbuf i = file.wrbuf (n + i) :=
        if_pos ⟨Nat.zero_le i, by rwa [Nat.zero_add]⟩
      rw [hmoved]
      exact H.buffered _ (by omega)

/-- `qp_file_track` keeps the invariant. -/
theorem Sound.track (S : Sound size P Q file) (hsize : size < 2 ^ 63) :
    ∃ ret file', fileTrack file = .ok (ret, file') ∧ Sound size P Q file' := by
  have R := S.range
  have H := S.filters
  rcases fileTrack_cases (R.rdbufSize ▸ hsize) with ⟨ret, -, -, hrun⟩ | ⟨n, -, hle, hcontent, -, hrun⟩
  · refine ⟨_, _, hrun, { R with }, ?_⟩
    refine ⟨H.buffered, H.written, fun i hi hi' => ?_, H.content⟩
    simp only [fetched, store_zero]
    exact H.unread i hi hi'
  · refine ⟨_, _, hrun, { R with rdbufOffsetlast := Nat.zero_le _, rdbufOffset := hle }, ?_⟩
    refine ⟨H.buffered, H.written, fun i _ hi => ?_, fun b hb => H.content b (List.mem_of_mem_drop hb)⟩
    have hi' : i < n := hi
    have hnew : (file.tracked n).rdbuf i = file.stream.content.getD i (file.rdbuf i) :=
      if_pos ⟨Nat.zero_le i, by rwa [Nat.zero_add]⟩
    rw [hnew, List.getD_eq_getElem?_getD, List.getElem?_eq_getElem (Nat.lt_of_lt_of_le hi' hcontent)]
    exact H.content _ (List.getElem_mem _)

/-- A round of the loop of `qp_file_write` keeps the invariant, and takes the data from where it got to. -/
theorem Sound.writeRound (S : Sound size P Q file) (hsize : size < 2 ^ 63) (hlen : pos + len = data.len)
    (hdata : ∀ i < data.len.1, P (data.byte i)) :
    ∃ next file', Direct.writeRound data (pos, len) file = .ok (next, file') ∧
      Next.Either (fun state file => state.1 + state.2 = data.len.1 ∧ Sound size P Q file) (fun _ => Sound size P Q) next file' := by
  have R := S.range
  have H := S.filters
  have hwrbuf := R.wrbufSize
  have hoffset := R.wrbufOffset
  -- The bytes behind those in the buffer are bytes of the data.
  have hfilled : ∀ n offset i, n ≤ len → i < file.wrbufOffset + n → P ((file.filled data pos n offset).wrbuf i) := by
    intro n offset i hn hi
    by_cases hold : i < file.wrbufOffset
    · have hsame : (file.filled data pos n offset).wrbuf i = file.wrbuf i := if_neg fun h => by omega
      rw [hsame]
      exact H.buffered i hold
    · have hnew : (file.filled data pos n offset).wrbuf i = data.byte (pos + (i - file.wrbufOffset)) := if_pos ⟨by omega, hi⟩
      rw [hnew]
      exact hdata _ (by omega)
  by_cases hfits : file.wrbufOffset + len < file.wrbufSize
  · refine ⟨_, _, writeRound_fits (hwrbuf ▸ hsize) hlen hfits, ?_, ?_⟩
    · exact { R with wrbufOffset := Nat.le_of_lt hfits }
    · exact ⟨fun i hi => hfilled len _ i (Nat.le_refl _) hi, H.written, H.unread, H.content⟩
  · obtain ⟨fill, hfill⟩ : ∃ fill, fill = file.wrbufSize - file.wrbufOffset := ⟨_, rfl⟩
    have R' : InRange size (file.filled data pos fill fill) := { R with wrbufOffset := by show fill ≤ file.wrbufSize; omega }
    obtain ⟨ret, file', hflush, R'', hfilters⟩ := R'.flush (P := P) (Q := Q) hsize true
    have S' : Sound size P Q file' := by
      refine ⟨R'', hfilters ⟨fun i hi => ?_, H.written, H.unread, H.content⟩⟩
      have hi' : i < file.wrbufSize := hi
      exact hfilled fill fill i (by omega) (by omega)
    refine ⟨_, file', writeRound_full (hwrbuf ▸ hsize) hoffset hlen (Nat.not_lt.mp hfits) hfill hflush, ?_⟩
    split
    · exact S'
    · exact ⟨by show pos + fill + (len - fill) = data.len; omega, S'⟩

/-- A round of the loop of `qp_file_read` keeps the invariant, stores only bytes of the file, and goes on behind those
    that are stored. -/
theorem Sound.readRound (S : Sound size P Q file) (hsize : size < 2 ^ 63) (hlen : pos + len = all) (hall : all < 2 ^ 63)
    (hstored : ∀ b ∈ stored, Q b) :
    ∃ next file', Direct.readRound all (pos, len, stored) file = .ok (next, file') ∧
      Next.Either (fun state file => (state.1 + state.2.1 = all ∧ ∀ b ∈ state.2.2, Q b) ∧ Sound size P Q file)
        (fun answer file => (∀ b ∈ answer.2, Q b) ∧ Sound size P Q file) next file' := by
  have R := S.range
  have H := S.filters
  have hrest : file.rest = file.rdbufOffset - file.rdbufOffsetlast := rfl
  have hmore : ∀ n ≤ file.rest, ∀ b ∈ stored ++ slice file.rdbuf file.rdbufOffsetlast n, Q b := by
    intro n hn b hb
    rcases List.mem_append.mp hb with hb | hb
    · exact hstored b hb
    · exact slice_all (fun j hj => H.unread _ (by omega) (by omega)) b hb
  by_cases hthere : len ≤ file.rest
  · have hoffset := R.rdbufOffset
    have hlast := R.rdbufOffsetlast
    refine ⟨_, _, readRound_there (R.rdbufSize ▸ hsize) hlast hoffset hlen hall hthere, hmore len hthere, ?_, ?_⟩
    · exact { R with rdbufOffsetlast := by show file.rdbufOffsetlast + len ≤ file.rdbufOffset; omega }
    · exact ⟨H.buffered, H.written, fun i hi hi' => H.unread i (Nat.le_trans (Nat.le_add_right _ _) hi) hi', H.content⟩
  · obtain ⟨ret, file', htrack, S'⟩ := S.track hsize
    refine ⟨_, file', readRound_more (R.rdbufSize ▸ hsize) R.rdbufOffsetlast R.rdbufOffset hlen hall (Nat.not_le.mp hthere)
      htrack, ?_⟩
    split
    · exact ⟨hmore _ (Nat.le_refl _), S'⟩
    · exact ⟨⟨by show pos + file.rest + (len - file.rest) = all; omega, hmore _ (Nat.le_refl _)⟩, S'⟩

/-! ### Operations -/

theorem fileWrite_sound (hsize : size < 2 ^ 63) (hdata : ∀ i < data.len.1, P (data.byte i)) (fuel : Nat) :
    Keeps (Sound size P Q) (fileWrite fuel data) := by
  refine Triple.conseq (Triple.loop (J := fun state file => state.1 + state.2 = data.len.1 ∧ Sound size P Q file)
    (Q := fun _ => Sound size P Q) (fun state file h => ?_) fuel (0, data.len.1)) (fun file S => ⟨Nat.zero_add _, S⟩)
    fun _ _ S => S
  obtain ⟨next, file', hrun, hnext⟩ := h.2.writeRound hsize h.1 hdata
  rw [hrun]
  cases next with
  | again state' => exact hnext
  | done ret => exact hnext

theorem fileRead_sound (hsize : size < 2 ^ 63) (fuel : Nat) (len : Length) :
    Triple (Sound size P Q) (fileRead fuel len) fun answer file => (∀ b ∈ answer.2, Q b) ∧ Sound size P Q file := by
  refine Triple.conseq (Triple.loop
    (J := fun state file => (state.1 + state.2.1 = len.1 ∧ ∀ b ∈ state.2.2, Q b) ∧ Sound size P Q file)
    (Q := fun answer file => (∀ b ∈ answer.2, Q b) ∧ Sound size P Q file) (fun state file h => ?_) fuel (0, len.1, []))
    (fun file S => ⟨⟨Nat.zero_add _, fun b hb => absurd hb List.not_mem_nil⟩, S⟩) fun _ _ h => h
  obtain ⟨next, file', hrun, hnext⟩ := h.2.readRound hsize h.1.1 len.2 h.1.2
  rw [hrun]
  cases next with
  | again state' => exact hnext
  | done answer => exact hnext

theorem fileFlush_sound (hsize : size < 2 ^ 63) : Keeps (Sound size P Q) (fileFlush false) := by
  intro file S
  obtain ⟨ret, file', hrun, R, hfilters⟩ := S.range.flush hsize false
  rw [hrun]
  exact ⟨R, hfilters S.filters⟩

theorem fileTrack_sound (hsize : size < 2 ^ 63) : Keeps (Sound size P Q) fileTrack := by
  intro file S
  obtain ⟨ret, file', hrun, S'⟩ := S.track hsize
  rw [hrun]
  exact S'

/-- `qp_file_close` leaves no open file. -/
theorem fileClose_sound (hsize : size < 2 ^ 63) (fuel : Nat) (ret : Int) :
    Triple (Sound size P Q) (fileClose fuel ret) fun _ file => file.isValid = false ∧ Sound size P Q file := by
  have hget : Triple (Sound size P Q) MonadState.get fun file file' => file = file' ∧ Sound size P Q file' := fun _ S => ⟨rfl, S⟩
  have hround : ∀ u, Keeps (Sound size P Q) (closeRound u) := fun _ =>
    (fileFlush_sound hsize).bind fun ret => Keeps.ite (Keeps.pure _) (Keeps.pure _)
  refine hget.bind fun file => Triple.ite (fun _ => ?_) fun hinvalid => Triple.pure ?_
  · have hrest : Triple (fun file' => file = file' ∧ Sound size P Q file') (when (0 < file.wrbufOffset) (loop closeRound fuel ()))
        fun _ => Sound size P Q := (Keeps.when (Keeps.loop hround fuel ())).conseq (fun _ h => h.2) fun _ _ S => S
    refine hrest.bind fun _ => Triple.bind (R := fun _ file => file.isValid = false ∧ Sound size P Q file) (fun file S => ?_)
      fun _ => Triple.pure fun _ h => h
    exact ⟨rfl, { S.range with }, S.filters.buffered, S.filters.written, S.filters.unread, S.filters.content⟩
  · rintro file' ⟨rfl, S⟩
    exact ⟨Bool.not_eq_true _ ▸ hinvalid, S⟩

theorem fileOpen_sound (path : Nat) {opened : Option (List α × (Nat → Int))} (hopened : ∀ file ∈ opened, ∀ b ∈ file.1, Q b) :
    Keeps (Sound size P Q) (fileOpen path opened) := by
  refine Keeps.get.bind fun file => Keeps.ite (Keeps.pure _) ?_
  cases opened with
  | none => exact Keeps.pure _
  | some opened =>
    refine Keeps.bind (Keeps.modify fun file S => ?_) fun _ => Keeps.pure _
    exact ⟨{ S.range with }, S.filters.buffered, fun b hb => absurd hb List.not_mem_nil, S.filters.unread, hopened opened rfl⟩

/-! ### Runs -/

inductive Op (α : Type) where
  | openFile (path : Nat) (opened : Option (List α × (Nat → Int)))
  | write (data : Data α)
  | read (len : Length)
  | flush (full : Bool)
  | track
  | close (ret : Int)

/-- One operation, with the bytes that it stores for the caller. -/
def Op.run (fuel : Nat) : Op α → Cmd (Direct α) (List α)
  | .openFile path opened => do
    let _ ← fileOpen path opened
    return []
  | .write data => do
    let _ ← fileWrite fuel data
    return []
  | .read len => do return (← fileRead fuel len).2
  | .flush full => do
    let _ ← fileFlush full
    return []
  | .track => do
    let _ ← fileTrack
    return []
  | .close ret => do
    let _ ← fileClose fuel ret
    return []

def Op.runAll (fuel : Nat) : List (Op α) → Cmd (Direct α) (List α)
  | [] => return []
  | op :: ops => do
    let bytes ← op.run fuel
    return bytes ++ (← runAll fuel ops)

/-- The bytes that an operation brings in: those of a caller satisfy `P`, those of a file satisfy `Q`. A full flush writes
    whatever is in the buffer. -/
def Op.Feeds (P Q : α → Prop) : Op α → Prop
  | .openFile _ opened => ∀ file ∈ opened, ∀ b ∈ file.1, Q b
  | .write data => ∀ i < data.len.1, P (data.byte i)
  | .flush full => full = true → ∀ b, P b
  | _ => True

theorem Op.run_sound (hsize : size < 2 ^ 63) (fuel : Nat) {op : Op α} (hop : op.Feeds P Q) :
    Triple (Sound size P Q) (op.run fuel) fun bytes file => (∀ b ∈ bytes, Q b) ∧ Sound size P Q file := by
  have hnone : ∀ {β : Type} {m : Cmd (Direct α) β}, Keeps (Sound size P Q) m →
      Triple (Sound size P Q) (do let _ ← m; return ([] : List α)) fun bytes file => (∀ b ∈ bytes, Q b) ∧ Sound size P Q file :=
    fun hm => Triple.bind hm fun _ => Triple.pure fun _ S => ⟨fun b hb => absurd hb List.not_mem_nil, S⟩
  cases op with
  | openFile path opened => exact hnone (fileOpen_sound path hop)
  | write data => exact hnone (fileWrite_sound hsize hop fuel)
  | read len => exact (fileRead_sound hsize fuel len).bind fun _ => Triple.pure fun _ h => h
  | flush full =>
    refine hnone fun file S => ?_
    obtain ⟨ret, file', hrun, R, hfilters⟩ := S.range.flush hsize full
    rw [hrun]
    refine ⟨R, hfilters ⟨fun i hi => ?_, S.filters.written, S.filters.unread, S.filters.content⟩⟩
    cases full with
    | true => exact hop rfl _
    | false => exact S.filters.buffered i hi
  | track => exact hnone (fileTrack_sound hsize)
  | close ret => exact hnone ((fileClose_sound hsize fuel ret).conseq (fun _ S => S) fun _ _ h => h.2)

theorem Op.runAll_sound (hsize : size < 2 ^ 63) (fuel : Nat) {ops : List (Op α)} (hops : ∀ op ∈ ops, op.Feeds P Q) :
    Triple (Sound size P Q) (Op.runAll fuel ops) fun bytes file => (∀ b ∈ bytes, Q b) ∧ Sound size P Q file := by
  induction ops with
  | nil => exact Triple.pure fun _ S => ⟨fun b hb => absurd hb List.not_mem_nil, S⟩
  | cons op ops ih =>
    refine (Op.run_sound hsize fuel (hops op List.mem_cons_self)).bind fun bytes => Triple.given fun hbytes => ?_
    refine Triple.bind (ih fun op' hop' => hops op' (List.mem_cons_of_mem op hop')) fun bytes' => Triple.pure fun file h => ?_
    exact ⟨fun b hb => (List.mem_append.mp hb).elim (hbytes b) (h.1 b), h.2⟩

/-- Two blocks of their own have less than `PTRDIFF_MAX` bytes each. -/
theorem fileInit_some {wrbuf? rdbuf? : Ptr} {h : Heap} {wrbuf rdbuf : Nat → α}
    (hinit : fileInit wrbuf? rdbuf? h size wrbuf rdbuf = some file) :
    size < 2 ^ 63 ∧ file = ⟨wrbuf, rdbuf, size, size, 0, 0, 0, 0, false, ⟨[], [], fun _ => -1, 0⟩⟩ := by
  unfold fileInit Heap.alloc at hinit
  by_cases hw : h.Fresh (wrbuf?, max size 1)
  · rw [if_pos hw] at hinit
    by_cases hr : Heap.Fresh { h with live := (wrbuf?, max size 1) :: h.live } (rdbuf?, max size 1)
    · simp only [if_pos hr] at hinit
      obtain ⟨hw₀, hwlt, -⟩ := hw
      obtain ⟨hr₀, hrlt, hapart⟩ := hr
      have hboth : ¬(wrbuf? = NULL ∨ rdbuf? = NULL) := not_or.mpr ⟨hw₀, hr₀⟩
      rw [if_neg hboth, Option.some.injEq] at hinit
      refine ⟨?_, hinit.symm⟩
      rcases hapart _ List.mem_cons_self with hap | hap
      · simp only at hap hwlt
        omega
      · simp only at hap hrlt
        omega
    · simp [if_neg hr] at hinit
  · simp [if_neg hw] at hinit

theorem fileInit_sound {wrbuf? rdbuf? : Ptr} {h : Heap} {wrbuf rdbuf : Nat → α}
    (hinit : fileInit wrbuf? rdbuf? h size wrbuf rdbuf = some file) : Sound size P Q file := by
  obtain ⟨-, rfl⟩ := fileInit_some hinit
  refine ⟨⟨rfl, rfl, Nat.zero_le _, Nat.le_refl _, Nat.zero_le _⟩, fun i hi => absurd hi (Nat.not_lt_zero i),
    fun b hb => absurd hb List.not_mem_nil, fun i _ hi => absurd hi (Nat.not_lt_zero i), fun b hb => absurd hb List.not_mem_nil⟩

/-- Whatever the operations on a file for direct I/O are and whatever the system calls answer: the cursors stay in the
    buffers, and no copy leaves a buffer or the data of a caller. -/
theorem cursors_inRange {wrbuf? rdbuf? : Ptr} {h : Heap} {bufsize : Nat} {wrbuf rdbuf : Nat → α}
    (hinit : fileInit wrbuf? rdbuf? h bufsize wrbuf rdbuf = some file) (fuel : Nat) (ops : List (Op α)) :
    Op.runAll fuel ops file ≠ .error .stuck ∧ After (Op.runAll fuel ops) (fun _ => InRange bufsize) file := by
  have S : Sound bufsize (fun _ => True) (fun _ => True) file := fileInit_sound hinit
  have hfeeds : ∀ op ∈ ops, op.Feeds (fun _ => True) fun _ => True := by
    intro op _
    cases op with
    | openFile path opened => exact fun _ _ _ _ => trivial
    | write data => exact fun _ _ => trivial
    | flush full => exact fun _ _ => trivial
    | read len => trivial
    | track => trivial
    | close ret => trivial
  have hrun := Op.runAll_sound (fileInit_some hinit).1 fuel hfeeds file S
  exact ⟨hrun.ne_stuck, fun bytes file' hok => (hrun.of_ok hok).2.range⟩

/-- A file with buffers of two bytes. -/
def smallFile (b : α) : Direct α :=
  ⟨fun _ => b, fun _ => b, 2, 2, 0, 0, 0, 0, false, ⟨[], [], fun _ => -1, 0⟩⟩

theorem smallFile_init (b : α) : fileInit 2000 3000 bareHeap 2 (fun _ => b) (fun _ => b) = some (smallFile b) := rfl

/-- The second write finds a buffer with one byte, and the flush fails. -/
theorem cursors_inRange_failed :
    Op.runAll 2 [.openFile 1 (some ([], fun _ => -1)), .write ⟨fun _ => (1 : UInt8), 1, by decide⟩,
      .write ⟨fun _ => 2, 2, by decide⟩, .read ⟨1, by decide⟩, .close 0] (smallFile 0) ≠ .error .stuck :=
  (cursors_inRange (smallFile_init 0) 2 _).1

end Direct

end QPHi
