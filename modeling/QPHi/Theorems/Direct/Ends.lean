import QPHi.Theorems.Direct.Range

/-! The loops of a file for direct I/O end, whatever the system calls answer. A round takes some of what is left, unless it
    finds the buffer full or read up; then it makes room, or gets something to read, or it is the last one. -/

namespace QPHi
open Buffer Command

namespace Direct

variable {α : Type} {size offset fuel pos len : Nat} {file : Direct α} {data : Data α}

/-- The write cursor is in its buffer, and that has less than `bound` bytes. -/
structure WriteIn (bound : Nat) (file : Direct α) : Prop where
  size : file.wrbufSize < bound
  offset : file.wrbufOffset ≤ file.wrbufSize

/-- The read cursors are in their buffer, and that has less than `bound` bytes. -/
structure ReadIn (bound : Nat) (file : Direct α) : Prop where
  size : file.rdbufSize < bound
  last : file.rdbufOffsetlast ≤ file.rdbufOffset
  offset : file.rdbufOffset ≤ file.rdbufSize

theorem WriteIn.word (W : WriteIn (2 ^ 63) file) : WriteIn (2 ^ 64) file := ⟨Nat.lt_trans W.size (by decide), W.offset⟩

theorem ReadIn.word (R : ReadIn (2 ^ 63) file) : ReadIn (2 ^ 64) file := ⟨Nat.lt_trans R.size (by decide), R.last, R.offset⟩

/-! ### What is left -/

/-- A bound on the rounds of the loop of `qp_file_write` with `len` bytes to go: a full buffer costs one more. -/
def writesLeft (len : Nat) (file : Direct α) : Nat := if file.wrbufOffset < file.wrbufSize then len else len + 1

/-- A bound on the rounds of the loop of `qp_file_read` with `len` bytes to go: a buffer that is read up costs one more. -/
def readsLeft (len : Nat) (file : Direct α) : Nat := if 0 < file.rest then len else len + 1

theorem writesLeft_le : file.writesLeft len ≤ len + 1 := by
  unfold writesLeft
  split
  · exact Nat.le_succ len
  · exact Nat.le_refl _

theorem readsLeft_le : file.readsLeft len ≤ len + 1 := by
  unfold readsLeft
  split
  · exact Nat.le_succ len
  · exact Nat.le_refl _

/-- The loop of `qp_file_write` before a round, with at most `n` rounds to come. -/
structure Writing (n len : Nat) (file : Direct α) : Prop where
  cursor : WriteIn (2 ^ 64) file
  word : len < 2 ^ 64
  left : file.writesLeft len = n

/-- The loop of `qp_file_read` before a round, with at most `n` rounds to come. -/
structure Reading (n len : Nat) (file : Direct α) : Prop where
  cursors : ReadIn (2 ^ 64) file
  word : len < 2 ^ 64
  left : file.readsLeft len = n

/-! ### Writing -/

/-- The write buffer has `size` bytes, and its cursor is at `offset`. -/
def Held (size offset : Nat) (file : Direct α) : Prop := file.wrbufSize = size ∧ file.wrbufOffset = offset

theorem copyIn_fueled {source dest n : Nat} : Fueled (Held size offset) (copyIn data source dest n) fun _ => Held size offset := by
  intro file h
  unfold copyIn
  rw [run_bind rfl]
  split
  · exact h
  · trivial

/-- A flush keeps the cursor in the buffer, and if it goes well then it frees some of the bytes that it passes to `write`. -/
theorem WriteIn.flush (W : WriteIn (2 ^ 64) file) (full : Bool) :
    ∃ ret file', fileFlush full file = .ok (ret, file') ∧ file'.wrbufSize = file.wrbufSize ∧
      file'.wrbufOffset ≤ file'.wrbufSize ∧ (0 < ret → file'.wrbufOffset < file.flushLen full) := by
  rcases fileFlush_words full W.size W.offset with ⟨ret, hret, -, hrun⟩ | ⟨n, hpos, hle, -, hrun⟩
  · exact ⟨ret, _, hrun, rfl, W.offset, fun h => absurd h (Int.not_lt.mpr hret)⟩
  · refine ⟨_, _, hrun, rfl, ?_, fun _ => Nat.sub_lt (Nat.lt_of_lt_of_le hpos hle) hpos⟩
    exact Nat.le_trans (Nat.sub_le _ _) (flushLen_le full W.offset)

theorem fullFlush_fueled (hsize : size < 2 ^ 64) (hoffset : offset ≤ size) : Fueled (Held size offset) (fileFlush true)
    fun ret (file : Direct α) => file.wrbufSize = size ∧ (0 < ret → file.wrbufOffset < size) := by
  intro file h
  obtain ⟨hs, ho⟩ := h
  subst hs ho
  obtain ⟨ret, file', hrun, hsame, -, hfree⟩ := WriteIn.flush ⟨hsize, hoffset⟩ true
  rw [hrun]
  exact ⟨hsame, hfree⟩

/-- A round of the loop of `qp_file_write` that is not the last one leaves fewer rounds to come. -/
theorem writeRound_lowers (n : Nat) (state : Nat × Nat) :
    Fueled (Writing n state.2) (writeRound data state)
      (Next.Either (fun state' file => ∃ n' < n, Writing n' state'.2 file) fun _ _ => True) := by
  obtain ⟨pos, len⟩ := state
  intro file h
  obtain ⟨⟨hsize, hoffset⟩, hlen, hleft⟩ := h
  rw [writeRound, run_bind rfl, run_bind rfl, run_bind rfl]
  by_cases hfits : file.wrbufSize > addWord file.wrbufOffset len
  · rw [if_pos hfits]
    exact Fueled.bind (P := Held file.wrbufSize (addWord file.wrbufOffset len)) copyIn_fueled
      (fun _ => Fueled.pure fun _ _ => trivial) _ ⟨rfl, rfl⟩
  · obtain ⟨fill, hfill⟩ : ∃ fill, fill = file.wrbufSize - file.wrbufOffset := ⟨_, rfl⟩
    have hsub : subWord file.wrbufSize file.wrbufOffset = fill := by rw [subWord_of_le hsize hoffset, hfill]
    -- The sum of two words is at most that of the numbers.
    have hfull : fill ≤ len := by
      have hle : addWord file.wrbufOffset len ≤ file.wrbufOffset + len := Nat.mod_le _ _
      omega
    have hrest : subWord len fill = len - fill := subWord_of_le hlen hfull
    rw [if_neg hfits, run_bind rfl, run_bind rfl]
    simp only [hsub, hrest]
    have hin : fill ≤ file.wrbufSize := hfill ▸ Nat.sub_le _ _
    refine Fueled.bind (P := Held file.wrbufSize fill) copyIn_fueled
      (fun _ => (fullFlush_fueled hsize hin).bind fun ret => Fueled.ite (fun _ => Fueled.pure fun _ _ => trivial)
        fun hgoes => Fueled.pure fun file' hflushed => ?_) _ ⟨rfl, rfl⟩
    obtain ⟨hsame, hfree⟩ := hflushed
    obtain ⟨hret, -⟩ := not_or.mp hgoes
    have hroom : file'.wrbufOffset < file'.wrbufSize := hsame ▸ hfree (Int.not_lt.mp hret)
    refine ⟨len - fill, ?_, ⟨hsame ▸ hsize, Nat.le_of_lt hroom⟩, Nat.lt_of_le_of_lt (Nat.sub_le _ _) hlen, if_pos hroom⟩
    rw [← hleft, writesLeft]
    split
    · omega
    · omega

/-- The loop of `qp_file_write` ends for every word `len`. -/
theorem writeLoop_fueled (hlen : len < 2 ^ 64) (hfuel : len + 1 < fuel) :
    Fueled (WriteIn (2 ^ 64)) (loop (writeRound data) fuel (pos, len)) fun _ _ => True := by
  intro file W
  exact Fueled.loop (J := fun n state => Writing n state.2) writeRound_lowers (Nat.lt_of_le_of_lt writesLeft_le hfuel) (pos, len)
    file ⟨W, hlen, rfl⟩

/-- No copy of `qp_file_write` leaves a buffer that exists. -/
theorem fileWrite_safe : Triple (WriteIn (2 ^ 63)) (fileWrite fuel data) fun _ _ => True := by
  refine Triple.conseq (Triple.loop (J := fun state file => state.1 + state.2 = data.len.1 ∧ WriteIn (2 ^ 63) file)
    (Q := fun _ _ => True) (fun state file h => ?_) fuel (0, data.len.1)) (fun file W => ⟨Nat.zero_add _, W⟩)
    fun _ _ _ => trivial
  obtain ⟨pos, len⟩ := state
  obtain ⟨hlen, W⟩ := h
  by_cases hfits : file.wrbufOffset + len < file.wrbufSize
  · rw [writeRound_fits W.size hlen hfits]
    trivial
  · obtain ⟨fill, hfill⟩ : ∃ fill, fill = file.wrbufSize - file.wrbufOffset := ⟨_, rfl⟩
    have hfull : fill ≤ len := by omega
    have W' : WriteIn (2 ^ 64) (file.filled data pos fill fill) := ⟨W.word.size, hfill ▸ Nat.sub_le _ _⟩
    obtain ⟨ret, file', hflush, hsame, hoffset', -⟩ := W'.flush true
    rw [writeRound_full W.size W.offset hlen (Nat.not_lt.mp hfits) hfill hflush]
    split
    · trivial
    · exact ⟨by show pos + fill + (len - fill) = data.len; omega, hsame ▸ W.size, hoffset'⟩

theorem fileWrite_total (hfuel : data.len + 1 < fuel) :
    Total (WriteIn (2 ^ 63)) (fileWrite fuel data) fun _ _ => True := by
  have hends : Fueled (WriteIn (2 ^ 63)) (fileWrite fuel data) fun _ _ => True :=
    (writeLoop_fueled (Nat.lt_trans data.len.2 (by decide)) hfuel).conseq (fun _ W => W.word) fun _ _ h => h
  exact (Fueled.total fileWrite_safe hends).conseq (fun _ W => W) fun _ _ _ => trivial

/-! ### Reading -/

theorem copyOut_fueled {P : Direct α → Prop} {source dest n : Nat} : Fueled P (copyOut len source dest n) fun _ => P := by
  intro file h
  unfold copyOut
  rw [run_bind rfl]
  split
  · exact h
  · trivial

/-- `qp_file_track` keeps the cursors in the buffer, and if it goes well then there is something to read. -/
theorem ReadIn.track {bound : Nat} (R : ReadIn bound file) :
    ∃ ret file', fileTrack file = .ok (ret, file') ∧ ReadIn bound file' ∧ (0 < ret → 0 < file'.rest) := by
  rcases file.fileTrack_words with ⟨ret, hret, -, hrun⟩ | ⟨n, hpos, hle, -, -, hrun⟩
  · exact ⟨ret, _, hrun, { R with }, fun h => absurd h (Int.not_lt.mpr hret)⟩
  · exact ⟨_, _, hrun, { R with last := Nat.zero_le _, offset := hle }, fun _ => hpos⟩

/-- A round of the loop of `qp_file_read` that is not the last one leaves fewer rounds to come. -/
theorem readRound_lowers (all n : Nat) (state : Nat × Nat × List α) :
    Fueled (Reading n state.2.1) (readRound all state)
      (Next.Either (fun state' file => ∃ n' < n, Reading n' state'.2.1 file) fun _ _ => True) := by
  obtain ⟨pos, len, stored⟩ := state
  intro file h
  obtain ⟨R, hlen, hleft⟩ := h
  have hleft : file.readsLeft len = n := hleft
  have hrest : subWord file.rdbufOffset file.rdbufOffsetlast = file.rest :=
    subWord_of_le (Nat.lt_of_le_of_lt R.offset R.size) R.last
  rw [readRound, run_bind rfl]
  simp only [hrest]
  by_cases hmore : len > file.rest
  · have hsub : subWord len file.rest = len - file.rest := subWord_of_le hlen (Nat.le_of_lt hmore)
    rw [if_pos hmore]
    refine Fueled.bind (P := fun f => f = file) copyOut_fueled (fun bytes f hf => ?_) _ rfl
    subst hf
    obtain ⟨ret, file', htrack, R', hgets⟩ := R.track
    rw [run_bind htrack, hsub]
    split
    · trivial
    next hgoes =>
      obtain ⟨hret, -⟩ := not_or.mp hgoes
      have hthere : 0 < file'.rest := hgets (Int.not_lt.mp hret)
      refine ⟨len - f.rest, ?_, R', Nat.lt_of_le_of_lt (Nat.sub_le _ _) hlen, if_pos hthere⟩
      rw [← hleft, readsLeft]
      split
      · omega
      · omega
  · rw [if_neg hmore]
    refine Fueled.bind (P := fun _ => True) copyOut_fueled (fun bytes => ?_) _ trivial
    exact fun _ _ => trivial

/-- The loop of `qp_file_read` ends for every word `len`. -/
theorem readLoop_fueled {all : Nat} {stored : List α} (hlen : len < 2 ^ 64) (hfuel : len + 1 < fuel) :
    Fueled (ReadIn (2 ^ 64)) (loop (readRound all) fuel (pos, len, stored)) fun _ _ => True := by
  intro file R
  exact Fueled.loop (J := fun n state => Reading n state.2.1) (readRound_lowers all) (Nat.lt_of_le_of_lt readsLeft_le hfuel)
    (pos, len, stored) file ⟨R, hlen, rfl⟩

/-- No copy of `qp_file_read` leaves a buffer that exists. -/
theorem fileRead_safe (len : Length) : Triple (ReadIn (2 ^ 63)) (fileRead fuel len) fun _ (_ : Direct α) => True := by
  refine Triple.conseq (Triple.loop (J := fun state file => state.1 + state.2.1 = len.1 ∧ ReadIn (2 ^ 63) file)
    (Q := fun _ _ => True) (fun state file h => ?_) fuel (0, len.1, [])) (fun file R => ⟨Nat.zero_add _, R⟩)
    fun _ _ _ => trivial
  obtain ⟨pos, wanted, stored⟩ := state
  obtain ⟨hlen, R⟩ := h
  have hlen : pos + wanted = len.1 := hlen
  by_cases hthere : wanted ≤ file.rest
  · rw [readRound_there R.size R.last R.offset hlen len.2 hthere]
    trivial
  · obtain ⟨ret, file', htrack, R', -⟩ := R.track
    rw [readRound_more R.size R.last R.offset hlen len.2 (Nat.not_le.mp hthere) htrack]
    split
    · trivial
    · exact ⟨by show pos + file.rest + (wanted - file.rest) = len.1; omega, R'⟩

theorem fileRead_total {len : Length} (hfuel : len + 1 < fuel) :
    Total (ReadIn (2 ^ 63)) (fileRead fuel len) fun _ (_ : Direct α) => True := by
  have hends : Fueled (ReadIn (2 ^ 63)) (fileRead fuel len) fun _ (_ : Direct α) => True :=
    (readLoop_fueled (Nat.lt_trans len.2 (by decide)) hfuel).conseq (fun _ R => R.word) fun _ _ h => h
  exact (Fueled.total (fileRead_safe len) hends).conseq (fun _ R => R) fun _ _ _ => trivial

/-! ### Closing -/

/-- A round of the loop of `qp_file_close` that is not the last one frees some bytes. -/
theorem WriteIn.closeRound (W : WriteIn (2 ^ 64) file) :
    ∃ next file', Direct.closeRound () file = .ok (next, file') ∧
      Next.Either (fun _ file' => WriteIn (2 ^ 64) file' ∧ file'.wrbufOffset < file.wrbufOffset) (fun _ _ => True) next file' := by
  obtain ⟨ret, file', hflush, hsame, hoffset', hfree⟩ := W.flush false
  unfold Direct.closeRound
  rw [run_bind hflush]
  by_cases hret : 0 < ret
  · rw [if_pos hret]
    exact ⟨.again (), file', rfl, ⟨hsame ▸ W.size, hoffset'⟩, hfree hret⟩
  · rw [if_neg hret]
    exact ⟨.done (), file', rfl, trivial⟩

theorem WriteIn.closeLoop (W : WriteIn (2 ^ 64) file) (hfuel : file.wrbufOffset < fuel) :
    ∃ file', loop Direct.closeRound fuel () file = .ok ((), file') := by
  induction fuel generalizing file with
  | zero => exact absurd hfuel (Nat.not_lt_zero _)
  | succ fuel ih =>
    obtain ⟨next, file', hround, hnext⟩ := W.closeRound
    cases next with
    | again u =>
      rw [loop_again hround]
      exact ih hnext.1 (Nat.lt_of_lt_of_le hnext.2 (Nat.le_of_lt_succ hfuel))
    | done u => exact ⟨file', loop_done hround⟩

/-- Whatever the system calls answer: the loops of a file for direct I/O end, also those that find a full buffer. Where the
    buffers exist, they end with an answer. -/
theorem loops_end (hwords : file.wrbufSize < 2 ^ 64 ∧ file.rdbufSize < 2 ^ 64) (hwrbuf : file.wrbufOffset ≤ file.wrbufSize)
    (hlast : file.rdbufOffsetlast ≤ file.rdbufOffset) (hrdbuf : file.rdbufOffset ≤ file.rdbufSize) :
    (∀ (data : Data α) (len fuel : Nat), len < 2 ^ 64 → len + 1 < fuel →
        loop (writeRound data) fuel (0, len) file ≠ .error .fuel) ∧
      (∀ len fuel : Nat, len < 2 ^ 64 → len + 1 < fuel → loop (readRound len) fuel (0, len, []) file ≠ .error .fuel) ∧
      (∀ fuel, file.wrbufOffset < fuel → ∃ file', loop closeRound fuel () file = .ok ((), file')) ∧
      (file.wrbufSize < 2 ^ 63 → ∀ (data : Data α) (fuel : Nat), data.len + 1 < fuel →
        ∃ ret file', fileWrite fuel data file = .ok (ret, file')) ∧
      (file.rdbufSize < 2 ^ 63 → ∀ (len : Length) (fuel : Nat), len + 1 < fuel →
        ∃ answer file', fileRead fuel len file = .ok (answer, file')) := by
  refine ⟨fun data len fuel hlen hfuel => ?_, fun len fuel hlen hfuel => ?_, fun fuel hfuel => ?_, fun hsize data fuel hfuel => ?_,
    fun hsize len fuel hfuel => ?_⟩
  · exact (writeLoop_fueled hlen hfuel file ⟨hwords.1, hwrbuf⟩).ne_fuel
  · exact (readLoop_fueled hlen hfuel file ⟨hwords.2, hlast, hrdbuf⟩).ne_fuel
  · exact WriteIn.closeLoop ⟨hwords.1, hwrbuf⟩ hfuel
  · obtain ⟨ret, file', hrun, -⟩ := fileWrite_total hfuel file ⟨hsize, hwrbuf⟩
    exact ⟨ret, file', hrun⟩
  · obtain ⟨answer, file', hrun, -⟩ := fileRead_total hfuel file ⟨hsize, hlast, hrdbuf⟩
    exact ⟨answer, file', hrun⟩

/-- A write buffer that an earlier failure has left full. -/
theorem loops_end_full : ∃ ret file', fileWrite 4 ⟨fun _ => (1 : UInt8), 2, by decide⟩ { smallFile 0 with wrbufOffset := 2 } =
    .ok (ret, file') :=
  (loops_end ⟨by decide, by decide⟩ (by decide) (by decide) (by decide)).2.2.2.1 (by decide) _ 4 (by decide)

end Direct

end QPHi
