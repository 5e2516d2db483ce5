import QPHi.File

/-! What is read from a file for direct I/O. A call that finds all it wants in the read buffer, or that finds it empty
    and fills it once, returns the number of bytes it stored. Every other call returns what was missing when the buffer
    was filled for the last time, or nothing at the end of the file. -/

namespace QPHi
open Buffer Loop

variable {file : File} {len all : Nat} {acc : List UInt8}

/-- A file for direct I/O on which `read` gets on. -/
structure Ready (file : File) : Prop where
  direct : file.isDirectIO = true
  size : 1 ≤ file.rdbufSize
  replies : ∀ n, 1 ≤ file.file.replies n

/-! ### Filling the buffer -/

theorem Descriptor.reads_bound {fd : Descriptor} {n : Nat} (h : 1 ≤ fd.replies fd.clock) (hn : 1 ≤ n)
    (hcontent : fd.content ≠ []) : 0 < fd.reads n ∧ (fd.reads n).toNat ≤ fd.content.length := by
  have hlength := List.length_pos_iff.mpr hcontent
  unfold Descriptor.reads
  omega

/-- What `read` brings goes to the start of the buffer. -/
theorem track_eq (hdirect : file.isDirectIO = true) (hpos : 0 < file.file.reads file.rdbufSize) :
    fileTrack file = ({ file with
      file := (file.file.read file.rdbufSize).1
      rdbuf := store file.rdbuf 0 (file.file.read file.rdbufSize).2.2.length fun i => (file.file.read file.rdbufSize).2.2.getD i 0
      rdbufOffset := (file.file.reads file.rdbufSize).toNat
      rdbufOffsetlast := 0 }, file.file.reads file.rdbufSize) := by
  unfold fileTrack
  rw [if_pos hdirect]
  exact if_pos hpos

/-- What is still to be delivered, of the buffer and of the file. -/
def File.undelivered (file : File) : List UInt8 := slice file.rdbuf file.rdbufOffsetlast file.rest ++ file.file.content

theorem Ready.track (h : Ready file) (hcontent : file.file.content ≠ []) :
    0 < (fileTrack file).2 ∧ (fileTrack file).2 = file.file.reads file.rdbufSize ∧ Ready (fileTrack file).1 ∧
      (fileTrack file).1.rest = (file.file.reads file.rdbufSize).toNat ∧
      (fileTrack file).1.undelivered = file.file.content ∧
      (fileTrack file).1.file.content.length < file.file.content.length := by
  obtain ⟨hpos, hle⟩ := Descriptor.reads_bound (h.replies _) h.size hcontent
  have hlength : (file.file.content.take (file.file.reads file.rdbufSize).toNat).length = (file.file.reads file.rdbufSize).toNat := by
    rw [List.length_take, Nat.min_eq_left hle]
  rw [track_eq h.direct hpos]
  refine ⟨hpos, rfl, ⟨h.direct, h.size, h.replies⟩, rfl, ?_, ?_⟩
  · simp only [File.undelivered, File.rest, Descriptor.read, Nat.sub_zero]
    have hslice := slice_getD (b := fun _ => 0) (file.file.content.take (file.file.reads file.rdbufSize).toNat)
    rw [hlength] at hslice ⊢
    rw [slice_store, hslice, List.take_append_drop]
  · simp only [Descriptor.read, List.length_drop]
    omega

theorem Ready.track_end (h : Ready file) (hcontent : file.file.content = []) :
    (fileTrack file).2 = 0 ∧ Ready (fileTrack file).1 ∧ (fileTrack file).1.undelivered = file.undelivered := by
  have hreads : file.file.reads file.rdbufSize = 0 := by
    have hreply := h.replies file.file.clock
    unfold Descriptor.reads
    simp only [hcontent, List.length_nil]
    omega
  unfold fileTrack
  rw [if_pos h.direct]
  simp only [Descriptor.read, hreads, hcontent, Int.lt_irrefl, if_false]
  refine ⟨trivial, ⟨h.direct, h.size, h.replies⟩, ?_⟩
  simp [File.undelivered, File.rest, hcontent, slice_store_behind]

/-! ### Rounds -/

/-- All that is wanted is in the buffer. -/
theorem readRound_full (h : len ≤ file.rest) :
    readRound all (len, acc, file) = some (.done ({ file with rdbufOffsetlast := file.rdbufOffsetlast + len }, len,
      acc ++ slice file.rdbuf file.rdbufOffsetlast len)) := by
  unfold readRound
  exact if_neg (Nat.not_lt.mpr h)

theorem readRound_end (h : Ready file) (hlen : file.rest < len) (hcontent : file.file.content = []) :
    readRound all (len, acc, file) = some (.done ((fileTrack file).1, 0, acc ++ slice file.rdbuf file.rdbufOffsetlast file.rest)) := by
  have hret := (h.track_end hcontent).1
  have hrest : len - file.rest ≠ 0 := Nat.sub_ne_zero_of_lt hlen
  simp [readRound, hlen, hret, hrest]

theorem readRound_more (h : Ready file) (hlen : file.rest < len) (hcontent : file.file.content ≠ []) (all : Nat) (acc : List UInt8) :
    readRound all (len, acc, file) = some (.again (len - file.rest, acc ++ slice file.rdbuf file.rdbufOffsetlast file.rest,
      (fileTrack file).1)) := by
  have hret := (h.track hcontent).1
  have hon : ¬(1 > (fileTrack file).2 ∨ len - file.rest = 0) := by omega
  simp only [readRound, if_pos hlen, if_neg hon]

/-! ### Calls -/

/-- A call that goes on with `len` bytes to go returns at most as many as it stores from then on. -/
theorem Ready.rounds (h : Ready file) (all : Nat) (hlen : 1 ≤ len) (acc : List UInt8) :
    ∃ answer : File × Int × List UInt8, (Ready answer.1 ∧ (acc.length : Int) + answer.2.1 ≤ answer.2.2.length) ∧
      Returns (fun fuel => iterate (readRound all) fuel (len, acc, file)) answer := by
  -- Every round that goes on takes at least one byte from the file.
  refine iterate_returns (fun m (state : Nat × List UInt8 × File) => Ready state.2.2 ∧ 1 ≤ state.1 ∧
    acc.length ≤ state.2.1.length ∧ state.2.2.file.content.length = m) _ ?_ ⟨h, hlen, Nat.le_refl _, rfl⟩
  rintro m ⟨len', acc', file'⟩ ⟨hready, hlen', hacc, rfl⟩
  replace hacc : acc.length ≤ acc'.length := hacc
  by_cases hrest : len' ≤ file'.rest
  · refine .inl ⟨_, readRound_full hrest, ⟨hready.direct, hready.size, hready.replies⟩, ?_⟩
    simp only [List.length_append, length_slice]
    omega
  · rw [Nat.not_le] at hrest
    by_cases hcontent : file'.file.content = []
    · refine .inl ⟨_, readRound_end hready hrest hcontent, (hready.track_end hcontent).2.1, ?_⟩
      simp only [List.length_append]
      omega
    · obtain ⟨-, -, hready', -, -, hless⟩ := hready.track hcontent
      refine .inr ⟨_, _, readRound_more hready hrest hcontent _ _, hless, hready', Nat.sub_pos_of_lt hrest, ?_, rfl⟩
      simp only [List.length_append]
      omega

/-- A call that needs more than the rest in the buffer does not count that rest. -/
theorem Ready.overrun (h : Ready file) (all : Nat) (hlen : file.rest < len) (acc : List UInt8) :
    ∃ answer : File × Int × List UInt8, (Ready answer.1 ∧ (acc.length + file.rest : Nat) + answer.2.1 ≤ answer.2.2.length) ∧
      Returns (fun fuel => iterate (readRound all) fuel (len, acc, file)) answer := by
  by_cases hcontent : file.file.content = []
  · refine ⟨_, ⟨(h.track_end hcontent).2.1, ?_⟩, returns_done (readRound_end h hlen hcontent)⟩
    simp only [List.length_append, length_slice]
    omega
  · obtain ⟨-, -, hready, -⟩ := h.track hcontent
    obtain ⟨answer, ⟨hready', hlength⟩, hreturns⟩ :=
      hready.rounds all (Nat.sub_pos_of_lt hlen) (acc ++ slice file.rdbuf file.rdbufOffsetlast file.rest)
    refine ⟨answer, ⟨hready', ?_⟩, returns_again (readRound_more h hlen hcontent _ _) hreturns⟩
    rwa [List.length_append, length_slice] at hlength

/-- The call finds all it wants in the buffer; or the buffer is empty, and the file is at its end or `read` brings all
    that is wanted at once. -/
def Smooth (len : Nat) (file : File) : Prop :=
  len ≤ file.rest ∨ file.rest = 0 ∧ (file.file.content = [] ∨ len ≤ file.file.reads file.rdbufSize)

/-- What a call does: the bytes it stores, and what is left to deliver. -/
structure Delivers (len : Nat) (file file' : File) (ret : Int) (stored : List UInt8) : Prop where
  ready : Ready file'
  counts : ret = stored.length
  bound : ret ≤ len
  undelivered : stored ++ file'.undelivered = file.undelivered
  finished : ret = 0 → file.undelivered = []

/-- A call that finds all in the buffer. -/
theorem Ready.deliver (h : Ready file) (hlen : 1 ≤ len) (hrest : len ≤ file.rest) :
    Delivers len file { file with rdbufOffsetlast := file.rdbufOffsetlast + len } len
      (slice file.rdbuf file.rdbufOffsetlast len) := by
  refine ⟨⟨h.direct, h.size, h.replies⟩, by rw [length_slice], Int.le_refl _, ?_, by omega⟩
  have hsplit := slice_split (b := file.rdbuf) (i := file.rdbufOffsetlast) hrest
  have hrest' : file.rdbufOffset - (file.rdbufOffsetlast + len) = file.rest - len := Nat.sub_add_eq ..
  show slice file.rdbuf file.rdbufOffsetlast len ++ (slice file.rdbuf (file.rdbufOffsetlast + len)
    (file.rdbufOffset - (file.rdbufOffsetlast + len)) ++ file.file.content) = _
  rw [hrest', ← List.append_assoc, hsplit]
  rfl

/-- A call ends. It is right when it is smooth, and miscounts when it is not. -/
theorem Ready.call (h : Ready file) (hlen : 1 ≤ len) :
    ∃ file' ret stored, Returns (fun fuel => fileRead fuel len file) (file', ret, stored) ∧ Ready file' ∧
      (Smooth len file → Delivers len file file' ret stored) ∧ (¬Smooth len file → ret ≠ stored.length) := by
  have hread : ∀ fuel, fileRead fuel len file = iterate (readRound len) fuel (len, [], file) := by
    intro fuel
    unfold fileRead
    simp [h.direct]
  by_cases hfull : len ≤ file.rest
  · have hdeliver := h.deliver hlen hfull
    exact ⟨_, _, _, (returns_done (readRound_full hfull)).congr hread, hdeliver.ready, fun _ => hdeliver,
      fun hrough => absurd (.inl hfull) hrough⟩
  rw [Nat.not_le] at hfull
  by_cases hrest : file.rest = 0
  · by_cases hcontent : file.file.content = []
    · obtain ⟨-, hready, hundelivered⟩ := h.track_end hcontent
      refine ⟨_, _, _, (returns_done (readRound_end h hfull hcontent)).congr hread, hready, fun _ => ?_,
        fun hrough => absurd (.inr ⟨hrest, .inl hcontent⟩) hrough⟩
      have hnothing : file.undelivered = [] := by
        rw [File.undelivered, hrest, hcontent]
        rfl
      rw [hrest]
      exact ⟨hready, rfl, Int.natCast_nonneg len, hundelivered, fun _ => hnothing⟩
    · obtain ⟨hpos, hret, hready, hrest', hundelivered, -⟩ := h.track hcontent
      have hmore := readRound_more h hfull hcontent len []
      rw [hrest] at hmore
      have hsame : file.undelivered = (fileTrack file).1.undelivered := by
        rw [hundelivered, File.undelivered, hrest]
        rfl
      by_cases hbrings : len ≤ file.file.reads file.rdbufSize
      · have hdeliver := hready.deliver hlen (by omega)
        refine ⟨_, _, _, (returns_again hmore (returns_done (readRound_full (by omega)))).congr hread, hdeliver.ready, fun _ => ?_,
          fun hrough => absurd (.inr ⟨hrest, .inr hbrings⟩) hrough⟩
        exact ⟨hdeliver.ready, hdeliver.counts, hdeliver.bound, hdeliver.undelivered.trans hsame.symm,
          fun hzero => hsame.trans (hdeliver.finished hzero)⟩
      · obtain ⟨⟨file', ret, stored⟩, ⟨hready', hcount⟩, hreturns⟩ := hready.overrun len (show _ < len by omega) []
        simp only [List.length_nil, Nat.zero_add] at hcount
        refine ⟨file', ret, stored, (returns_again hmore hreturns).congr hread, hready', fun hsmooth => ?_, fun _ => by omega⟩
        rcases hsmooth with hsmooth | ⟨-, hsmooth | hsmooth⟩
        · exact absurd hsmooth (Nat.not_le.mpr hfull)
        · exact absurd hsmooth hcontent
        · exact absurd hsmooth hbrings
  · obtain ⟨⟨file', ret, stored⟩, ⟨hready', hcount⟩, hreturns⟩ := h.overrun len hfull []
    simp only [List.length_nil, Nat.zero_add] at hcount
    refine ⟨file', ret, stored, hreturns.congr hread, hready', fun hsmooth => ?_, fun _ => by omega⟩
    rcases hsmooth with hsmooth | ⟨hsmooth, -⟩
    · exact absurd hsmooth (Nat.not_le.mpr hfull)
    · exact absurd hsmooth hrest

/-! ### Runs -/

/-- A call of `qp_file_read`, with the file before it. -/
structure ReadCall where
  before : File
  len : Nat
  ret : Int
  stored : List UInt8

/-- `data[0..r)` after the call. -/
def ReadCall.delivered (call : ReadCall) : List UInt8 := call.stored.take call.ret.toNat

def readAll (fuel : Nat) : List Nat → File → Option (List ReadCall × File)
  | [], file => some ([], file)
  | len :: lens, file =>
    fileRead fuel len file >>= fun answer =>
      (readAll fuel lens answer.1).map fun rest => (⟨file, len, answer.2.1, answer.2.2⟩ :: rest.1, rest.2)

/-- The calls deliver `contents`: each returns the number of bytes it stored, together they deliver a prefix, and only
    after all of it there is nothing more. -/
structure Delivered (contents : List UInt8) (calls : List ReadCall) : Prop where
  counts : ∀ call ∈ calls, call.ret = call.stored.length ∧ call.ret ≤ call.len
  starts : calls.flatMap ReadCall.delivered <+: contents
  finished : ∀ before call later, calls = before ++ call :: later → call.ret = 0 →
    before.flatMap ReadCall.delivered = contents

theorem Delivered.nil (contents : List UInt8) : Delivered contents [] where
  counts := fun _ h => nomatch h
  starts := List.nil_prefix
  finished := fun before call later h => by simp at h

theorem Delivered.cons {calls : List ReadCall} {file' : File} {ret : Int} {stored : List UInt8}
    (h : Delivers len file file' ret stored) (hcalls : Delivered file'.undelivered calls) :
    Delivered file.undelivered (⟨file, len, ret, stored⟩ :: calls) := by
  have hdelivered : ReadCall.delivered ⟨file, len, ret, stored⟩ = stored := by
    rw [ReadCall.delivered, h.counts]
    exact List.take_length
  refine ⟨?_, ?_, ?_⟩
  · rintro call (_ | ⟨_, hcall⟩)
    · exact ⟨h.counts, h.bound⟩
    · exact hcalls.counts call hcall
  · rw [List.flatMap_cons, hdelivered, ← h.undelivered]
    exact (List.prefix_append_right_inj stored).mpr hcalls.starts
  · rintro (_ | ⟨first, before⟩) call later heq hzero
    · cases heq
      rw [h.finished hzero]
      rfl
    · cases heq
      rw [List.flatMap_cons, hdelivered, hcalls.finished before call later rfl hzero, h.undelivered]

/-- The calls end; none that is not smooth counts right, and if all of them are smooth they deliver. -/
theorem Ready.calls (lens : List Nat) (hlens : ∀ len ∈ lens, 1 ≤ len) : ∀ {file : File}, Ready file →
    ∃ calls file', Returns (fun fuel => readAll fuel lens file) (calls, file') ∧
      (∀ call ∈ calls, ¬Smooth call.len call.before → call.ret ≠ call.stored.length) ∧
      ((∀ call ∈ calls, Smooth call.len call.before) → Delivered file.undelivered calls) := by
  induction lens with
  | nil => exact fun _ => ⟨[], _, .of_eq fun _ => rfl, fun _ h => (nomatch h), fun _ => .nil _⟩
  | cons len lens ih =>
    intro file h
    obtain ⟨file', ret, stored, hreturns, hready, hsmooth, hrough⟩ := h.call (hlens len List.mem_cons_self)
    obtain ⟨calls, file'', ⟨n, hn⟩, hmiscounts, hdelivers⟩ := ih (fun len hlen => hlens len (List.mem_cons_of_mem _ hlen)) hready
    refine ⟨⟨file, len, ret, stored⟩ :: calls, file'', hreturns.bind ⟨n, fun m hm => ?_⟩, ?_, fun hall => ?_⟩
    · simp only [hn m hm]
      rfl
    · rintro call (_ | ⟨_, hcall⟩)
      · exact hrough
      · exact hmiscounts call hcall
    · exact .cons (hsmooth (hall _ List.mem_cons_self)) (hdelivers fun call hcall => hall call (List.mem_cons_of_mem _ hcall))

/-- The calls on a freshly opened file for direct I/O end, and they deliver its contents if and only if all of them are
    smooth. -/
theorem reads_delivered_iff (size : Nat) (hsize : 1 ≤ size) (fd : Descriptor) (hreplies : ∀ n, 1 ≤ fd.replies n)
    (wrbuf rdbuf : Nat → UInt8) (lens : List Nat) (hlens : ∀ len ∈ lens, 1 ≤ len) :
    ∃ calls file, Returns (fun fuel => readAll fuel lens (fileOpen (fileInit true size fd wrbuf rdbuf)).1) (calls, file) ∧
      (Delivered fd.content calls ↔ ∀ call ∈ calls, Smooth call.len call.before) := by
  have hdirect : (true && decide (0 < size)) = true := decide_eq_true hsize
  have hopen : Ready (fileOpen (fileInit true size fd wrbuf rdbuf)).1 := by
    simp only [fileOpen, fileInit, hdirect, Bool.false_eq_true, if_false, if_true]
    exact ⟨rfl, hsize, hreplies⟩
  have hcontent : (fileOpen (fileInit true size fd wrbuf rdbuf)).1.undelivered = fd.content := by
    simp only [fileOpen, fileInit, hdirect, Bool.false_eq_true, if_false, if_true]
    rfl
  obtain ⟨calls, file, hreturns, hmiscounts, hdelivers⟩ := Ready.calls lens hlens hopen
  rw [hcontent] at hdelivers
  refine ⟨calls, file, hreturns, fun h call hcall => ?_, hdelivers⟩
  by_cases hsmooth : Smooth call.len call.before
  · exact hsmooth
  · exact absurd (h.counts call hcall).1 (hmiscounts call hcall hsmooth)

/-- A file of three bytes, of which the kernel brings as many as it is asked for. -/
def threeBytes : Descriptor := ⟨[], [7, 8, 9], fun _ => 4, 0, true, false⟩

def threeBytesFile : File := (fileOpen (fileInit true 2 threeBytes (fun _ => 0) fun _ => 0)).1

/-- A byte at a time through a buffer of two. -/
theorem reads_delivered_bytes : ∃ calls file, Returns (fun fuel => readAll fuel [1, 1] threeBytesFile) (calls, file) ∧
    (Delivered [7, 8, 9] calls ↔ ∀ call ∈ calls, Smooth call.len call.before) :=
  reads_delivered_iff 2 (by decide) threeBytes (fun _ => show (1 : Int) ≤ 4 by decide) (fun _ => 0) (fun _ => 0) [1, 1] (by decide)

/-- Three bytes at once through a buffer of two: all of them are stored, and the call returns 1. -/
theorem reads_miscounted : ∃ file, Returns (fun fuel => readAll fuel [3] threeBytesFile) ([⟨threeBytesFile, 3, 1, [7, 8, 9]⟩], file) ∧
    ¬Delivered [7, 8, 9] [⟨threeBytesFile, 3, 1, [7, 8, 9]⟩] := by
  refine ⟨((fileRead 3 3 threeBytesFile).getD (threeBytesFile, 0, [])).1, ⟨3, fun n hn => ?_⟩, fun h =>
     absurd (h.counts _ List.mem_cons_self).1 (by simp)⟩
  obtain ⟨n, rfl⟩ := Nat.exists_eq_add_of_le' hn
  rfl

end QPHi
