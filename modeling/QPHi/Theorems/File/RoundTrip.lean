import QPHi.Theorems.File.Read
import QPHi.Theorems.File.Write

/-! What goes through one file for direct I/O and is read back through another one comes back byte for byte, whatever the
    sizes of the two buffers are and however few bytes the kernel takes or brings at once. The numbers that
    `qp_file_read` returns may be wrong, but the bytes that it stores are right. -/

namespace QPHi
open Buffer Loop

variable {file : File} {len all : Nat} {acc : List UInt8}

/-! ### The bytes of a call -/

theorem File.undelivered_length : file.undelivered.length = file.rest + file.file.content.length := by
  rw [File.undelivered, List.length_append, length_slice]

/-- What is in the buffer comes first. -/
theorem File.undelivered_take (h : len ≤ file.rest) : file.undelivered.take len = slice file.rdbuf file.rdbufOffsetlast len := by
  rw [File.undelivered, List.take_append_of_le_length (by rwa [length_slice]), take_slice h]

theorem File.undelivered_take_more (h : file.rest ≤ len) : file.undelivered.take len =
    slice file.rdbuf file.rdbufOffsetlast file.rest ++ file.file.content.take (len - file.rest) := by
  rw [File.undelivered, List.take_append, length_slice, List.take_of_length_le (by rwa [length_slice])]

theorem File.undelivered_drop_more (h : file.rest ≤ len) :
    file.undelivered.drop len = file.file.content.drop (len - file.rest) := by
  rw [File.undelivered, List.drop_append, length_slice, List.drop_of_length_le (by rwa [length_slice]), List.nil_append]

/-- A call has stored the next `len` bytes behind `acc`; it returns 0 if there are fewer, and goes on behind them if not. -/
structure Fetches (len : Nat) (acc : List UInt8) (file : File) (answer : File × Int × List UInt8) : Prop where
  ready : Ready answer.1
  stored : answer.2.2 = acc ++ file.undelivered.take len
  outcome : file.undelivered.length < len ∧ answer.2.1 = 0 ∨
    len ≤ file.undelivered.length ∧ 0 < answer.2.1 ∧ answer.1.undelivered = file.undelivered.drop len

theorem Ready.fetches_full (h : Ready file) (hlen : 1 ≤ len) (hrest : len ≤ file.rest) :
    Fetches len acc file ({ file with rdbufOffsetlast := file.rdbufOffsetlast + len }, len,
      acc ++ slice file.rdbuf file.rdbufOffsetlast len) := by
  have hdeliver := h.deliver hlen hrest
  have hundelivered := hdeliver.undelivered
  refine ⟨hdeliver.ready, by rw [File.undelivered_take hrest], .inr ⟨?_, Int.natCast_pos.mpr hlen, ?_⟩⟩
  · rw [File.undelivered_length]
    exact Nat.le_add_right_of_le hrest
  · rw [← hundelivered, List.drop_left' length_slice]

theorem Ready.fetches_end (h : Ready file) (hrest : file.rest < len) (hcontent : file.file.content = []) :
    Fetches len acc file ((fileTrack file).1, 0, acc ++ slice file.rdbuf file.rdbufOffsetlast file.rest) := by
  refine ⟨(h.track_end hcontent).2.1, ?_, .inl ⟨?_, rfl⟩⟩
  · rw [File.undelivered_take_more (Nat.le_of_lt hrest), hcontent, List.take_nil, List.append_nil]
  · rwa [File.undelivered_length, hcontent]

/-- A call that empties the buffer and fills it again goes on as a call for the rest. -/
theorem Fetches.more (h : Ready file) (hrest : file.rest < len) (hcontent : file.file.content ≠ [])
    {answer : File × Int × List UInt8}
    (hfetches : Fetches (len - file.rest) (acc ++ slice file.rdbuf file.rdbufOffsetlast file.rest) (fileTrack file).1 answer) :
    Fetches len acc file answer := by
  obtain ⟨hready, hstored, houtcome⟩ := hfetches
  rw [(h.track hcontent).2.2.2.2.1] at hstored houtcome
  refine ⟨hready, ?_, ?_⟩
  · rw [hstored, List.append_assoc, File.undelivered_take_more (Nat.le_of_lt hrest)]
  · rw [File.undelivered_length, File.undelivered_drop_more (Nat.le_of_lt hrest)]
    rcases houtcome with ⟨hshort, hret⟩ | ⟨hlen, hret, hdrop⟩
    · exact .inl ⟨by omega, hret⟩
    · exact .inr ⟨by omega, hret, hdrop⟩

/-- `qp_file_read` stores the next bytes of the file. -/
theorem Ready.fetches (all : Nat) : ∀ {m len : Nat} {acc : List UInt8} {file : File}, file.file.content.length = m →
    Ready file → 1 ≤ len →
    ∃ answer, Fetches len acc file answer ∧ Returns (fun fuel => iterate (readRound all) fuel (len, acc, file)) answer := by
  intro m
  -- Every round that goes on takes at least one byte from the file.
  induction m using Nat.strongRecOn with
  | _ m ih =>
    rintro len acc file rfl h hlen
    by_cases hrest : len ≤ file.rest
    · exact ⟨_, h.fetches_full hlen hrest, returns_done (readRound_full hrest)⟩
    rw [Nat.not_le] at hrest
    by_cases hcontent : file.file.content = []
    · exact ⟨_, h.fetches_end hrest hcontent, returns_done (readRound_end h hrest hcontent)⟩
    · obtain ⟨-, -, hready, -, -, hless⟩ := h.track hcontent
      obtain ⟨answer, hfetches, hreturns⟩ := ih _ hless rfl hready (Nat.sub_pos_of_lt hrest)
      exact ⟨answer, .more h hrest hcontent hfetches, returns_again (readRound_more h hrest hcontent all acc) hreturns⟩

theorem Ready.read (h : Ready file) (hlen : 1 ≤ len) :
    ∃ answer, Fetches len [] file answer ∧ Returns (fun fuel => fileRead fuel len file) answer := by
  obtain ⟨answer, hfetches, hreturns⟩ := Ready.fetches len rfl h hlen
  refine ⟨answer, hfetches, hreturns.congr fun fuel => ?_⟩
  unfold fileRead
  simp [h.direct]

/-! ### The bytes of a run -/

/-- The calls store the bytes of `contents` one after the other. Each stores all it was asked for, or it returns 0. -/
structure Fetched (contents : List UInt8) (lens : List Nat) (calls : List ReadCall) : Prop where
  sizes : calls.map (·.len) = lens
  stored : calls.flatMap (·.stored) = contents.take lens.sum
  counts : ∀ call ∈ calls, call.stored.length = call.len ∧ 0 < call.ret ∨ call.stored.length < call.len ∧ call.ret = 0

theorem Fetches.counts {answer : File × Int × List UInt8} (h : Fetches len [] file answer) :
    answer.2.2.length = len ∧ 0 < answer.2.1 ∨ answer.2.2.length < len ∧ answer.2.1 = 0 := by
  rw [h.stored, List.nil_append, List.length_take]
  rcases h.outcome with ⟨hshort, hret⟩ | ⟨hlen, hret, -⟩
  · exact .inr ⟨by omega, hret⟩
  · exact .inl ⟨Nat.min_eq_left hlen, hret⟩

/-- A call that finds all it wants, and the calls after it. -/
theorem Fetched.cons {answer : File × Int × List UInt8} {lens : List Nat} {calls : List ReadCall}
    (h : Fetches len [] file answer) (hcalls : Fetched (file.undelivered.drop len) lens calls) :
    Fetched file.undelivered (len :: lens) (⟨file, len, answer.2.1, answer.2.2⟩ :: calls) := by
  refine ⟨congrArg (len :: ·) hcalls.sizes, ?_, ?_⟩
  · rw [List.flatMap_cons, h.stored, hcalls.stored, List.nil_append, List.sum_cons, List.take_add]
  · rintro call (_ | ⟨_, hcall⟩)
    · exact h.counts
    · exact hcalls.counts call hcall

theorem Fetched.nil (contents : List UInt8) : Fetched contents [] [] where
  sizes := rfl
  stored := rfl
  counts := fun _ h => absurd h List.not_mem_nil

/-- Only the last call may want more than there is: a call behind it would get some bytes once more. -/
theorem Ready.fetched (lens : List Nat) (hlens : ∀ len ∈ lens, 1 ≤ len) : ∀ {file : File}, Ready file →
    lens.dropLast.sum ≤ file.undelivered.length →
    ∃ calls file', Returns (fun fuel => readAll fuel lens file) (calls, file') ∧ Fetched file.undelivered lens calls := by
  induction lens with
  | nil => exact fun _ _ => ⟨[], _, .of_eq fun _ => rfl, .nil _⟩
  | cons len lens ih =>
    intro file h hfit
    obtain ⟨answer, hfetches, hreturns⟩ := h.read (hlens len List.mem_cons_self)
    have hrest : ∃ calls file', Returns (fun fuel => readAll fuel lens answer.1) (calls, file') ∧
        Fetched (file.undelivered.drop len) lens calls := by
      cases lens with
      | nil => exact ⟨[], _, .of_eq fun _ => rfl, .nil _⟩
      | cons len' lens =>
        rw [List.dropLast_cons_cons, List.sum_cons] at hfit
        rcases hfetches.outcome with ⟨hshort, -⟩ | ⟨-, -, hdrop⟩
        · omega
        · rw [← hdrop]
          refine ih (fun len hlen => hlens len (List.mem_cons_of_mem _ hlen)) hfetches.ready ?_
          rw [hdrop, List.length_drop]
          omega
    obtain ⟨calls, file', ⟨n, hn⟩, hfetched⟩ := hrest
    refine ⟨⟨file, len, answer.2.1, answer.2.2⟩ :: calls, file', hreturns.bind ⟨n, fun m hm => ?_⟩, .cons hfetches hfetched⟩
    simp only [hn m hm]
    rfl

/-! ### One file after the other -/

theorem Ready.opened {size : Nat} (hsize : 1 ≤ size) {fd : Descriptor} (hreplies : ∀ n, 1 ≤ fd.replies n)
    (wrbuf rdbuf : Nat → UInt8) :
    Ready (fileOpen (fileInit true size fd wrbuf rdbuf)).1 ∧
      (fileOpen (fileInit true size fd wrbuf rdbuf)).1.undelivered = fd.content := by
  have hdirect : (true && decide (0 < size)) = true := decide_eq_true hsize
  simp only [fileOpen, fileInit, hdirect, Bool.false_eq_true, if_false, if_true]
  exact ⟨⟨rfl, hsize, hreplies⟩, rfl⟩

theorem Faithful.opened {size : Nat} (hsize : 1 ≤ size) {fd : Descriptor} (hwritten : fd.written = [])
    (hreplies : ∀ n, 1 ≤ fd.replies n) (wrbuf rdbuf : Nat → UInt8) :
    Faithful size [] (fileOpen (fileInit true size fd wrbuf rdbuf)).1 := by
  have hdirect : (true && decide (0 < size)) = true := decide_eq_true hsize
  simp only [fileOpen, fileInit, hdirect, Bool.false_eq_true, if_false, if_true]
  exact ⟨⟨rfl, rfl, rfl, hreplies, rfl, by simpa using hwritten⟩, hsize⟩

/-- Everything that was passed to `qp_file_write` is in the file when it is closed. -/
theorem Faithful.closed {size : Nat} {sent : List UInt8} (h : Faithful size sent file) :
    ∃ file', Returns (fun fuel => fileClose fuel file) (file', QP_SUCCESS) ∧ file'.file.written = sent := by
  obtain ⟨file', hreturns, hzero, -, hstream⟩ := h.close
  rw [hzero, slice_zero, List.append_nil] at hstream
  exact ⟨file', hreturns, hstream⟩

end QPHi
