import QPHi.Fd
import QPHi.Theorems.Pool.Single

/-! The full transfers are exact: what they report is what went through, over every script of partial transfers and
    interruptions, and less than all of it only at an end of file or a real error. -/

namespace QPHi
open Buffer Command

namespace Fd

variable {request nbytes vptr : Nat} {fd : Fd} {I : Nat → Fd → Prop}

/-! ### System calls -/

/-- What a system call reports about `request` bytes. -/
structure Answers (request : Nat) (call : FdCall) : Prop where
  asked : call.request = request
  low : -1 ≤ call.result
  high : call.result ≤ request
  most : call.result ≤ transferMax

theorem sysCall_answers (request : Nat) (P : Fd → Prop) :
    Triple P (sysCall request) fun call fd => Answers request call ∧ fd.calls.head? = some call ∧
      ∃ script calls, P { fd with script := script, calls := calls } := by
  intro fd h
  unfold sysCall
  cases hscript : fd.script with
  | nil => trivial
  | cons answer script =>
    have hsame : P { fd with script := fd.script, calls := fd.calls } := h
    cases answer with
    | count n => exact ⟨⟨rfl, by simp only; omega, by simp only; omega, by simp only; omega⟩, rfl, _, _, hsame⟩
    | failure errno =>
      have hneg : (-1 : Int) ≤ (request : Int) ∧ (-1 : Int) ≤ (transferMax : Int) :=
        ⟨Int.le_trans (by decide) (Int.natCast_nonneg request), by decide⟩
      exact ⟨⟨rfl, Int.le_refl _, hneg.1, hneg.2⟩, rfl, _, _, hsame⟩

/-- The end of a transfer that is not complete. -/
def Ended (fd : Fd) : Prop := ∃ call ∈ fd.calls.head?, call.result = 0 ∨ call.result < 0 ∧ again call.errno = false

/-! ### The loop -/

/-- The loop, for a system call that keeps `I` and moves it on by its result. -/
theorem transfer_spec (sys : Nat → Nat → Cmd Fd FdCall) (goes : Nat → Bool) (hnbytes : nbytes < 2 ^ 64)
    (hsys : ∀ ndone ≤ nbytes, Triple (I ndone) (sys (vptr + ndone) (nbytes - ndone)) fun call fd =>
      Answers (nbytes - ndone) call ∧ fd.calls.head? = some call ∧ I (ndone + call.result.toNat) fd)
    (hgoes : ∀ ndone ≤ nbytes, goes ndone = false → ndone = nbytes) (fuel : Nat) :
    Triple (I 0) (loop (transferRound sys goes nbytes) fuel (vptr, 0)) fun r fd =>
      r ≤ nbytes ∧ I r fd ∧ (r < nbytes → Ended fd) := by
  refine Triple.conseq (Triple.loop (J := fun state fd => (state.1 = vptr + state.2 ∧ state.2 ≤ nbytes) ∧ I state.2 fd)
    (Q := fun r fd => r ≤ nbytes ∧ I r fd ∧ (r < nbytes → Ended fd)) ?_ fuel (vptr, 0))
    (fun fd h => ⟨⟨rfl, Nat.zero_le _⟩, h⟩) fun _ _ h => h
  rintro ⟨pos, ndone⟩
  refine Triple.given fun ⟨hpos, hle⟩ => ?_
  simp only at hpos hle
  subst hpos
  have hsub : subWord nbytes ndone = nbytes - ndone := subWord_of_le hnbytes hle
  rw [transferRound, hsub]
  refine Triple.ite (fun _ => (hsys ndone hle).bind fun call => Triple.given fun hanswer => ?_) fun hstop => Triple.pure fun fd h => ?_
  · -- The result fits into an `int`.
    have hlow := hanswer.low
    have hhigh := hanswer.high
    have hmost := hanswer.most
    have hmax : (transferMax : Int) = 2147479552 := rfl
    have hint : call.result.bmod (2 ^ 32) = call.result := Int.bmod_eq_of_le (by omega) (by omega)
    rw [hint]
    refine Triple.ite (fun hless => Triple.ite (fun hagain => Triple.pure fun fd h => ?_) fun hend => Triple.pure fun fd h => ?_)
      fun hmore => Triple.pure fun fd h => ?_
    · have hzero : call.result.toNat = 0 := Int.toNat_eq_zero.mpr (by omega)
      rw [hzero] at h
      exact ⟨⟨rfl, hle⟩, h.2⟩
    · have hzero : call.result.toNat = 0 := Int.toNat_eq_zero.mpr (by omega)
      rw [hzero] at h
      refine ⟨hle, h.2, fun _ => ⟨call, h.1, ?_⟩⟩
      by_cases hfail : call.result < 0
      · exact .inr ⟨hfail, Bool.eq_false_iff.mpr fun htry => hend ⟨hfail, htry⟩⟩
      · exact .inl (by omega)
    · have hadd : addWord ndone call.result.toNat = ndone + call.result.toNat := addWord_of_lt (by omega)
      rw [hadd]
      exact ⟨⟨Nat.add_assoc _ _ _, by simp only; omega⟩, h.2⟩
  · obtain rfl := hgoes ndone hle (Bool.eq_false_iff.mpr hstop)
    exact ⟨hle, h, fun hlt => absurd hlt (Nat.lt_irrefl _)⟩

/-! ### Writing and reading -/

/-- The first `ndone` bytes at `vptr` were accepted, since `fd₀`. -/
structure Sent (fd₀ : Fd) (vptr ndone : Nat) (fd : Fd) : Prop where
  accepted : fd.accepted = fd₀.accepted ++ slice fd₀.memory vptr ndone
  memory : fd.memory = fd₀.memory

theorem sysWrite_sent (fd₀ : Fd) (ndone : Nat) : Triple (Sent fd₀ vptr ndone) (sysWrite (vptr + ndone) request) fun call fd =>
    Answers request call ∧ fd.calls.head? = some call ∧ Sent fd₀ vptr (ndone + call.result.toNat) fd := by
  refine (sysCall_answers request _).bind fun call => Triple.given fun hanswer => ?_
  rintro fd ⟨hcall, script, calls, S⟩
  refine ⟨hanswer, hcall, ?_, S.memory⟩
  have haccepted : fd.accepted = fd₀.accepted ++ slice fd₀.memory vptr ndone := S.accepted
  have hmemory : fd.memory = fd₀.memory := S.memory
  simp only [haccepted, hmemory, List.append_assoc, slice_append]

/-- The first `ndone` bytes at `vptr` are the ones that were obtained since `fd₀`, and nothing else was stored. -/
structure Received (fd₀ : Fd) (vptr ndone : Nat) (fd : Fd) : Prop where
  incoming : fd.incoming = fd₀.incoming
  obtained : fd.obtained = fd₀.obtained + ndone
  stored : slice fd.memory vptr ndone = slice fd₀.incoming fd₀.obtained ndone
  others : ∀ a, a < vptr ∨ vptr + ndone ≤ a → fd.memory a = fd₀.memory a

theorem sysRead_received (fd₀ : Fd) (ndone : Nat) : Triple (Received fd₀ vptr ndone) (sysRead (vptr + ndone) request) fun call fd =>
    Answers request call ∧ fd.calls.head? = some call ∧ Received fd₀ vptr (ndone + call.result.toNat) fd := by
  refine (sysCall_answers request _).bind fun call => Triple.given fun hanswer => ?_
  rintro fd ⟨hcall, script, calls, R⟩
  obtain ⟨hincoming, hobtained, hstored, hothers⟩ := R
  simp only at hincoming hobtained hstored hothers
  refine ⟨hanswer, hcall, hincoming, ?_, ?_, fun a ha => ?_⟩
  · simp only [hobtained, Nat.add_assoc]
  · simp only
    rw [slice_store_next, hstored, slice_offset, Nat.add_zero, hincoming, hobtained, slice_append]
  · have hout : store fd.memory (vptr + ndone) call.result.toNat (fun i => fd.incoming (fd.obtained + i)) a = fd.memory a :=
      if_neg fun h => by omega
    exact hout.trans (hothers a (by omega))

theorem fdWriten_spec (fuel vptr : Nat) (nbytes : Size) (fd : Fd) :
    Triple (Sent fd vptr 0) (fdWriten fuel vptr nbytes) fun r fd' =>
      r ≤ nbytes.1 ∧ Sent fd vptr r fd' ∧ (r < nbytes.1 → Ended fd') :=
  transfer_spec sysWrite (fun ndone => ndone < nbytes.1) nbytes.2 (fun ndone _ => sysWrite_sent fd ndone)
    (fun _ hle hstop => Nat.le_antisymm hle (Nat.not_lt.mp (of_decide_eq_false hstop))) fuel

/-- The loop of `qp_fd_readn` is left by its condition only if nothing is wanted. -/
theorem fdReadn_spec (fuel vptr : Nat) (nbytes : Size) (fd : Fd) :
    Triple (Received fd vptr 0) (fdReadn fuel vptr nbytes) fun r fd' =>
      r ≤ nbytes.1 ∧ Received fd vptr r fd' ∧ (r < nbytes.1 → Ended fd') := by
  refine transfer_spec sysRead (fun _ => 0 < nbytes.1) nbytes.2 (fun ndone _ => sysRead_received fd ndone) ?_ fuel
  intro _ hle hstop
  have hzero : nbytes.1 = 0 := Nat.eq_zero_of_not_pos (of_decide_eq_false hstop)
  exact Nat.le_antisymm hle (hzero ▸ Nat.zero_le _)

/-- `qp_fd_writen` has sent what it reports, `qp_fd_readn` has stored what it reports and nothing else, and both report
    less than all of it only at an end of file or an error that is not to be tried again. -/
theorem transfers_exact (fuel vptr : Nat) (nbytes : Size) (fd : Fd) :
    After (fdWriten fuel vptr nbytes) (fun r fd' => r ≤ nbytes.1 ∧ fd'.accepted = fd.accepted ++ slice fd.memory vptr r ∧
      (r < nbytes.1 → Ended fd')) fd ∧
    After (fdReadn fuel vptr nbytes) (fun r fd' => r ≤ nbytes.1 ∧
      fd'.obtained = fd.obtained + r ∧ slice fd'.memory vptr r = slice fd.incoming fd.obtained r ∧
      (∀ a, a < vptr ∨ vptr + nbytes.1 ≤ a → fd'.memory a = fd.memory a) ∧ (r < nbytes.1 → Ended fd')) fd := by
  constructor
  · intro r fd' hrun
    obtain ⟨hle, S, hend⟩ := (fdWriten_spec fuel vptr nbytes fd fd ⟨(List.append_nil _).symm, rfl⟩).of_ok hrun
    exact ⟨hle, S.accepted, hend⟩
  · intro r fd' hrun
    obtain ⟨hle, R, hend⟩ := (fdReadn_spec fuel vptr nbytes fd fd ⟨rfl, rfl, rfl, fun _ _ => rfl⟩).of_ok hrun
    exact ⟨hle, R.obtained, R.stored, fun a ha => R.others a (ha.imp_right fun h => by omega), hend⟩

end Fd

end QPHi
