import QPHi.Theorems.Fd
import QPHi.Wire

/-! What a round of the two loops does with one answer, and what the rounds of a call amount to. -/

namespace QPHi
open Buffer Command

/-- The bytes that an answer moves when `request` bytes are asked for. -/
def FdAnswer.amount (request : Nat) : FdAnswer → Nat
  | .count n => min n (min request transferMax)
  | .failure _ => 0

/-- What is kept of the call. -/
def FdAnswer.call (request : Nat) : FdAnswer → FdCall
  | .count n => ⟨request, (min n (min request transferMax) : Nat), .other 0⟩
  | .failure errno => ⟨request, -1, errno⟩

/-- What a round decides after `ndone` bytes. -/
def FdAnswer.next (vptr ndone request : Nat) (answer : FdAnswer) : Next (Nat × Nat) Nat :=
  match answer with
  | .count _ =>
    if answer.amount request = 0 then .done ndone
    else .again (vptr + (ndone + answer.amount request), ndone + answer.amount request)
  | .failure errno => if Fd.again errno then .again (vptr + ndone, ndone) else .done ndone

namespace Wire

variable {goes : Nat → Bool} {nbytes vptr ndone request m : Nat} {fd fd' : Fd} {answer : FdAnswer} {script : List FdAnswer}

/-! ### One system call -/

/-- The descriptor after `m` bytes were written from `buf` on, and after `m` bytes were read into `buf`. -/
def wrote (buf m : Nat) (fd : Fd) : Fd := { fd with accepted := fd.accepted ++ slice fd.memory buf m }

def got (buf m : Nat) (fd : Fd) : Fd :=
  { fd with
    memory := store fd.memory buf m fun i => fd.incoming (fd.obtained + i)
    obtained := fd.obtained + m }

/-- A system call that changes the descriptor by `effect`. -/
def moving (effect : Nat → Nat → Fd → Fd) (buf request : Nat) : Cmd Fd FdCall := do
  let call ← Fd.sysCall request
  modify (effect buf call.result.toNat)
  return call

/-- The script without the answer, and the call that it was for. -/
def answered (request : Nat) (answer : FdAnswer) (script : List FdAnswer) (fd : Fd) : Fd :=
  { fd with script := script, calls := answer.call request :: fd.calls }

theorem call_toNat : (answer.call request).result.toNat = answer.amount request := by
  cases answer with
  | count n => rfl
  | failure errno => rfl

theorem amount_le : answer.amount request ≤ request ∧ answer.amount request ≤ transferMax := by
  cases answer with
  | count n =>
    simp only [FdAnswer.amount]
    omega
  | failure errno => exact ⟨Nat.zero_le _, Nat.zero_le _⟩

theorem call_result : -1 ≤ (answer.call request).result ∧ (answer.call request).result ≤ answer.amount request := by
  cases answer with
  | count n => exact ⟨Int.le_trans (by decide) (Int.natCast_nonneg _), Int.le_refl _⟩
  | failure errno => exact ⟨Int.le_refl (-1), show (-1 : Int) ≤ 0 by decide⟩

theorem moving_run (effect : Nat → Nat → Fd → Fd) (buf : Nat) (hscript : fd.script = answer :: script) :
    moving effect buf request fd =
      .ok (answer.call request, effect buf (answer.amount request) (answered request answer script fd)) := by
  have hcall : Fd.sysCall request fd = .ok (answer.call request, answered request answer script fd) := by
    unfold Fd.sysCall
    rw [hscript]
    cases answer with
    | count n => rfl
    | failure errno => rfl
  rw [moving, run_bind hcall, ← call_toNat]
  rfl

/-! ### One round -/

theorem round_run (effect : Nat → Nat → Fd → Fd) (hnbytes : nbytes < 2 ^ 64) (hle : ndone ≤ nbytes) (hgoes : goes ndone = true)
    (hscript : fd.script = answer :: script) :
    Fd.transferRound (moving effect) goes nbytes (vptr + ndone, ndone) fd =
      .ok (answer.next vptr ndone (nbytes - ndone),
        effect (vptr + ndone) (answer.amount (nbytes - ndone)) (answered (nbytes - ndone) answer script fd)) := by
  have hmax : transferMax = 2147479552 := rfl
  obtain ⟨hamount, hmost⟩ := @amount_le (nbytes - ndone) answer
  have hresult := @call_result (nbytes - ndone) answer
  -- The result fits into an `int`.
  have hint : (answer.call (nbytes - ndone)).result.bmod (2 ^ 32) = (answer.call (nbytes - ndone)).result :=
    Int.bmod_eq_of_le (by omega) (by omega)
  rw [Fd.transferRound, if_pos hgoes, subWord_of_le hnbytes hle, run_bind (moving_run effect _ hscript)]
  simp only [hint, call_toNat, addWord_of_lt (show ndone + answer.amount (nbytes - ndone) < 2 ^ 64 by omega)]
  cases answer with
  | count n =>
    have hcount : (FdAnswer.call (nbytes - ndone) (.count n)).result = (FdAnswer.amount (nbytes - ndone) (.count n) : Nat) := rfl
    simp only [FdAnswer.next]
    by_cases hzero : FdAnswer.amount (nbytes - ndone) (.count n) = 0
    · rw [if_pos hzero, if_pos (by omega), if_neg fun h => by omega]
      rfl
    · rw [if_neg hzero, if_neg (by omega), Nat.add_assoc]
      rfl
  | failure errno =>
    have hneg : (FdAnswer.call (nbytes - ndone) (.failure errno)).result = -1 := rfl
    simp only [FdAnswer.next]
    rw [if_pos (by omega)]
    by_cases hagain : Fd.again errno = true
    · rw [if_pos ⟨by omega, hagain⟩, if_pos hagain]
      rfl
    · rw [if_neg fun h => hagain h.2, if_neg hagain]
      rfl

theorem round_stop (effect : Nat → Nat → Fd → Fd) (hgoes : goes ndone = false) :
    Fd.transferRound (moving effect) goes nbytes (vptr, ndone) fd = .ok (.done ndone, fd) := by
  rw [Fd.transferRound, if_neg (by simp [hgoes])]
  rfl

/-- A round that goes on has moved `m` bytes; one that ends has moved nothing. -/
inductive Round (vptr ndone request : Nat) : Next (Nat × Nat) Nat → Nat → Prop
  | again {m : Nat} (hle : m ≤ request) : Round vptr ndone request (.again (vptr + (ndone + m), ndone + m)) m
  | done : Round vptr ndone request (.done ndone) 0

theorem next_round : Round vptr ndone request (answer.next vptr ndone request) (answer.amount request) := by
  have hle := (@amount_le request answer).1
  cases answer with
  | count n =>
    by_cases hzero : FdAnswer.amount request (.count n) = 0
    · simp only [FdAnswer.next, hzero, ↓reduceIte]
      exact .done
    · simp only [FdAnswer.next, if_neg hzero]
      exact .again hle
  | failure errno =>
    simp only [FdAnswer.next, FdAnswer.amount]
    split
    · exact .again (m := 0) (Nat.zero_le _)
    · exact .done

/-- A round that goes on to a system call gets an answer for it. -/
theorem exists_answer {effect : Nat → Nat → Fd → Fd} {x : Next (Nat × Nat) Nat} (hgoes : goes ndone = true)
    (hrun : Fd.transferRound (moving effect) goes nbytes (vptr, ndone) fd = .ok (x, fd')) :
    ∃ answer script, fd.script = answer :: script := by
  cases hscript : fd.script with
  | cons answer script => exact ⟨answer, script, rfl⟩
  | nil =>
    have hcall : Fd.sysCall (subWord nbytes ndone) fd = .error .fuel := by
      unfold Fd.sysCall
      rw [hscript]
    have hmoving : moving effect vptr (subWord nbytes ndone) fd = .error .fuel := run_halt hcall
    rw [Fd.transferRound, if_pos hgoes, run_halt hmoving] at hrun
    cases hrun

/-- What any round does. -/
theorem round_outcome {effect : Nat → Nat → Fd → Fd} {x : Next (Nat × Nat) Nat} (hzero : ∀ buf fd, effect buf 0 fd = fd)
    (hnbytes : nbytes < 2 ^ 64) (hle : ndone ≤ nbytes)
    (hrun : Fd.transferRound (moving effect) goes nbytes (vptr + ndone, ndone) fd = .ok (x, fd')) :
    ∃ m script calls, Round vptr ndone (nbytes - ndone) x m ∧
      fd' = effect (vptr + ndone) m { fd with script := script, calls := calls } := by
  cases hgoes : goes ndone with
  | false =>
    rw [round_stop effect hgoes] at hrun
    obtain ⟨rfl, rfl⟩ := Prod.mk.inj (Except.ok.inj hrun)
    exact ⟨0, fd.script, fd.calls, .done, (hzero _ _).symm⟩
  | true =>
    obtain ⟨answer, script, hscript⟩ := exists_answer hgoes hrun
    rw [round_run effect hnbytes hle hgoes hscript] at hrun
    obtain ⟨rfl, rfl⟩ := Prod.mk.inj (Except.ok.inj hrun)
    exact ⟨_, _, _, next_round, rfl⟩

/-- A round that goes on and uses all of the script has used one answer. -/
theorem round_again (effect : Nat → Nat → Fd → Fd) {state : Nat × Nat} (hscript : ∀ buf m fd, (effect buf m fd).script = fd.script)
    (hnbytes : nbytes < 2 ^ 64) (hle : ndone ≤ nbytes)
    (hrun : Fd.transferRound (moving effect) goes nbytes (vptr + ndone, ndone) fd = .ok (.again state, fd'))
    (hused : fd'.script = []) : ∃ answer, fd.script = [answer] := by
  cases hgoes : goes ndone with
  | false =>
    rw [round_stop effect hgoes] at hrun
    cases hrun
  | true =>
    obtain ⟨answer, rest, hanswer⟩ := exists_answer hgoes hrun
    rw [round_run effect hnbytes hle hgoes hanswer] at hrun
    obtain ⟨-, rfl⟩ := Prod.mk.inj (Except.ok.inj hrun)
    rw [hscript] at hused
    obtain rfl : rest = [] := hused
    exact ⟨answer, hanswer⟩

/-- A round does the same if there are more answers than it uses. -/
theorem round_append (effect : Nat → Nat → Fd → Fd) {x : Next (Nat × Nat) Nat}
    (hscript : ∀ buf m fd script, effect buf m { fd with script := script } = { effect buf m fd with script := script })
    (hnbytes : nbytes < 2 ^ 64) (hle : ndone ≤ nbytes)
    (hrun : Fd.transferRound (moving effect) goes nbytes (vptr + ndone, ndone) fd = .ok (x, fd')) (more : List FdAnswer) :
    Fd.transferRound (moving effect) goes nbytes (vptr + ndone, ndone) { fd with script := fd.script ++ more } =
      .ok (x, { fd' with script := fd'.script ++ more }) := by
  cases hgoes : goes ndone with
  | false =>
    rw [round_stop effect hgoes] at hrun ⊢
    obtain ⟨rfl, rfl⟩ := Prod.mk.inj (Except.ok.inj hrun)
    rfl
  | true =>
    obtain ⟨answer, rest, hanswer⟩ := exists_answer hgoes hrun
    rw [round_run effect hnbytes hle hgoes hanswer] at hrun
    obtain ⟨rfl, rfl⟩ := Prod.mk.inj (Except.ok.inj hrun)
    rw [round_run effect hnbytes hle hgoes (by rw [hanswer]; rfl)]
    have heffect : ∀ buf m, (effect buf m (answered (nbytes - ndone) answer rest fd)).script = rest :=
      fun buf m => congrArg Fd.script (hscript buf m (answered (nbytes - ndone) answer rest fd) rest)
    rw [heffect, ← hscript]
    rfl

/-- An answer that moves some bytes. -/
theorem round_moves (effect : Nat → Nat → Fd → Fd) (hnbytes : nbytes < 2 ^ 64) (hle : ndone + m ≤ nbytes) (hm : 0 < m)
    (hmax : m ≤ transferMax) (hgoes : goes ndone = true) (hscript : fd.script = [.count m]) :
    Fd.transferRound (moving effect) goes nbytes (vptr + ndone, ndone) fd =
      .ok (.again (vptr + (ndone + m), ndone + m), effect (vptr + ndone) m (answered (nbytes - ndone) (.count m) [] fd)) := by
  have hamount : FdAnswer.amount (nbytes - ndone) (.count m) = m := by
    simp only [FdAnswer.amount]
    omega
  rw [round_run effect hnbytes (by omega) hgoes hscript]
  simp only [FdAnswer.next, hamount, if_neg (Nat.ne_of_gt hm)]

/-- An answer that moves nothing. -/
theorem round_ends {effect : Nat → Nat → Fd → Fd} (hzero : ∀ buf fd, effect buf 0 fd = fd) (hnbytes : nbytes < 2 ^ 64)
    (hle : ndone ≤ nbytes) (hgoes : goes ndone = true) (hscript : fd.script = [.count 0]) :
    Fd.transferRound (moving effect) goes nbytes (vptr + ndone, ndone) fd =
      .ok (.done ndone, answered (nbytes - ndone) (.count 0) [] fd) := by
  have hamount : FdAnswer.amount (nbytes - ndone) (.count 0) = 0 := Nat.zero_min _
  rw [round_run effect hnbytes hle hgoes hscript, FdAnswer.next, hamount, if_pos rfl, hzero]

theorem wrote_zero (buf : Nat) (fd : Fd) : wrote buf 0 fd = fd := by
  simp [wrote]

theorem got_zero (buf : Nat) (fd : Fd) : got buf 0 fd = fd := by
  have hstore : store fd.memory buf 0 (fun i => fd.incoming (fd.obtained + i)) = fd.memory := by
    funext a
    exact if_neg fun h => by omega
  rw [got, hstore, Nat.add_zero]

/-- What comes in matters no further than it is read. -/
theorem got_congr {incoming : Nat → UInt8} (buf : Nat) (h : ∀ i < fd.obtained + m, incoming i = fd.incoming i) :
    got buf m { fd with incoming := incoming } = { got buf m fd with incoming := incoming } := by
  have hstore : store fd.memory buf m (fun i => incoming (fd.obtained + i)) =
      store fd.memory buf m (fun i => fd.incoming (fd.obtained + i)) := by
    funext a
    unfold store
    split
    next ha => exact h _ (by omega)
    next => rfl
  simp only [got, hstore]

theorem round_congr {incoming : Nat → UInt8} {x : Next (Nat × Nat) Nat} (hnbytes : nbytes < 2 ^ 64) (hle : ndone ≤ nbytes)
    (hrun : Fd.transferRound (moving got) goes nbytes (vptr + ndone, ndone) fd = .ok (x, fd'))
    (h : ∀ i < fd'.obtained, incoming i = fd.incoming i) :
    Fd.transferRound (moving got) goes nbytes (vptr + ndone, ndone) { fd with incoming := incoming } =
      .ok (x, { fd' with incoming := incoming }) := by
  cases hgoes : goes ndone with
  | false =>
    rw [round_stop got hgoes] at hrun ⊢
    obtain ⟨rfl, rfl⟩ := Prod.mk.inj (Except.ok.inj hrun)
    rfl
  | true =>
    obtain ⟨answer, rest, hanswer⟩ := exists_answer hgoes hrun
    rw [round_run got hnbytes hle hgoes hanswer] at hrun
    obtain ⟨rfl, rfl⟩ := Prod.mk.inj (Except.ok.inj hrun)
    rw [round_run got hnbytes hle hgoes (show Fd.script { fd with incoming := incoming } = answer :: rest from hanswer)]
    have hgot := @got_congr (answer.amount (nbytes - ndone)) (answered (nbytes - ndone) answer rest fd) incoming (vptr + ndone) h
    exact congrArg (fun fd => Except.ok (_, fd)) hgot

end Wire

end QPHi
