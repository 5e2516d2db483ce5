import QPHi.Event

/-! Who is responsible for a descriptor: a source that is registered with it, or whoever has it in hand. -/

namespace QPHi

variable {elems fl : List Nat} {hand : Option Int} {fd : Int} {x : Nat} {e e' : Event}

/-- The source in the element `x` of the pool. -/
def Event.at (e : Event) (x : Nat) : Source := e.source (x + sizeofPoolElm)

/-- The elements `elems` of the pool that are not on its free list `fl` are sources with open descriptors, each one
    with its own. A descriptor that `accept` returned and that is not closed is one of these, or `hand`. -/
structure FdInv (elems fl : List Nat) (hand : Option Int) (e : Event) : Prop where
  isOpen : ∀ x ∈ elems, x ∉ fl → 0 ≤ (e.at x).sourceFd ∧ e.kernel.isOpen (e.at x).sourceFd = true
  unique : ∀ x ∈ elems, ∀ y ∈ elems, x ∉ fl → y ∉ fl → (e.at x).sourceFd = (e.at y).sourceFd → x = y
  auto : ∀ x ∈ elems, x ∉ fl → e.kernel.tenure (e.at x).sourceFd ≠ none → (e.at x).closed = true
  inHand : ∀ fd, hand = some fd → e.kernel.isOpen fd = true ∧ ∀ x ∈ elems, x ∉ fl → (e.at x).sourceFd ≠ fd
  tenure : ∀ fd n, e.kernel.tenure fd = some n → n < e.kernel.accepts ∧ e.kernel.accepted n = fd
  held : ∀ n < e.kernel.accepts, e.kernel.closes n = 0 → e.kernel.tenure (e.kernel.accepted n) = some n ∧
    (hand = some (e.kernel.accepted n) ∨ ∃ x ∈ elems, x ∉ fl ∧ (e.at x).sourceFd = e.kernel.accepted n)
  once : ∀ n, e.kernel.closes n ≤ 1
  done : ∀ n, e.kernel.closes n ≠ 0 → e.kernel.tenure (e.kernel.accepted n) = some n →
    e.kernel.isOpen (e.kernel.accepted n) = false
  fresh : ∀ n, e.kernel.accepts ≤ n → e.kernel.closes n = 0

namespace FdInv

/-- The descriptors stay with the sources that are allocated. -/
theorem congr (I : FdInv elems fl hand e) (hkernel : e'.kernel = e.kernel)
    (hat : ∀ x ∈ elems, x ∉ fl → (e'.at x).sourceFd = (e.at x).sourceFd ∧ (e'.at x).closed = (e.at x).closed) :
    FdInv elems fl hand e' := by
  refine ⟨fun x hx hfl => ?_, fun x hx y hy hxf hyf heq => ?_, fun x hx hfl ht => ?_, fun fd hfd => ?_, ?_, fun n hn hc => ?_, ?_,
    ?_, ?_⟩
  · rw [(hat x hx hfl).1, hkernel]
    exact I.isOpen x hx hfl
  · rw [(hat x hx hxf).1, (hat y hy hyf).1] at heq
    exact I.unique x hx y hy hxf hyf heq
  · rw [(hat x hx hfl).1, hkernel] at ht
    rw [(hat x hx hfl).2]
    exact I.auto x hx hfl ht
  · rw [hkernel]
    obtain ⟨hopen, hne⟩ := I.inHand fd hfd
    refine ⟨hopen, fun x hx hfl => ?_⟩
    rw [(hat x hx hfl).1]
    exact hne x hx hfl
  · rw [hkernel]
    exact I.tenure
  · rw [hkernel] at hn hc ⊢
    obtain ⟨ht, hand | ⟨x, hx, hfl, hfd⟩⟩ := I.held n hn hc
    · exact ⟨ht, .inl hand⟩
    · exact ⟨ht, .inr ⟨x, hx, hfl, by rw [(hat x hx hfl).1, hfd]⟩⟩
  · rw [hkernel]
    exact I.once
  · rw [hkernel]
    exact I.done
  · rw [hkernel]
    exact I.fresh

/-- A source leaves the allocated ones, and its descriptor is in hand. -/
theorem unregister (I : FdInv elems fl none e) (hx : x ∈ elems) (hfl : x ∉ fl) :
    FdInv elems (x :: fl) (some (e.at x).sourceFd) e := by
  have hsub : ∀ y, y ∉ x :: fl → y ≠ x ∧ y ∉ fl := fun y hy => not_or.mp (List.mem_cons.not.mp hy)
  refine ⟨fun y hy hyf => I.isOpen y hy (hsub y hyf).2, fun y hy z hz hyf hzf => I.unique y hy z hz (hsub y hyf).2 (hsub z hzf).2,
    fun y hy hyf => I.auto y hy (hsub y hyf).2, fun fd hfd => ?_, I.tenure, fun n hn hc => ?_, I.once, I.done, I.fresh⟩
  · obtain rfl := Option.some.inj hfd
    refine ⟨(I.isOpen x hx hfl).2, fun y hy hyf heq => ?_⟩
    exact (hsub y hyf).1 (I.unique y hy x hx (hsub y hyf).2 hfl heq)
  · obtain ⟨ht, hand | ⟨y, hy, hyf, hfd⟩⟩ := I.held n hn hc
    · cases hand
    · refine ⟨ht, ?_⟩
      by_cases hyx : y = x
      · rw [← hyx]
        exact .inl (by rw [hfd])
      · exact .inr ⟨y, hy, by rw [List.mem_cons, not_or]; exact ⟨hyx, hyf⟩, hfd⟩

/-- A descriptor that no `accept` returned can be let go. -/
theorem letGo (I : FdInv elems fl (some fd) e) (ht : e.kernel.tenure fd = none) : FdInv elems fl none e := by
  refine ⟨I.isOpen, I.unique, I.auto, by simp, I.tenure, fun n hn hc => ?_, I.once, I.done, I.fresh⟩
  obtain ⟨hten, hand | hreg⟩ := I.held n hn hc
  · rw [← Option.some.inj hand, ht] at hten
    cases hten
  · exact ⟨hten, .inr hreg⟩

/-- A descriptor that no source stands for is taken in hand. -/
theorem pickUp (I : FdInv elems fl none e) (hopen : e.kernel.isOpen fd = true)
    (hne : ∀ x ∈ elems, x ∉ fl → (e.at x).sourceFd ≠ fd) : FdInv elems fl (some fd) e := by
  refine ⟨I.isOpen, I.unique, I.auto, fun fd' hfd' => ?_, I.tenure, fun n hn hc => ?_, I.once, I.done, I.fresh⟩
  · obtain rfl := Option.some.inj hfd'
    exact ⟨hopen, hne⟩
  · obtain ⟨ht, hand | hreg⟩ := I.held n hn hc
    · cases hand
    · exact ⟨ht, .inr hreg⟩

/-- The descriptor in hand is closed. -/
theorem close (I : FdInv elems fl (some fd) e) : FdInv elems fl none { e with kernel := e.kernel.close fd } := by
  obtain ⟨hopen, hreg⟩ := I.inHand fd rfl
  -- The accept that the descriptor comes from, if there is one, has not been closed.
  have hzero : ∀ n, e.kernel.tenure fd = some n → e.kernel.closes n = 0 := by
    intro n hn
    by_contra hc
    have haccepted := (I.tenure fd n hn).2
    have hclosed := I.done n hc (by rw [haccepted, hn])
    rw [haccepted, hopen] at hclosed
    cases hclosed
  have hcloses : ∀ n, (e.kernel.close fd).closes n = if e.kernel.tenure fd = some n then 1 else e.kernel.closes n := by
    intro n
    cases ht : e.kernel.tenure fd with
    | none => simp [Kernel.close, ht]
    | some m =>
      by_cases hnm : n = m
      · subst hnm
        simp [Kernel.close, ht, hzero n ht]
      · have hmn : ¬ m = n := fun heq => hnm heq.symm
        simp [Kernel.close, ht, hnm, hmn]
  have hisOpen : ∀ fd', fd' ≠ fd → (e.kernel.close fd).isOpen fd' = e.kernel.isOpen fd' := fun fd' hne =>
    Function.update_of_ne hne _ _
  refine ⟨fun x hx hxf => ?_, I.unique, I.auto, by simp, I.tenure, fun n hn hc => ?_, fun n => ?_, fun n hc ht => ?_, fun n hn => ?_⟩
  · show 0 ≤ (e.at x).sourceFd ∧ (e.kernel.close fd).isOpen (e.at x).sourceFd = true
    rw [hisOpen _ (hreg x hx hxf)]
    exact I.isOpen x hx hxf
  · rw [hcloses] at hc
    split at hc
    next => cases hc
    next hne =>
      obtain ⟨hten, hand | h⟩ := I.held n hn hc
      · rw [← Option.some.inj hand] at hten
        exact absurd hten hne
      · exact ⟨hten, .inr h⟩
  · rw [hcloses]
    split
    · exact Nat.le_refl 1
    · exact I.once n
  · by_cases hfd : e.kernel.accepted n = fd
    · show Function.update e.kernel.isOpen fd false (e.kernel.accepted n) = false
      rw [hfd, Function.update_self]
    · rw [hcloses] at hc
      show (e.kernel.close fd).isOpen (e.kernel.accepted n) = false
      rw [hisOpen _ hfd]
      have hne : e.kernel.tenure fd ≠ some n := fun h => hfd (I.tenure fd n h).2
      rw [if_neg hne] at hc
      exact I.done n hc ht
  · rw [hcloses, if_neg]
    · exact I.fresh n hn
    · intro h
      exact absurd (I.tenure fd n h).1 (Nat.not_lt.mpr hn)

/-- `accept` puts a new descriptor in hand. -/
theorem accept (I : FdInv elems fl none e) (h0 : 0 ≤ fd) (hfree : e.kernel.isOpen fd = false) :
    FdInv elems fl (some fd) { e with kernel := (e.kernel.accept fd).1 } := by
  obtain ⟨k, hk⟩ : ∃ k, k = (e.kernel.accept fd).1 := ⟨_, rfl⟩
  rw [← hk]
  rw [Kernel.accept, if_pos ⟨h0, hfree⟩] at hk
  -- The number is not in use, so no source stands for it.
  have hne : ∀ x ∈ elems, x ∉ fl → (e.at x).sourceFd ≠ fd := by
    intro x hx hxf heq
    have hopen := (I.isOpen x hx hxf).2
    rw [heq, hfree] at hopen
    cases hopen
  have hisOpen : ∀ fd', fd' ≠ fd → k.isOpen fd' = e.kernel.isOpen fd' := fun fd' h => by
    rw [hk]
    exact Function.update_of_ne h _ _
  have htenure : ∀ fd', fd' ≠ fd → k.tenure fd' = e.kernel.tenure fd' := fun fd' h => by
    rw [hk]
    exact Function.update_of_ne h _ _
  have haccepted : ∀ n, n ≠ e.kernel.accepts → k.accepted n = e.kernel.accepted n := fun n h => by
    rw [hk]
    exact Function.update_of_ne h _ _
  have hnew : k.isOpen fd = true ∧ k.tenure fd = some e.kernel.accepts ∧ k.accepted e.kernel.accepts = fd := by
    rw [hk]
    exact ⟨Function.update_self _ _ _, Function.update_self _ _ _, Function.update_self _ _ _⟩
  have haccepts : k.accepts = e.kernel.accepts + 1 := by rw [hk]
  have hcloses : k.closes = e.kernel.closes := by rw [hk]
  refine ⟨fun x hx hxf => ?_, I.unique, fun x hx hxf ht => ?_, fun fd' hfd' => ?_, fun fd' n ht => ?_, fun n hn hc => ?_,
    fun n => ?_, fun n hc ht => ?_, fun n hn => ?_⟩
  · show 0 ≤ (e.at x).sourceFd ∧ k.isOpen (e.at x).sourceFd = true
    rw [hisOpen _ (hne x hx hxf)]
    exact I.isOpen x hx hxf
  · exact I.auto x hx hxf (htenure _ (hne x hx hxf) ▸ ht)
  · obtain rfl := Option.some.inj hfd'
    exact ⟨hnew.1, hne⟩
  · show n < k.accepts ∧ k.accepted n = fd'
    by_cases hfd' : fd' = fd
    · subst hfd'
      obtain rfl := Option.some.inj (hnew.2.1.symm.trans ht)
      exact ⟨by omega, hnew.2.2⟩
    · obtain ⟨hn, hacc⟩ := I.tenure fd' n ((htenure fd' hfd').symm.trans ht)
      rw [haccepted n (Nat.ne_of_lt hn)]
      exact ⟨by omega, hacc⟩
  · show k.tenure (k.accepted n) = some n ∧
      (some fd = some (k.accepted n) ∨ ∃ x ∈ elems, x ∉ fl ∧ (e.at x).sourceFd = k.accepted n)
    by_cases hlast : n = e.kernel.accepts
    · subst hlast
      rw [hnew.2.2]
      exact ⟨hnew.2.1, .inl rfl⟩
    · have hn' : n < k.accepts := hn
      rw [haccepted n hlast]
      obtain ⟨ht, hand | ⟨x, hx, hxf, hfd⟩⟩ := I.held n (by omega) (hcloses ▸ hc)
      · cases hand
      · rw [htenure _ (hfd ▸ hne x hx hxf)]
        exact ⟨ht, .inr ⟨x, hx, hxf, hfd⟩⟩
  · show k.closes n ≤ 1
    rw [hcloses]
    exact I.once n
  · have hc' : e.kernel.closes n ≠ 0 := hcloses ▸ hc
    have hlast : n ≠ e.kernel.accepts := fun heq => hc' (I.fresh n (Nat.le_of_eq heq.symm))
    have ht' : k.tenure (k.accepted n) = some n := ht
    show k.isOpen (k.accepted n) = false
    rw [haccepted n hlast] at ht' ⊢
    by_cases hfd : e.kernel.accepted n = fd
    · rw [hfd, hnew.2.1] at ht'
      exact absurd (Option.some.inj ht').symm hlast
    · rw [htenure _ hfd] at ht'
      rw [hisOpen _ hfd]
      exact I.done n hc' ht'
  · show k.closes n = 0
    have hn' : k.accepts ≤ n := hn
    rw [hcloses]
    exact I.fresh n (by omega)

/-- The descriptor in hand is given to a new source. -/
theorem register (I : FdInv elems (x :: fl) (some fd) e) (h0 : 0 ≤ fd) (hkernel : e'.kernel = e.kernel)
    (hx : x ∈ elems) (hfl : x ∉ fl) (hfd : (e'.at x).sourceFd = fd)
    (hclosed : e.kernel.tenure fd ≠ none → (e'.at x).closed = true)
    (hat : ∀ y ∈ elems, y ≠ x → e'.at y = e.at y) : FdInv elems fl none e' := by
  obtain ⟨hopen, hne⟩ := I.inHand fd rfl
  have hrest : ∀ y, y ≠ x → y ∉ fl → y ∉ x :: fl := fun y hyx hyf => by
    rw [List.mem_cons, not_or]
    exact ⟨hyx, hyf⟩
  refine ⟨fun y hy hyf => ?_, fun y hy z hz hyf hzf heq => ?_, fun y hy hyf ht => ?_, by simp, hkernel ▸ I.tenure,
    fun n hn hc => ?_, hkernel ▸ I.once, hkernel ▸ I.done, hkernel ▸ I.fresh⟩
  · rw [hkernel]
    by_cases hyx : y = x
    · rw [hyx, hfd]
      exact ⟨h0, hopen⟩
    · rw [hat y hy hyx]
      exact I.isOpen y hy (hrest y hyx hyf)
  · by_cases hyx : y = x
    · by_cases hzx : z = x
      · rw [hyx, hzx]
      · rw [hyx, hfd, hat z hz hzx] at heq
        exact absurd heq.symm (hne z hz (hrest z hzx hzf))
    · by_cases hzx : z = x
      · rw [hzx, hfd, hat y hy hyx] at heq
        exact absurd heq (hne y hy (hrest y hyx hyf))
      · rw [hat y hy hyx, hat z hz hzx] at heq
        exact I.unique y hy z hz (hrest y hyx hyf) (hrest z hzx hzf) heq
  · rw [hkernel] at ht
    by_cases hyx : y = x
    · rw [hyx, hfd] at ht
      rw [hyx]
      exact hclosed ht
    · rw [hat y hy hyx] at ht ⊢
      exact I.auto y hy (hrest y hyx hyf) ht
  · rw [hkernel] at hn hc ⊢
    obtain ⟨ht, hand | ⟨y, hy, hyf, hyfd⟩⟩ := I.held n hn hc
    · exact ⟨ht, .inr ⟨x, hx, hfl, hfd.trans (Option.some.inj hand)⟩⟩
    · obtain ⟨hyx, hyf⟩ := not_or.mp (List.mem_cons.not.mp hyf)
      exact ⟨ht, .inr ⟨y, hy, hyf, by rw [hat y hy hyx, hyfd]⟩⟩

end FdInv

end QPHi
