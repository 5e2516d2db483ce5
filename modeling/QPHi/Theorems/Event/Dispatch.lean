import QPHi.Theorems.Event.Sources

/-! The queues of an event: whatever the kernel and the handlers answer, a source that is dispatched stays in use or
    goes back to the pool with all it has, and a descriptor that is accepted is registered or closed. -/

namespace QPHi
open Command

variable {owned : Prop} {n count room x : Nat} {fl : List Nat} {e e' : Event}

namespace Event

/-- What holds between two calls. The descriptors are in order as long as the caller adds only descriptors of its own,
    which is what `owned` says. -/
structure EventInv (owned : Prop) (n count room : Nat) (fl : List Nat) (e : Event) : Prop where
  stocked : Stocked n count room fl e
  fds : owned → FdInv (sources n room) fl none e

/-- A state that comes from the invariant with other free sources, at most those in `fl`. -/
def Within (owned : Prop) (n count room : Nat) (fl : List Nat) (e : Event) : Prop :=
  ∃ fl', fl' ⊆ fl ∧ EventInv owned n count room fl' e

theorem EventInv.within (I : EventInv owned n count room fl e) : Within owned n count room fl e := ⟨fl, fun _ h => h, I⟩

theorem Within.mono {fl' : List Nat} (h : Within owned n count room fl e) (hsub : fl ⊆ fl') :
    Within owned n count room fl' e := by
  obtain ⟨fl₀, hsub₀, I⟩ := h
  exact ⟨fl₀, fun _ hy => hsub (hsub₀ hy), I⟩

theorem EventInv.removeevent (I : EventInv owned n count room fl e) (hx : x ∈ sources n room) (hfl : x ∉ fl) :
    Triple (fun s => s = e) (removeevent (x + sizeofPoolElm)) fun _ e' =>
      EventInv owned n count room (x :: fl) e' ∧ e'.at x = (e.at x).removed := by
  refine (Triple.start (removeevent_spec I.stocked hx hfl)).conseq (fun _ h => h) fun _ e' h => ?_
  obtain ⟨S', -, hkernel, hat, hself⟩ := h
  refine ⟨⟨S', fun hown => ?_⟩, hself⟩
  have F := I.fds hown
  have hrest : ∀ {s : Event}, (∀ y, s.at y = e.at y) → ∀ y ∈ sources n room, y ∉ x :: fl →
      (e'.at y).sourceFd = (s.at y).sourceFd ∧ (e'.at y).closed = (s.at y).closed := by
    intro s hs y _ hy
    have hyx : y ≠ x := fun heq => hy (heq ▸ List.mem_cons_self)
    rw [hat y hyx, hs y]
    exact ⟨rfl, rfl⟩
  by_cases hclosed : (e.at x).closed = true
  · have hfd : QP_FD_INVALID ≠ (e.at x).sourceFd := by
      intro heq
      have h0 := (F.isOpen x hx hfl).1
      rw [← heq] at h0
      exact absurd h0 (by decide)
    rw [closing, if_pos ⟨hclosed, hfd⟩] at hkernel
    exact (F.unregister hx hfl).close.congr hkernel (hrest fun _ => rfl)
  · -- A source that does not close its descriptor has one of the caller.
    have htenure : e.kernel.tenure (e.at x).sourceFd = none := by
      by_contra hne
      exact hclosed (F.auto x hx hfl hne)
    rw [closing, if_neg fun h => hclosed h.1] at hkernel
    exact ((F.unregister hx hfl).letGo htenure).congr hkernel (hrest fun _ => rfl)

/-! ### One source of the ready queue -/

/-- A function of the source `x` that is not shut down has come to its end. -/
theorem EventInv.back {e₀ : Event} (I : EventInv owned n count room fl e₀) (hx : x ∈ sources n room) (hfl : x ∉ fl)
    (T : Tends count (x + sizeofPoolElm) (e₀.cachesOf ((sources n room).erase x)) e₀ e) : EventInv owned n count room fl e := by
  refine ⟨I.stocked.back hx hfl T, fun hown => (I.fds hown).congr T.aside.kernel fun y hy _ => ?_⟩
  by_cases hyx : y = x
  · subst hyx
    exact ⟨T.aside.sourceFd, T.aside.closed⟩
  · rw [at_of_ne T.aside.source hyx]
    exact ⟨rfl, rfl⟩

/-- After the turn of a source that is not in use any more, or is not shut down. -/
def Turned (owned : Prop) (n count room : Nat) (fl : List Nat) (x : Nat) (e : Event) : Prop :=
  (EventInv owned n count room (x :: fl) e ∧ (e.at x).shutdown = true) ∨
    (EventInv owned n count room fl e ∧ (e.at x).shutdown = false)

theorem Turned.within (T : Turned owned n count room fl x e) : Within owned n count room (x :: fl) e := by
  rcases T with ⟨I, -⟩ | ⟨I, -⟩
  · exact I.within
  · exact I.within.mono fun _ hy => List.mem_cons_of_mem x hy

theorem removed_shutdown (s : Source) : s.removed.shutdown = s.shutdown :=
  (Source.dropWrite_shutdown _).trans (Source.dropRead_shutdown _)

theorem dispatchSource_spec (hfits : Fits count) (I : EventInv owned n count room fl e) (hx : x ∈ sources n room)
    (hfl : x ∉ fl) (fuel : Nat) :
    Triple (fun s => s = e) (dispatchSource fuel (x + sizeofPoolElm)) fun _ => Turned owned n count room fl x := by
  have hp := I.stocked.ne_null hx
  suffices h : Triple (Tends count (x + sizeofPoolElm) (e.cachesOf ((sources n room).erase x)) e)
      (dispatchSource fuel (x + sizeofPoolElm)) fun _ => Turned owned n count room fl x from
    h.conseq (fun _ hs => hs ▸ I.stocked.tends hx) fun _ _ h => h
  refine Triple.bind (setSource_keeps fun _ => ⟨rfl, rfl, rfl, rfl⟩) fun _ => getSource_knows.bind fun s => ?_
  refine Triple.when (fun _ => ?_) fun hidle e' h => ?_
  swap
  · obtain ⟨T, rfl⟩ := h
    simp only [Bool.or_eq_true, not_or, Bool.not_eq_true] at hidle
    exact .inr ⟨I.back hx hfl T, hidle.1.1⟩
  rintro e' ⟨T, -⟩
  refine Triple.bind (Keeps.when sourceSetShutdown_keeps) (fun _ => ?_) e' T
  refine Triple.bind (sourceWrite_keeps hp fuel) fun _ => ?_
  refine Triple.bind (sourceRead_keeps hfits fuel) fun _ => Triple.bind (getSource_keeps _) fun s => ?_
  refine Triple.bind (Keeps.when ?_) fun _ => getSource_knows.bind fun s => ?_
  · refine (getSource_keeps _).bind fun s => Keeps.bind (Keeps.when (processRead_keeps hfits hp)) fun _ => ?_
    refine getSource_knows.bind fun s => Triple.when (fun hw => ?_) fun _ s h => h.1
    rintro s' ⟨T, rfl⟩
    exact processWrite_keeps hp (T.aside.writes hw) s' T
  · refine Triple.when (fun hdown e' h => ?_) fun hup e' h => ?_
    all_goals obtain ⟨T, rfl⟩ := h
    · refine Triple.bind ((I.back hx hfl T).removeevent hx hfl) (fun _ => Triple.pure fun s h => ?_) e' rfl
      obtain ⟨I', hself⟩ := h
      exact .inl ⟨I', by rw [hself, removed_shutdown]; exact hdown⟩
    · exact .inr ⟨I.back hx hfl T, Bool.not_eq_true _ ▸ hup⟩

/-! ### One source of the listening queue -/

/-- The descriptor `fd` is in hand. -/
structure Holding (owned : Prop) (n count room : Nat) (fl : List Nat) (fd : Int) (e : Event) : Prop where
  stocked : Stocked n count room fl e
  fds : owned → FdInv (sources n room) fl (some fd) e

theorem sourceAccept_spec (I : EventInv owned n count room fl e) (hx : x ∈ sources n room) :
    Triple (fun s => s = e) (sourceAccept (x + sizeofPoolElm)) fun r s =>
      (r.1 = QP_FD_INVALID ∧ EventInv owned n count room fl s) ∨ (0 ≤ r.1 ∧ Holding owned n count room fl r.1 s) := by
  unfold sourceAccept
  rw [if_neg (I.stocked.ne_null hx)]
  rintro s rfl
  obtain ⟨fd, hfd⟩ : ∃ fd, fd = (s.replies s.clock).fd := ⟨_, rfl⟩
  by_cases hgrant : 0 ≤ fd ∧ s.kernel.isOpen fd = false
  · have haccept : (s.kernel.accept fd).2 = fd := by rw [Kernel.accept, if_pos hgrant]
    have hgoal : 0 ≤ (s.kernel.accept fd).2 ∧ Holding owned n count room fl (s.kernel.accept fd).2
        { s with
          kernel := (s.kernel.accept fd).1
          trace := .accept (s.at x).sourceFd (s.kernel.accept fd).2 :: s.trace
          clock := s.clock + 1 } := by
      rw [haccept]
      refine ⟨hgrant.1, I.stocked.congr rfl rfl rfl rfl rfl fun _ => ⟨rfl, rfl⟩, fun hown => ?_⟩
      exact ((I.fds hown).accept hgrant.1 hgrant.2).congr rfl fun _ _ _ => ⟨rfl, rfl⟩
    subst hfd
    exact .inr hgoal
  · have haccept : s.kernel.accept fd = (s.kernel, QP_FD_INVALID) := by rw [Kernel.accept, if_neg hgrant]
    have hgoal : (s.kernel.accept fd).2 = QP_FD_INVALID ∧ EventInv owned n count room fl
        { s with
          kernel := (s.kernel.accept fd).1
          trace := .accept (s.at x).sourceFd (s.kernel.accept fd).2 :: s.trace
          clock := s.clock + 1 } := by
      rw [haccept]
      refine ⟨rfl, I.stocked.congr rfl rfl rfl rfl rfl fun _ => ⟨rfl, rfl⟩, fun hown => ?_⟩
      exact (I.fds hown).congr rfl fun _ _ _ => ⟨rfl, rfl⟩
    subst hfd
    exact .inl hgoal

/-- A descriptor in hand is registered, or it is still in hand. -/
theorem Holding.addevent {fd : Int} {autoClose : Bool} (I : Holding owned n count room fl fd e) (timeout : Int) (listen : Bool)
    (hauto : owned → e.kernel.tenure fd ≠ none → autoClose = true) :
    Triple (fun s => s = e) (addevent fd timeout listen autoClose) fun r s =>
      (r = QP_ERROR ∧ s.kernel = e.kernel ∧ s.pool = e.pool ∧ Holding owned n count room fl fd s) ∨
        (r = QP_SUCCESS ∧ Within owned n count room fl s) := by
  refine (Triple.start (addevent_spec I.stocked fd timeout listen autoClose)).conseq (fun _ h => h) fun r s h => ?_
  obtain ⟨hkernel, ⟨hr, S, hpool, hat⟩ | ⟨hr, h0, x, fl', rfl, S, hfd, hclosed, hat⟩⟩ := h
  · refine .inl ⟨hr, hkernel, hpool, S, fun hown => (I.fds hown).congr hkernel fun y _ hy => ?_⟩
    rw [hat y hy]
    exact ⟨rfl, rfl⟩
  · refine .inr ⟨hr, fl', fun _ hy => List.mem_cons_of_mem _ hy, S, fun hown => ?_⟩
    have hx : x ∈ sources n room := I.stocked.pool.subset List.mem_cons_self
    have hfl : x ∉ fl' := (List.nodup_cons.mp I.stocked.pool.nodup).1
    refine (I.fds hown).register h0 hkernel hx hfl hfd (fun ht => ?_) fun y _ hy => hat y hy
    rw [hclosed]
    exact hauto hown ht

theorem Holding.sysClose {fd : Int} (I : Holding owned n count room fl fd e) :
    Triple (fun s => s = e) (sysClose fd) fun _ => EventInv owned n count room fl := by
  rintro s rfl
  refine ⟨I.stocked.congr rfl rfl rfl rfl rfl fun _ => ⟨rfl, rfl⟩, fun hown => ?_⟩
  exact (I.fds hown).close.congr rfl fun _ _ _ => ⟨rfl, rfl⟩

/-- A round that goes on has only registered sources or closed what it accepted; one that leaves may have removed the
    listening source. -/
theorem acceptRound_spec (hx : x ∈ sources n room) (hfl : x ∉ fl) (timeout : Int) (a : Unit) :
    Triple (Within owned n count room fl) (acceptRound timeout (x + sizeofPoolElm) a) fun r s =>
      match r with
      | .again _ => Within owned n count room fl s
      | .done _ => Within owned n count room (x :: fl) s := by
  rintro s ⟨fl', hsub, I⟩
  refine Triple.bind (sourceAccept_spec I hx) (fun r => ?_) s rfl
  obtain ⟨fd, retry⟩ := r
  refine Triple.ite (fun hinv => ?_) fun hval => ?_
  · rintro s' (⟨-, I'⟩ | ⟨h0, -⟩)
    · have hremove : Triple (fun s => s = s') (when ((!retry) = true) (do let _ ← removeevent (x + sizeofPoolElm)))
          fun _ => Within owned n count room (x :: fl) := by
        refine Triple.when (fun _ => ?_) fun _ s'' h => ?_
        · refine (I'.removeevent hx fun h => hfl (hsub h)).bind fun _ => Triple.pure fun _ h => ?_
          exact h.1.within.mono (List.cons_subset_cons x hsub)
        · rw [h]
          exact I'.within.mono fun _ hy => List.mem_cons_of_mem x (hsub hy)
      refine hremove.bind (fun _ => Triple.pure fun _ h => ?_) s' rfl
      exact h
    · have hneg : (0 : Int) ≤ QP_FD_INVALID := hinv ▸ h0
      exact absurd hneg (by decide)
  · rintro s' (⟨h, -⟩ | ⟨-, H⟩)
    · exact absurd h hval
    · refine Triple.bind (H.addevent timeout false fun _ _ => rfl) (fun ret => ?_) s' rfl
      refine Triple.bind (R := fun _ => Within owned n count room fl) (Triple.when (fun hret => ?_) fun hret => ?_) fun _ => ?_
      · rintro s'' (⟨-, -, -, H'⟩ | ⟨h, -⟩)
        · exact H'.sysClose.conseq (fun _ h => h) (fun _ _ h => h.within.mono hsub) s'' rfl
        · rw [hret] at h
          exact absurd h (by decide)
      · rintro s'' (⟨h, -⟩ | ⟨-, h⟩)
        · exact absurd h hret
        · exact h.mono hsub
      · refine Triple.bind (getSource_keeps _) fun _ => Triple.ite (fun _ => Triple.pure fun _ h => h) fun _ => ?_
        exact Triple.pure fun _ h => h.mono fun _ hy => List.mem_cons_of_mem x hy

/-! ### Whole queues -/

/-- The source at `p` is in use. -/
def InUse (n room : Nat) (fl : List Nat) (p : Ptr) : Prop := ∃ x ∈ sources n room, x ∉ fl ∧ p = x + sizeofPoolElm

theorem InUse.cons {p q : Ptr} (hq : InUse n room fl q) (hp : p = x + sizeofPoolElm) (hne : q ≠ p) : InUse n room (x :: fl) q := by
  obtain ⟨y, hy, hyf, rfl⟩ := hq
  refine ⟨y, hy, fun hmem => ?_, rfl⟩
  rcases List.mem_cons.mp hmem with rfl | hmem
  · exact hne hp.symm
  · exact hyf hmem

theorem dispatchListenQueue_spec (fuel : Nat) (timeout : Int) (ready : List Ptr) (hnd : ready.Nodup)
    (hlive : ∀ p ∈ ready, InUse n room fl p) :
    Triple (Within owned n count room fl) (dispatchListenQueue fuel timeout ready)
      fun _ s => ∃ fl', EventInv owned n count room fl' s := by
  induction ready generalizing fl with
  | nil => exact Triple.pure fun s ⟨fl', _, I⟩ => ⟨fl', I⟩
  | cons p ready ih =>
    obtain ⟨hp, hnd⟩ := List.nodup_cons.mp hnd
    obtain ⟨x, hx, hfl, hpx⟩ := hlive p List.mem_cons_self
    refine Triple.bind (R := fun _ => Within owned n count room (x :: fl)) ?_ fun _ => ih hnd fun q hq => ?_
    · rw [hpx]
      refine Triple.loop (J := fun _ => Within owned n count room fl) (fun a => ?_) fuel ()
      refine (acceptRound_spec hx hfl timeout a).conseq (fun _ h => h) fun r s h => ?_
      cases r <;> exact h
    · exact (hlive q (List.mem_cons_of_mem p hq)).cons hpx fun heq => hp (heq ▸ hq)

/-- The sources that are free behind the queue were free before, or were in the queue. -/
theorem dispatchQueue_ends (hfits : Fits count) (fuel : Nat) (gone : List Nat) (ready : List Ptr) (hnd : ready.Nodup)
    (hlive : ∀ p ∈ ready, InUse n room fl p) :
    Triple (fun s => ∃ fl', gone ⊆ fl' ∧ fl' ⊆ fl ∧ EventInv owned n count room fl' s) (dispatchQueue fuel ready) fun _ s =>
      ∃ fl', gone ⊆ fl' ∧ (∀ y ∈ fl', y ∈ fl ∨ y + sizeofPoolElm ∈ ready) ∧ EventInv owned n count room fl' s := by
  induction ready generalizing fl with
  | nil => exact Triple.pure fun s ⟨fl', hgone, hsub, I⟩ => ⟨fl', hgone, fun y hy => .inl (hsub hy), I⟩
  | cons p ready ih =>
    obtain ⟨hp, hnd⟩ := List.nodup_cons.mp hnd
    obtain ⟨x, hx, hfl, hpx⟩ := hlive p List.mem_cons_self
    have hturn : Triple (fun s => ∃ fl', gone ⊆ fl' ∧ fl' ⊆ fl ∧ EventInv owned n count room fl' s) (dispatchSource fuel p)
        fun _ s => ∃ fl', gone ⊆ fl' ∧ fl' ⊆ x :: fl ∧ EventInv owned n count room fl' s := by
      rintro s ⟨fl', hgone, hsub, I⟩
      rw [hpx]
      refine (dispatchSource_spec hfits I hx (fun h => hfl (hsub h)) fuel).conseq (fun _ h => h) (fun _ _ h => ?_) s rfl
      rcases h with ⟨I', -⟩ | ⟨I', -⟩
      · exact ⟨x :: fl', fun _ hy => List.mem_cons_of_mem x (hgone hy), List.cons_subset_cons x hsub, I'⟩
      · exact ⟨fl', hgone, fun _ hy => List.mem_cons_of_mem x (hsub hy), I'⟩
    refine Triple.bind hturn fun _ => (ih hnd fun q hq => ?_).conseq (fun _ h => h) fun _ s h => ?_
    · exact (hlive q (List.mem_cons_of_mem p hq)).cons hpx fun heq => hp (heq ▸ hq)
    · obtain ⟨fl', hgone, hfrom, I⟩ := h
      refine ⟨fl', hgone, fun y hy => ?_, I⟩
      rcases hfrom y hy with hmem | hready
      · rcases List.mem_cons.mp hmem with rfl | hmem
        · exact .inr (hpx ▸ List.mem_cons_self)
        · exact .inl hmem
      · exact .inr (List.mem_cons_of_mem p hready)

theorem dispatchQueue_spec (hfits : Fits count) (fuel : Nat) (ready : List Ptr) (hnd : ready.Nodup)
    (hlive : ∀ p ∈ ready, InUse n room fl p) :
    Triple (Within owned n count room fl) (dispatchQueue fuel ready) fun _ s => ∃ fl', EventInv owned n count room fl' s :=
  (dispatchQueue_ends hfits fuel [] ready hnd hlive).conseq (fun _ ⟨fl', hsub, I⟩ => ⟨fl', List.nil_subset fl', hsub, I⟩)
    fun _ _ ⟨fl', _, _, I⟩ => ⟨fl', I⟩

end Event

end QPHi
