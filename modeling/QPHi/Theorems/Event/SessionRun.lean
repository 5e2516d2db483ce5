import QPHi.Theorems.Event.Destroy
import QPHi.Theorems.Event.Session
import QPHi.Theorems.Pool.Exact

/-! The protocol between the event loop and its handlers over whole runs, in which every source is dispatched by the queue
    that its `listen` flag says, as `qp_event_dispatch` does it. -/

namespace QPHi
open Command

variable {n count room x : Nat} {fl fl' : List Nat} {p q : Ptr} {e e' e₀ : Event} {h : Handles} {ph : Phase}

namespace Event

/-! ### A turn -/

/-- A source that is dispatched, at the start of its turn. -/
def Waiting (h : Handles) (s : Source) (ph : Phase) : Prop := s.listen = false ∧ s.shutdown = false ∧ Open h s ph

/-- After the turn the source goes on, or it has been removed. -/
def Passed (h : Handles) (s : Source) (ph : Phase) : Prop :=
  Waiting h s ph ∨ s.shutdown = true ∧ Removed h ph

theorem Before.settled {s : Source} (hb : Before h s ph) : Settled h s ph := by
  obtain ⟨hlisten, ⟨hshut, ho⟩ | ⟨hshut, -, hph⟩⟩ := hb
  · exact ⟨hlisten, ho.ne_unused, .inr ⟨hshut, ho⟩⟩
  · refine ⟨hlisten, ?_, .inl hshut⟩
    rcases hph with rfl | hph
    · intro h
      cases h
    · exact Phase.Waits.ne_unused hph

theorem dispatchSource_talk (hp : p ≠ NULL) (fuel : Nat) :
    Leaves (Talk e₀ p (Waiting e₀.handles)) (dispatchSource fuel p) fun _ => Talk e₀ p (Passed e₀.handles) := by
  refine Alike.bind (R := fun _ => Talk e₀ p fun s ph => s.listen = false ∧ Open e₀.handles s ph)
    (Alike.of_fueled (setSource_talk (fun _ => rfl) fun s ph hs => ⟨hs.1, hs.2.2⟩)) fun _ => ?_
  refine (Alike.of_fueled getSource_talk).bind fun s => Alike.when (fun _ => ?_) fun hidle e T => T.mono fun s' ph hs => ?_
  swap
  · obtain ⟨rfl, hlisten, ho⟩ := hs
    simp only [Bool.or_eq_true, not_or, Bool.not_eq_true] at hidle
    exact .inl ⟨hlisten, hidle.1.1, ho⟩
  refine Alike.bind (R := fun _ => Talk e₀ p (Before e₀.handles)) (Alike.of_fueled (Fueled.when (fun _ => ?_) fun hup e T => ?_))
    fun _ => ?_
  · refine sourceSetShutdown_talk hp fun s' ph hs => ⟨hs.2.1, .inr ⟨rfl, rfl, hs.2.2.waits⟩⟩
  · refine T.mono fun s' ph hs => ?_
    obtain ⟨rfl, hlisten, ho⟩ := hs
    exact ⟨hlisten, .inl ⟨Bool.not_eq_true _ ▸ hup, ho⟩⟩
  refine (before_lasting.sourceWrite fuel).bind fun _ => (before_lasting.sourceRead fuel).bind fun _ => Alike.of_fueled ?_
  refine getSource_talk.bind fun s => Fueled.bind (R := fun _ => Talk e₀ p (Settled e₀.handles)) ?_ fun _ => ?_
  · refine Fueled.when (fun hnull => ?_) fun _ e T => T.mono fun _ _ hs => hs.2.settled
    have hstart : Fueled (Talk e₀ p fun s' ph => s' = s ∧ Before e₀.handles s' ph) (getSource p) fun _ =>
        Talk e₀ p fun s ph => s.writeCache = NULL ∧ Before e₀.handles s ph :=
      fun e T => T.mono fun s' ph hs => ⟨hs.1 ▸ hnull, hs.2⟩
    refine hstart.bind fun s => Fueled.bind (Fueled.when (fun _ => processRead_talk hp) fun _ e T => ?_) fun _ => ?_
    · exact T.mono fun s ph hs => .inl ⟨hs.1, hs.2.settled⟩
    · refine getSource_talk.bind fun s => Fueled.when (fun hsome => ?_) fun hnone e T => T.mono fun s' ph hs => ?_
      · refine (processWrite_talk hp).conseq (fun e T => T.mono fun s' ph hs => ?_) fun _ _ h => h
        exact (hs.2.resolve_left fun hs' => hsome (hs.1 ▸ hs'.1)).2
      · exact (hs.2.resolve_right fun hs' => hnone (hs.1 ▸ hs'.1)).2
  · refine getSource_talk.bind fun s => Fueled.when (fun hdown => ?_) fun hup e T => T.mono fun s' ph hs => ?_
    · refine Fueled.bind ((removeevent_talk (K := fun s ph => s.shutdown = true ∧ ph ≠ .unused) hp fun s ph hs => hs.2).conseq
        (fun e T => T.mono fun s' ph hs => ⟨hs.1 ▸ hdown, hs.2.2.1⟩) fun _ _ h => h) fun _ => Fueled.pure fun e T => ?_
      refine T.mono fun s' ph hs => ?_
      obtain ⟨⟨s₀, ph₀, hs₀, heq⟩, hph⟩ := hs
      exact .inr ⟨heq ▸ hs₀.1, hph⟩
    · obtain ⟨rfl, hlisten, -, hshut⟩ := hs
      exact .inl ⟨hlisten, hshut.resolve_left hup⟩

/-! ### Between two calls -/

/-- A source in use, between two calls: a listening source has no handler calls. -/
def Running (h : Handles) (s : Source) (ph : Phase) : Prop :=
  s.shutdown = false ∧ (s.listen = true ∧ ph = .fresh ∨ s.listen = false ∧ Open h s ph)

/-- Every source follows the protocol, and has the index of its place in the pool. -/
structure Sessions (n room : Nat) (fl : List Nat) (e : Event) : Prop where
  source : ∀ p, ∃ ph, phases e.handles p e.trace = some ph ∧ (InUse n room fl p → Running e.handles (e.source p) ph) ∧
    (¬InUse n room fl p → Removed e.handles ph)
  index : ∀ i < n, (e.at (element room i)).index = i

theorem Sessions.start (I : Sessions n room fl e) (p : Ptr) {K : Source → Phase → Prop}
    (hK : ∀ ph, (InUse n room fl p → Running e.handles (e.source p) ph) → (¬InUse n room fl p → Removed e.handles ph) →
      K (e.source p) ph) : Talk e p K e := by
  obtain ⟨ph, hph, hin, hout⟩ := I.source p
  exact ⟨.refl, ph, hph, hK ph hin hout⟩

/-- A command that is about `p` only. -/
theorem Sessions.talk {K : Source → Phase → Prop} (I : Sessions n room fl e₀) (T : Talk e₀ p K e)
    (hothers : ∀ q, q ≠ p → (InUse n room fl' q ↔ InUse n room fl q))
    (hK : ∀ ph, K (e.source p) ph → (InUse n room fl' p → Running e₀.handles (e.source p) ph) ∧
      (¬InUse n room fl' p → Removed e₀.handles ph)) : Sessions n room fl' e := by
  obtain ⟨A, ph, hph, hs⟩ := T
  refine ⟨fun q => ?_, fun i hi => ?_⟩
  · rw [A.handles]
    by_cases hq : q = p
    · subst hq
      exact ⟨ph, hph, hK ph hs⟩
    · obtain ⟨ph', hph', hin, hout⟩ := I.source q
      rw [A.source q hq, hothers q hq]
      exact ⟨ph', (A.phases q hq).trans hph', hin, hout⟩
  · refine Eq.trans ?_ (I.index i hi)
    by_cases hq : element room i + sizeofPoolElm = p
    · rw [Event.at, Event.at, hq]
      exact A.index
    · rw [Event.at, Event.at, A.source _ hq]

/-- What the sources and the calls do not see. -/
theorem Sessions.rest (I : Sessions n room fl e) (htrace : ∀ q, phases e.handles q e'.trace = phases e.handles q e.trace)
    (hhandles : e'.handles = e.handles)
    (hsource : ∀ q, (e'.source q).stat = (e.source q).stat ∧ (e'.source q).shutdown = (e.source q).shutdown ∧
      (e'.source q).listen = (e.source q).listen ∧ (e'.source q).index = (e.source q).index) : Sessions n room fl e' := by
  refine ⟨fun q => ?_, fun i hi => ?_⟩
  · obtain ⟨ph, hph, hin, hout⟩ := I.source q
    obtain ⟨hstat, hshut, hlisten, -⟩ := hsource q
    rw [hhandles]
    refine ⟨ph, (htrace q).trans hph, fun hq => ?_, hout⟩
    rw [Running, Open, hstat, hshut, hlisten]
    exact hin hq
  · exact (hsource _).2.2.2.trans (I.index i hi)

theorem inUse_cons (hx : p = x + sizeofPoolElm) (hq : q ≠ p) : InUse n room (x :: fl) q ↔ InUse n room fl q := by
  constructor
  · rintro ⟨y, hy, hyf, rfl⟩
    exact ⟨y, hy, fun hmem => hyf (List.mem_cons_of_mem x hmem), rfl⟩
  · exact fun hin => hin.cons hx hq

theorem not_inUse_cons : ¬InUse n room (x :: fl) (x + sizeofPoolElm) := by
  rintro ⟨y, -, hyf, heq⟩
  obtain rfl : x = y := Nat.add_right_cancel heq
  exact hyf List.mem_cons_self

/-- A turn of a source that does not listen. -/
theorem Sessions.dispatchSource (hfits : Fits count) (S : Stocked n count room fl e) (I : Sessions n room fl e)
    (hx : x ∈ sources n room) (hfl : x ∉ fl) (hlisten : (e.at x).listen = false) {fuel : Nat} {r : Unit}
    (hcall : dispatchSource fuel (x + sizeofPoolElm) e = .ok (r, e')) :
    ∃ fl', fl' ⊆ x :: fl ∧ Stocked n count room fl' e' ∧ Sessions n room fl' e' ∧
      ∀ q, q ≠ x + sizeofPoolElm → e'.source q = e.source q := by
  have T := ((dispatchSource_talk (S.ne_null hx) fuel) e (I.start _ fun ph hin _ => ?_)).2 _ _ hcall
  swap
  · obtain ⟨hshut, hl | hl⟩ := hin ⟨x, hx, hfl, rfl⟩
    · exact Bool.noConfusion (hlisten.symm.trans hl.1)
    · exact ⟨hlisten, hshut, hl.2⟩
  have hinv : EventInv False n count room fl e := ⟨S, False.elim⟩
  have hturn := Meets.of_ok (dispatchSource_spec hfits hinv hx hfl fuel e rfl) hcall
  rcases hturn with ⟨I', hdown⟩ | ⟨I', hup⟩
  · refine ⟨x :: fl, List.Subset.refl _, I'.stocked, I.talk T (fun q hq => inUse_cons rfl hq) fun ph hs => ?_, T.alone.source⟩
    refine ⟨fun hin => absurd hin not_inUse_cons, fun _ => ?_⟩
    rcases hs with hw | hr
    · exact Bool.noConfusion (hw.2.1.symm.trans hdown)
    · exact hr.2
  · refine ⟨fl, List.subset_cons_self x fl, I'.stocked, I.talk T (fun _ _ => Iff.rfl) fun ph hs => ?_, T.alone.source⟩
    rcases hs with hw | hr
    · exact ⟨fun _ => ⟨hw.2.1, .inr ⟨hw.1, hw.2.2⟩⟩, fun hout => absurd ⟨x, hx, hfl, rfl⟩ hout⟩
    · exact Bool.noConfusion (hup.symm.trans hr.1)

/-! ### Adding a source -/

/-- `qp_event_addevent` is about the source that the pool hands out next. -/
theorem addevent_talk {pool : Heap} {fd timeout : Int} {listen autoClose : Bool}
    (hnext : e.pool.poolAlloc e.eventPool sizeofSource = (pool, p))
    (hfree : Talk e p (fun _ ph => Removed e.handles ph) e) :
    Fueled (fun s => s = e) (addevent fd timeout listen autoClose) fun r => Talk e p fun s ph =>
      (r = QP_ERROR → Removed e.handles ph) ∧ (r = QP_SUCCESS → Running e.handles s ph) := by
  have hnone : Fueled (fun s => s = e) (pure QP_ERROR) fun r => Talk e p fun s ph =>
      (r = QP_ERROR → Removed e.handles ph) ∧ (r = QP_SUCCESS → Running e.handles s ph) := by
    rintro s rfl
    exact hfree.mono fun _ _ hs => ⟨fun _ => hs, fun hr => absurd hr (by decide)⟩
  refine Fueled.bind (R := fun a s => a = e ∧ s = e) (fun s hs => ⟨hs, hs⟩) fun a => Fueled.given fun ha => ?_
  subst ha
  refine Fueled.ite (fun _ => hnone) fun _ => Fueled.ite (fun _ => ?_) fun _ => hnone
  rw [hnext]
  have hset : Fueled (fun s => s = a) (set ({ a with pool := pool } : Event) : EventM PUnit)
      fun _ => Talk a p fun _ ph => Removed a.handles ph := by
    rintro s rfl
    exact hfree.rest rfl rfl rfl
  refine hset.bind fun _ => Fueled.ite (fun _ => Fueled.stuck) fun hp => ?_
  refine Fueled.bind (R := fun _ => Talk a p fun s ph => s.shutdown = false ∧ s.listen = listen ∧ Removed a.handles ph)
    (setSource_talk (fun _ => rfl) fun s ph hs => ⟨rfl, rfl, hs⟩) fun _ => ?_
  have hadd : Fueled (Talk a p fun s ph => s.shutdown = false ∧ s.listen = listen ∧ Removed a.handles ph) (evAdd p)
      fun r => Talk a p fun s ph => s.shutdown = false ∧ s.listen = listen ∧ ph = if r = QP_ERROR then .refused else .fresh := by
    refine Fueled.bind reply_talk fun r => Fueled.bind (R := fun _ => Talk a p fun s ph =>
      s.shutdown = false ∧ s.listen = listen ∧ ph = if r.result = QP_ERROR then .refused else .fresh) (fun e T => ?_)
      fun _ => Fueled.pure fun _ h => h
    refine T.call (fun q hq heq => hq (Option.some.inj heq).symm) fun ph hs => ?_
    obtain ⟨hshut, hlisten, hph⟩ := hs
    rw [Phase.next, if_neg (not_not.mpr rfl), if_pos (show ph = .unused ∨ a.handles.del = false from hph)]
    exact ⟨_, rfl, hshut, hlisten, rfl⟩
  refine hadd.bind fun r => Fueled.ite (fun hr => ?_) fun hr => ?_
  · refine Fueled.bind (R := fun _ => Talk a p fun _ ph => ph = .refused) (setSource_talk (fun _ => rfl) fun s ph hs => ?_)
      fun _ => Fueled.bind (removeevent_talk hp fun s ph hs => ?_) fun _ => Fueled.pure fun e T => T.mono fun s ph hs => ?_
    · rw [hs.2.2, if_pos hr]
    · rw [hs]
      intro h
      cases h
    · exact ⟨fun _ => hs.2, fun hr' => absurd hr' (by decide)⟩
  · refine Fueled.bind (R := fun _ => Talk a p (Running a.handles)) (setSource_talk (fun _ => rfl) fun s ph hs => ?_)
      fun _ => Fueled.pure fun e T => T.mono fun s ph hs => ⟨fun hr' => absurd hr' (by decide), fun _ => hs⟩
    obtain ⟨hshut, -, hph⟩ := hs
    rw [if_neg hr] at hph
    cases hl : s.listen with
    | true => exact ⟨hshut, .inl ⟨rfl, hph⟩⟩
    | false => exact ⟨hshut, .inr ⟨rfl, .inl (.inl ⟨hph, rfl⟩)⟩⟩

theorem Sessions.addevent {fd timeout r : Int} {listen autoClose : Bool} (S : Stocked n count room fl e) (I : Sessions n room fl e)
    (hcall : addevent fd timeout listen autoClose e = .ok (r, e')) :
    ∃ fl', fl' ⊆ fl ∧ Stocked n count room fl' e' ∧ Sessions n room fl' e' ∧ ∀ q, InUse n room fl q → e'.source q = e.source q := by
  obtain ⟨pool, p, hnext⟩ : ∃ pool p, e.pool.poolAlloc e.eventPool sizeofSource = (pool, p) := ⟨_, _, rfl⟩
  have hfirst : ∀ {x fl'}, fl = x :: fl' → p = x + sizeofPoolElm := by
    rintro x fl' rfl
    obtain ⟨pool, hrun, -⟩ := S.pool.poolAlloc_some S.placed (Nat.le_refl sizeofSource)
    exact (Prod.mk.inj (hrun.symm.trans hnext)).2.symm
  have hout : ¬InUse n room fl p := by
    rintro ⟨y, hy, hyf, rfl⟩
    cases fl with
    | nil =>
      have hnone : e.pool.poolAlloc e.eventPool sizeofSource = (e.pool, NULL) := S.pool.poolAlloc_none (.inl rfl)
      exact S.ne_null hy (Prod.mk.inj (hnone.symm.trans hnext)).2.symm
    | cons x fl' => exact hyf (Nat.add_right_cancel (hfirst rfl) ▸ List.mem_cons_self)
  have T := Settles.of_ok (addevent_talk hnext (I.start p fun ph _ hr => hr hout) e rfl) hcall
  have hsame : ∀ q, InUse n room fl q → e'.source q = e.source q := fun q hq => T.alone.source q fun heq => hout (heq ▸ hq)
  obtain ⟨-, ⟨hr, S', -⟩ | ⟨hr, -, x, fl', hfl, S', -⟩⟩ := Meets.of_ok (addevent_spec S fd timeout listen autoClose) hcall
  · refine ⟨fl, List.Subset.refl fl, S', I.talk T (fun _ _ => Iff.rfl) fun ph hs => ?_, hsame⟩
    exact ⟨fun hin => absurd hin hout, fun _ => hs.1 hr⟩
  · have hp := hfirst hfl
    subst hfl
    have hx : x ∈ sources n room := S.pool.subset List.mem_cons_self
    have hxf : x ∉ fl' := (List.nodup_cons.mp S.pool.nodup).1
    refine ⟨fl', List.subset_cons_self x fl', S', I.talk T (fun q hq => (inUse_cons hp hq).symm) fun ph hs => ?_, hsame⟩
    exact ⟨fun _ => hs.2 hr, fun hnot => absurd ⟨x, hx, hxf, hp⟩ hnot⟩

/-! ### The listening queue -/

/-- Some sources were taken or given back, and those that were in use are as they were, but for `p`. -/
def Moved (n count room : Nat) (fl : List Nat) (p : Ptr) (e e' : Event) (fl' : List Nat) : Prop :=
  Stocked n count room fl' e' ∧ Sessions n room fl' e' ∧ ∀ q, q ≠ p → InUse n room fl q → e'.source q = e.source q

theorem Sessions.acceptRound (S : Stocked n count room fl e) (I : Sessions n room fl e) (hx : x ∈ sources n room) (hfl : x ∉ fl)
    (hlisten : (e.at x).listen = true) (timeout : Int) (a : Unit) :
    Leaves (fun s => s = e) (acceptRound timeout (x + sizeofPoolElm) a) fun next s =>
      match next with
      | .again _ => ∃ fl', fl' ⊆ fl ∧ Moved n count room fl (x + sizeofPoolElm) e s fl' ∧ s.at x = e.at x
      | .done _ => ∃ fl', fl' ⊆ x :: fl ∧ Moved n count room fl (x + sizeofPoolElm) e s fl' := by
  have hp := S.ne_null hx
  have haccept : Fueled (fun s => s = e) (sourceAccept (x + sizeofPoolElm)) fun _ s =>
      Stocked n count room fl s ∧ Sessions n room fl s ∧ s.source = e.source := by
    unfold sourceAccept
    rw [if_neg hp]
    rintro s rfl
    refine ⟨S.congr rfl rfl rfl rfl rfl fun _ => ⟨rfl, rfl⟩, I.rest (fun q => ?_) rfl fun _ => ⟨rfl, rfl, rfl, rfl⟩, rfl⟩
    exact phases_other (Option.some_ne_none q).symm
  refine (Alike.of_fueled haccept).bind fun r => Alike.ite (fun _ => ?_) fun _ => ?_
  · have hremove : Leaves (fun s => Stocked n count room fl s ∧ Sessions n room fl s ∧ s.source = e.source)
        (removeevent (x + sizeofPoolElm)) fun _ s => ∃ fl', fl' ⊆ x :: fl ∧ Moved n count room fl (x + sizeofPoolElm) e s fl' := by
      refine Alike.leaves fun s hs a s' hr => ?_
      obtain ⟨S₁, I₁, hsource⟩ := hs
      have hfresh : Talk s (x + sizeofPoolElm) (fun _ ph => ph = .fresh) s := by
        refine I₁.start _ fun ph hin _ => ?_
        obtain ⟨-, hl | hl⟩ := hin ⟨x, hx, hfl, rfl⟩
        · exact hl.2
        · rw [hsource] at hl
          exact Bool.noConfusion (hlisten.symm.trans hl.1)
      have hne : ∀ (s : Source) ph, ph = Phase.fresh → ph ≠ .unused := by
        rintro s ph rfl
        intro h
        cases h
      have T := Settles.of_ok (removeevent_talk hp hne s hfresh) hr
      obtain ⟨S', -⟩ := Meets.of_ok (removeevent_spec S₁ hx hfl) hr
      refine ⟨x :: fl, List.Subset.refl _, S', I₁.talk T (fun q hq => inUse_cons rfl hq) fun ph hs => ?_, fun q hq _ => ?_⟩
      · exact ⟨fun hin => absurd hin not_inUse_cons, fun _ => hs.2⟩
      · rw [T.alone.source q hq, hsource]
    refine Alike.bind (R := fun _ s => ∃ fl', fl' ⊆ x :: fl ∧ Moved n count room fl (x + sizeofPoolElm) e s fl')
      (Alike.when (fun _ => hremove.bind fun _ => Alike.pure fun _ h => h) fun _ s hs => ?_) fun _ => Alike.pure fun _ h => h
    obtain ⟨S₁, I₁, hsource⟩ := hs
    exact ⟨fl, List.subset_cons_self x fl, S₁, I₁, fun q _ _ => congrFun hsource q⟩
  · have hadd : Leaves (fun s => Stocked n count room fl s ∧ Sessions n room fl s ∧ s.source = e.source)
        (Event.addevent r.1 timeout false true) fun _ s =>
          ∃ fl', fl' ⊆ fl ∧ Stocked n count room fl' s ∧ Sessions n room fl' s ∧ ∀ q, InUse n room fl q → s.source q = e.source q := by
      refine Alike.leaves fun s hs a s' hr => ?_
      obtain ⟨S₁, I₁, hsource⟩ := hs
      obtain ⟨fl', hsub, S', I', hsame⟩ := I₁.addevent S₁ hr
      exact ⟨fl', hsub, S', I', fun q hq => (hsame q hq).trans (congrFun hsource q)⟩
    refine hadd.bind fun ret => Alike.bind (R := fun _ s =>
      ∃ fl', fl' ⊆ fl ∧ Stocked n count room fl' s ∧ Sessions n room fl' s ∧ ∀ q, InUse n room fl q → s.source q = e.source q)
      (Alike.of_fueled (Fueled.when (fun _ s hs => ?_) fun _ _ h => h)) fun _ => ?_
    · obtain ⟨fl', hsub, S', I', hsame⟩ := hs
      refine ⟨fl', hsub, S'.congr rfl rfl rfl rfl rfl fun _ => ⟨rfl, rfl⟩, I'.rest (fun q => ?_) rfl fun _ => ⟨rfl, rfl, rfl, rfl⟩,
        hsame⟩
      exact phases_other (Option.some_ne_none q).symm
    · refine Alike.bind (Alike.of_fueled (getSource_stays _)) fun s => Alike.ite (fun _ => ?_) fun _ => ?_
      · refine Alike.pure fun s hs => ?_
        obtain ⟨fl', hsub, S', I', hsame⟩ := hs
        exact ⟨fl', hsub, ⟨S', I', fun q _ hq => hsame q hq⟩, hsame _ ⟨x, hx, hfl, rfl⟩⟩
      · refine Alike.pure fun s hs => ?_
        obtain ⟨fl', hsub, S', I', hsame⟩ := hs
        exact ⟨fl', fun y hy => List.mem_cons_of_mem x (hsub hy), S', I', fun q _ hq => hsame q hq⟩

/-! ### Whole queues -/

theorem Sessions.listen {fuel : Nat} {timeout : Int} {ready : List Ptr} (hnd : ready.Nodup)
    (hlive : ∀ p ∈ ready, InUse n room fl p ∧ (e.source p).listen = true) (S : Stocked n count room fl e) (I : Sessions n room fl e) :
    Leaves (fun s => s = e) (dispatchListenQueue fuel timeout ready) fun _ s =>
      ∃ fl', Stocked n count room fl' s ∧ Sessions n room fl' s := by
  induction ready generalizing fl e with
  | nil =>
    refine Alike.pure fun s hs => ?_
    rw [hs]
    exact ⟨fl, S, I⟩
  | cons p ready ih =>
    obtain ⟨hp, hrest⟩ := List.nodup_cons.mp hnd
    obtain ⟨⟨x, hx, hfl, hpx⟩, hlisten⟩ := hlive p List.mem_cons_self
    subst hpx
    -- Between the rounds the listening source and the others of the queue are as they were.
    have hrounds : Leaves (fun s => s = e) (loop (Event.acceptRound timeout (x + sizeofPoolElm)) fuel ()) fun _ s =>
        ∃ fl', fl' ⊆ x :: fl ∧ Moved n count room fl (x + sizeofPoolElm) e s fl' := by
      refine ((Alike.loop (J := fun _ s => ∃ fl', fl' ⊆ fl ∧ Moved n count room fl (x + sizeofPoolElm) e s fl' ∧ s.at x = e.at x)
        (fun a => Alike.leaves fun s hs next s' hr => ?_) fuel ()).conseq (fun s hs => ?_) fun _ _ h => h)
      · obtain ⟨fl₁, hsub, ⟨S₁, I₁, hsame⟩, hself⟩ := hs
        have hl₁ : (s.at x).listen = true := by
          rw [hself]
          exact hlisten
        have hback : ∀ fl', Moved n count room fl₁ (x + sizeofPoolElm) s s' fl' → Moved n count room fl (x + sizeofPoolElm) e s' fl' := by
          rintro fl' ⟨S', I', hsame'⟩
          refine ⟨S', I', fun q hq hin => (hsame' q hq ?_).trans (hsame q hq hin)⟩
          obtain ⟨y, hy, hyf, rfl⟩ := hin
          exact ⟨y, hy, fun hmem => hyf (hsub hmem), rfl⟩
        have hnext := ((I₁.acceptRound S₁ hx (fun hmem => hfl (hsub hmem)) hl₁ timeout a) s rfl).2 _ _ hr
        cases next with
        | again _ =>
          obtain ⟨fl', hsub', hmoved, hself'⟩ := hnext
          exact ⟨fl', fun y hy => hsub (hsub' hy), hback fl' hmoved, hself'.trans hself⟩
        | done _ =>
          obtain ⟨fl', hsub', hmoved⟩ := hnext
          refine ⟨fl', fun y hy => ?_, hback fl' hmoved⟩
          exact (List.mem_cons.mp (hsub' hy)).elim (fun heq => heq ▸ List.mem_cons_self) fun hmem => List.mem_cons_of_mem x (hsub hmem)
      · rw [hs]
        exact ⟨fl, List.Subset.refl fl, ⟨S, I, fun _ _ _ => rfl⟩, rfl⟩
    refine hrounds.bind fun _ => Alike.leaves fun s hs r s' hr => ?_
    obtain ⟨fl', hsub, S', I', hsame⟩ := hs
    refine ((ih hrest (fun q hq => ?_) S' I') s rfl).2 r s' hr
    have hqp : q ≠ x + sizeofPoolElm := fun heq => hp (heq ▸ hq)
    obtain ⟨hin, hl⟩ := hlive q (List.mem_cons_of_mem _ hq)
    rw [hsame q hqp hin]
    obtain ⟨y, hy, hyf, rfl⟩ := hin
    refine ⟨⟨y, hy, fun hmem => ?_, rfl⟩, hl⟩
    exact (List.mem_cons.mp (hsub hmem)).elim (fun heq => hqp (heq ▸ rfl)) hyf

theorem Sessions.dispatch (hfits : Fits count) {fuel : Nat} {ready : List Ptr} (hnd : ready.Nodup)
    (hlive : ∀ p ∈ ready, InUse n room fl p ∧ (e.source p).listen = false) (S : Stocked n count room fl e) (I : Sessions n room fl e) :
    Leaves (fun s => s = e) (dispatchQueue fuel ready) fun _ s => ∃ fl', Stocked n count room fl' s ∧ Sessions n room fl' s := by
  induction ready generalizing fl e with
  | nil =>
    refine Alike.pure fun s hs => ?_
    rw [hs]
    exact ⟨fl, S, I⟩
  | cons p ready ih =>
    obtain ⟨hp, hrest⟩ := List.nodup_cons.mp hnd
    obtain ⟨⟨x, hx, hfl, rfl⟩, hlisten⟩ := hlive p List.mem_cons_self
    have hturn : Leaves (fun s => s = e) (Event.dispatchSource fuel (x + sizeofPoolElm)) fun _ s =>
        ∃ fl', fl' ⊆ x :: fl ∧ Stocked n count room fl' s ∧ Sessions n room fl' s ∧
          ∀ q, q ≠ x + sizeofPoolElm → s.source q = e.source q := by
      refine Alike.leaves fun s hs r s' hr => ?_
      rw [hs] at hr
      exact I.dispatchSource hfits S hx hfl hlisten hr
    refine hturn.bind fun _ => Alike.leaves fun s hs r s' hr => ?_
    obtain ⟨fl', hsub, S', I', hsame⟩ := hs
    refine ((ih hrest (fun q hq => ?_) S' I') s rfl).2 r s' hr
    have hqp : q ≠ x + sizeofPoolElm := fun heq => hp (heq ▸ hq)
    obtain ⟨hin, hl⟩ := hlive q (List.mem_cons_of_mem _ hq)
    rw [hsame q hqp]
    obtain ⟨y, hy, hyf, rfl⟩ := hin
    refine ⟨⟨y, hy, fun hmem => ?_, rfl⟩, hl⟩
    exact (List.mem_cons.mp (hsub hmem)).elim (fun heq => hqp (heq ▸ rfl)) hyf

/-! ### Whole runs -/

/-- The runs of an event in which a source that listens is dispatched by `qp_event_dispatch_listen_queue` only, and every
    other one by `qp_event_dispatch_queue` only. -/
inductive Routed : Event → Prop
  | init {e₀ e : Event} {event size room? maxEventSize : Nat} {noblock edge : Bool} (hevent : event ≠ NULL)
      (hblock : (event, size) ∈ e₀.pool.live ∧ offsetofEventPool + sizeofPool ≤ size)
      (hmanager : managerBlock event ∈ e₀.caches.live ∧ event + sizeofManager < 2 ^ 64) (hmax : maxEventSize < 2 ^ 31)
      (hkernel : e₀.kernel.Fresh) (htrace : e₀.trace = [])
      (hmade : eventInit event room? maxEventSize noblock edge e₀ = some e) : Routed e
  | openOwn {e : Event} {fd : Int} (R : Routed e) (hclosed : e.kernel.isOpen fd = false) :
      Routed { e with kernel := e.kernel.openOwn fd }
  | closeOwn {e : Event} {fd : Int} (R : Routed e) (hfd : e.Own fd) : Routed { e with kernel := e.kernel.close fd }
  | addevent {e e' : Event} {fd timeout r : Int} {listen autoClose : Bool} (R : Routed e)
      (hcall : addevent fd timeout listen autoClose e = .ok (r, e')) : Routed e'
  | listen {e e' : Event} {fuel : Nat} {timeout : Int} {ready : List Ptr} (R : Routed e) (hnd : ready.Nodup)
      (hlive : ∀ p ∈ ready, e.Live p ∧ (e.source p).listen = true)
      (hcall : dispatchListenQueue fuel timeout ready e = .ok ((), e')) : Routed e'
  | dispatch {e e' : Event} {fuel : Nat} {revents : Ptr → Nat} {ready : List Ptr} (R : Routed e) (hnd : ready.Nodup)
      (hlive : ∀ p ∈ ready, e.Live p ∧ (e.source p).listen = false)
      (hcall : dispatchQueue fuel ready (e.report revents) = .ok ((), e')) : Routed e'

theorem Routed.runs (R : Routed e) : Runs False e := by
  induction R with
  | init hevent hblock hmanager hmax hkernel _ hmade => exact .init hevent hblock hmanager hmax hkernel hmade
  | openOwn _ hclosed ih => exact .openOwn ih hclosed
  | closeOwn _ hfd ih => exact .closeOwn ih hfd
  | addevent _ hcall ih => exact .addevent ih False.elim hcall
  | listen _ hnd hlive hcall ih => exact .listen ih hnd (fun p hp => (hlive p hp).1) hcall
  | dispatch _ hnd hlive hcall ih => exact .dispatch ih hnd (fun p hp => (hlive p hp).1) hcall

theorem Sessions.kernel {k : Kernel} (I : Sessions n room fl e) : Sessions n room fl { e with kernel := k } :=
  I.rest (fun _ => rfl) rfl fun _ => ⟨rfl, rfl, rfl, rfl⟩

end Event

end QPHi
