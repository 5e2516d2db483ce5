import QPHi.Theorems.Event.Frame

/-! The calls for one source between its registration and its removal, as the caller of the event loop sees them: first
    `QP_EVENT_NEW`, then `QP_EVENT_PROCESS`, last `QP_EVENT_CLOSE`, and the write handler only where the read handler has
    just asked for it. -/

namespace QPHi
open Command

variable {p q : Ptr} {e e' e₀ : Event} {h : Handles} {ph : Phase}

/-- Where the calls for a source stand. -/
inductive Phase where
  /-- not registered -/
  | unused
  /-- the registration failed -/
  | refused
  /-- registered, and no handler was called yet -/
  | fresh
  /-- a handler was called and wants the source to go on -/
  | started
  /-- the read handler has just asked for the write handler -/
  | asked
  /-- a handler has refused the source, or was told that it is closed -/
  | ended
deriving DecidableEq, Repr

/-- A handler was called, and it is the turn of the read handler again. -/
def Phase.Waits (h : Handles) (ph : Phase) : Prop := ph = .started ∨ ph = .asked ∧ h.write = false

instance : Decidable (ph.Waits h) := inferInstanceAs (Decidable (_ ∨ _))

/-- The status of a source that the read handler may be called with. -/
def Phase.Fits (h : Handles) (ph : Phase) (stat : EventStat) : Prop := ph = .fresh ∧ stat = .new ∨ ph.Waits h ∧ stat = .process

instance {stat : EventStat} : Decidable (ph.Fits h stat) := inferInstanceAs (Decidable (_ ∨ _))

/-- The protocol for the source `p`: where its calls stand after one more call, if that call is allowed. A source is
    registered when it is not in use, and removed when it is; without a callback for the removal the calls do not tell. -/
def Phase.next (h : Handles) (p : Ptr) (ph : Phase) : Call → Option Phase
  | .add source result =>
    if source ≠ p then some ph
    else if ph = .unused ∨ h.del = false then some (if result = QP_ERROR then .refused else .fresh)
    else none
  | .del source =>
    if source ≠ p then some ph
    else if ph = .unused then none
    else some .unused
  | .readHandler source stat _ result =>
    if source ≠ p then some ph
    else if ph.Fits h stat then some (if result < 0 then .ended else if result > 0 then .asked else .started)
    else if stat = .close ∧ (ph = .fresh ∨ ph.Waits h) then some .ended
    else none
  | .writeHandler source stat _ _ result =>
    if source ≠ p then some ph
    else if ph = .asked ∧ stat = .process then some (if result < 0 then .ended else .started)
    else none
  | _ => some ph

/-- Where the calls stand after a trace, whose last call comes first; `none` if a call was not allowed. -/
def phases (h : Handles) (p : Ptr) : List Call → Option Phase
  | [] => some .unused
  | call :: trace => (phases h p trace).bind fun ph => ph.next h p call

/-- The source that a call of the protocol is about. -/
def Call.about : Call → Option Ptr
  | .add source _ => some source
  | .del source => some source
  | .readHandler source _ _ _ => some source
  | .writeHandler source _ _ _ _ => some source
  | _ => none

theorem Phase.next_other {call : Call} (hcall : call.about ≠ some p) : ph.next h p call = some ph := by
  have hne : ∀ {source : Ptr}, call.about = some source → source ≠ p := by
    rintro source habout rfl
    exact hcall habout
  cases call with
  | add source result => exact if_pos (hne rfl)
  | del source => exact if_pos (hne rfl)
  | readHandler source stat data result => exact if_pos (hne rfl)
  | writeHandler source stat size bytes result => exact if_pos (hne rfl)
  | _ => rfl

theorem phases_other {call : Call} {trace : List Call} (hcall : call.about ≠ some p) :
    phases h p (call :: trace) = phases h p trace := by
  show ((phases h p trace).bind fun ph => ph.next h p call) = _
  cases phases h p trace with
  | none => rfl
  | some ph => exact Phase.next_other hcall

theorem phases_cons {call : Call} {trace : List Call} (hph : phases h p trace = some ph) :
    phases h p (call :: trace) = ph.next h p call := by
  show ((phases h p trace).bind fun ph => ph.next h p call) = _
  rw [hph]
  rfl

namespace Event

/-! ### Commands that talk about one source only -/

/-- Since `e₀`, no other source than `p` was written, and no call was about another one. -/
structure Alone (p : Ptr) (e₀ e : Event) : Prop where
  handles : e.handles = e₀.handles
  source : ∀ q, q ≠ p → e.source q = e₀.source q
  phases : ∀ q, q ≠ p → phases e₀.handles q e.trace = phases e₀.handles q e₀.trace
  index : (e.source p).index = (e₀.source p).index

/-- The source `p` and the calls for it are as `K` says. -/
structure Talk (e₀ : Event) (p : Ptr) (K : Source → Phase → Prop) (e : Event) : Prop where
  alone : Alone p e₀ e
  allowed : ∃ ph, phases e₀.handles p e.trace = some ph ∧ K (e.source p) ph

theorem Alone.refl : Alone p e e := ⟨rfl, fun _ _ => rfl, fun _ _ => rfl, rfl⟩

theorem Alone.trans {e₁ : Event} (A : Alone p e₀ e₁) (B : Alone p e₁ e) : Alone p e₀ e := by
  have hphases := B.phases
  rw [A.handles] at hphases
  exact ⟨B.handles.trans A.handles, fun q hq => (B.source q hq).trans (A.source q hq),
    fun q hq => (hphases q hq).trans (A.phases q hq), B.index.trans A.index⟩

variable {K K' : Source → Phase → Prop}

theorem Talk.mono (T : Talk e₀ p K e) (hK : ∀ s ph, K s ph → K' s ph) : Talk e₀ p K' e := by
  obtain ⟨ph, hph, hs⟩ := T.allowed
  exact ⟨T.alone, ph, hph, hK _ _ hs⟩

theorem Talk.put {s : Source} (T : Talk e₀ p K e) (hindex : s.index = (e.source p).index)
    (hK : ∀ ph, K (e.source p) ph → K' s ph) : Talk e₀ p K' (e.putSource p s) := by
  obtain ⟨A, ph, hph, hs⟩ := T
  refine ⟨⟨A.handles, fun q hq => ?_, A.phases, ?_⟩, ph, hph, ?_⟩
  · rw [← A.source q hq]
    exact Function.update_of_ne hq _ _
  · rw [putSource_source, hindex]
    exact A.index
  · rw [putSource_source]
    exact hK ph hs

/-- One more call, about `p` or about no source. -/
theorem Talk.call {call : Call} (T : Talk e₀ p K e) (hcall : ∀ q, q ≠ p → call.about ≠ some q)
    (hK : ∀ ph, K (e.source p) ph → ∃ ph', ph.next e₀.handles p call = some ph' ∧ K' (e.source p) ph') :
    Talk e₀ p K' { e with trace := call :: e.trace } := by
  obtain ⟨A, ph, hph, hs⟩ := T
  obtain ⟨ph', hnext, hs'⟩ := hK ph hs
  exact ⟨⟨A.handles, A.source, fun q hq => (phases_other (hcall q hq)).trans (A.phases q hq), A.index⟩, ph',
    (phases_cons hph).trans hnext, hs'⟩

/-- What is neither a source nor a call changes. -/
theorem Talk.rest (T : Talk e₀ p K e) (htrace : e'.trace = e.trace) (hsource : e'.source = e.source)
    (hhandles : e'.handles = e.handles) : Talk e₀ p K e' := by
  obtain ⟨⟨hh, hs, hph, hi⟩, ph, hp, hK⟩ := T
  refine ⟨⟨hhandles.trans hh, ?_, ?_, ?_⟩, ph, ?_, ?_⟩
  · rwa [hsource]
  · rwa [htrace]
  · rwa [hsource]
  · rwa [htrace]
  · rwa [hsource]

/-- `K` speaks of the status, the shutdown flag and the `listen` flag of the source only. -/
def Tagged (K : Source → Phase → Prop) : Prop :=
  ∀ s s' ph, s'.stat = s.stat → s'.shutdown = s.shutdown → s'.listen = s.listen → K s ph → K s' ph

/-- A source may be shut down as well. -/
structure Lasting (K : Source → Phase → Prop) : Prop where
  keep : Tagged K
  down : ∀ s ph, K s ph → K { s with shutdown := true, stat := .close } ph

theorem setSource_talk {f : Source → Source} (hindex : ∀ s, (f s).index = s.index)
    (hK : ∀ s ph, K s ph → K' (f s) ph) : Fueled (Talk e₀ p K) (setSource p f) fun _ => Talk e₀ p K' :=
  fun e T => T.put (hindex (e.source p)) fun ph => hK _ ph

theorem getSource_talk : Fueled (Talk e₀ p K) (getSource p) fun s => Talk e₀ p fun s' ph => s' = s ∧ K s' ph :=
  fun _ T => ⟨T.alone, T.allowed.imp fun _ h => ⟨h.1, rfl, h.2⟩⟩

theorem handle_talk : Fueled (Talk e₀ p K) handle fun h e => h = e₀.handles ∧ Talk e₀ p K e :=
  fun _ T => ⟨T.alone.handles, T⟩

theorem reply_talk : Stays (Talk e₀ p K) reply := fun _ T => T.rest rfl rfl rfl

theorem store_talk (a n : Nat) (data : Nat → UInt8) : Stays (Talk e₀ p K) (store a n data) := fun _ T => T.rest rfl rfl rfl

/-- A call that is about no source. -/
theorem record_talk {call : Call} (hcall : call.about = none) : Stays (Talk e₀ p K) (record call) := by
  have hother : ∀ q, call.about ≠ some q := fun q => by
    rw [hcall]
    exact Option.some_ne_none q ∘ Eq.symm
  exact fun e T => T.call (fun q _ => hother q) fun ph hs => ⟨ph, Phase.next_other (hother p), hs⟩

theorem cacheAlloc_talk (size : Nat) : Stays (Talk e₀ p K) (cacheAlloc size) := by
  intro e T
  rw [cacheAlloc_eq]
  split
  · trivial
  · exact T.rest rfl rfl rfl

theorem cacheFree_talk (cache : Ptr) : Stays (Talk e₀ p K) (cacheFree cache) :=
  cacheFree_stays (fun _ _ _ T => T.rest rfl rfl rfl) cache

theorem sourceSetShutdown_talk (hp : p ≠ NULL) (hK : ∀ s ph, K s ph → K' { s with shutdown := true, stat := .close } ph) :
    Fueled (Talk e₀ p K) (sourceSetShutdown p) fun _ => Talk e₀ p K' :=
  Fueled.when (fun _ => setSource_talk (fun _ => rfl) hK) fun hnull => absurd hp hnull

theorem sourceFreeReadCache_talk (hK : ∀ s ph, K s ph → K { s with readCacheSize := 0, readCache := NULL } ph) :
    Stays (Talk e₀ p K) (sourceFreeReadCache p) := by
  refine (getSource_stays p).bind fun s => Stays.ite (Stays.pure _) ((cacheFree_talk _).bind fun _ => ?_)
  exact Stays.bind (setSource_talk (fun _ => rfl) hK) fun _ => Stays.pure _

/-- A loop with any fuel. -/
theorem loop_talk {α β : Type} {body : α → EventM (Next α β)} (hbody : ∀ a, Stays (Talk e₀ p K) (body a)) (fuel : Nat) (a : α) :
    Leaves (Talk e₀ p K) (loop body fuel a) fun _ => Talk e₀ p K := by
  refine Alike.loop (J := fun _ => Talk e₀ p K) (fun a => Alike.of_fueled ((hbody a).conseq (fun _ h => h) fun x _ h => ?_)) fuel a
  cases x with
  | again _ => exact h
  | done _ => exact h

namespace Lasting
variable (L : Lasting K)
include L

theorem setSource {f : Source → Source} (hindex : ∀ s, (f s).index = s.index)
    (hf : ∀ s, (f s).stat = s.stat ∧ (f s).shutdown = s.shutdown ∧ (f s).listen = s.listen) :
    Stays (Talk e₀ p K) (setSource p f) :=
  setSource_talk hindex fun s ph => L.keep _ _ ph (hf s).1 (hf s).2.1 (hf s).2.2

theorem sourceSetShutdown : Stays (Talk e₀ p K) (sourceSetShutdown p) :=
  Stays.when (setSource_talk (fun _ => rfl) L.down)

theorem sourceAllocReadCache : Stays (Talk e₀ p K) (sourceAllocReadCache p) := by
  refine (getSource_stays p).bind fun s => Stays.ite (Stays.pure _) ?_
  refine Stays.bind (L.setSource (fun _ => rfl) fun _ => ⟨rfl, rfl, rfl⟩) fun _ => (cacheAlloc_talk _).bind fun cache => ?_
  refine Stays.bind (L.setSource (fun _ => rfl) fun _ => ⟨rfl, rfl, rfl⟩) fun _ => Stays.ite ?_ (Stays.pure _)
  exact Stays.bind (L.setSource (fun _ => rfl) fun _ => ⟨rfl, rfl, rfl⟩) fun _ => Stays.pure _

theorem sourceFreeReadCache : Stays (Talk e₀ p K) (sourceFreeReadCache p) :=
  sourceFreeReadCache_talk fun _ _ => L.keep _ _ _ rfl rfl rfl

theorem sourceFreeWriteCache : Stays (Talk e₀ p K) (sourceFreeWriteCache p) := by
  refine (getSource_stays p).bind fun s => Stays.ite (Stays.pure _) ((cacheFree_talk _).bind fun _ => ?_)
  exact Stays.bind (L.setSource (fun _ => rfl) fun _ => ⟨rfl, rfl, rfl⟩) fun _ => Stays.pure _

theorem readRound (rest : Nat) : Stays (Talk e₀ p K) (readRound p rest) := by
  have hcall : ∀ buf k, Stays (Talk e₀ p K) (sysRead p buf k) := fun buf k =>
    reply_talk.bind fun _ => (store_talk _ _ _).bind fun _ => (record_talk rfl).bind fun _ => Stays.pure _
  refine (getSource_stays p).bind fun s => (hcall _ _).bind fun r => Stays.ite (Stays.ite ?_ (Stays.pure _)) ?_
  · exact L.sourceSetShutdown.bind fun _ => Stays.pure _
  · refine Stays.bind (L.setSource (fun _ => rfl) fun _ => ⟨rfl, rfl, rfl⟩) fun _ => (getSource_stays p).bind fun s => ?_
    refine Stays.ite ?_ (Stays.ite (Stays.pure _) (Stays.pure _))
    exact handle_stays.bind fun _ => (Stays.when (record_talk rfl)).bind fun _ => Stays.pure _

theorem writeRound (state : Nat × Int) : Stays (Talk e₀ p K) (writeRound p state) := by
  have hcall : ∀ buf k, Stays (Talk e₀ p K) (sysWrite p buf k) := fun buf k =>
    reply_talk.bind fun _ => Stays.get.bind fun _ => (record_talk rfl).bind fun _ => Stays.pure _
  refine (getSource_stays p).bind fun s => (hcall _ _).bind fun r => Stays.ite (Stays.ite ?_ ?_) ?_
  · refine L.sourceSetShutdown.bind fun _ => L.sourceFreeReadCache.bind fun _ => ?_
    exact Stays.bind (L.setSource (fun _ => rfl) fun _ => ⟨rfl, rfl, rfl⟩) fun _ => Stays.pure _
  · exact Stays.bind (L.setSource (fun _ => rfl) fun _ => ⟨rfl, rfl, rfl⟩) fun _ => Stays.pure _
  · refine Stays.ite ?_ (Stays.ite (Stays.pure _) (Stays.pure _))
    exact L.sourceFreeWriteCache.bind fun _ => Stays.pure _

theorem sourceRead (fuel : Nat) : Leaves (Talk e₀ p K) (sourceRead fuel p) fun _ => Talk e₀ p K := by
  have hget : Leaves (Talk e₀ p K) (getSource p) fun _ => Talk e₀ p K := Alike.of_fueled (getSource_stays p)
  have hpure : ∀ r : Nat, Leaves (Talk e₀ p K) (Pure.pure r : EventM Nat) fun _ => Talk e₀ p K := fun _ => Alike.pure fun _ h => h
  refine Alike.ite (fun _ => hpure _) fun _ => ?_
  refine Alike.bind (Alike.of_fueled (L.setSource (fun _ => rfl) fun _ => ⟨rfl, rfl, rfl⟩)) fun _ => hget.bind fun s => ?_
  refine Alike.ite (fun _ => ?_) fun _ => hget.bind fun _ => hpure _
  refine Alike.bind (Alike.of_fueled (L.setSource (fun _ => rfl) fun _ => ⟨rfl, rfl, rfl⟩)) fun _ => ?_
  refine (Alike.of_fueled L.sourceAllocReadCache).bind fun r => Alike.ite (fun _ => ?_) fun _ => ?_
  · exact (Alike.of_fueled L.sourceSetShutdown).bind fun _ => hpure _
  · refine hget.bind fun s => (loop_talk L.readRound fuel _).bind fun well => Alike.ite (fun _ => ?_) fun _ => hpure _
    exact hget.bind fun _ => hpure _

theorem sourceWrite (fuel : Nat) : Leaves (Talk e₀ p K) (sourceWrite fuel p) fun _ => Talk e₀ p K := by
  have hget : Leaves (Talk e₀ p K) (getSource p) fun _ => Talk e₀ p K := Alike.of_fueled (getSource_stays p)
  have hpure : ∀ r : Nat, Leaves (Talk e₀ p K) (Pure.pure r : EventM Nat) fun _ => Talk e₀ p K := fun _ => Alike.pure fun _ h => h
  refine hget.bind fun s => Alike.ite (fun _ => hpure _) fun _ => Alike.ite (fun _ => ?_) fun _ => hpure _
  refine Alike.bind (Alike.of_fueled (L.setSource (fun _ => rfl) fun _ => ⟨rfl, rfl, rfl⟩)) fun _ => ?_
  exact (loop_talk L.writeRound fuel _).bind fun sent => hpure _

end Lasting

/-! ### The handlers -/

/-- Between two turns the status of a source is the one its next call is made with; without a read handler there is none. -/
def Open (h : Handles) (s : Source) (ph : Phase) : Prop :=
  ph.Fits h s.stat ∨ h.read = false ∧ ph = .fresh ∧ s.stat = .process

/-- In a turn, before the read handler is called. -/
def Before (h : Handles) (s : Source) (ph : Phase) : Prop :=
  s.listen = false ∧
    (s.shutdown = false ∧ Open h s ph ∨ s.shutdown = true ∧ s.stat = .close ∧ (ph = .fresh ∨ ph.Waits h))

/-- The read handler has answered `ret`. -/
def Wants (h : Handles) (ret : Int) (ph : Phase) : Prop :=
  ret < 0 ∨ 0 < ret ∧ ph = .asked ∨ ret = 0 ∧ (ph.Waits h ∨ h.read = false ∧ ph = .fresh)

/-- The source is shut down, or it goes on with what the read handler has answered. -/
def Told (h : Handles) (ret : Int) (stats : EventStat → Prop) (s : Source) (ph : Phase) : Prop :=
  s.listen = false ∧ ph ≠ .unused ∧ (s.shutdown = true ∨ s.shutdown = false ∧ stats s.stat ∧ Wants h ret ph)

/-- The write handler is to be called. -/
def Asked (s : Source) (ph : Phase) : Prop := s.listen = false ∧ s.shutdown = false ∧ s.stat = .process ∧ ph = .asked

/-- At the end of a turn. -/
def Settled (h : Handles) (s : Source) (ph : Phase) : Prop :=
  s.listen = false ∧ ph ≠ .unused ∧ (s.shutdown = true ∨ s.shutdown = false ∧ Open h s ph)

theorem Phase.Waits.ne_unused (hph : ph.Waits h) : ph ≠ .unused := by
  rintro rfl
  rcases hph with hph | ⟨hph, -⟩
  · cases hph
  · cases hph

theorem Open.waits {s : Source} (ho : Open h s ph) : ph = .fresh ∨ ph.Waits h := by
  rcases ho with (⟨hph, -⟩ | ⟨hph, -⟩) | ⟨-, hph, -⟩
  · exact .inl hph
  · exact .inr hph
  · exact .inl hph

theorem Open.ne_unused {s : Source} (ho : Open h s ph) : ph ≠ .unused := by
  rcases ho.waits with rfl | hph
  · intro h
    cases h
  · exact Phase.Waits.ne_unused hph

theorem before_lasting : Lasting (Before h) := by
  refine ⟨fun s s' ph hstat hshut hlisten hb => ?_, fun s ph hb => ?_⟩
  · rw [Before, Open, hstat, hshut, hlisten]
    exact hb
  · refine ⟨hb.1, .inr ⟨rfl, rfl, ?_⟩⟩
    rcases hb.2 with ⟨-, ho⟩ | ⟨-, -, hph⟩
    · exact ho.waits
    · exact hph

theorem settled_lasting : Lasting (Settled h) := by
  refine ⟨fun s s' ph hstat hshut hlisten hs => ?_, fun s ph hs => ⟨hs.1, hs.2.1, .inl rfl⟩⟩
  rw [Settled, Open, hstat, hshut, hlisten]
  exact hs

theorem setSource_tagged {f : Source → Source} (hindex : ∀ s, (f s).index = s.index)
    (hf : ∀ s, (f s).stat = s.stat ∧ (f s).shutdown = s.shutdown ∧ (f s).listen = s.listen) (hK : Tagged K) :
    Stays (Talk e₀ p K) (setSource p f) :=
  setSource_talk hindex fun s ph => hK _ _ ph (hf s).1 (hf s).2.1 (hf s).2.2

/-- The read handler is called with the status that the protocol wants, and its answer decides what comes next. -/
theorem readHandler_talk : Fueled (Talk e₀ p fun s ph => s.writeCache = NULL ∧ Before e₀.handles s ph) (readHandler p)
    fun ret => Talk e₀ p fun s ph => s.writeCache = NULL ∧
      Told e₀.handles ret (fun stat => stat = .new ∨ stat = .process) s ph := by
  refine handle_talk.bind fun h => Fueled.given fun hh => ?_
  subst hh
  refine Fueled.ite (fun _ => ?_) fun hread => Fueled.pure fun e T => T.mono fun s ph hs => ?_
  · refine Fueled.bind reply_talk fun r => getSource_talk.bind fun s => Fueled.bind Stays.get fun e => ?_
    refine Fueled.bind (R := fun _ => Talk e₀ p fun s ph => s.writeCache = NULL ∧
      Told e₀.handles r.result (fun stat => stat = .new ∨ stat = .process) s ph) (fun e T => ?_) fun _ => Fueled.pure fun _ h => h
    refine T.call (fun q hq heq => hq (Option.some.inj heq).symm) fun ph hs => ?_
    obtain ⟨rfl, hnull, hlisten, hb⟩ := hs
    rw [Phase.next, if_neg (not_not.mpr rfl)]
    rcases hb with ⟨hshut, ho⟩ | ⟨hshut, hstat, hph⟩
    · have hfits : ph.Fits e₀.handles (e.source p).stat := ho.resolve_right fun hno => by simp_all
      have hstat : (e.source p).stat = .new ∨ (e.source p).stat = .process := hfits.imp And.right And.right
      rw [if_pos hfits]
      refine ⟨_, rfl, hnull, hlisten, ?_, .inr ⟨hshut, hstat, ?_⟩⟩
      · split
        · intro h
          cases h
        · split
          · intro h
            cases h
          · intro h
            cases h
      · rcases Int.lt_trichotomy r.result 0 with hneg | hzero | hpos
        · exact .inl hneg
        · rw [if_neg (by omega), if_neg (by omega)]
          exact .inr (.inr ⟨hzero, .inl (.inl rfl)⟩)
        · rw [if_neg (by omega), if_pos hpos]
          exact .inr (.inl ⟨hpos, rfl⟩)
    · have hfits : ¬ph.Fits e₀.handles (e.source p).stat := by
        rw [hstat]
        rintro (⟨-, hclose⟩ | ⟨-, hclose⟩)
        · cases hclose
        · cases hclose
      rw [if_neg hfits, if_pos ⟨hstat, hph⟩]
      exact ⟨.ended, rfl, hnull, hlisten, fun h => Phase.noConfusion h, .inl hshut⟩
  · -- Without a read handler the source goes on as it is.
    obtain ⟨hnull, hlisten, hb⟩ := hs
    refine ⟨hnull, hlisten, ?_⟩
    rcases hb with ⟨hshut, ho⟩ | ⟨hshut, -, hph⟩
    · refine ⟨ho.ne_unused, .inr ⟨hshut, ?_, .inr (.inr ⟨rfl, ?_⟩)⟩⟩
      · rcases ho with (⟨-, hstat⟩ | ⟨-, hstat⟩) | ⟨-, -, hstat⟩
        · exact .inl hstat
        · exact .inr hstat
        · exact .inr hstat
      · exact ho.waits.elim (fun hph => .inr ⟨Bool.not_eq_true _ ▸ hread, hph⟩) .inl
    · refine ⟨?_, .inl hshut⟩
      rcases hph with rfl | hph
      · intro h
        cases h
      · exact Phase.Waits.ne_unused hph

/-- A write cache is there just when the call succeeds. -/
theorem sourceAllocWriteCache_talk (hK : Tagged K) :
    Fueled (Talk e₀ p fun s ph => s.writeCache = NULL ∧ K s ph) (sourceAllocWriteCache p) fun r =>
      Talk e₀ p fun s ph => (r = QP_ERROR ↔ s.writeCache = NULL) ∧ K s ph := by
  refine getSource_talk.bind fun s => Fueled.ite (fun _ => Fueled.pure fun e T => T.mono fun s' ph hs => ?_) fun _ => ?_
  · exact ⟨⟨fun _ => hs.2.1, fun _ => rfl⟩, hs.2.2⟩
  refine Fueled.bind (R := fun _ => Talk e₀ p K) (setSource_talk (fun _ => rfl) fun s' ph hs => ?_) fun _ => ?_
  · exact hK s' _ ph rfl rfl rfl hs.2.2
  refine Fueled.bind (cacheAlloc_talk _) fun cache => ?_
  refine Fueled.bind (R := fun _ => Talk e₀ p fun s ph => s.writeCache = cache ∧ K s ph)
    (setSource_talk (fun _ => rfl) fun s' ph hs => ⟨rfl, hK s' _ ph rfl rfl rfl hs⟩) fun _ => Fueled.ite (fun hnull => ?_) fun hsome => ?_
  · refine Fueled.bind (R := fun _ => Talk e₀ p fun s ph => s.writeCache = NULL ∧ K s ph)
      (setSource_talk (fun _ => rfl) fun s' ph hs => ?_) fun _ => ?_
    · exact ⟨hs.1.trans hnull, hK s' _ ph rfl rfl rfl hs.2⟩
    · exact Fueled.pure fun e T => T.mono fun s' ph hs => ⟨⟨fun _ => hs.1, fun _ => rfl⟩, hs.2⟩
  · refine Fueled.pure fun e T => T.mono fun s' ph hs => ⟨⟨fun hr => absurd hr (by decide), fun hnull => ?_⟩, hs.2⟩
    exact absurd (hs.1.symm.trans hnull) hsome

/-- The read handler is called, and a write cache is there only if it has asked for one. -/
theorem processRead_talk (hp : p ≠ NULL) :
    Fueled (Talk e₀ p fun s ph => s.writeCache = NULL ∧ Before e₀.handles s ph) (processRead p) fun _ =>
      Talk e₀ p fun s ph => s.writeCache = NULL ∧ Settled e₀.handles s ph ∨ s.writeCache ≠ NULL ∧ Asked s ph := by
  refine readHandler_talk.bind fun ret => Fueled.bind (sourceFreeReadCache_talk fun _ _ hs => hs) fun _ => ?_
  have hnew : ∀ s : Source, Fueled
      (Talk e₀ p fun s' ph => s' = s ∧ s'.writeCache = NULL ∧
        Told e₀.handles ret (fun stat => stat = .new ∨ stat = .process) s' ph)
      (when (s.stat = .new ∧ ret > QP_ERROR) (setSource p fun s => { s with stat := .process }))
      fun _ => Talk e₀ p fun s ph => s.writeCache = NULL ∧ Told e₀.handles ret (fun stat => ret < 0 ∨ stat = .process) s ph := by
    refine fun s => Fueled.when (fun _ => setSource_talk (fun _ => rfl) fun s' ph hs => ?_) fun hold e T => T.mono fun s' ph hs => ?_
    · obtain ⟨-, hnull, hlisten, hph, hon⟩ := hs
      exact ⟨hnull, hlisten, hph, hon.imp_right fun hon => ⟨hon.1, .inr rfl, hon.2.2⟩⟩
    · obtain ⟨rfl, hnull, hlisten, hph, hon⟩ := hs
      refine ⟨hnull, hlisten, hph, hon.imp_right fun hon => ⟨hon.1, ?_, hon.2.2⟩⟩
      rcases hon.2.1 with hstat | hstat
      · have hret : ¬ret > QP_ERROR := fun hret => hold ⟨hstat, hret⟩
        rw [QP_ERROR] at hret
        exact .inl (by omega)
      · exact .inr hstat
  have hshut : Fueled
      (Talk e₀ p fun s ph => s.writeCache = NULL ∧ Told e₀.handles ret (fun stat => ret < 0 ∨ stat = .process) s ph)
      (when (ret < 0) (sourceSetShutdown p))
      fun _ => Talk e₀ p fun s ph => s.writeCache = NULL ∧ Told e₀.handles ret (fun stat => 0 ≤ ret ∧ stat = .process) s ph := by
    refine Fueled.when (fun _ => sourceSetShutdown_talk hp fun s ph hs => ?_) fun hret e T => T.mono fun s ph hs => ?_
    · exact ⟨hs.1, hs.2.1, hs.2.2.1, .inl rfl⟩
    · obtain ⟨hnull, hlisten, hph, hon⟩ := hs
      refine ⟨hnull, hlisten, hph, hon.imp_right fun hon => ⟨hon.1, ⟨Int.not_lt.mp hret, hon.2.1.resolve_left hret⟩, hon.2.2⟩⟩
  refine getSource_talk.bind fun s => (hnew s).bind fun _ => hshut.bind fun _ => getSource_talk.bind fun s => ?_
  refine handle_talk.bind fun h => Fueled.given fun hh => ?_
  subst hh
  refine Fueled.when (fun hask => ?_) fun hskip e T => T.mono fun s' ph hs => ?_
  · have hasked : ∀ s' ph, s' = s ∧ s'.writeCache = NULL ∧ Told e₀.handles ret (fun stat => 0 ≤ ret ∧ stat = .process) s' ph →
        s'.writeCache = NULL ∧ Asked s' ph := by
      rintro s' ph ⟨rfl, hnull, hlisten, -, hon⟩
      have hon := hon.resolve_left fun hshut => by simp [hshut] at hask
      refine ⟨hnull, hlisten, hon.1, hon.2.1.2, ?_⟩
      rcases hon.2.2 with hret | ⟨-, hph⟩ | ⟨hret, -⟩
      · exact absurd hret (Int.not_lt.mpr hon.2.1.1)
      · exact hph
      · exact absurd hret (Int.ne_of_gt hask.1)
    have htagged : Tagged Asked := fun s s' ph hstat hshut hlisten hs => by
      rw [Asked, hstat, hshut, hlisten]
      exact hs
    refine Fueled.bind ((sourceAllocWriteCache_talk htagged).conseq (fun e T => T.mono hasked) fun _ _ h => h) fun r => ?_
    refine Fueled.when (fun hr => sourceSetShutdown_talk hp fun s ph hs => ?_) fun hr e T => T.mono fun s ph hs => ?_
    · refine .inl ⟨hs.1.mp hr, hs.2.1, ?_, .inl rfl⟩
      rw [hs.2.2.2.2]
      intro h
      cases h
    · exact .inr ⟨fun hnull => hr (hs.1.mpr hnull), hs.2⟩
  · obtain ⟨rfl, hnull, hlisten, hph, hon⟩ := hs
    refine .inl ⟨hnull, hlisten, hph, hon.imp_right fun hon => ⟨hon.1, ?_⟩⟩
    obtain ⟨hup, ⟨hret, hstat⟩, hneg | ⟨hpos, hph⟩ | ⟨-, hph | ⟨hread, hph⟩⟩⟩ := hon
    · exact absurd hneg (Int.not_lt.mpr hret)
    · -- Nobody is there to fill a write cache.
      have hwrite : ¬e₀.handles.write = true := fun hwrite => hskip ⟨hpos, by rw [hup]; rfl, hwrite⟩
      exact .inl (.inr ⟨.inr ⟨hph, Bool.not_eq_true _ ▸ hwrite⟩, hstat⟩)
    · exact .inl (.inr ⟨hph, hstat⟩)
    · exact .inr ⟨hread, hph, hstat⟩

/-- The write handler is called when the read handler has asked for it. -/
theorem processWrite_talk (hp : p ≠ NULL) :
    Fueled (Talk e₀ p Asked) (processWrite p) fun _ => Talk e₀ p (Settled e₀.handles) := by
  have hhandler : Fueled (Talk e₀ p Asked) (writeHandler p) fun ret => Talk e₀ p fun s ph =>
      s.listen = false ∧ s.shutdown = false ∧ s.stat = .process ∧ ph = if ret < 0 then .ended else .started := by
    refine handle_talk.bind fun h => Fueled.given fun _ => Fueled.ite (fun _ => ?_) fun _ => Fueled.stuck
    refine Fueled.bind reply_talk fun r => getSource_talk.bind fun s => Fueled.bind (store_talk _ _ _) fun _ => ?_
    refine Fueled.bind (R := fun _ => Talk e₀ p fun s' ph => s'.stat = s.stat ∧ Asked s' ph)
      (setSource_talk (fun _ => rfl) fun s' ph hs => ?_) fun _ => ?_
    · obtain ⟨rfl, hs⟩ := hs
      exact ⟨rfl, hs⟩
    refine Fueled.bind (R := fun _ => Talk e₀ p fun s ph => s.listen = false ∧ s.shutdown = false ∧ s.stat = .process ∧
      ph = if r.result < 0 then .ended else .started) (fun e T => ?_) fun _ => Fueled.pure fun _ h => h
    refine T.call (fun q hq heq => hq (Option.some.inj heq).symm) fun ph hs => ?_
    obtain ⟨hstat, hlisten, hshut, hproc, hph⟩ := hs
    rw [Phase.next, if_neg (not_not.mpr rfl), if_pos ⟨hph, hstat ▸ hproc⟩]
    exact ⟨_, rfl, hlisten, hshut, hproc, rfl⟩
  refine hhandler.bind fun ret => Fueled.ite (fun hneg => ?_) fun hret => ?_
  · refine Fueled.bind (R := fun _ => Talk e₀ p (Settled e₀.handles)) (sourceSetShutdown_talk hp fun s ph hs => ?_) fun _ => ?_
    · refine ⟨hs.1, ?_, .inl rfl⟩
      rw [hs.2.2.2, if_pos (by omega)]
      intro h
      cases h
    · exact Fueled.bind settled_lasting.sourceFreeWriteCache fun _ => Fueled.pure fun _ h => h
  · refine handle_talk.bind fun h => Fueled.given fun _ => Fueled.bind (Stays.when (record_talk rfl)) fun _ => ?_
    refine Fueled.conseq
      (Stays.when (setSource_tagged (K := Settled e₀.handles) (fun _ => rfl) (fun _ => ⟨rfl, rfl, rfl⟩) settled_lasting.keep))
      (fun e T => T.mono fun s ph hs => ?_) fun _ _ h => h
    obtain ⟨hlisten, hshut, hstat, hph⟩ := hs
    rw [if_neg (by omega)] at hph
    subst hph
    exact ⟨hlisten, fun h => Phase.noConfusion h, .inr ⟨hshut, .inl (.inr ⟨.inl rfl, hstat⟩)⟩⟩

/-! ### Removing a source -/

/-- The calls for a source that has been removed. -/
def Removed (h : Handles) (ph : Phase) : Prop := ph = .unused ∨ h.del = false

theorem removeevent_talk (hp : p ≠ NULL) (hne : ∀ s ph, K s ph → ph ≠ .unused) :
    Fueled (Talk e₀ p K) (removeevent p) fun _ =>
      Talk e₀ p fun s ph => (∃ s' ph', K s' ph' ∧ s'.shutdown = s.shutdown) ∧ Removed e₀.handles ph := by
  obtain ⟨K', hK'⟩ : ∃ K', K' = fun (s : Source) (ph : Phase) =>
      (∃ s' ph', K s' ph' ∧ s'.shutdown = s.shutdown) ∧ Removed e₀.handles ph := ⟨_, rfl⟩
  rw [← hK']
  have hset : ∀ {f : Source → Source}, (∀ s, (f s).index = s.index) → (∀ s, (f s).shutdown = s.shutdown) →
      Stays (Talk e₀ p K') (setSource p f) := by
    intro f hindex hshut
    refine setSource_talk hindex fun s ph hs => ?_
    rw [hK'] at hs ⊢
    obtain ⟨⟨s', ph', hs', heq⟩, hph⟩ := hs
    exact ⟨⟨s', ph', hs', heq.trans (hshut s).symm⟩, hph⟩
  refine Fueled.ite (fun hnull => absurd hnull hp) fun _ => handle_talk.bind fun h => Fueled.given fun hh => ?_
  subst hh
  refine Fueled.bind (R := fun _ => Talk e₀ p K') (Fueled.when (fun _ e T => ?_) fun hdel e T => ?_) fun _ => ?_
  · refine T.call (fun q hq heq => hq (Option.some.inj heq).symm) fun ph hs => ⟨.unused, ?_, ?_⟩
    · rw [Phase.next, if_neg (not_not.mpr rfl), if_neg (hne _ _ hs)]
    · rw [hK']
      exact ⟨⟨_, _, hs, rfl⟩, .inl rfl⟩
  · refine T.mono fun s ph hs => ?_
    rw [hK']
    exact ⟨⟨s, ph, hs, rfl⟩, .inr (Bool.not_eq_true _ ▸ hdel)⟩
  have hclose : Stays (Talk e₀ p K') (sourceClose p) := by
    refine Stays.ite (Stays.pure _) ((getSource_stays p).bind fun s => Stays.bind (Stays.when ?_) fun _ => ?_)
    · exact Stays.bind (fun e T => T.rest rfl rfl rfl) fun _ => record_talk rfl
    · exact Stays.bind (hset (fun _ => rfl) fun _ => rfl) fun _ => Stays.pure _
  have hread : Stays (Talk e₀ p K') (sourceFreeReadCache p) := by
    refine (getSource_stays p).bind fun s => Stays.ite (Stays.pure _) ((cacheFree_talk _).bind fun _ => ?_)
    exact Stays.bind (hset (fun _ => rfl) fun _ => rfl) fun _ => Stays.pure _
  have hwrite : Stays (Talk e₀ p K') (sourceFreeWriteCache p) := by
    refine (getSource_stays p).bind fun s => Stays.ite (Stays.pure _) ((cacheFree_talk _).bind fun _ => ?_)
    exact Stays.bind (hset (fun _ => rfl) fun _ => rfl) fun _ => Stays.pure _
  refine Fueled.bind hclose fun _ => Fueled.bind hread fun _ => Fueled.bind hwrite fun _ => ?_
  exact Fueled.bind (R := fun _ => Talk e₀ p K') (fun e T => T.rest rfl rfl rfl) fun _ => Fueled.pure fun _ h => h

end Event

end QPHi
