import QPHi.Theorems.Event.Receive
import QPHi.Theorems.Event.Turn
import QPHi.Theorems.Pool.Failure

/-! Acting on what the kernel reports: for which sources `qp_event_dispatch_queue` reads, writes and removes what it is
    asked to, whatever `read`, `write` and the handlers answer. -/

namespace QPHi
open Command

variable {n count room x elm : Nat} {fl out : List Nat} {p : Ptr} {fuel : Nat} {e e' : Event} {r : Reply}

/-- The two blocks that a manager of caches asks for are free. -/
structure Grantable (count : Nat) (elm room : Ptr) (h : Heap) : Prop where
  first : h.Fresh (elmBlock elm)
  second : Heap.Fresh { h with live := elmBlock elm :: h.live } (roomBlock readcacheSize count room)

theorem Grantable.shrinks {h h' : Heap} (hsub : h'.live ⊆ h.live) (G : Grantable count elm room h) : Grantable count elm room h' := by
  refine ⟨⟨G.first.1, G.first.2.1, fun b hb => G.first.2.2 b (hsub hb)⟩, ⟨G.second.1, G.second.2.1, fun b hb => ?_⟩⟩
  rcases List.mem_cons.mp hb with rfl | hb
  · exact G.second.2.2 _ List.mem_cons_self
  · exact G.second.2.2 b (List.mem_cons_of_mem _ (hsub hb))

namespace Event

theorem Grantable.grants (hfits : Fits count) (hcount : 1 ≤ count) (L : e.Lends count out)
    (G : Grantable count (e.replies e.clock).elm (e.replies e.clock).room e.caches) : e.Grants := by
  obtain ⟨g, M, -⟩ := L
  intro cache e' hrun
  obtain ⟨h', c, hcall, hnull, -⟩ := M.failsForReason hfits hcount (e.replies e.clock).elm (e.replies e.clock).room readcacheSize
  rw [cacheAlloc_eq, hcall] at hrun
  obtain ⟨rfl, -⟩ := Prod.mk.inj (Except.ok.inj hrun)
  intro hcache
  rcases hnull.mp hcache with hbig | hrefused
  · exact Nat.lt_irrefl _ hbig
  · exact ((M.refused_iff hfits).mp hrefused).2 ⟨G.first, G.second⟩

/-! ### A source that is read -/

theorem putSource_putSource (s s' : Source) : (e.putSource p s).putSource p s' = e.putSource p s' := by
  unfold putSource
  simp only [Function.update_idem]

/-- The source `p` has got a read cache. -/
def readied (p : Ptr) (caches : Heap) (cache : Ptr) (e : Event) : Event :=
  { e with caches := caches, clock := e.clock + 1 }.putSource p
    { e.source p with readCacheSize := readcacheSize, readCache := cache }

theorem sourceAllocReadCache_grants (hp : p ≠ NULL) (hnull : (e.source p).readCache = NULL) (G : e.Grants) :
    Settles (fun r s => r = QP_SUCCESS ∧ ∃ caches cache, s = e.readied p caches cache) (sourceAllocReadCache p e) := by
  unfold sourceAllocReadCache
  rw [run_bind getSource_run, if_neg (not_or.mpr ⟨hp, not_not.mpr hnull⟩), run_bind (setSource_run _)]
  obtain ⟨e₁, he₁⟩ : ∃ e₁, e₁ = e.putSource p { e.source p with readCacheSize := readcacheSize } := ⟨_, rfl⟩
  rw [← he₁]
  have hgrant : Fueled (fun s => s = e₁) (cacheAlloc readcacheSize) fun cache s =>
      cache ≠ NULL ∧ ∃ caches, s = { e₁ with caches := caches, clock := e₁.clock + 1 } := by
    rintro s rfl
    have hgrants : s.Grants := he₁ ▸ G.putSource _
    cases hrun : cacheAlloc readcacheSize s with
    | error halt =>
      rw [cacheAlloc_eq] at hrun
      split at hrun
      next =>
        cases hrun
        trivial
      next => cases hrun
    | ok st =>
      refine ⟨hgrants _ _ hrun, ?_⟩
      rw [cacheAlloc_eq] at hrun
      split at hrun
      next => cases hrun
      next caches cache hcall =>
        cases hrun
        exact ⟨caches, rfl⟩
  refine Fueled.bind hgrant (fun cache => ?_) e₁ rfl
  rintro _ ⟨hcache, caches, rfl⟩
  rw [run_bind (setSource_run _), if_neg hcache]
  refine ⟨rfl, caches, cache, ?_⟩
  rw [he₁, readied]
  simp only [putSource, Function.update_self, Function.update_idem]

/-- A call of `qp_event_source_read` that gets a cache. -/
theorem sourceRead_goes {J : Nat → Event → Prop} {Q : Event → Prop} (hp : p ≠ NULL) (hread : (e.source p).read = true)
    (hnull : (e.source p).readCache = NULL) (G : e.Grants)
    (hstart : ∀ caches cache, J readcacheSize (readied p caches cache
      (e.putSource p { e.source p with readCacheOffset := 0, read := false })))
    (hround : ∀ rest, Fueled (J rest) (readRound p rest) (Next.Either J fun _ => Q)) (hfuel : 2 ^ 64 ≤ fuel) :
    Settles (fun _ => Q) (sourceRead fuel p e) := by
  obtain ⟨e₁, he₁⟩ : ∃ e₁, e₁ = e.putSource p { e.source p with readCacheOffset := 0, read := false } := ⟨_, rfl⟩
  have halloc : Fueled (fun s => s = e₁) (sourceAllocReadCache p) fun r s => r = QP_SUCCESS ∧
      subWord (s.source p).readCacheSize (s.source p).readCacheOffset = readcacheSize ∧ J readcacheSize s := by
    rintro s rfl
    have hcache : (s.source p).readCache = NULL := by
      rw [he₁, putSource_source]
      exact hnull
    refine (sourceAllocReadCache_grants hp hcache (he₁ ▸ G.putSource _)).mono fun r s' h => ?_
    obtain ⟨hr, caches, cache, rfl⟩ := h
    refine ⟨hr, ?_, he₁ ▸ hstart caches cache⟩
    rw [readied, putSource_source, he₁, putSource_source]
    exact (by decide : subWord readcacheSize 0 = readcacheSize)
  unfold sourceRead
  rw [if_neg hp, run_bind (setSource_run _), run_bind getSource_run, putSource_source, if_pos hread, run_bind (setSource_run _),
    putSource_source, putSource_putSource, ← he₁]
  refine Fueled.bind halloc (fun ret => ?_) e₁ rfl
  rintro s ⟨hret, hsize, hJ⟩
  have hgot : ¬ret = QP_ERROR := by
    rw [hret]
    decide
  rw [if_neg hgot, run_bind getSource_run, hsize]
  have hlt : readcacheSize < fuel := Nat.lt_of_lt_of_le (by decide) hfuel
  refine Fueled.bind (Fueled.loop_within readRound_lowers hround hlt _) (fun well => ?_) s ⟨⟨rfl, hsize.symm⟩, hJ⟩
  exact Fueled.ite (fun _ => Fueled.bind (getSource_stays p) fun _ => Fueled.pure fun _ h => h) fun _ => Fueled.pure fun _ h => h

theorem readRound_calls (m : Nat) (rest : Nat) : Fueled (fun e => m ≤ e.calls (Call.isRead p)) (readRound p rest)
    (Next.Either (fun _ e => m ≤ e.calls (Call.isRead p)) fun _ e => m < e.calls (Call.isRead p)) := by
  rw [readRound_eq]
  refine Fueled.bind (getSource_stays p) fun s => round_called (fun e h => ⟨_, _, ?_, h, rfl⟩) fun r => ?_
  · simp [Call.isRead]
  · exact (frame_called p (Call.isRead p) m).readAnswer (fun _ => trivial) r

/-- A source without a read cache is read, whatever is reported. -/
theorem dispatchSource_reads (hp : p ≠ NULL) (hclear : (e.source p).Clear) (hin : ¬(e.source p).Reports EPOLL_IN)
    (hnull : (e.source p).readCache = NULL) (G : e.Grants) (hfuel : 2 ^ 64 ≤ fuel) :
    Settles (fun _ s => e.calls (Call.isRead p) < s.calls (Call.isRead p)) (dispatchSource fuel p e) := by
  obtain ⟨r, hoff⟩ := sourceWrite_off fuel hclear hin
  refine dispatchSource_settles (R := fun s => s = e.putSource p (e.source p).marked) hclear ?_ ?_
    ((frame_called p (Call.isRead p) _).finishTurn quiet_down)
  · rw [hoff]
    rfl
  · rintro s rfl
    refine sourceRead_goes hp ?_ ?_ (G.putSource _) (fun _ _ => Nat.le_refl _) (readRound_calls _) hfuel
    all_goals rw [putSource_source]
    · exact (e.source p).marked_flags.2.1
    · exact hnull

/-! ### A source that stays -/

/-- With the answer `r` to every call, a call that asks for `k` bytes shuts nothing down; `writeClose` is the flag of the
    source, if the call is a `write`. -/
def Gentle (r : Reply) (writeClose : Bool) (k : Nat) : Prop :=
  (r.count < 0 ∧ r.retry = true ∧ writeClose = false) ∨ (0 < r.count ∧ 1 ≤ k)

/-- What such a call returns. -/
def Mild (r : Reply) (writeClose : Bool) (ret : Int × Bool) : Prop :=
  (ret.1 < 0 ∧ ret.2 = true ∧ writeClose = false) ∨ (0 < r.count ∧ 1 ≤ ret.1)

/-- A call that fails as `r` says, and gets something through when it is asked for something. -/
theorem Gentle.mild {c : Bool} {k : Nat} {n : Int} (G : Gentle r c k) (hneg : r.count < 0 → n < 0)
    (hpos : 0 < r.count → 1 ≤ k → 1 ≤ n) : Mild r c (n, r.retry) := by
  rcases G with ⟨hless, hretry, hclose⟩ | ⟨hmore, hk⟩
  · exact .inl ⟨hneg hless, hretry, hclose⟩
  · exact .inr ⟨hmore, hpos hmore hk⟩

theorem sysWrite_mild {K : Heap → Prop} {Q : Source → Prop} {c : Bool} {k : Nat} (G : Gentle r c k) (buf : Nat) :
    Fueled (Holds (fun _ => r) K Q p) (sysWrite p buf k) fun ret e => Mild r c ret ∧ Holds (fun _ => r) K Q p e := by
  intro e h
  refine ⟨?_, h.source, h.replies, h.caches⟩
  simp only [h.replies]
  exact G.mild (fun hless => by omega) fun hmore hk => by omega

theorem sysRead_mild {K : Heap → Prop} {Q : Source → Prop} {c : Bool} {k : Nat} (G : Gentle r c k) (buf : Nat) :
    Fueled (Holds (fun _ => r) K Q p) (sysRead p buf k) fun ret e => Mild r c ret ∧ Holds (fun _ => r) K Q p e := by
  intro e h
  refine ⟨?_, h.source, h.replies, h.caches⟩
  simp only [h.replies]
  exact G.mild (fun hless => by omega) fun hmore hk => by omega

/-- Before the read of a turn, with nothing that shuts the source down. -/
structure Calm (writeClose : Bool) (s : Source) : Prop where
  up : s.shutdown = false
  read : s.read = true
  readCache : s.readCache = NULL
  writeClose : s.writeClose = writeClose

theorem writeRound_calm {c : Bool} (state : Nat × Int) :
    Fueled (fun e => Gentle r c (unsigned state.2) ∧ Holds (fun _ => r) (Grantable count r.elm r.room) (Calm c) p e)
      (writeRound p state) (Next.Either
        (fun state' e => Gentle r c (unsigned state'.2) ∧ Holds (fun _ => r) (Grantable count r.elm r.room) (Calm c) p e)
        fun _ => Holds (fun _ => r) (Grantable count r.elm r.room) (Calm c) p) := by
  have hK : ∀ h h' : Heap, h'.live ⊆ h.live → Grantable count r.elm r.room h → Grantable count r.elm r.room h' :=
    fun _ _ hsub G => G.shrinks hsub
  rw [writeRound_eq]
  refine Fueled.given fun G => ?_
  have hknow : Fueled (Holds (fun _ => r) (Grantable count r.elm r.room) (Calm c) p) (getSource p)
      fun s e => s.writeClose = c ∧ Holds (fun _ => r) (Grantable count r.elm r.room) (Calm c) p e :=
    fun e h => ⟨h.source.writeClose, h⟩
  refine hknow.bind fun s => Fueled.given fun hclose => (sysWrite_mild G _).bind fun ret => Fueled.given fun M => ?_
  refine Fueled.ite (fun hnone => ?_) fun hsome => ?_
  · obtain ⟨hneg, hretry, hkeep⟩ := M.resolve_right fun h => absurd h.2 (by omega)
    refine Fueled.ite (fun hshut => ?_) fun _ => ?_
    · rw [hretry, hclose, hkeep] at hshut
      rcases hshut with hzero | hfalse | hfalse
      · omega
      · cases hfalse
      · cases hfalse
    · refine Fueled.bind (setSource_holds fun s h => ?_) fun _ => Fueled.pure fun _ h => h
      exact ⟨h.up, h.read, h.readCache, h.writeClose⟩
  · obtain ⟨hpos, -⟩ := M.resolve_left fun h => hsome (by omega)
    refine Fueled.ite (fun _ => ?_) fun hmore => Fueled.ite (fun _ => ?_) fun _ => Fueled.pure fun _ h => h
    · refine Fueled.bind (sourceFreeWriteCache_holds hK fun s h => ?_) fun _ => Fueled.pure fun _ h => h
      exact ⟨h.up, h.read, h.readCache, h.writeClose⟩
    · refine Fueled.pure fun e h => ⟨.inr ⟨hpos, ?_⟩, h⟩
      rw [unsigned_signed (subWord_lt _ _)]
      refine Nat.pos_of_ne_zero fun hzero => hmore ?_
      rw [hzero]
      decide

theorem sourceWrite_calm {c : Bool} (hp : p ≠ NULL)
    (hgentle : (e.source p).writeCache = NULL ∨
      Gentle r c (subWord (e.source p).writeCacheOffset (e.source p).writeCacheCurOffset))
    (H : Holds (fun _ => r) (Grantable count r.elm r.room) (Calm c) p e) (hfuel : 2 ^ 64 ≤ fuel) :
    Settles (fun _ => Holds (fun _ => r) (Grantable count r.elm r.room) (Calm c) p) (sourceWrite fuel p e) := by
  by_cases hidle : (e.source p).writeCache = NULL ∨ (e.source p).write = false
  · obtain ⟨ret, hrun⟩ := sourceWrite_idle fuel hidle
    rw [hrun]
    exact H
  obtain ⟨hcache, hwrite⟩ := not_or.mp hidle
  refine sourceWrite_goes hp hcache (Bool.not_eq_false _ ▸ hwrite) ⟨?_, ?_⟩ writeRound_calm hfuel
  · rw [unsigned_signed (subWord_lt _ _)]
    exact hgentle.resolve_left hcache
  · refine ⟨?_, H.replies, H.caches⟩
    rw [putSource_source]
    exact ⟨H.source.up, H.source.read, H.source.readCache, H.source.writeClose⟩

/-- The source is not to be removed. -/
def Up (s : Source) : Prop := s.shutdown = false

theorem readRound_calm (rest : Nat) : Fueled (fun e => Gentle r false rest ∧ Holds (fun _ => r) (fun _ => True) Up p e)
    (readRound p rest) (Next.Either (fun rest' e => Gentle r false rest' ∧ Holds (fun _ => r) (fun _ => True) Up p e)
      fun _ => Holds (fun _ => r) (fun _ => True) Up p) := by
  rw [readRound_eq]
  refine Fueled.given fun G => Fueled.bind (getSource_stays p) fun s => (sysRead_mild G _).bind fun ret => Fueled.given fun M => ?_
  refine Fueled.ite (fun hnone => ?_) fun hsome => ?_
  · obtain ⟨hneg, hretry, -⟩ := M.resolve_right fun h => absurd h.2 (by omega)
    refine Fueled.ite (fun hshut => ?_) fun _ => Fueled.pure fun _ h => h
    rw [hretry] at hshut
    rcases hshut with hzero | hfalse
    · omega
    · cases hfalse
  · obtain ⟨hpos, -⟩ := M.resolve_left fun h => hsome (by omega)
    have hset : ∀ k, Stays (Holds (fun _ => r) (fun _ => True) Up p)
        (setSource p fun s => { s with readCacheOffset := addWord s.readCacheOffset k }) := fun k => setSource_holds fun _ h => h
    refine Fueled.bind (hset _) fun _ => Fueled.bind (getSource_stays p) fun s => ?_
    refine Fueled.ite (fun _ => ?_) fun hmore => Fueled.ite (fun _ => ?_) fun _ => Fueled.pure fun _ h => h
    · have hrecord : ∀ call, Stays (Holds (fun _ => r) (fun _ => True) Up p) (record call) :=
        fun _ _ h => ⟨h.source, h.replies, h.caches⟩
      exact Fueled.bind handle_stays fun _ => Fueled.bind (Stays.when (hrecord _)) fun _ => Fueled.pure fun _ h => h
    · exact Fueled.pure fun e h => ⟨.inr ⟨hpos, Nat.pos_of_ne_zero hmore⟩, h⟩

theorem sourceRead_calm {c : Bool} (hp : p ≠ NULL) (hfits : Fits count) (hcount : 1 ≤ count) (L : e.Lends count out)
    (hgentle : Gentle r false readcacheSize) (H : Holds (fun _ => r) (Grantable count r.elm r.room) (Calm c) p e)
    (hfuel : 2 ^ 64 ≤ fuel) : Settles (fun _ => Holds (fun _ => r) (fun _ => True) Up p) (sourceRead fuel p e) := by
  have G : e.Grants := by
    refine Grantable.grants hfits hcount L ?_
    rw [H.replies]
    exact H.caches
  refine sourceRead_goes hp H.source.read H.source.readCache G (fun caches cache => ⟨hgentle, ?_, H.replies, trivial⟩)
    readRound_calm hfuel
  rw [readied, putSource_source, putSource_source]
  exact H.source.up

theorem reply_calm {K : Heap → Prop} {Q : Source → Prop} :
    Fueled (Holds (fun _ => r) K Q p) reply fun a e => a = r ∧ Holds (fun _ => r) K Q p e :=
  fun e h => ⟨by rw [h.replies], h.source, h.replies, h.caches⟩

section
variable (hresult : r.result = 0)
include hresult

theorem processRead_calm : Stays (Holds (fun _ => r) (fun _ => True) Up p) (processRead p) := by
  have hrecord : ∀ call, Stays (Holds (fun _ => r) (fun _ => True) Up p) (record call) :=
    fun _ _ h => ⟨h.source, h.replies, h.caches⟩
  have hcall : Fueled (Holds (fun _ => r) (fun _ => True) Up p) (readHandler p)
      fun ret e => ret = 0 ∧ Holds (fun _ => r) (fun _ => True) Up p e := by
    refine Fueled.bind handle_stays fun h => Fueled.ite (fun _ => reply_calm.bind fun a => Fueled.given fun ha => ?_) fun _ => ?_
    · refine Fueled.bind (getSource_stays p) fun s => Fueled.bind Stays.get fun e => Fueled.bind (hrecord _) fun _ => ?_
      exact Fueled.pure fun e h => ⟨by rw [ha, hresult], h⟩
    · exact Fueled.pure fun e h => ⟨rfl, h⟩
  refine Fueled.bind hcall fun ret => Fueled.given fun hret => ?_
  refine Fueled.bind (sourceFreeReadCache_holds any_heap fun s h => h) fun _ => Fueled.bind (getSource_stays p) fun s => ?_
  refine Stays.bind (Stays.when (setSource_holds fun s h => h)) fun _ => ?_
  refine Stays.bind (Fueled.when (fun hneg => absurd hneg (by omega)) fun _ _ h => h) fun _ => ?_
  refine (getSource_stays p).bind fun s => handle_stays.bind fun h => ?_
  exact Fueled.when (fun hpos => absurd hpos.1 (by omega)) fun _ _ h => h

theorem processWrite_calm : Stays (Holds (fun _ => r) (fun _ => True) Up p) (processWrite p) := by
  have hrecord : ∀ call, Stays (Holds (fun _ => r) (fun _ => True) Up p) (record call) :=
    fun _ _ h => ⟨h.source, h.replies, h.caches⟩
  have hstore : ∀ a k data, Stays (Holds (fun _ => r) (fun _ => True) Up p) (store a k data) :=
    fun _ _ _ _ h => ⟨h.source, h.replies, h.caches⟩
  have hcall : Fueled (Holds (fun _ => r) (fun _ => True) Up p) (writeHandler p)
      fun ret e => ret = 0 ∧ Holds (fun _ => r) (fun _ => True) Up p e := by
    refine Fueled.bind handle_stays fun h => Fueled.ite (fun _ => reply_calm.bind fun a => Fueled.given fun ha => ?_) fun _ => ?_
    · refine Fueled.bind (getSource_stays p) fun s => Fueled.bind (hstore _ _ _) fun _ => ?_
      have hset : Stays (Holds (fun _ => r) (fun _ => True) Up p) (setSource p fun s => { s with writeCacheOffset := a.bytes }) :=
        setSource_holds fun _ h => h
      refine Fueled.bind hset fun _ => Fueled.bind (hrecord _) fun _ => Fueled.pure fun e h => ⟨by rw [ha, hresult], h⟩
    · exact Fueled.stuck
  refine Fueled.bind hcall fun ret => Fueled.given fun hret => ?_
  refine Fueled.ite (fun hneg => absurd hneg (by omega)) fun _ => Fueled.bind handle_stays fun h => ?_
  exact Stays.bind (Stays.when (hrecord _)) fun _ => Stays.when (setSource_holds fun _ h => h)

theorem finishTurn_calm : Fueled (Holds (fun _ => r) (fun _ => True) Up p) (finishTurn p)
    fun _ e => (e.source p).shutdown = false := by
  have hknow : Fueled (Holds (fun _ => r) (fun _ => True) Up p) (getSource p)
      fun s e => s.shutdown = false ∧ (e.source p).shutdown = false := fun e h => ⟨h.source, h.source⟩
  refine Fueled.bind (getSource_stays p) fun s => Fueled.bind (Stays.when ?_) fun _ => hknow.bind fun s => ?_
  · refine (getSource_stays p).bind fun s => (Stays.when (processRead_calm hresult)).bind fun _ => ?_
    exact (getSource_stays p).bind fun s => Stays.when (processWrite_calm hresult)
  · refine Fueled.given fun hup => Fueled.when (fun hdown => ?_) fun _ _ h => h
    rw [hup] at hdown
    cases hdown

end

/-- A source stays in use, if its read and its write go well, and its handlers ask for nothing. -/
theorem dispatchSource_calm {others : List Nat} {e₀ : Event} (hp : p ≠ NULL) (hfits : Fits count) (hcount : 1 ≤ count)
    (T : Tends count p others e₀ e) (hclear : (e.source p).Clear) (hcache : (e.source p).readCache = NULL)
    (hreplies : e.replies = fun _ => r) (hresult : r.result = 0) (hgrant : Grantable count r.elm r.room e.caches)
    (hread : Gentle r false readcacheSize)
    (hwrite : (e.source p).writeCache = NULL ∨ Gentle r (e.source p).writeClose
      (subWord (e.source p).writeCacheOffset (e.source p).writeCacheCurOffset)) (hfuel : 2 ^ 64 ≤ fuel) :
    Settles (fun _ s => (s.source p).shutdown = false) (dispatchSource fuel p e) := by
  obtain ⟨e₁, he₁⟩ : ∃ e₁, e₁ = e.putSource p (e.source p).marked := ⟨_, rfl⟩
  have hsource : e₁.source p = (e.source p).marked := by rw [he₁, putSource_source]
  have hsafe : Triple (fun s => s = e₁) (sourceWrite fuel p) fun _ => Tends count p others e₀ := by
    refine (sourceWrite_keeps hp fuel).conseq (fun s h => ?_) fun _ _ h => h
    rw [h, he₁]
    exact setSource_keeps (f := Source.marked) (fun _ => ⟨rfl, rfl, rfl, rfl⟩) e T
  have hcalm : Fueled (fun s => s = e₁) (sourceWrite fuel p)
      fun _ => Holds (fun _ => r) (Grantable count r.elm r.room) (Calm (e.source p).writeClose) p := by
    rintro s rfl
    refine sourceWrite_calm hp (hsource ▸ hwrite) ⟨?_, he₁ ▸ hreplies, he₁ ▸ hgrant⟩ hfuel
    rw [hsource]
    exact ⟨(e.source p).marked_flags.1.trans hclear.shutdown, (e.source p).marked_flags.2.1, hcache, rfl⟩
  have hfirst : Fueled (fun s => s = e₁) (sourceWrite fuel p) fun _ s => (∃ out, s.Lends count out) ∧
      Holds (fun _ => r) (Grantable count r.elm r.room) (Calm (e.source p).writeClose) p s := by
    rintro s rfl
    obtain ⟨ret, s', hrun, T', H⟩ := Fueled.total hsafe hcalm s rfl
    rw [hrun]
    exact ⟨⟨_, T'.lends⟩, H⟩
  refine dispatchSource_settles hclear (hfirst _ he₁.symm) ?_ (finishTurn_calm hresult)
  rintro s ⟨⟨out, L⟩, H⟩
  exact sourceRead_calm hp hfits hcount L hread H hfuel

/-! ### Acting exactly -/

/-- From `e` to `e'` the source `p` was read and written, and removed, as the kernel reported. -/
structure ActsOn (p : Ptr) (e e' : Event) : Prop where
  read : e.calls (Call.isRead p) < e'.calls (Call.isRead p) → (e.source p).Reports EPOLL_IN
  write : (e.source p).Unsent → (e.calls (Call.isWrite p) < e'.calls (Call.isWrite p) ↔ (e.source p).Reports EPOLL_OUT)
  removed : (e.source p).Reports (EPOLL_RDHUP ||| EPOLL_HUP ||| EPOLL_ERR) → ¬e'.Live p

/-- Whatever is dispatched along with the source `p`, and whatever is answered, the queue comes to its end, and with the
    source as the kernel reported. -/
def Acts (revents : Ptr → Nat) (p : Ptr) (e : Event) : Prop :=
  ∀ ready : List Ptr, ready.Nodup → (∀ q ∈ ready, e.Live q ∧ (e.source q).Clear) → p ∈ ready →
    ∀ replies : Nat → Reply, ∀ fuel ≥ 2 ^ 64, ∃ e',
      dispatchQueue fuel ready ({ e with replies := replies }.report revents) = .ok ((), e') ∧
        ActsOn p ({ e with replies := replies }.report revents) e'

/-- A source that is not read, or is reported to be readable, and then not to be closed, unless it closes itself; and with
    bytes to send it is reported to be readable and writable, or neither. -/
structure Matches (s : Source) : Prop where
  read : s.readCache ≠ NULL ∨
    (s.Reports EPOLL_IN ∧ (s.Reports (EPOLL_RDHUP ||| EPOLL_HUP ||| EPOLL_ERR) → s.Parting))
  write : s.Unsent → (s.Reports EPOLL_IN ↔ s.Reports EPOLL_OUT)

/-- `malloc` can grant another pool of caches, and a pool has a cache. -/
def CanGrow (e : Event) : Prop :=
  1 ≤ (e.caches.manager e.sourceCachePool).ecount ∧
    ∃ elm room, Grantable (e.caches.manager e.sourceCachePool).ecount elm room e.caches

variable {revents : Ptr → Nat} {owned : Prop}

theorem EventInv.reported (I : EventInv owned n count room fl e) (replies : Nat → Reply) (revents : Ptr → Nat) :
    EventInv owned n count room fl ({ e with replies := replies }.report revents) :=
  ⟨I.stocked.congr rfl rfl rfl rfl rfl fun _ => ⟨rfl, rfl⟩, fun hown => (I.fds hown).congr rfl fun _ _ _ => ⟨rfl, rfl⟩⟩

theorem acts_of_matches (hfits : Fits count) (I : EventInv owned n count room fl e)
    (M : Matches { e.source p with revents := revents p }) : Acts revents p e := by
  intro ready hnd hready hp replies fuel hfuel
  have hlive : ∀ q ∈ ready, InUse n room fl q := fun q hq => I.stocked.live_iff.mp (hready q hq).1
  have hnull : p ≠ NULL := by
    obtain ⟨x, hx, -, rfl⟩ := hlive p hp
    exact I.stocked.ne_null hx
  obtain ⟨e₁, e₂, e', hrun, hturn, U, U', hgone⟩ :=
    dispatchQueue_turn hfits (I.reported replies revents) hnd hlive hp hfuel
  obtain ⟨s, hs⟩ : ∃ s, s = ({ e with replies := replies }.report revents).source p := ⟨_, rfl⟩
  have hsource : e₁.source p = s := U.source.trans hs.symm
  have hclear : (e₁.source p).Clear := by
    rw [hsource, hs]
    exact ⟨(hready p hp).2.read, (hready p hp).2.write, (hready p hp).2.shutdown⟩
  have hM : Matches s := hs ▸ M
  refine ⟨e', hrun, ?_, ?_, ?_⟩
  all_goals rw [← hs]
  · rw [U'.reads, ← U.reads]
    intro hcalled
    rcases hM.read with hcache | ⟨hin, -⟩
    · by_contra hin
      have hsame := (dispatchSource_unread hnull hclear (hsource ▸ hcache) (hsource ▸ hin)).of_ok hturn
      exact absurd hcalled (Nat.not_lt.mpr (Nat.le_of_eq hsame))
    · exact hin
  · rw [U'.writes, ← U.writes]
    intro hunsent
    rw [← hM.write hunsent]
    refine ⟨fun hcalled => ?_, fun hin => ?_⟩
    · by_contra hin
      have hsame := (dispatchSource_unsent hclear (hsource ▸ hin) hfuel).of_ok hturn
      exact absurd hcalled (Nat.not_lt.mpr (Nat.le_of_eq hsame))
    · exact (dispatchSource_writes hnull hclear (hsource ▸ hin) (hsource ▸ hunsent.1) hfuel).of_ok hturn
  · intro hreported
    refine hgone ?_
    rcases hM.read with hcache | ⟨hin, hparting⟩
    · exact (dispatchSource_full hnull hclear (hsource ▸ hcache) hfuel).of_ok hturn
    · exact (dispatchSource_parts hnull hclear (hsource ▸ hin) (hsource ▸ hparting hreported) hfuel).of_ok hturn

theorem dispatchQueue_single : dispatchQueue fuel [p] = dispatchSource fuel p := bind_pure _

/-- A reply that grants memory, asks for nothing, and lets a read and a write go well; a source that is to be closed behind its
    last byte gets a byte through. -/
def gentleReply (writeClose : Bool) (elm room : Ptr) : Reply where
  fd := 0
  count := if writeClose then 1 else -1
  retry := true
  result := 0
  bytes := 0
  data := fun _ => 0
  elm := elm
  room := room

theorem gentleReply_gentle (writeClose c : Bool) {k : Nat} (h : c = true → writeClose = true) (hk : writeClose = true → 1 ≤ k) :
    Gentle (gentleReply writeClose elm room) c k := by
  cases writeClose with
  | true => exact .inr ⟨(by decide : (0 : Int) < 1), hk rfl⟩
  | false =>
    refine .inl ⟨(by decide : (-1 : Int) < 0), rfl, ?_⟩
    cases c with
    | true => cases h rfl
    | false => rfl

theorem matches_of_acts (hfits : Fits count) (I : EventInv owned n count room fl e) (hlive : e.Live p)
    (hclear : (e.source p).Clear) (hgrow : CanGrow e) (A : Acts revents p e) :
    Matches { e.source p with revents := revents p } := by
  obtain ⟨fuel, hfuel⟩ : ∃ fuel : Nat, 2 ^ 64 ≤ fuel := ⟨_, Nat.le_refl _⟩
  have hone : ∀ replies : Nat → Reply, ∃ e', dispatchSource fuel p ({ e with replies := replies }.report revents) = .ok ((), e') ∧
      ActsOn p ({ e with replies := replies }.report revents) e' := by
    intro replies
    have hready : ∀ q ∈ [p], e.Live q ∧ (e.source q).Clear := by
      intro q hq
      rw [List.mem_singleton.mp hq]
      exact ⟨hlive, hclear⟩
    obtain ⟨e', hrun, hacts⟩ := A [p] (List.nodup_singleton p) hready List.mem_cons_self replies fuel hfuel
    exact ⟨e', dispatchQueue_single ▸ hrun, hacts⟩
  obtain ⟨s, hs⟩ : ∃ s, s = { e.source p with revents := revents p } := ⟨_, rfl⟩
  have hsource : ∀ replies : Nat → Reply, ({ e with replies := replies }.report revents).source p = s := fun _ => hs.symm
  have hflags : ∀ replies : Nat → Reply, (({ e with replies := replies }.report revents).source p).Clear :=
    fun _ => ⟨hclear.read, hclear.write, hclear.shutdown⟩
  obtain ⟨x, hx, hfl, hpx⟩ := I.stocked.live_iff.mp hlive
  have hp : p ≠ NULL := hpx ▸ I.stocked.ne_null hx
  obtain ⟨hcount, elm, room', hgrant⟩ := hgrow
  have hecount : (e.caches.manager e.sourceCachePool).ecount = count := by
    obtain ⟨g, M, -⟩ := I.stocked.lends
    exact M.pools.ecount
  rw [hecount] at hcount hgrant
  rw [← hs]
  refine ⟨?_, fun hunsent => ?_⟩
  · by_contra hnot
    obtain ⟨hnull, hnot⟩ := not_or.mp hnot
    have hnull := not_not.mp hnull
    by_cases hin : s.Reports EPOLL_IN
    · obtain ⟨hreported, hstays⟩ := Classical.not_imp.mp fun h => hnot ⟨hin, h⟩
      obtain ⟨e', hrun, hacts⟩ := hone fun _ => gentleReply s.writeClose elm room'
      have I' := I.reported (fun _ => gentleReply s.writeClose elm room') revents
      have hread : Gentle (gentleReply s.writeClose elm room') false readcacheSize :=
        gentleReply_gentle _ _ (fun h => nomatch h) fun _ => by decide
      have hwrite : s.writeCache = NULL ∨ Gentle (gentleReply s.writeClose elm room') s.writeClose
          (subWord s.writeCacheOffset s.writeCacheCurOffset) := by
        by_cases hcache : s.writeCache = NULL
        · exact .inl hcache
        · refine .inr (gentleReply_gentle _ _ id fun hclose => Nat.pos_of_ne_zero fun hsent => ?_)
          exact hstays ⟨hcache, hclose, hsent⟩
      have T := I'.stocked.tends hx
      rw [← hpx] at T
      have hup := (dispatchSource_calm hp hfits hcount T (hflags _) (by rw [hsource]; exact hnull) rfl rfl hgrant hread
        (by rw [hsource]; exact hwrite) hfuel).of_ok hrun
      have hend := (dispatchSource_spec hfits I' hx hfl fuel _ rfl).of_ok (hpx ▸ hrun)
      rcases hend with ⟨-, hdown⟩ | ⟨Iend, -⟩
      · rw [hpx] at hup
        exact absurd (hup.symm.trans hdown) (by decide)
      · refine hacts.removed ?_ (Iend.stocked.live_iff.mpr ⟨x, hx, hfl, hpx⟩)
        rw [hsource]
        exact hreported
    · obtain ⟨e', hrun, hacts⟩ := hone fun _ => gentleReply false elm room'
      have I' := I.reported (fun _ => gentleReply false elm room') revents
      have G : ({ e with replies := fun _ => gentleReply false elm room' }.report revents).Grants :=
        Grantable.grants hfits hcount I'.stocked.lends hgrant
      have hcalled := (dispatchSource_reads hp (hflags _) (by rw [hsource]; exact hin) (by rw [hsource]; exact hnull) G
        hfuel).of_ok hrun
      exact hin (hsource _ ▸ hacts.read hcalled)
  · obtain ⟨e', hrun, hacts⟩ := hone e.replies
    have hwrite := hacts.write (by rw [hsource]; exact hunsent)
    rw [hsource] at hwrite
    rw [← hwrite]
    refine ⟨fun hin => ?_, fun hcalled => ?_⟩
    · exact (dispatchSource_writes hp (hflags _) (by rw [hsource]; exact hin) (by rw [hsource]; exact hunsent.1) hfuel).of_ok hrun
    · by_contra hin
      have hsame := (dispatchSource_unsent (hflags _) (by rw [hsource]; exact hin) hfuel).of_ok hrun
      exact absurd hcalled (Nat.not_lt.mpr (Nat.le_of_eq hsame))

/-- In every run of an event, a source whose flags are clear is acted on as the kernel reports, whatever is answered, if what
    is reported matches its state, and, as long as memory can be granted, only then. -/
theorem runs_acts_iff (R : Runs False e) (hlive : e.Live p) (hclear : (e.source p).Clear) :
    (Matches { e.source p with revents := revents p } → Acts revents p e) ∧
      (CanGrow e → Acts revents p e → Matches { e.source p with revents := revents p }) := by
  obtain ⟨n, count, room, fl, hfits, I⟩ := R.inv
  exact ⟨acts_of_matches hfits I, matches_of_acts hfits I hlive hclear⟩

theorem watchedEvent_clear : ((watchedEvent false).source 50472).Clear := ⟨rfl, rfl, rfl⟩

theorem watchedEvent_canGrow : CanGrow (watchedEvent false) := by
  have hecount : ((watchedEvent false).caches.manager (watchedEvent false).sourceCachePool).ecount = 1 := rfl
  refine ⟨Nat.le_of_eq hecount.symm, 20000, 30000, ?_, ?_⟩
  · exact (by decide : bareHeap.Fresh (20000, 88))
  · rw [hecount]
    exact (by decide : Heap.Fresh { bareHeap with live := (20000, 88) :: bareHeap.live } (30000, 4112))

theorem runs_acts_iff_readable : CanGrow (watchedEvent false) ∧ Acts (fun _ => EPOLL_IN ||| EPOLL_OUT) 50472 (watchedEvent false) := by
  refine ⟨watchedEvent_canGrow, (runs_acts_iff (watchedEvent_runs false) (watchedEvent_live false) watchedEvent_clear).1 ⟨?_, ?_⟩⟩
  · exact .inr ⟨(by decide : (EPOLL_IN ||| EPOLL_OUT) &&& EPOLL_IN ≠ 0), fun h => absurd rfl h⟩
  · exact fun h => absurd rfl h.1

/-- A source that is reported to be writable is read, and one whose peer has hung up stays. -/
theorem runs_not_acts : Runs False (watchedEvent false) ∧ (watchedEvent false).Live 50472 ∧
    ((watchedEvent false).source 50472).Clear ∧ ¬Acts (fun _ => EPOLL_OUT) 50472 (watchedEvent false) ∧
    ¬Acts (fun _ => EPOLL_IN ||| EPOLL_HUP) 50472 (watchedEvent false) := by
  have R : Runs False (watchedEvent false) := watchedEvent_runs false
  obtain ⟨n, count, room, fl, hfits, I⟩ := R.inv
  have hmatches : ∀ revents : Ptr → Nat, Acts revents 50472 (watchedEvent false) →
      Matches { (watchedEvent false).source 50472 with revents := revents 50472 } := fun _ =>
    matches_of_acts hfits I (watchedEvent_live false) watchedEvent_clear watchedEvent_canGrow
  refine ⟨R, watchedEvent_live false, watchedEvent_clear, fun A => ?_, fun A => ?_⟩
  · rcases (hmatches _ A).read with hcache | ⟨hin, -⟩
    · exact hcache rfl
    · exact hin rfl
  · rcases (hmatches _ A).read with hcache | ⟨-, hparting⟩
    · exact hcache rfl
    · exact (hparting (by decide : (EPOLL_IN ||| EPOLL_HUP) &&& (EPOLL_RDHUP ||| EPOLL_HUP ||| EPOLL_ERR) ≠ 0)).cache rfl

end Event

end QPHi
