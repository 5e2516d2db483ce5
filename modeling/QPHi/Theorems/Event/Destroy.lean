import QPHi.Theorems.Event.Ownership
import QPHi.Theorems.Event.Turn

/-! Destroying an event. The loop of `qp_event_destroy` goes through the lower half of the pool of sources, whether or not
    they are in use, and leaves the upper half alone, from which sources are handed out first. -/

namespace QPHi
open Command Loop

variable {n count room size k i x : Nat} {fl : List Nat} {p : Ptr} {fd eventFd : Int} {e e' : Event}

/-- Removing the source closes `fd`. -/
def Source.closes (fd : Int) (s : Source) : Bool := s.closed && s.sourceFd = fd

def Call.isClose (fd : Int) : Call → Bool
  | .close fd' => fd' = fd
  | _ => false

namespace Event

/-- The source with the index `i` in the array of `event_pool`. -/
def slot (i : Nat) (e : Event) : Ptr := e.pool.poolToArray e.eventPool i

/-- The state before the round `i` of the loop of `qp_event_destroy`. -/
def round (eventFd : Int) (i : Nat) (e : Event) : Event := after (do fdClose eventFd; removeSources i) e

/-- The caches that the loop hands to `qp_manager_free`: in each round those that the source holds then. -/
def returned (eventFd : Int) (size : Nat) (e : Event) : List Nat :=
  (List.range size).flatMap fun i => ((e.round eventFd i).source ((e.round eventFd i).slot i)).caches

/-- `qp_event_destroy` succeeds, closes every descriptor of a source in use that is to be closed, takes every cache back,
    and never puts a source on the free list that is there, all of it once. -/
structure Releases (eventFd : Int) (size : Nat) (e : Event) : Prop where
  closes : ∃ fuel₀, ∀ fuel, fuel₀ ≤ fuel → ∃ e', eventDestroy fuel eventFd true false size e = .ok (QP_SUCCESS, e') ∧
    ∀ p fd, e.Live p → fd ≠ QP_FD_INVALID → (e.source p).closes fd →
      e'.calls (Call.isClose fd) = e.calls (Call.isClose fd) + 1
  caches : ∀ b, e.caches.Lent e.sourceCachePool b → (e.returned eventFd size).count b = 1
  pushes : ∀ i < size, ∃ fl, (e.round eventFd i).FreeList fl ∧ Heap.poolBelongTo ((e.round eventFd i).slot i) ∉ fl
  bounded : ∀ i ≤ size, ((e.round eventFd i).pool.pool (e.round eventFd i).eventPool).nfree ≤
    ((e.round eventFd i).pool.pool (e.round eventFd i).eventPool).nsize

/-- The sources of the lower half are in use, each with a descriptor of its own to close, and those of the upper half hold
    neither a cache nor another descriptor to close. -/
structure Covered (eventFd : Int) (size : Nat) (e : Event) : Prop where
  low : ∀ i < size, e.Live (e.slot i)
  apart : ∀ i < size, ∀ fd ≠ QP_FD_INVALID, (e.source (e.slot i)).closes fd →
    eventFd ≠ fd ∧ ∀ j < size, (e.source (e.slot j)).closes fd → j = i
  high : ∀ i < size * 2, size ≤ i → e.Live (e.slot i) → (e.source (e.slot i)).caches = [] ∧
    ∀ fd ≠ QP_FD_INVALID, (e.source (e.slot i)).closes fd → eventFd = fd ∨ ∃ j < size, (e.source (e.slot j)).closes fd

/-! ### The array of sources -/

/-- The element of the pool with the index `i`. -/
def element (room i : Nat) : Nat := room + i * (sizeofSource + sizeofPoolElm)

theorem element_inj {j : Nat} (h : element room i = element room j) : i = j := by
  have hpos : 0 < sizeofSource + sizeofPoolElm := by decide
  exact Nat.eq_of_mul_eq_mul_right hpos (Nat.add_left_cancel h)

theorem element_mem : element room i ∈ sources n room ↔ i < n := by
  rw [mem_elements]
  constructor
  · rintro ⟨j, hj, h⟩
    exact element_inj h ▸ hj
  · exact fun hi => ⟨i, hi, rfl⟩

theorem sources_succ : sources (k + 1) room = sources k room ++ [element room k] := by
  simp only [elements, List.range_succ, List.map_append, List.map_cons, List.map_nil, element]

theorem Stocked.slot_eq (S : Stocked n count room fl e) (hi : i < n) : e.slot i = element room i + sizeofPoolElm :=
  poolToArray_eq S.placed S.pool hi

theorem Stocked.slot_live (S : Stocked n count room fl e) (hi : i < n) : e.Live (e.slot i) ↔ element room i ∉ fl := by
  rw [S.live_iff, S.slot_eq hi]
  constructor
  · rintro ⟨x, -, hfl, hx⟩
    rw [Nat.add_right_cancel hx]
    exact hfl
  · exact fun hfl => ⟨element room i, element_mem.mpr hi, hfl, rfl⟩

/-! ### Closing -/

theorem closingTrace_calls (hfd : fd ≠ QP_FD_INVALID) (s : Source) (trace : List Call) :
    (closingTrace s trace).countP (Call.isClose fd) = trace.countP (Call.isClose fd) + (s.closes fd).toNat := by
  unfold closingTrace Source.closes
  by_cases hc : s.closed = true ∧ QP_FD_INVALID ≠ s.sourceFd
  · rw [if_pos hc, List.countP_cons, hc.1]
    by_cases heq : s.sourceFd = fd
    · simp [Call.isClose, heq]
    · simp [Call.isClose, heq]
  · rw [if_neg hc]
    have hnot : ¬(s.closed = true ∧ s.sourceFd = fd) := by
      rintro ⟨hclosed, heq⟩
      exact hc ⟨hclosed, fun h => hfd (h ▸ heq.symm)⟩
    have hfalse : (s.closed && decide (s.sourceFd = fd)) = false := by
      rw [Bool.eq_false_iff, ne_eq, Bool.and_eq_true, decide_eq_true_eq]
      exact hnot
    rw [hfalse]
    rfl

theorem removeevent_closes (hp : p ≠ NULL) (hfd : fd ≠ QP_FD_INVALID) :
    Fueled (fun s => s = e) (removeevent p) fun _ s =>
      s.calls (Call.isClose fd) = e.calls (Call.isClose fd) + ((e.source p).closes fd).toNat := by
  unfold removeevent
  rw [if_neg hp]
  have hhandle : Fueled (fun s => s = e) handle fun _ s => s = e := fun _ h => h
  have hdel : ∀ h : Handles, Fueled (fun s => s = e) (when h.del (record (.del p))) fun _ s =>
      s.source p = e.source p ∧ s.calls (Call.isClose fd) = e.calls (Call.isClose fd) := by
    intro h
    refine Fueled.when (fun _ => ?_) fun _ s hs => ?_
    · rintro s rfl
      exact ⟨rfl, List.countP_cons_of_neg (by simp [Call.isClose])⟩
    · rw [hs]
      exact ⟨rfl, rfl⟩
  have hclose : Fueled (fun s => s.source p = e.source p ∧ s.calls (Call.isClose fd) = e.calls (Call.isClose fd))
      (sourceClose p) fun _ s =>
        s.calls (Call.isClose fd) = e.calls (Call.isClose fd) + ((e.source p).closes fd).toNat := by
    rintro s ⟨hs, hcalls⟩
    rw [sourceClose_run hp, ← hcalls, ← hs]
    exact closingTrace_calls hfd _ _
  have F := frame_silent p (Call.isClose fd) (e.calls (Call.isClose fd) + ((e.source p).closes fd).toNat)
  refine hhandle.bind fun h => (hdel h).bind fun _ => hclose.bind fun _ => ?_
  refine Fueled.bind F.sourceFreeReadCache fun _ => Fueled.bind F.sourceFreeWriteCache fun _ => ?_
  exact Stays.bind (fun s hs => F.rest s _ rfl rfl hs) fun _ => Stays.pure _

/-- The removal of a source in use ends. -/
theorem removeevent_run (S : Stocked n count room fl e) (hx : x ∈ sources n room) (hfl : x ∉ fl) :
    ∃ r e', removeevent (x + sizeofPoolElm) e = .ok (r, e') ∧ Stocked n count room (x :: fl) e' ∧
      (∀ y, y ≠ x → e'.at y = e.at y) ∧ ∀ fd, fd ≠ QP_FD_INVALID →
        e'.calls (Call.isClose fd) = e.calls (Call.isClose fd) + ((e.at x).closes fd).toNat := by
  have hp := S.ne_null hx
  have hone : (0 : Int) ≠ QP_FD_INVALID := by decide
  obtain ⟨r, e', hrun, ⟨S', -, -, hat, -⟩, -⟩ :=
    Fueled.total (Triple.start (removeevent_spec S hx hfl)) (removeevent_closes hp hone) e rfl
  exact ⟨r, e', hrun, S', hat, fun fd hfd => (removeevent_closes hp hfd e rfl).of_ok hrun⟩

/-! ### The loop -/

/-- What the first `k` rounds leave behind; `e₀` is the state before them, without the close of the event itself. -/
structure Swept (n count room : Nat) (fl : List Nat) (eventFd : Int) (k : Nat) (e₀ e : Event) : Prop where
  stocked : Stocked n count room ((sources k room).reverse ++ fl) e
  rest : ∀ y, y ∉ sources k room → e.at y = e₀.at y
  calls : ∀ fd, fd ≠ QP_FD_INVALID → e.calls (Call.isClose fd) = e₀.calls (Call.isClose fd) +
    ((decide (eventFd = fd)).toNat + (List.range k).countP fun i => (e₀.at (element room i)).closes fd)

theorem fdClose_run (S : Stocked n count room fl e) (eventFd : Int) :
    ∃ e', fdClose eventFd e = .ok ((), e') ∧ Swept n count room fl eventFd 0 e e' := by
  unfold fdClose
  by_cases hopen : eventFd ≠ QP_FD_INVALID
  · rw [run_when hopen]
    refine ⟨_, rfl, S.congr rfl rfl rfl rfl rfl fun _ => ⟨rfl, rfl⟩, fun _ _ => rfl, fun fd _ => ?_⟩
    show (Call.close eventFd :: e.trace).countP (Call.isClose fd) = _
    rw [List.countP_cons]
    by_cases heq : eventFd = fd
    · simp [Call.isClose, calls, heq]
    · simp [Call.isClose, calls, heq]
  · refine ⟨e, run_skip hopen, S, fun _ _ => rfl, fun fd hfd => ?_⟩
    have hne : eventFd ≠ fd := fun h => hopen (h ▸ hfd)
    simp [hne]

/-- A round that finds a source in use. -/
theorem Swept.step {e₀ : Event} (W : Swept n count room fl eventFd k e₀ e) (hk : k < n) (hlive : element room k ∉ fl) :
    ∃ r e', removeevent (e.slot k) e = .ok (r, e') ∧ Swept n count room fl eventFd (k + 1) e₀ e' := by
  have hnew : element room k ∉ sources k room := fun h => Nat.lt_irrefl k (element_mem.mp h)
  have hfl : element room k ∉ (sources k room).reverse ++ fl := by
    rw [List.mem_append, List.mem_reverse, not_or]
    exact ⟨hnew, hlive⟩
  obtain ⟨r, e', hrun, S, hat, hcalls⟩ := removeevent_run W.stocked (element_mem.mpr hk) hfl
  refine ⟨r, e', W.stocked.slot_eq hk ▸ hrun, ?_, fun y hy => ?_, fun fd hfd => ?_⟩
  · rw [sources_succ, List.reverse_append]
    exact S
  · rw [sources_succ, List.mem_append, List.mem_singleton, not_or] at hy
    rw [hat y hy.2, W.rest y hy.1]
  · rw [hcalls fd hfd, W.calls fd hfd, W.rest _ hnew, List.range_succ, List.countP_append, List.countP_singleton]
    cases (e₀.at (element room k)).closes fd with
    | false => simp
    | true => simp [Nat.add_assoc]

theorem Stocked.round_swept (S : Stocked n count room fl e) (eventFd : Int) (hk : k ≤ n)
    (hlive : ∀ i < k, element room i ∉ fl) :
    (do fdClose eventFd; removeSources k : EventM Unit) e = .ok ((), e.round eventFd k) ∧
      Swept n count room fl eventFd k e (e.round eventFd k) := by
  suffices h : ∃ e', (do fdClose eventFd; removeSources k : EventM Unit) e = .ok ((), e') ∧
      Swept n count room fl eventFd k e e' by
    obtain ⟨e', hrun, W⟩ := h
    have hround : e.round eventFd k = e' := by
      unfold Event.round after
      rw [hrun]
    rw [hround]
    exact ⟨hrun, W⟩
  obtain ⟨e₁, hclose, W₁⟩ := fdClose_run S eventFd
  rw [run_bind hclose]
  induction k with
  | zero => exact ⟨e₁, rfl, W₁⟩
  | succ k ih =>
    obtain ⟨e', hrun, W⟩ := ih (by omega) fun i hi => hlive i (by omega)
    obtain ⟨r, e'', hremove, W'⟩ := W.step (by omega) (hlive k (by omega))
    refine ⟨e'', ?_, W'⟩
    rw [removeSources, run_bind hrun]
    show (do
      let _ ← removeevent (e'.slot k)
      return () : EventM Unit) e' = _
    rw [run_bind hremove]
    rfl

/-- As long as the loop pushes only what is not free, it goes through sources in use. -/
theorem Stocked.pushed_live (S : Stocked n count room fl e) (hk : k ≤ n)
    (hpushes : ∀ i < k, ∃ fl, (e.round eventFd i).FreeList fl ∧ Heap.poolBelongTo ((e.round eventFd i).slot i) ∉ fl) :
    ∀ i < k, element room i ∉ fl := by
  induction k with
  | zero => exact fun i hi => absurd hi (Nat.not_lt_zero i)
  | succ k ih =>
    have hbelow := ih (by omega) fun i hi => hpushes i (by omega)
    intro i hi
    rcases Nat.lt_succ_iff_lt_or_eq.mp hi with hi | rfl
    · exact hbelow i hi
    · obtain ⟨-, W⟩ := S.round_swept eventFd (by omega) hbelow
      obtain ⟨fl', hfree, hnot⟩ := hpushes i hi
      have hx : element room i ∈ sources n room := element_mem.mpr (by omega)
      rw [W.stocked.slot_eq (by omega), hfree.unique W.stocked.freeList, S.placed.belongTo hx, List.mem_append, not_or] at hnot
      exact hnot.2

theorem Stocked.pushes (S : Stocked n count room fl e) (hk : k ≤ n) (hlive : ∀ i < k, element room i ∉ fl) :
    ∀ i < k, ∃ fl, (e.round eventFd i).FreeList fl ∧ Heap.poolBelongTo ((e.round eventFd i).slot i) ∉ fl := by
  intro i hi
  obtain ⟨-, W⟩ := S.round_swept (k := i) eventFd (by omega) fun j hj => hlive j (Nat.lt_trans hj hi)
  have hx : element room i ∈ sources n room := element_mem.mpr (by omega)
  refine ⟨_, W.stocked.freeList, ?_⟩
  rw [W.stocked.slot_eq (by omega), S.placed.belongTo hx, List.mem_append, List.mem_reverse, not_or]
  exact ⟨fun h => Nat.lt_irrefl i (element_mem.mp h), hlive i hi⟩

/-! ### Caches -/

theorem Stocked.returned_eq (S : Stocked n count room fl e) (hk : k ≤ n) (hlive : ∀ i < k, element room i ∉ fl) :
    e.returned eventFd k = e.cachesOf (sources k room) := by
  simp only [cachesOf, sources, elements, List.flatMap_map]
  refine List.flatMap_congr fun i hi => ?_
  have hi := List.mem_range.mp hi
  obtain ⟨-, W⟩ := S.round_swept (k := i) eventFd (by omega) fun j hj => hlive j (Nat.lt_trans hj hi)
  have hself : element room i ∉ sources i room := fun h => Nat.lt_irrefl i (element_mem.mp h)
  rw [W.stocked.slot_eq (by omega)]
  exact congrArg Source.caches (W.rest _ hself)

/-- The sources of the upper half of the pool. -/
theorem sources_double : sources (size * 2) room = sources size room ++ (List.range size).map fun i => element room (size + i) := by
  simp only [sources, elements, Nat.mul_two, List.range_add, List.map_append, List.map_map]
  rfl

theorem Stocked.caches_iff (S : Stocked (size * 2) count room fl e) :
    (∀ b, e.caches.Lent e.sourceCachePool b → (e.cachesOf (sources size room)).count b = 1) ↔
      ∀ i < size * 2, size ≤ i → (e.at (element room i)).caches = [] := by
  obtain ⟨g, M, O⟩ := S.lends
  have hnd := O.1
  rw [sources_double, cachesOf, List.flatMap_append] at hnd
  obtain ⟨hlow, -, hapart⟩ := List.nodup_append.mp hnd
  have hmem : ∀ b, e.caches.Lent e.sourceCachePool b ↔ b ∈ e.cachesOf (sources (size * 2) room) := fun b => M.lent_iff O
  constructor
  · intro h i hi hsize
    rw [List.eq_nil_iff_forall_not_mem]
    intro b hb
    have hhigh : b ∈ e.cachesOf ((List.range size).map fun i => element room (size + i)) := by
      have hless : i - size < size := by omega
      refine List.mem_flatMap.mpr ⟨element room i, List.mem_map.mpr ⟨i - size, List.mem_range.mpr hless, ?_⟩, hb⟩
      rw [Nat.add_sub_cancel' hsize]
    have hlent : e.caches.Lent e.sourceCachePool b := by
      rw [hmem, sources_double, cachesOf, List.flatMap_append]
      exact List.mem_append_right _ hhigh
    have hback : b ∈ e.cachesOf (sources size room) := List.count_pos_iff.mp (h b hlent ▸ Nat.one_pos)
    exact hapart b hback b hhigh rfl
  · intro h b hlent
    refine List.count_eq_one_of_mem hlow ?_
    rw [hmem, cachesOf] at hlent
    obtain ⟨x, hx, hb⟩ := List.mem_flatMap.mp hlent
    obtain ⟨i, hi, rfl⟩ := mem_elements.mp hx
    rcases Nat.lt_or_ge i size with hless | hge
    · exact List.mem_flatMap.mpr ⟨element room i, element_mem.mpr hless, hb⟩
    · have hnone : (e.at (room + i * (sizeofSource + sizeofPoolElm))).caches = [] := h i hi hge
      rw [hnone] at hb
      cases hb

/-! ### Descriptors -/

/-- How often `fd` is closed. -/
def closers (eventFd : Int) (size : Nat) (fd : Int) (e : Event) : Nat :=
  (decide (eventFd = fd)).toNat + (List.range size).countP fun i => (e.source (e.slot i)).closes fd

theorem Stocked.eventDestroy_run (S : Stocked n count room fl e) (eventFd : Int) (hsize : size ≤ n)
    (hlive : ∀ i < size, element room i ∉ fl) :
    ∃ fuel₀, ∀ fuel, fuel₀ ≤ fuel → ∃ e', eventDestroy fuel eventFd true false size e = .ok (QP_SUCCESS, e') ∧
      ∀ fd, fd ≠ QP_FD_INVALID → e'.calls (Call.isClose fd) = e.calls (Call.isClose fd) + closers eventFd size fd e := by
  obtain ⟨hrun, W⟩ := S.round_swept eventFd hsize hlive
  obtain ⟨e₁, he₁⟩ : ∃ e₁, e₁ = e.round eventFd size := ⟨_, rfl⟩
  rw [← he₁] at hrun W
  have S₁ := W.stocked
  obtain ⟨pool, hpool⟩ : ∃ pool, e₁.pool.poolDestroy e₁.eventPool true = some (pool, QP_SUCCESS) :=
    ⟨_, poolDestroy_inPlace S₁.placed.pool_ne S₁.pool.inited S₁.inPlace S₁.pool.room S₁.granted S₁.placed.room_ne (.inl rfl)⟩
  obtain ⟨g, M, -⟩ := S₁.lends
  obtain ⟨caches, r, fuel₀, hcaches⟩ : ∃ caches r,
      Returns (fun fuel => e₁.caches.managerDestroy fuel e₁.sourceCachePool true) (caches, r) := by
    by_cases hinited : (e₁.caches.manager e₁.sourceCachePool).isInited = true
    · obtain ⟨caches, hreturns, -⟩ := M.pools.managerDestroy hinited (.inl rfl)
      exact ⟨caches, _, hreturns⟩
    · refine ⟨e₁.caches, QP_ERROR, .of_eq fun fuel => ?_⟩
      rw [Heap.managerDestroy, if_neg fun h => hinited h.2]
  refine ⟨fuel₀, fun fuel hfuel => ⟨{ e₁ with pool := pool, caches := caches }, ?_, fun fd hfd => ?_⟩⟩
  · obtain ⟨e₂, hclose, -⟩ := fdClose_run S eventFd
    rw [run_bind hclose] at hrun
    have hdestroy : e₁.caches.managerDestroy fuel e₁.sourceCachePool true = some (caches, r) := hcaches fuel hfuel
    rw [eventDestroy, if_pos ⟨rfl, rfl⟩, run_bind hclose, run_bind hrun, run_bind rfl]
    simp only [hpool, hdestroy]
    rfl
  · refine (W.calls fd hfd).trans ?_
    have hslots : (List.range size).countP (fun i => (e.at (element room i)).closes fd) =
        (List.range size).countP fun i => (e.source (e.slot i)).closes fd := by
      refine List.countP_congr fun i hi => ?_
      rw [S.slot_eq (Nat.lt_of_lt_of_le (List.mem_range.mp hi) hsize)]
      rfl
    rw [hslots, closers]

theorem countP_eq_one_iff {l : List Nat} {f : Nat → Bool} (hnd : l.Nodup) (hi : i ∈ l) (hf : f i = true) :
    l.countP f = 1 ↔ ∀ j ∈ l, f j = true → j = i := by
  constructor
  · intro h j hj hfj
    rw [List.countP_eq_length_filter, List.length_eq_one_iff] at h
    obtain ⟨a, ha⟩ := h
    have hia : i ∈ l.filter f := List.mem_filter.mpr ⟨hi, hf⟩
    have hja : j ∈ l.filter f := List.mem_filter.mpr ⟨hj, hfj⟩
    rw [ha, List.mem_singleton] at hia hja
    exact hja.trans hia.symm
  · intro h
    rw [← List.count_eq_one_of_mem hnd hi]
    refine List.countP_congr fun j hj => ?_
    rw [beq_iff_eq]
    exact ⟨h j hj, fun hji => hji ▸ hf⟩

/-- A descriptor that one of the first sources has is closed once if it is not that of the event and no other of them has
    it. -/
theorem closers_low (hi : i < size) (hc : (e.source (e.slot i)).closes fd) :
    closers eventFd size fd e = 1 ↔ eventFd ≠ fd ∧ ∀ j < size, (e.source (e.slot j)).closes fd → j = i := by
  have hcount := countP_eq_one_iff (f := fun i => (e.source (e.slot i)).closes fd) List.nodup_range (List.mem_range.mpr hi) hc
  simp only [List.mem_range] at hcount
  rw [← hcount, closers]
  have hpos : 0 < (List.range size).countP fun i => (e.source (e.slot i)).closes fd :=
    List.countP_pos_iff.mpr ⟨i, List.mem_range.mpr hi, hc⟩
  by_cases heq : eventFd = fd
  · refine iff_of_false (fun h => ?_) fun h => h.1 heq
    rw [decide_eq_true heq, Bool.toNat_true] at h
    omega
  · rw [decide_eq_false heq, Bool.toNat_false, Nat.zero_add]
    exact (and_iff_right heq).symm

theorem closers_none (hnone : ∀ j < size, ¬(e.source (e.slot j)).closes fd) :
    closers eventFd size fd e = 1 ↔ eventFd = fd := by
  have h0 : (List.range size).countP (fun i => (e.source (e.slot i)).closes fd) = 0 :=
    List.countP_eq_zero.mpr fun j hj => hnone j (List.mem_range.mp hj)
  rw [closers, h0]
  by_cases heq : eventFd = fd
  · simp [heq]
  · simp [heq]

/-- When the sources of the lower half are in use, the condition on the descriptors is exact. -/
theorem Stocked.closes_iff (S : Stocked (size * 2) count room fl e) (hlow : ∀ i < size, e.Live (e.slot i)) :
    (∀ p fd, e.Live p → fd ≠ QP_FD_INVALID → (e.source p).closes fd → closers eventFd size fd e = 1) ↔
      (∀ i < size, ∀ fd ≠ QP_FD_INVALID, (e.source (e.slot i)).closes fd →
        eventFd ≠ fd ∧ ∀ j < size, (e.source (e.slot j)).closes fd → j = i) ∧
      ∀ i < size * 2, size ≤ i → e.Live (e.slot i) → ∀ fd ≠ QP_FD_INVALID, (e.source (e.slot i)).closes fd →
        eventFd = fd ∨ ∃ j < size, (e.source (e.slot j)).closes fd := by
  constructor
  · intro h
    refine ⟨fun i hi fd hfd hc => (closers_low hi hc).mp (h _ fd (hlow i hi) hfd hc), fun i hi _ hlive fd hfd hc => ?_⟩
    by_cases hsome : ∃ j < size, (e.source (e.slot j)).closes fd = true
    · exact .inr hsome
    · refine .inl ((closers_none fun j hj hcj => hsome ⟨j, hj, hcj⟩).mp (h _ fd hlive hfd hc))
  · rintro ⟨hapart, hhigh⟩ p fd hlive hfd hc
    obtain ⟨x, hx, hfl, rfl⟩ := S.live_iff.mp hlive
    obtain ⟨i, hi, rfl⟩ := mem_elements.mp hx
    have hslot : e.slot i = room + i * (sizeofSource + sizeofPoolElm) + sizeofPoolElm := S.slot_eq hi
    rw [← hslot] at hlive hc
    by_cases hsome : ∃ j < size, (e.source (e.slot j)).closes fd = true
    · obtain ⟨j, hj, hcj⟩ := hsome
      exact (closers_low hj hcj).mpr (hapart j hj fd hfd hcj)
    · have hnone : ∀ j < size, ¬(e.source (e.slot j)).closes fd = true := fun j hj hcj => hsome ⟨j, hj, hcj⟩
      have hge : size ≤ i := Nat.le_of_not_lt fun hless => hnone i hless hc
      exact (closers_none hnone).mpr ((hhigh i hi hge hlive fd hfd hc).resolve_right hsome)

/-! ### Runs -/

theorem Stocked.covered (S : Stocked (size * 2) count room fl e) (H : Releases eventFd size e) : Covered eventFd size e := by
  have hhalf : size ≤ size * 2 := by omega
  have hlive := S.pushed_live hhalf H.pushes
  have hlow : ∀ i < size, e.Live (e.slot i) := fun i hi => (S.slot_live (by omega)).mpr (hlive i hi)
  obtain ⟨fuel₀, hrun⟩ := S.eventDestroy_run eventFd hhalf hlive
  obtain ⟨fuel₁, hcloses⟩ := H.closes
  have hclosers : ∀ p fd, e.Live p → fd ≠ QP_FD_INVALID → (e.source p).closes fd → closers eventFd size fd e = 1 := by
    intro p fd hp hfd hc
    obtain ⟨e', hcall, hcalls⟩ := hrun (max fuel₀ fuel₁) (Nat.le_max_left _ _)
    obtain ⟨e'', hcall', hcalls'⟩ := hcloses (max fuel₀ fuel₁) (Nat.le_max_right _ _)
    cases hcall.symm.trans hcall'
    have hadd := (hcalls fd hfd).symm.trans (hcalls' p fd hp hfd hc)
    exact Nat.add_left_cancel hadd
  obtain ⟨hapart, hhigh⟩ := (S.closes_iff hlow).mp hclosers
  refine ⟨hlow, hapart, fun i hi hge hp => ⟨?_, hhigh i hi hge hp⟩⟩
  rw [S.slot_eq hi]
  refine S.caches_iff.mp (fun b hb => ?_) i hi hge
  rw [← S.returned_eq hhalf hlive]
  exact H.caches b hb

theorem Stocked.releases (S : Stocked (size * 2) count room fl e) (C : Covered eventFd size e) : Releases eventFd size e := by
  have hhalf : size ≤ size * 2 := by omega
  have hlive : ∀ i < size, element room i ∉ fl := fun i hi => (S.slot_live (by omega)).mp (C.low i hi)
  obtain ⟨fuel₀, hrun⟩ := S.eventDestroy_run eventFd hhalf hlive
  have hclosers := (S.closes_iff C.low).mpr ⟨C.apart, fun i hi hge hp => (C.high i hi hge hp).2⟩
  refine ⟨⟨fuel₀, fun fuel hfuel => ?_⟩, fun b hb => ?_, S.pushes hhalf hlive, fun i hi => ?_⟩
  · obtain ⟨e', hcall, hcalls⟩ := hrun fuel hfuel
    refine ⟨e', hcall, fun p fd hp hfd hc => ?_⟩
    rw [hcalls fd hfd, hclosers p fd hp hfd hc]
  · rw [S.returned_eq hhalf hlive]
    refine S.caches_iff.mpr (fun i hi hge => ?_) b hb
    by_cases hp : e.Live (e.slot i)
    · have hnone := (C.high i hi hge hp).1
      rw [S.slot_eq hi] at hnone
      exact hnone
    · exact S.idle _ (not_not.mp fun hfl => hp ((S.slot_live hi).mpr hfl))
  · obtain ⟨-, W⟩ := S.round_swept (k := i) eventFd (by omega) fun j hj => hlive j (Nat.lt_of_lt_of_le hj hi)
    rw [W.stocked.pool.nfree, W.stocked.pool.nsize]
    exact W.stocked.pool.length_le

/-- In every state of every run `qp_event_destroy` releases everything once if and only if the sources in use are where its
    loop goes. -/
theorem destroy_releases_iff (R : Runs False e) (hsize : (e.pool.pool e.eventPool).nsize = size * 2) :
    Releases eventFd size e ↔ Covered eventFd size e := by
  obtain ⟨size', room, fl, -, -, I⟩ := R.laid
  have S := I.stocked
  obtain rfl : size' = size := by
    have hsame := S.pool.nsize.symm.trans hsize
    omega
  exact ⟨S.covered, S.releases⟩

/-- An event for one source, and so with two of them; both are in use. -/
def fullEvent : Event :=
  after (addevent 6 0 false true) (after (addevent 5 0 false false) ((eventInit 1000 50000 1 true false bareEvent).getD bareEvent))

theorem fullEvent_runs : Runs False fullEvent := by
  obtain ⟨made, hmade⟩ : ∃ made, made = (eventInit 1000 50000 1 true false bareEvent).getD bareEvent := ⟨_, rfl⟩
  have hinit : eventInit 1000 50000 1 true false bareEvent = some made := by
    rw [hmade]
    rfl
  have hfirst : addevent 5 0 false false made = .ok (QP_SUCCESS, after (addevent 5 0 false false) made) := by
    rw [hmade]
    rfl
  have hsecond : addevent 6 0 false true (after (addevent 5 0 false false) made) = .ok (QP_SUCCESS, fullEvent) := by
    rw [hmade]
    rfl
  have R : Runs False made := bareEvent_made hinit (by decide) rfl rfl rfl
  exact .addevent (.addevent R False.elim hfirst) False.elim hsecond

theorem fullEvent_live {x : Nat} (hx : x ∈ [50000, 50152]) : fullEvent.Live (x + sizeofPoolElm) := by
  have hfree : fullEvent.FreeList [] := ⟨rfl, List.not_mem_nil⟩
  exact hfree.live hx List.not_mem_nil

/-- The event whose two sources are in use is destroyed as it should be. -/
theorem destroy_releases_iff_full : (fullEvent.pool.pool fullEvent.eventPool).nsize = 1 * 2 ∧ Releases 3 1 fullEvent := by
  have hsize : (fullEvent.pool.pool fullEvent.eventPool).nsize = 1 * 2 := rfl
  refine ⟨hsize, (destroy_releases_iff fullEvent_runs hsize).mpr ⟨fun i hi => ?_, fun i hi fd _ hc => ?_, fun i hi hge _ => ?_⟩⟩
  · obtain rfl : i = 0 := by omega
    exact fullEvent_live (List.mem_cons_self)
  · obtain rfl : i = 0 := by omega
    have hfd : (6 : Int) = fd := of_decide_eq_true hc
    refine ⟨by rw [← hfd]; decide, fun j hj _ => by omega⟩
  · obtain rfl : i = 1 := by omega
    refine ⟨rfl, fun fd _ hc => ?_⟩
    cases hc

/-- The descriptor 5 has been added, to be closed with its source. -/
def heldEvent : Event := after (addevent 5 0 false true) madeEvent

/-- The source of the descriptor 5 is in the upper half: the loop pushes two sources that are free already, so that five of
    four are. -/
theorem destroy_not_releases :
    Runs False heldEvent ∧ (heldEvent.pool.pool heldEvent.eventPool).nsize = 2 * 2 ∧ ¬Releases 3 2 heldEvent := by
  have hcall : addevent 5 0 false true madeEvent = .ok (QP_SUCCESS, heldEvent) := rfl
  refine ⟨.addevent madeEvent_runs False.elim hcall, rfl, fun H => ?_⟩
  have hbounded : ¬((heldEvent.round 3 2).pool.pool (heldEvent.round 3 2).eventPool).nfree ≤
      ((heldEvent.round 3 2).pool.pool (heldEvent.round 3 2).eventPool).nsize := by decide +kernel
  exact hbounded (H.bounded 2 (Nat.le_refl 2))

end Event

end QPHi
