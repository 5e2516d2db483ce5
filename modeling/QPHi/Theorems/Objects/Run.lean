import QPHi.Lib.Trans
import QPHi.Theorems.Objects.Creation

/-! # The objects around descriptors: runs

A client makes objects, uses them and destroys them, in any order, while memory and the system may fail it at any time. Whatever
is open or allocated is what the process had in the beginning and what the objects have, each of which has its own. -/

namespace QPHi.Client
open Command Owned Objects Trans

/-- What the object behind a handle has. -/
def share (o : Objects) (h : Handle) : Multiset Resource := if (o.fd h.1).isInited then (o.content h.1).share h.1 h.2 else 0

/-- What the caller is held to. An object is made where there is none, with a server that exists; one that exists is used,
    and a descriptor is put where there is none; any handle can be destroyed. -/
def Allowed (w : Client) : ClientCall → Prop
  | .create c =>
    (c.target = NULL ∨ (c.target, c.kind) ∈ w.handles ∧ c.target ∈ w.objects.own ∧ (w.objects.fd c.target).isInited = false) ∧
    match c with
    | .socketAccept skt _ => (skt, .socket) ∈ w.handles ∧ (w.objects.fd skt).isInited = true
    | _ => True
  | .use u =>
    (u.target, u.kind) ∈ w.handles ∧ (w.objects.fd u.target).isInited = true ∧
    match u with
    | .openInto fd _ => (w.objects.fd fd).fd = QP_FD_INVALID
    | _ => True
  | .destroy h => h ∈ w.handles

/-- A descriptor is opened with the mode that the flag of its object tells. -/
def Agreed (w : Client) : ClientCall → Prop
  | .use (.openInto fd nonblock) => (w.objects.fd fd).isNoblock = nonblock
  | .use (.fileOpen file _ oflag) => (w.objects.fd file).isNoblock = oflag.getLsbD nonblockBit
  | _ => True

/-- In the beginning a client has memory of its own, with no object in it, and the process has `start`. -/
structure Init (start : List Resource) (w : Client) : Prop where
  keys : (w.handles.map Prod.fst).Nodup
  own : ∀ h ∈ w.handles, h.1 ∈ w.objects.own ∧ h.1 ≠ NULL
  ended : ∀ h ∈ w.handles, (w.objects.fd h.1).isInited = false
  live : w.objects.live = start
  nodup : start.Nodup

/-- A call that the caller may make. -/
def Step (w w' : Client) : Prop := ∃ c, w.Allowed c ∧ w.call c = .ok w'

/-- One of these in which flag and mode agree. -/
def AgreedStep (w w' : Client) : Prop := ∃ c, w.Allowed c ∧ w.Agreed c ∧ w.call c = .ok w'

/-! ### The ledger -/

/-- What holds of every handle. Where `agreed` holds, flag and mode agree. -/
structure Kept (agreed : Prop) (o : Objects) (h : Handle) : Prop where
  ne : h.1 ≠ NULL
  known : h.1 ∈ o.own ∨ (o.fd h.1).isInited = true
  sound : (o.fd h.1).isInited = true → (o.content h.1).Sound (h.1 ∉ o.own) h.2
  agrees : agreed → (o.fd h.1).isInited = true → (o.fd h.1).fd ≠ QP_FD_INVALID →
    (o.fd h.1).isNoblock = o.nonblock (o.fd h.1).fd

/-- What the process has is what it had in the beginning and what its objects have. -/
structure Ledger (start : List Resource) (agreed : Prop) (w : Client) : Prop where
  keys : (w.handles.map Prod.fst).Nodup
  holds : Holds w.objects.live (start + total (share w.objects) w.handles)
  each : ∀ h ∈ w.handles, Kept agreed w.objects h

variable {start : List Resource} {agreed : Prop} {w w' : Client} {h : Handle} {o : Objects} {k : Context} {p q : Ptr}
  {kind : Kind} {x : Content} {X : Multiset Resource}

theorem Init.ledger (hinit : Init start w) : Ledger start agreed w where
  keys := hinit.keys
  holds := by
    have hnone : total (share w.objects) w.handles = 0 :=
      total_eq_zero fun h hh => by rw [share, hinit.ended h hh, if_neg Bool.false_ne_true]
    refine ⟨hinit.live ▸ hinit.nodup, ?_⟩
    rw [hnone, add_zero, hinit.live]
  each h hh := by
    have hend : ¬ (w.objects.fd h.1).isInited = true := by
      rw [hinit.ended h hh]
      exact Bool.false_ne_true
    exact ⟨(hinit.own h hh).2, .inl (hinit.own h hh).1, fun h => absurd h hend, fun _ h => absurd h hend⟩

theorem share_inited (hinit : (o.fd h.1).isInited = true) : share o h = (o.content h.1).share h.1 h.2 := if_pos hinit

theorem share_ended (hend : (o.fd h.1).isInited = false) : share o h = 0 := by
  rw [share, hend, if_neg Bool.false_ne_true]

/-- The memory of an object that is allocated is among what it has. -/
theorem Content.Sound.mem_share {isAlloced : Bool} (hs : x.Sound isAlloced kind) (ha : isAlloced = true) :
    .block p ∈ x.share p kind := by
  have hself : Resource.block p ∈ itself true p := mem_itself.mpr ⟨rfl, rfl⟩
  subst ha
  cases kind with
  | fd =>
    have hs : x.fd.isAlloced = true := hs
    simp [Content.share, Content.rest, hs, hself]
  | socket =>
    have hs : x.socket.isAlloced = true := hs.2
    simp [Content.share, Content.rest, hs, hself]
  | file =>
    have hs : x.file.isAlloced = true := hs.2
    simp [Content.share, Content.rest, hs, hself]

/-- What an object has keeps its descriptor. -/
theorem Content.mem_share_descriptor {d : Int} : .descriptor d ∈ x.share p kind ↔ x.fd.fd ≠ QP_FD_INVALID ∧ d = x.fd.fd := by
  cases kind <;> simp [Content.share, Content.rest, mem_descriptors]

/-- What a function leaves alone stays as it is. -/
theorem Kept.away (hkept : Kept agreed k.base h) (haway : Away k o) (hk : k.kept h.1)
    (hmem : ∀ d, .descriptor d ∈ share k.base h → .descriptor d ∈ k.others) : Kept agreed o h ∧ share o h = share k.base h := by
  have hcontent := haway.content h.1 hk
  have hfd : o.fd h.1 = k.base.fd h.1 := congrArg Content.fd hcontent
  refine ⟨⟨hkept.ne, ?_, ?_, ?_⟩, ?_⟩
  · rw [haway.own, hfd]
    exact hkept.known
  · rw [haway.own, hfd, hcontent]
    exact hkept.sound
  · rw [hfd]
    intro hc hinit hne
    refine (hkept.agrees hc hinit hne).trans (haway.modes _ (hmem _ ?_)).symm
    rw [share_inited hinit]
    exact Content.mem_share_descriptor.mpr ⟨hne, rfl⟩
  · rw [share, share, hfd, hcontent]

/-- What a function that works on the object behind `h` leaves alone. -/
def around (start : List Resource) (agreed : Prop) (w : Client) (h : Handle) : Context where
  base := w.objects
  kept q := q ≠ h.1
  others := start + total (share w.objects) (w.handles.erase h)
  agreed := agreed

/-- What a function that makes an object in new memory leaves alone. -/
def beside (start : List Resource) (agreed : Prop) (w : Client) : Context where
  base := w.objects
  kept q := w.objects.Valid q
  others := start + total (share w.objects) w.handles
  agreed := agreed

section
variable (L : Ledger start agreed w)
include L

theorem Ledger.split (hh : h ∈ w.handles) :
    Holds w.objects.live (share w.objects h + (start + total (share w.objects) (w.handles.erase h))) :=
  L.holds.of_eq (by rw [total_split hh, add_left_comm])

theorem Ledger.ne_of_erase {h' : Handle} (hh : h ∈ w.handles) (hh' : h' ∈ w.handles.erase h) : h'.1 ≠ h.1 := by
  have hnodup : w.handles.Nodup := L.keys.of_map _
  obtain ⟨hne, hmem⟩ := hnodup.mem_erase_iff.mp hh'
  exact fun heq => hne (List.inj_on_of_nodup_map L.keys hmem hh heq)

theorem Ledger.here (hh : h ∈ w.handles) :
    Here (around start agreed w h) h.1 (share w.objects h) (w.objects.content h.1) w.objects where
  own := rfl
  content _ _ := rfl
  modes _ _ := rfl
  holds := L.split hh
  apart h := h rfl
  valid := by
    by_cases hown : h.1 ∈ w.objects.own
    · exact .inl hown
    · have hinit := (L.each h hh).known.resolve_left hown
      rw [share_inited hinit]
      exact .inr (Content.Sound.mem_share ((L.each h hh).sound hinit) (decide_eq_true hown))
  agrees hc hne hmem := by
    by_cases hinit : (w.objects.fd h.1).isInited = true
    · exact (L.each h hh).agrees hc hinit hne
    · rw [share_ended (Bool.eq_false_iff.mpr hinit)] at hmem
      exact absurd hmem (Multiset.notMem_zero _)
  here := rfl

/-- The others are as they were, when the object behind `h` has changed. -/
theorem Ledger.others (hh : h ∈ w.handles) (haway : Away (around start agreed w h) o) :
    ∀ h' ∈ w.handles.erase h, Kept agreed o h' ∧ share o h' = share w.objects h' := by
  intro h' hh'
  refine Kept.away (k := around start agreed w h) (L.each h' (List.mem_of_mem_erase hh')) haway (L.ne_of_erase hh hh') ?_
  exact fun d hd => Multiset.mem_add.mpr (.inr (mem_total.mpr ⟨h', hh', hd⟩))

theorem Ledger.rebuild (hh : h ∈ w.handles) (haway : Away (around start agreed w h) o)
    (hholds : Holds o.live (share o h + (around start agreed w h).others)) (hkept : Kept agreed o h) :
    Ledger start agreed ⟨o, w.handles⟩ where
  keys := L.keys
  holds := by
    have hrest : total (share o) (w.handles.erase h) = total (share w.objects) (w.handles.erase h) :=
      total_congr fun h' hh' => (L.others hh haway h' hh').2
    refine hholds.of_eq ?_
    show share o h + _ = start + total (share o) w.handles
    rw [total_split hh, hrest, add_left_comm]
    rfl
  each h' hh' := by
    by_cases heq : h' = h
    · exact heq ▸ hkept
    · exact (L.others hh haway h' ((List.mem_erase_of_ne heq).mpr hh')).1

theorem Ledger.drop (hh : h ∈ w.handles) (hbare : Bare (around start agreed w h) o) :
    Ledger start agreed ⟨o, w.handles.erase h⟩ where
  keys := L.keys.sublist (List.erase_sublist.map _)
  holds := by
    have hrest : total (share o) (w.handles.erase h) = total (share w.objects) (w.handles.erase h) :=
      total_congr fun h' hh' => (L.others hh hbare.toAway h' hh').2
    refine hbare.holds.of_eq ?_
    show _ = start + total (share o) (w.handles.erase h)
    rw [hrest]
    rfl
  each h' hh' := (L.others hh hbare.toAway h' hh').1

theorem Ledger.valid (hh : h ∈ w.handles) : w.objects.Valid h.1 := (L.here hh).isValid

/-- All are as they were, when an object has come into new memory. -/
theorem Ledger.all (haway : Away (beside start agreed w) o) :
    ∀ h ∈ w.handles, Kept agreed o h ∧ share o h = share w.objects h := by
  intro h hh
  refine Kept.away (k := beside start agreed w) (L.each h hh) haway (L.valid hh) ?_
  exact fun d hd => Multiset.mem_add.mpr (.inr (mem_total.mpr ⟨h, hh, hd⟩))

theorem Ledger.stay (hbare : Bare (beside start agreed w) o) : Ledger start agreed ⟨o, w.handles⟩ where
  keys := L.keys
  holds := by
    refine hbare.holds.of_eq ?_
    show _ = start + total (share o) w.handles
    rw [total_congr fun h hh => (L.all hbare.toAway h hh).2]
    rfl
  each h hh := (L.all hbare.toAway h hh).1

theorem Ledger.grow (haway : Away (beside start agreed w) o) (hnew : ¬ w.objects.Valid h.1)
    (hholds : Holds o.live (share o h + (beside start agreed w).others)) (hkept : Kept agreed o h) :
    Ledger start agreed ⟨o, h :: w.handles⟩ where
  keys := by
    refine List.nodup_cons.mpr ⟨fun hmem => ?_, L.keys⟩
    obtain ⟨h', hh', heq⟩ := List.mem_map.mp hmem
    exact hnew (heq ▸ L.valid hh')
  holds := by
    refine hholds.of_eq ?_
    show share o h + _ = start + total (share o) (h :: w.handles)
    rw [total_cons, total_congr fun h hh => (L.all haway h hh).2, add_left_comm]
    rfl
  each h' hh' := by
    rcases List.mem_cons.mp hh' with rfl | hh'
    · exact hkept
    · exact (L.all haway h' hh').1

end

/-! ### Calls -/

theorem kept_of_here {isAlloced : Bool} (ho : Here k p (x.share p kind) x o) (hp : p ≠ NULL) (hinit : x.fd.isInited = true)
    (hsound : x.Sound isAlloced kind) (hown : isAlloced = decide (p ∉ k.base.own)) :
    Kept k.agreed o (p, kind) ∧ share o (p, kind) = x.share p kind := by
  have hfd : o.fd p = x.fd := content_fd ho.here
  have hi : (o.fd p).isInited = true := by rw [hfd, hinit]
  refine ⟨⟨hp, .inr hi, fun _ => ?_, fun hc _ hne => ?_⟩, ?_⟩
  · rw [ho.here, ho.own, ← hown]
    exact hsound
  · rw [hfd] at hne ⊢
    exact ho.agrees hc hne (Content.mem_share_descriptor.mpr ⟨hne, rfl⟩)
  · rw [share_inited hi, ho.here]

section
variable (L : Ledger start agreed w)
include L

/-- An object in memory of its own has that memory. -/
theorem Ledger.mem_share (hh : h ∈ w.handles) : h.1 ∈ w.objects.own ∨ .block h.1 ∈ share w.objects h := (L.here hh).valid

theorem Ledger.create_new {c : Create} (hallowed : w.Allowed (.create c)) (hc : c.target = NULL) :
    ∃ w', w.call (.create c) = .ok w' ∧ Ledger start agreed w' := by
  have hready : Vacant (beside start agreed w) c.target w.objects := by
    rw [hc]
    exact .new ⟨⟨rfl, fun _ _ => rfl, fun _ _ => rfl⟩, L.holds⟩ fun _ hq => hq
  have hserver : ∀ skt client, c = .socketAccept skt client → skt ≠ NULL ∧ (beside start agreed w).kept skt ∧
      (skt ∈ w.objects.own ∨ .block skt ∈ (beside start agreed w).others) := by
    rintro skt client rfl
    obtain ⟨hmem, -⟩ := hallowed.2
    refine ⟨(L.each _ hmem).ne, L.valid hmem, (L.mem_share hmem).imp_right fun hr => ?_⟩
    exact Multiset.mem_add.mpr (.inr (mem_total.mpr ⟨_, hmem, hr⟩))
  obtain ⟨p, o, hrun, hmade⟩ := Create.run_made hserver _ hready
  refine ⟨⟨o, if c.target = NULL ∧ p ≠ NULL then (p, c.kind) :: w.handles else w.handles⟩, ?_, ?_⟩
  · simp only [Client.call, hrun]
    rfl
  rcases hmade with ⟨hbare, -⟩ | ⟨hp, -, ho, hX, hinit, hsound⟩
  · rw [if_neg fun h => h.2 rfl]
    exact L.stay hbare
  · have hown : p ∉ w.objects.own := fun hown => ho.apart (.inl hown)
    rw [if_pos ⟨hc, hp⟩]
    rw [hX] at ho
    obtain ⟨hkept, hshare⟩ := kept_of_here ho hp hinit hsound ((decide_eq_true hc).trans (decide_eq_true hown).symm)
    exact L.grow ho.toAway ho.apart (hshare ▸ ho.holds) hkept

theorem Ledger.create_own {c : Create} (hallowed : w.Allowed (.create c)) (hc : c.target ≠ NULL) :
    ∃ w', w.call (.create c) = .ok w' ∧ Ledger start agreed w' := by
  obtain ⟨hmem, hown, hend⟩ := hallowed.1.resolve_left hc
  have hready : Vacant (around start agreed w (c.target, c.kind)) c.target w.objects := by
    have hhere := L.here hmem
    rw [share_ended hend] at hhere
    exact .own hc hown hhere hend
  have hserver : ∀ skt client, c = .socketAccept skt client → skt ≠ NULL ∧
      (around start agreed w (c.target, c.kind)).kept skt ∧
      (skt ∈ w.objects.own ∨ .block skt ∈ (around start agreed w (c.target, c.kind)).others) := by
    rintro skt client rfl
    obtain ⟨hserver, hinit⟩ := hallowed.2
    have hne : skt ≠ client := fun heq => by
      subst heq
      exact absurd (hend.symm.trans hinit) (by decide)
    refine ⟨(L.each _ hserver).ne, hne, (L.mem_share hserver).imp_right fun hr => ?_⟩
    refine Multiset.mem_add.mpr (.inr (mem_total.mpr ⟨_, ?_, hr⟩))
    exact (List.mem_erase_of_ne fun heq => hne (congrArg Prod.fst heq)).mpr hserver
  obtain ⟨p, o, hrun, hmade⟩ := Create.run_made hserver _ hready
  refine ⟨⟨o, w.handles⟩, ?_, ?_⟩
  · simp only [Client.call, hrun]
    exact congrArg (fun hs => Except.ok (Client.mk o hs)) (if_neg fun h => hc h.1)
  rcases hmade with ⟨hbare, hended⟩ | ⟨hp, ht, ho, hX, hinit, hsound⟩
  · have hended := hended hc
    refine L.rebuild hmem hbare.toAway ?_ ⟨hc, .inl (hbare.own ▸ hown), fun h => ?_, fun _ h => ?_⟩
    · rw [share_ended hended, zero_add]
      exact hbare.holds
    · exact absurd (hended.symm.trans h) (by decide)
    · exact absurd (hended.symm.trans h) (by decide)
  · obtain rfl := ht hc
    rw [hX] at ho
    obtain ⟨hkept, hshare⟩ := kept_of_here ho hp hinit hsound
      ((decide_eq_false hc).trans (decide_eq_false (not_not_intro hown)).symm)
    exact L.rebuild hmem ho.toAway (hshare ▸ ho.holds) hkept

theorem Ledger.use {u : Use} (hallowed : w.Allowed (.use u)) (hagreed : agreed → w.Agreed (.use u)) :
    ∃ w', w.call (.use u) = .ok w' ∧ Ledger start agreed w' := by
  obtain ⟨hmem, hinit, hopen⟩ := hallowed
  have hhere := L.here hmem
  rw [share_inited hinit] at hhere
  have hfits : Use.Fits u agreed (w.objects.fd u.target) := by
    cases u with
    | openInto fd nonblock => exact ⟨hopen, hagreed⟩
    | fileOpen file path oflag => exact hagreed
    | _ => trivial
  obtain ⟨r, o, hrun, fd, b, openFlag, ho⟩ :=
    Use.run_used (k := around start agreed w (u.target, u.kind)) (x := w.objects.content u.target) (L.each _ hmem).ne hfits
      _ hhere
  refine ⟨⟨o, w.handles⟩, ?_, ?_⟩
  · simp only [Client.call, hrun]
    rfl
  have hrest : (w.objects.content u.target).rest u.target u.kind = Content.rest ⟨{ w.objects.fd u.target with
      fd := fd, isNoblock := b }, w.objects.socket u.target, { w.objects.file u.target with openFlag := openFlag }⟩
      u.target u.kind := by
    cases u.kind <;> rfl
  have hsound := (L.each _ hmem).sound hinit
  have hsound' : Content.Sound ⟨{ w.objects.fd u.target with fd := fd, isNoblock := b }, w.objects.socket u.target,
      { w.objects.file u.target with openFlag := openFlag }⟩ (u.target ∉ w.objects.own) u.kind := by
    revert hsound
    cases u.kind <;> exact id
  obtain ⟨hkept, hshare⟩ := kept_of_here (ho.of_eq (by rw [hrest]; rfl)) (L.each _ hmem).ne hinit hsound' rfl
  exact L.rebuild hmem ho.toAway (hshare ▸ ho.holds.of_eq (by rw [hrest]; rfl)) hkept

theorem Ledger.destroy (hh : h ∈ w.handles) : ∃ w', w.call (.destroy h) = .ok w' ∧ Ledger start agreed w' := by
  have hne := (L.each h hh).ne
  have hhere := L.here hh
  by_cases hinit : (w.objects.fd h.1).isInited = true
  · rw [share_inited hinit] at hhere
    have hown : h.1 ∈ w.objects.own ∨ decide (h.1 ∉ w.objects.own) = true :=
      (Classical.em _).imp_right fun hnot => decide_eq_true hnot
    obtain ⟨r, o, hrun, hgone⟩ := Kind.destroy_gone hne hinit ((L.each h hh).sound hinit) hown _ hhere
    refine ⟨⟨o, if h.1 ∈ w.objects.own then w.handles else w.handles.erase h⟩, ?_, ?_⟩
    · simp only [Client.call, hrun]
      rfl
    split
    next hown =>
      refine L.rebuild hh hgone.toAway ?_ ⟨hne, .inl (hgone.own ▸ hown), fun h => ?_, fun _ h => ?_⟩
      · rw [share_ended hgone.ended, zero_add]
        exact hgone.holds
      · exact absurd (hgone.ended.symm.trans h) (by decide)
      · exact absurd (hgone.ended.symm.trans h) (by decide)
    next => exact L.drop hh hgone.toBare
  · have hend := Bool.eq_false_iff.mpr hinit
    obtain ⟨r, o, hrun, ho⟩ := @Kind.destroy_ended _ _ _ _ h.2 hne hend _ hhere
    have hown : h.1 ∈ w.objects.own := (L.each h hh).known.resolve_right hinit
    have hended : (o.fd h.1).isInited = false := (congrArg FdObject.isInited (content_fd ho.here)).trans hend
    refine ⟨⟨o, w.handles⟩, ?_, ?_⟩
    · simp only [Client.call, hrun]
      exact congrArg (fun hs => Except.ok (Client.mk o hs)) (if_pos hown)
    refine L.rebuild hh ho.toAway ?_ ⟨hne, .inl (ho.own ▸ hown), fun h => ?_, fun _ h => ?_⟩
    · rw [share_ended hended]
      rw [share_ended hend] at ho
      exact ho.holds
    · exact absurd (hended.symm.trans h) (by decide)
    · exact absurd (hended.symm.trans h) (by decide)

/-- Every call that the caller may make returns, and keeps the ledger. -/
theorem Ledger.call {c : ClientCall} (hallowed : w.Allowed c) (hagreed : agreed → w.Agreed c) :
    ∃ w', w.call c = .ok w' ∧ Ledger start agreed w' := by
  cases c with
  | create c =>
    by_cases hc : c.target = NULL
    · exact L.create_new hallowed hc
    · exact L.create_own hallowed hc
  | use u => exact L.use hallowed hagreed
  | destroy h => exact L.destroy hallowed

end

/-! ### Runs -/

theorem Reachable.ledger (h : Reachable (Init start) Step w) : Ledger start False w := by
  refine Trans.Reachable.invariant h (fun _ hinit => hinit.ledger) fun w w' L hstep => ?_
  obtain ⟨c, hallowed, hcall⟩ := hstep
  obtain ⟨w'', hcall', L'⟩ := L.call hallowed fun hc => hc.elim
  rw [hcall] at hcall'
  exact Except.ok.inj hcall' ▸ L'

/-- A process whose next answers are `answers`, with a client that has nothing. -/
def idle (answers : List Int) : Client where
  objects := ⟨fun _ => FdObject.zero, fun _ => SocketObject.zero, fun _ => FileObject.zero, [], [], fun _ => false,
    fun n => answers.getD n 0, 0⟩
  handles := []

theorem idle_init (answers : List Int) : Init [] (idle answers) where
  keys := List.nodup_nil
  own _ h := absurd h List.not_mem_nil
  ended _ h := absurd h List.not_mem_nil
  live := rfl
  nodup := List.nodup_nil

theorem AgreedReachable.ledger (h : Reachable (Init start) AgreedStep w) : Ledger start True w := by
  refine Trans.Reachable.invariant h (fun _ hinit => hinit.ledger) fun w w' L hstep => ?_
  obtain ⟨c, hallowed, hagreed, hcall⟩ := hstep
  obtain ⟨w'', hcall', L'⟩ := L.call hallowed fun _ => hagreed
  rw [hcall] at hcall'
  exact Except.ok.inj hcall' ▸ L'

/-- When descriptors are opened with the modes that the flags tell, the flag of an object tells the mode of its descriptor
    at any time, and where a mode is set with success, the descriptor has it. -/
theorem reachable_modes (h : Reachable (Init start) AgreedStep w) : ∀ hd ∈ w.handles,
    (w.objects.fd hd.1).isInited = true → (w.objects.fd hd.1).fd ≠ QP_FD_INVALID →
      (w.objects.fd hd.1).isNoblock = w.objects.nonblock (w.objects.fd hd.1).fd ∧
      ∀ nonblock o, fdSetfl nonblock hd.1 w.objects = .ok (QP_SUCCESS, o) →
        o.nonblock (w.objects.fd hd.1).fd = nonblock := by
  have L := AgreedReachable.ledger h
  intro hd hh hinit hne
  refine ⟨(L.each hd hh).agrees trivial hinit hne, fun nonblock o hrun => ?_⟩
  have hhere := L.here hh
  have hmem : Resource.descriptor (w.objects.fd hd.1).fd ∈ share w.objects hd := by
    rw [share_inited hinit]
    exact Content.mem_share_descriptor.mpr ⟨hne, rfl⟩
  obtain ⟨ret, o', hrun', b, hb, ho⟩ :=
    @fdSetfl_here _ _ _ (w.objects.content hd.1) nonblock (L.each hd hh).ne (fun _ => hmem) _ hhere
  rw [hrun] at hrun'
  obtain ⟨rfl, rfl⟩ := Prod.mk.inj (Except.ok.inj hrun')
  exact (ho.agrees trivial hne hmem).symm.trans (hb rfl)

theorem reachable_modes_socket : ∃ w o, Reachable (Init []) AgreedStep w ∧
    fdSetfl true 1000 w.objects = .ok (QP_SUCCESS, o) ∧ o.nonblock 3 = true := by
  obtain ⟨w, hcall, hhandles, hfd, o, hset⟩ : ∃ w, (idle [1000, 3]).call
      (.create (.socketInit NULL QP_SOCKET_DOMAIN_INET QP_SOCKET_TYPE_STREAM (some [48, 46, 48, 46, 48, 46, 48]) 80 true 0)) =
        .ok w ∧
      w.handles = [(1000, .socket)] ∧ w.objects.fd 1000 = ⟨3, .socket, NULL, true, false, false⟩ ∧
      ∃ o, fdSetfl true 1000 w.objects = .ok (QP_SUCCESS, o) := ⟨_, rfl, by decide, by decide, _, rfl⟩
  have hreach : Reachable (Init []) AgreedStep w := by
    refine (Reachable.start (idle_init _)).tail ⟨_, ?_, ?_, hcall⟩
    · exact ⟨.inl rfl, trivial⟩
    · trivial
  have h := reachable_modes hreach (1000, .socket) (hhandles ▸ List.mem_cons_self)
  rw [hfd] at h
  exact ⟨w, o, hreach, hset, (h rfl (by decide)).2 true o hset⟩

end QPHi.Client
