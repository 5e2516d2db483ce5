import QPHi.Theorems.Objects.Functions

/-! # The objects around descriptors: how they are made

An object is made in memory of the caller where there is none, or in memory of its own (`Vacant`). If that succeeds, then it
has what an object of its kind has; if it fails at some point, then nothing is left of it (`Made`). -/

namespace QPHi.Objects
open Command Owned

/-- The resources that an object of a kind has besides its descriptor, and all of them. -/
def Content.rest (x : Content) (p : Ptr) : Kind → Multiset Resource
  | .fd => blocks x.fd.aio + itself x.fd.isAlloced p
  | .socket => blocks x.fd.aio + itself x.socket.isAlloced p
  | .file => blocks x.fd.aio + (blocks x.file.wrbuf + (blocks x.file.rdbuf + itself x.file.isAlloced p))

def Content.share (x : Content) (p : Ptr) (kind : Kind) : Multiset Resource := descriptors x.fd.fd + x.rest p kind

/-- The flags of an object tell whether its memory is its own; the `qp_fd_s` in a socket or a file has none of its own. -/
def Content.Sound (x : Content) (isAlloced : Bool) : Kind → Prop
  | .fd => x.fd.isAlloced = isAlloced
  | .socket => x.fd.isAlloced = false ∧ x.socket.isAlloced = isAlloced
  | .file => x.fd.isAlloced = false ∧ x.file.isAlloced = isAlloced

/-- An object is to be made in memory of its own, or in memory of the caller in which there is none. -/
inductive Vacant (k : Context) : Ptr → Objects → Prop
  | new {o : Objects} (h : Bare k o) (hkept : ∀ q, k.kept q → o.Valid q) : Vacant k NULL o
  | own {t : Ptr} {x : Content} {o : Objects} (ht : t ≠ NULL) (hown : t ∈ k.base.own) (h : Here k t 0 x o)
      (hend : x.fd.isInited = false) : Vacant k t o

/-- The result of a function that makes an object: none, or an object with resources that `C` tells. -/
inductive Made (k : Context) (t : Ptr) (C : Ptr → Multiset Resource → Content → Prop) : Ptr → Objects → Prop
  | failed {o : Objects} (h : Bare k o) (hend : t ≠ NULL → (o.fd t).isInited = false) : Made k t C NULL o
  | made {p : Ptr} {X : Multiset Resource} {x : Content} {o : Objects} (hp : p ≠ NULL) (ht : t ≠ NULL → p = t)
      (h : Here k p X x o) (hC : C p X x) : Made k t C p o

/-- An object of a kind with all that it has. -/
def Whole (t : Ptr) (kind : Kind) (p : Ptr) (X : Multiset Resource) (x : Content) : Prop :=
  X = x.share p kind ∧ x.fd.isInited = true ∧ x.Sound (t = NULL) kind

variable {k : Context} {t p : Ptr} {X Y : Multiset Resource} {x : Content} {o : Objects}
  {C C' : Ptr → Multiset Resource → Content → Prop}

theorem Vacant.failed (h : Vacant k t o) : Made k t C NULL o := by
  cases h with
  | new h _ => exact .failed h fun ht => absurd rfl ht
  | own ht _ h hend => exact .failed h.bare fun _ => (congrArg FdObject.isInited (content_fd h.here)).trans hend

theorem Gone.failed (h : Gone k p o) (ht : t ≠ NULL → p = t) : Made k t C NULL o :=
  .failed h.toBare fun hne => ht hne ▸ h.ended

/-- Memory for the object. -/
theorem Vacant.memory {m : Ptr → Cmd Objects Ptr}
    (hm : ∀ p x, p ≠ NULL → (t ≠ NULL → p = t) → (p ∈ k.base.own ∨ decide (t = NULL) = true) →
      Total (Here k p (itself (t = NULL) p) x) (m p) (Made k t C)) :
    Total (Vacant k t) (memoryFor t >>= fun p => if p = NULL then pure NULL else m p)
      (Made k t C) := by
  unfold memoryFor
  intro o ho
  cases ho with
  | @own _ x _ ht hown h _ =>
    rw [if_neg ht, pure_bind, if_neg ht]
    refine hm t x ht (fun _ => rfl) (.inl hown) o ?_
    rwa [decide_eq_false ht, itself_false]
  | new h hkept =>
    rw [if_pos rfl]
    unfold alloc
    simp only [bind_assoc]
    have htick : ∀ o : Objects, (Bare k o ∧ ∀ q, k.kept q → o.Valid q) →
        Bare k { o with clock := o.clock + 1 } ∧ ∀ q, k.kept q → { o with clock := o.clock + 1 }.Valid q :=
      fun o ho => ⟨ho.1.tick, ho.2⟩
    refine @answer_from _ _ (fun o => Bare k o ∧ ∀ q, k.kept q → o.Valid q) _ _ htick (fun a => ?_) o ⟨h, hkept⟩
    intro o ho
    rw [run_bind (rfl : (get : Cmd Objects Objects) o = .ok (o, o))]
    split
    next => exact ⟨NULL, o, rfl, .failed ho.1 fun ht => absurd rfl ht⟩
    next hfresh =>
      rw [not_or] at hfresh
      have hne : a.toNat ≠ NULL := hfresh.1
      have hlive : Resource.block a.toNat ∉ o.live := fun hmem => hfresh.2 (.inr hmem)
      show ∃ b o', ((if a.toNat = NULL then pure NULL else m a.toNat) _) = .ok (b, o') ∧ _
      rw [if_neg hne]
      refine hm a.toNat (o.content a.toNat) hne (fun ht => absurd rfl ht) (.inr rfl) _ ?_
      refine ⟨ho.1.toAway.trans rfl (fun _ _ => rfl) fun _ _ => rfl, ho.1.holds.acquire hlive, ?_,
        .inr (mem_itself.mpr ⟨rfl, rfl⟩), ?_, rfl⟩
      · exact fun hk => hfresh.2 (ho.2 _ hk)
      · exact fun _ _ hmem => absurd hmem mem_itself_descriptor

/-- What is done with an object that was made. -/
theorem Made.bind {m : Cmd Objects Ptr} {f : Ptr → Cmd Objects Ptr} (hm : Total (Vacant k t) m (Made k t C))
    (hf : ∀ p X x, p ≠ NULL → (t ≠ NULL → p = t) → (p ∈ k.base.own ∨ .block p ∈ X) → C p X x →
      Total (Here k p X x) (f p) (Made k t C')) :
    Total (Vacant k t) (m >>= fun p => if p = NULL then pure NULL else f p) (Made k t C') := by
  refine hm.bind fun p => ?_
  rintro o (⟨h, hend⟩ | ⟨hp, ht, h, hC⟩)
  · rw [if_pos rfl]
    exact ⟨NULL, o, rfl, .failed h hend⟩
  · rw [if_neg hp]
    exact hf p _ _ hp ht h.valid hC o h

/-! ### Descriptors -/

/-- What `memset` leaves at an address where no descriptor is. -/
theorem Here.clear_fd {f : FdObject} {m : Cmd Objects Ptr} {Q : Ptr → Objects → Prop}
    (hX : ∀ d, .descriptor d ∉ X) (h : Total (Here k p X ⟨f, x.socket, x.file⟩) m Q) :
    Total (Here k p X x) (setFd p (fun _ => f) >>= fun _ => m) Q :=
  Here.write_fd (fun _ _ _ _ hmem => absurd hmem (hX _)) h

/-- The rest of `qp_fd_init`. -/
theorem fdInit_rest {type : FdType} {aio isAlloced : Bool} {skt : SocketObject} {file : FileObject} :
    Total (Here k p X ⟨⟨QP_FD_INVALID, .unknow, NULL, true, isAlloced, false⟩, skt, file⟩) (do
        when aio do
          let block ← alloc
          setFd p fun x => { x with aio := block }
        setFd p fun x => { x with type := type }
        return p) fun r o => r = p ∧ ∃ q, (aio = false → q = NULL) ∧
      Here k p (blocks q + X) ⟨⟨QP_FD_INVALID, type, q, true, isAlloced, false⟩, skt, file⟩ o := by
  cases aio with
  | true =>
    rw [run_when rfl]
    simp only [bind_assoc]
    refine Here.alloc fun q => Here.write_fd (fun _ _ _ hne => absurd rfl hne)
      (Here.write_fd (fun _ _ _ hne => absurd rfl hne) ?_)
    exact Total.pure fun _ ho => ⟨rfl, q, fun h => absurd h (by decide), ho⟩
  | false =>
    rw [when_skip (by decide), pure_bind]
    refine Here.write_fd (fun _ _ _ hne => absurd rfl hne) (Total.pure fun _ ho => ?_)
    exact ⟨rfl, NULL, fun _ => rfl, by rwa [blocks_null, zero_add]⟩

/-- `qp_fd_init` for the `qp_fd_s` inside a socket or a file. -/
theorem fdInit_inside {type : FdType} {aio : Bool} (hp : p ≠ NULL) (hX : ∀ d, .descriptor d ∉ X) :
    Total (Here k p X x) (fdInit p type aio) fun r o => r = p ∧ ∃ q, (aio = false → q = NULL) ∧
      Here k p (blocks q + X) ⟨⟨QP_FD_INVALID, type, q, true, false, false⟩, x.socket, x.file⟩ o := by
  unfold fdInit fdCreate memoryFor
  simp only [if_neg hp, pure_bind, bind_assoc, decide_eq_false hp]
  exact Here.clear_fd hX (Here.write_fd (fun _ _ _ hne => absurd rfl hne) fdInit_rest)

theorem fdCreate_made : Total (Vacant k t) (fdCreate t) (Made k t fun p X x => X = itself (t = NULL) p ∧
    x.fd = ⟨QP_FD_INVALID, .unknow, NULL, true, t = NULL, false⟩) := by
  unfold fdCreate
  refine Vacant.memory fun p x hp ht _ => ?_
  refine Here.clear_fd (fun _ => mem_itself_descriptor) (Here.write_fd (fun _ _ _ hne => absurd rfl hne) ?_)
  exact Total.pure fun _ ho => .made hp ht ho ⟨rfl, rfl⟩

theorem fdInit_made {type : FdType} {aio : Bool} : Total (Vacant k t) (fdInit t type aio) (Made k t (Whole t .fd)) := by
  refine Made.bind fdCreate_made fun p X x hp ht _ hC => ?_
  obtain ⟨fd, skt, file⟩ := x
  obtain ⟨rfl, rfl⟩ := hC
  refine fdInit_rest.conseq (fun _ ho => ho) ?_
  rintro r o ⟨rfl, q, -, ho⟩
  exact .made hp ht ho ⟨by simp [Content.share, Content.rest], rfl, rfl⟩

/-! ### Sockets -/

theorem socketCreate_made : Total (Vacant k t) (socketCreate t) (Made k t fun p X x => X = itself (t = NULL) p ∧
    x.fd = ⟨QP_FD_INVALID, .socket, NULL, true, false, false⟩ ∧ x.socket = ⟨-1, -1, 0, false, t = NULL⟩) := by
  unfold socketCreate
  refine Vacant.memory fun p x hp ht _ => ?_
  refine Here.clear_fd (fun _ => mem_itself_descriptor) (Here.write_socket ?_)
  refine (fdInit_inside hp fun _ => mem_itself_descriptor).bind fun r => ?_
  rintro o ⟨rfl, q, hq, ho⟩
  rw [if_neg hp]
  rw [hq rfl, blocks_null, zero_add] at ho
  exact Here.write_socket (Total.pure fun _ ho => .made hp ht ho ⟨rfl, rfl, rfl⟩) o ho

/-- What is left of an object that could not be completed. -/
theorem Gone.none {destroy : Cmd Objects Int} (h : Total (Here k p X x) destroy fun _ => Gone k p)
    (ht : t ≠ NULL → p = t) : Total (Here k p X x) (destroy >>= fun _ => pure NULL) (Made k t C) :=
  h.bind fun _ => Total.pure fun _ ho => ho.failed ht

/-- The functions that fill in the address of a socket touch no resource. -/
theorem socketAssign_here {name : List UInt8} (hp : p ≠ NULL) : Total (Here k p X x) (socketAssign p name)
    fun r o => (r = p ∨ r = NULL) ∧ Here k p X x o := by
  have hsome : Total (Here k p X x) (pure p : Cmd Objects Ptr) fun r o => (r = p ∨ r = NULL) ∧ Here k p X x o :=
    Total.pure fun _ ho => ⟨.inl rfl, ho⟩
  have hnone : Total (Here k p X x) (pure NULL : Cmd Objects Ptr) fun r o => (r = p ∨ r = NULL) ∧ Here k p X x o :=
    Total.pure fun _ ho => ⟨.inr rfl, ho⟩
  unfold socketAssign
  refine Here.read_socket (Total.ite (fun _ => ?_) fun _ => Total.ite (fun _ => hnone) fun _ =>
    Total.ite (fun _ => ?_) fun _ => Total.ite (fun _ => hnone) fun _ => hnone)
  · unfold socketAssignInet socketIsListen
    refine Here.ask_socket hp (Total.ite (fun _ => hsome) fun _ => Here.answer fun _ => ?_)
    exact Total.ite (fun _ => hnone) fun _ => hsome
  · unfold socketAssignUnix socketIsListen
    refine Here.ask_socket hp (Total.ite (fun _ => Here.answer fun _ => hsome) fun _ => ?_)
    refine Here.answer fun _ => Here.answer fun _ => Total.ite (fun _ => hnone) fun _ => ?_
    exact Here.answer fun _ => Total.ite (fun _ => Here.answer fun _ => hnone) fun _ => hsome

/-- `qp_socket_init` gives back all that it has obtained where it fails: in `socket`, or where the address is not right. -/
theorem socketInit_made {domain type : Int} {name : Option (List UInt8)} {port : UInt16} {asServer : Bool} {backlog : Int} :
    Total (Vacant k t) (socketInit t domain type name port asServer backlog) (Made k t (Whole t .socket)) := by
  unfold socketInit
  refine Total.ite (fun _ => ?_) fun _ => Total.pure fun _ ho => ho.failed
  refine Made.bind socketCreate_made fun p X x hp ht hv hC => ?_
  obtain ⟨fd, skt, file⟩ := x
  obtain ⟨rfl, rfl, rfl⟩ := hC
  have hown : p ∈ k.base.own ∨ decide (t = NULL) = true := hv.imp_right fun hmem => (mem_itself.mp hmem).1
  have hrest : ∀ skt : SocketObject, skt.isAlloced = decide (t = NULL) →
      Total (Here k p (itself (t = NULL) p) ⟨⟨QP_FD_INVALID, .socket, NULL, true, false, false⟩, skt, file⟩) (do
        openInto p false
        if ← fdIsValid p then
          let assign ← socketAssign p (name.getD [])
          if assign ≠ NULL then return assign
          else
            let _ ← socketDestroy p
            return NULL
        else
          let _ ← socketDestroy p
          return NULL) (Made k t (Whole t .socket)) := by
    intro skt halloced
    refine Here.open_into (fun _ => rfl) rfl fun fd _ => ?_
    have hX : descriptors fd + itself (t = NULL) p = descriptors fd + (blocks NULL + itself skt.isAlloced p) := by
      rw [blocks_null, zero_add, halloced]
    have hdestroy := @socketDestroy_gone k p ⟨⟨fd, .socket, NULL, true, false, false⟩, skt, file⟩ hp rfl rfl (halloced ▸ hown)
    rw [hX]
    refine Here.ask_fd hp (Total.ite (fun _ => ?_) fun _ => Gone.none hdestroy ht)
    refine (socketAssign_here hp).bind fun r => Total.given ?_
    rintro (rfl | rfl)
    · rw [if_pos hp]
      exact Total.pure fun _ ho => .made hp ht ho ⟨rfl, rfl, rfl, halloced⟩
    · rw [if_neg (not_not_intro rfl)]
      exact Gone.none hdestroy ht
  refine Here.write_socket ?_
  cases asServer with
  | true =>
    rw [run_when rfl]
    simp only [bind_assoc]
    exact Here.write_socket (Here.write_socket (hrest _ rfl))
  | false =>
    rw [when_skip (by decide), pure_bind]
    exact hrest _ rfl

/-- Under `P` the object at `q` can be read, and is as in the beginning. -/
structure Reads (k : Context) (q : Ptr) (P : Objects → Prop) : Prop where
  valid : ∀ o, P o → o.Valid q
  content : ∀ o, P o → o.content q = k.base.content q

section
variable {q : Ptr} {β : Type} {P : Objects → Prop} {Q : β → Objects → Prop}

theorem Reads.of_away (hk : k.kept q) (hq : q ∈ k.base.own ∨ .block q ∈ k.others)
    (hP : ∀ o, P o → Away k o ∧ ∀ r ∈ k.others, r ∈ o.live) : Reads k q P where
  valid o ho := hq.imp (fun hown => (hP o ho).1.own ▸ hown) fun hr => (hP o ho).2 _ hr
  content o ho := (hP o ho).1.content q hk

theorem Reads.ready (hk : k.kept q) (hq : q ∈ k.base.own ∨ .block q ∈ k.others) : Reads k q (Vacant k t) := by
  refine .of_away hk hq fun o ho => ?_
  have hbare : Bare k o := by
    cases ho with
    | new h _ => exact h
    | own _ _ h _ => exact h.bare
  exact ⟨hbare.toAway, fun r hr => hbare.holds.mem.mpr hr⟩

theorem Reads.here (hk : k.kept q) (hq : q ∈ k.base.own ∨ .block q ∈ k.others) : Reads k q (Here k p X x) :=
  .of_away hk hq fun _ ho => ⟨ho.toAway, fun _ hr => ho.holds.mem.mpr (Multiset.mem_add.mpr (.inr hr))⟩

theorem Reads.fd (h : Reads k q P) {m : FdObject → Cmd Objects β} (hm : Total P (m (k.base.fd q)) Q) :
    Total P (fdAt q >>= m) Q := access_at h.valid (fun o ho => congrArg Content.fd (h.content o ho)) hm

theorem Reads.socket (h : Reads k q P) {m : SocketObject → Cmd Objects β} (hm : Total P (m (k.base.socket q)) Q) :
    Total P (socketAt q >>= m) Q := access_at h.valid (fun o ho => congrArg Content.socket (h.content o ho)) hm

end

/-- `qp_socket_accept` makes an object also where `accept` fails; it has no descriptor then. -/
theorem socketAccept_made {skt : Ptr} (hskt : skt ≠ NULL) (hk : k.kept skt)
    (hq : skt ∈ k.base.own ∨ .block skt ∈ k.others) :
    Total (Vacant k t) (socketAccept skt t) (Made k t (Whole t .socket)) := by
  have hfailed : Total (Vacant k t) (pure NULL) (Made k t (Whole t .socket)) := Total.pure fun _ ho => ho.failed
  unfold socketAccept socketIsListen socketIs fdIsValid fdIs
  simp only [if_neg hskt, bind_assoc, pure_bind]
  refine (Reads.ready hk hq).socket (Total.ite (fun _ => ?_) fun _ => hfailed)
  refine (Reads.ready hk hq).fd (Total.ite (fun _ => ?_) fun _ => hfailed)
  refine Made.bind socketCreate_made fun p X x hp ht hv hC => ?_
  obtain ⟨fd, client, file⟩ := x
  obtain ⟨rfl, rfl, rfl⟩ := hC
  refine (Reads.here hk hq).socket (Here.write_socket ((Reads.here hk hq).fd ?_))
  refine Here.open_into (fun _ => rfl) rfl fun fd _ => Total.pure fun _ ho => .made hp ht ho ⟨?_, rfl, rfl, rfl⟩
  rw [Content.share, Content.rest, blocks_null, zero_add]

/-! ### Files -/

theorem fileCreate_made {mod : BitVec 32} (hmod : mod &&& QP_FILE_AIO = 0) : Total (Vacant k t) (fileCreate t mod)
    (Made k t fun p X x => X = itself (t = NULL) p ∧ x.fd = ⟨QP_FD_INVALID, .file, NULL, true, false, false⟩ ∧
      x.file = ⟨NULL, NULL, 0, 0, O_RDONLY, false, t = NULL⟩) := by
  unfold fileCreate
  refine Vacant.memory fun p x hp ht _ => ?_
  refine Here.clear_fd (fun _ => mem_itself_descriptor) (Here.write_file ?_)
  refine (fdInit_inside hp fun _ => mem_itself_descriptor).bind fun r => ?_
  rintro o ⟨rfl, q, hq, ho⟩
  rw [if_neg hp]
  rw [hq (decide_eq_false (not_not_intro hmod)), blocks_null, zero_add] at ho
  exact Here.write_file (Total.pure fun _ ho => .made hp ht ho ⟨rfl, rfl, rfl⟩) o ho

theorem aio_masked (mod : BitVec 32) : mod &&& ~~~ QP_FILE_AIO &&& QP_FILE_AIO = 0 := by
  rw [BitVec.and_assoc, show ~~~ QP_FILE_AIO &&& QP_FILE_AIO = 0#32 from by decide]
  exact BitVec.and_zero

/-- The end of `qp_file_init`: a file for direct I/O needs both of its buffers. -/
theorem fileInit_end {mod : BitVec 32} {skt : SocketObject} {file : FileObject} (hp : p ≠ NULL) (ht : t ≠ NULL → p = t)
    (hown : p ∈ k.base.own ∨ decide (t = NULL) = true) (halloced : file.isAlloced = decide (t = NULL))
    (hX : X = blocks file.wrbuf + (blocks file.rdbuf + itself (t = NULL) p)) :
    Total (Here k p X ⟨⟨QP_FD_INVALID, .file, NULL, true, false, false⟩, skt, file⟩) (do
      let x ← fileAt p
      if QP_FILE_DIRECTIO &&& mod ≠ 0 ∧ (x.rdbuf = NULL ∨ x.wrbuf = NULL) then
        let _ ← fileDestroy p
        return NULL
      else return p) (Made k t (Whole t .file)) := by
  have hshare : X = descriptors QP_FD_INVALID + (blocks NULL + (blocks file.wrbuf + (blocks file.rdbuf +
      itself file.isAlloced p))) := by
    rw [descriptors_invalid, blocks_null, zero_add, zero_add, halloced, hX]
  have hdestroy :=
    @fileDestroy_gone k p ⟨⟨QP_FD_INVALID, .file, NULL, true, false, false⟩, skt, file⟩ hp rfl rfl (halloced ▸ hown)
  rw [hshare]
  refine Here.read_file (Total.ite (fun _ => Gone.none hdestroy ht) fun _ => ?_)
  exact Total.pure fun _ ho => .made hp ht ho ⟨rfl, rfl, rfl, halloced⟩

/-- `qp_file_init` gives back the object and the buffer it has where there is no memory for all of them. -/
theorem fileInit_made {mod : BitVec 32} {bufsize : Nat} :
    Total (Vacant k t) (fileInit t mod bufsize) (Made k t (Whole t .file)) := by
  unfold fileInit
  refine Made.bind (fileCreate_made (aio_masked mod)) fun p X x hp ht hv hC => ?_
  obtain ⟨fd, skt, file⟩ := x
  obtain ⟨rfl, rfl, rfl⟩ := hC
  have hown : p ∈ k.base.own ∨ decide (t = NULL) = true := hv.imp_right fun hmem => (mem_itself.mp hmem).1
  have hbuffers : ∀ (mod : BitVec 32) (file : FileObject), file.wrbuf = NULL → file.rdbuf = NULL →
      file.isAlloced = decide (t = NULL) →
      Total (Here k p (itself (t = NULL) p) ⟨⟨QP_FD_INVALID, .file, NULL, true, false, false⟩, skt, file⟩) (do
        when (mod = QP_FILE_DIRECTIO) do
          let wrbuf ← alloc
          setFile p fun x => { x with wrbuf := wrbuf }
          let rdbuf ← alloc
          setFile p fun x => { x with rdbuf := rdbuf }
          setFile p fun x => { x with isDirectIO := true }
        let x ← fileAt p
        if QP_FILE_DIRECTIO &&& mod ≠ 0 ∧ (x.rdbuf = NULL ∨ x.wrbuf = NULL) then
          let _ ← fileDestroy p
          return NULL
        else return p) (Made k t (Whole t .file)) := by
    intro mod file hwr hrd halloced
    by_cases hmod : mod = QP_FILE_DIRECTIO
    · rw [run_when hmod]
      simp only [bind_assoc]
      refine Here.alloc fun wrbuf => Here.write_file (Here.alloc fun rdbuf => Here.write_file (Here.write_file ?_))
      exact fileInit_end hp ht hown halloced (add_left_comm _ _ _)
    · rw [when_skip hmod, pure_bind]
      exact fileInit_end hp ht hown halloced (by rw [hwr, hrd, blocks_null, zero_add, zero_add])
  dsimp only
  by_cases hdirect : decide ( QP_FILE_DIRECTIO &&& (mod &&& ~~~ QP_FILE_AIO) ≠ 0 ∧ 0 < bufsize) = true
  · rw [run_when hdirect]
    exact Here.write_file (hbuffers _ _ rfl rfl rfl)
  · rw [when_skip hdirect, pure_bind]
    exact hbuffers _ _ rfl rfl rfl

/-! ### All kinds -/

theorem Create.run_made {c : Create} (hserver : ∀ skt client, c = .socketAccept skt client →
      skt ≠ NULL ∧ k.kept skt ∧ (skt ∈ k.base.own ∨ .block skt ∈ k.others)) :
    Total (Vacant k c.target) c.run (Made k c.target (Whole c.target c.kind)) := by
  cases c with
  | fdInit fd type aio => exact fdInit_made
  | socketInit skt domain type name port asServer serverBacklog => exact socketInit_made
  | socketAccept skt sktClient =>
    obtain ⟨hskt, hk, hq⟩ := hserver skt sktClient rfl
    exact socketAccept_made hskt hk hq
  | fileInit file mod bufsize => exact fileInit_made

/-- What a call that uses an object expects of its descriptor, and of its flag where flags tell the mode. -/
def Use.Fits (u : Use) (agreed : Prop) (fd : FdObject) : Prop :=
  match u with
  | .openInto _ nonblock => fd.fd = QP_FD_INVALID ∧ (agreed → fd.isNoblock = nonblock)
  | .fileOpen _ _ oflag => agreed → fd.isNoblock = oflag.getLsbD nonblockBit
  | _ => True

theorem Use.run_used {u : Use} (hp : u.target ≠ NULL) (hfits : Use.Fits u k.agreed x.fd) :
    Total (Here k u.target (descriptors x.fd.fd + Y) x) u.run fun _ => Used k u.target Y x := by
  have hclosed : ∀ o, Here k u.target Y { x with fd := { x.fd with fd := QP_FD_INVALID } } o → Used k u.target Y x o :=
    fun o ho => ⟨QP_FD_INVALID, x.fd.isNoblock, x.file.openFlag, by rwa [descriptors_invalid, zero_add]⟩
  cases u with
  | openInto fd nonblock =>
    rw [hfits.1, descriptors_invalid, zero_add]
    exact openInto_here hfits.2 hfits.1
  | fdClose fd => exact (fdClose_here hp).conseq (fun _ ho => ho) fun _ o ho => hclosed o ho
  | fdSetNoBlock fd => exact fdSetfl_used hp
  | fdSetBlock fd => exact fdSetfl_used hp
  | socketClose skt shut => exact (socketClose_here hp).conseq (fun _ ho => ho) fun _ o ho => hclosed o ho
  | socketSetNoblock skt => exact socketSetNoblock_used hp
  | fileOpen file path oflag => exact fileOpen_used hp hfits
  | fileClose file => exact (fileClose_here hp).conseq (fun _ ho => ho) fun _ o ho => hclosed o ho

theorem Kind.destroy_gone {kind : Kind} {isAlloced : Bool} (hp : p ≠ NULL) (hinit : x.fd.isInited = true)
    (hsound : x.Sound isAlloced kind) (hown : p ∈ k.base.own ∨ isAlloced = true) :
    Total (Here k p (x.share p kind) x) (kind.destroy p) fun _ => Gone k p := by
  cases kind with
  | fd =>
    have hsound : x.fd.isAlloced = isAlloced := hsound
    exact fdDestroy_gone hp hinit (hsound ▸ hown)
  | socket => exact socketDestroy_gone hp hinit hsound.1 (hsound.2 ▸ hown)
  | file => exact fileDestroy_gone hp hinit hsound.1 (hsound.2 ▸ hown)

/-- Where there is no object, there is nothing to destroy. -/
theorem Kind.destroy_ended {kind : Kind} (hp : p ≠ NULL) (hend : x.fd.isInited = false) :
    Total (Here k p X x) (kind.destroy p) fun _ => Here k p X x := by
  have hnot : ¬ x.fd.isInited = true := Bool.eq_false_iff.mp hend
  cases kind with
  | fd => exact Here.ask_fd hp (Total.ite (fun h => absurd h hnot) fun _ => Total.pure fun _ ho => ho)
  | socket => exact Here.ask_fd hp (Total.ite (fun h => absurd h hnot) fun _ => Total.pure fun _ ho => ho)
  | file => exact Here.ask_fd hp (Total.ite (fun h => absurd h hnot) fun _ => Total.pure fun _ ho => ho)

end QPHi.Objects
