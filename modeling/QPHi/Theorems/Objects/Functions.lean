import QPHi.Theorems.Objects.Rules

/-! # The objects around descriptors: the functions

What each function leaves of the resources of its object. A function that destroys leaves nothing (`Gone`); one that makes
an object leaves what the object has for its kind (`Made`), or nothing where it fails. -/

namespace QPHi.Objects
open Command Owned

variable {k : Context} {p : Ptr} {X Y : Multiset Resource} {x : Content} {t : Ptr}

/-! ### Descriptors -/

/-- Without a descriptor there is nothing to close. -/
theorem Here.closed {ret : Int} (hvalid : ¬ decide (x.fd.fd ≠ QP_FD_INVALID) = true) :
    Total (Here k p (descriptors x.fd.fd + Y) x) (pure ret : Cmd Objects Int) fun _ =>
      Here k p Y { x with fd := { x.fd with fd := QP_FD_INVALID } } := by
  have hinvalid : x.fd.fd = QP_FD_INVALID := not_not.mp fun hne => hvalid (decide_eq_true hne)
  refine Total.pure fun o ho => ?_
  rw [hinvalid, descriptors_invalid, zero_add] at ho
  rw [← hinvalid]
  exact ho

theorem fdClose_here (hp : p ≠ NULL) : Total (Here k p (descriptors x.fd.fd + Y) x) (fdClose p) fun _ =>
    Here k p Y { x with fd := { x.fd with fd := QP_FD_INVALID } } := by
  unfold fdClose fdIsValid
  refine Here.ask_fd hp (Total.ite (fun hvalid => ?_) fun hvalid => ?_)
  · refine Here.read_fd (Here.write_fd (fun _ _ _ hne => absurd rfl hne) ?_)
    exact Here.close (of_decide_eq_true hvalid)
  · exact Here.closed hvalid

/-- A descriptor that has been closed, with what `qp_fd_destroy` leaves of it. -/
def FdObject.ended (fd : FdObject) : FdObject :=
  { fd with fd := QP_FD_INVALID, type := .unknow, aio := NULL, isInited := false, isNoblock := false }

/-- `qp_fd_destroy` gives back the descriptor, the block for the AIO and, where it is allocated, the object. -/
theorem fdDestroy_here (hp : p ≠ NULL) (hinit : x.fd.isInited = true) (hv : p ∈ k.base.own ∨ .block p ∈ Y)
    (hself : x.fd.isAlloced = true → Y = itself true p) :
    Total (Here k p (descriptors x.fd.fd + (blocks x.fd.aio + Y)) x) (fdDestroy p) fun _ o =>
      if x.fd.isAlloced then Gone k p o else Here k p Y { x with fd := FdObject.ended x.fd } o := by
  obtain ⟨⟨fd, type, aio, isInited, isAlloced, isNoblock⟩, skt, file⟩ := x
  unfold fdDestroy fdIsInited
  refine Here.ask_fd hp (Total.ite (fun _ => ?_) fun h => absurd hinit h)
  refine (fdClose_here hp).bind fun _ => ?_
  refine Here.write_fd (fun _ _ _ hne => absurd rfl hne) (Here.read_fd ?_)
  dsimp only
  -- the flag of a descriptor that is not there does not matter any more
  have hrest : Total (Here k p Y ⟨⟨QP_FD_INVALID, .unknow, NULL, isInited, isAlloced, isNoblock⟩, skt, file⟩)
      (do
        setFd p fun x => { x with isNoblock := false }
        setFd p fun x => { x with isInited := false }
        if ← fdIsAlloced p then free p
        return QP_SUCCESS) fun _ o =>
      if isAlloced then Gone k p o
      else Here k p Y ⟨⟨QP_FD_INVALID, .unknow, NULL, false, isAlloced, false⟩, skt, file⟩ o := by
    refine Here.write_fd (fun _ _ _ hne => absurd rfl hne) (Here.write_fd (fun _ _ _ hne => absurd rfl hne) ?_)
    refine Here.ask_fd hp ?_
    cases isAlloced with
    | true =>
      rw [hself rfl]
      exact Here.free_itself hp rfl (Total.pure fun _ ho => ho)
    | false => exact Total.pure fun _ ho => ho
  by_cases haio : aio = NULL
  · rw [when_skip (not_not_intro haio), pure_bind, haio, blocks_null, zero_add]
    exact hrest
  · rw [run_when haio]
    simp only [bind_assoc]
    refine Here.read_fd (Here.free hv (Here.write_fd (fun _ _ _ hne => absurd rfl hne) ?_))
    exact hrest

/-- `qp_fd_setNoBlock` and `qp_fd_setBlock` change the flag of the object only together with the mode of the descriptor. -/
theorem fdSetfl_here {nonblock : Bool} (hp : p ≠ NULL) (hmem : x.fd.fd ≠ QP_FD_INVALID → .descriptor x.fd.fd ∈ X) :
    Total (Here k p X x) (fdSetfl nonblock p) fun ret o => ∃ b, (ret = QP_SUCCESS → b = nonblock) ∧
      Here k p X ⟨{ x.fd with isNoblock := b }, x.socket, x.file⟩ o := by
  have hsame : ∀ ret : Int, (ret = QP_SUCCESS → x.fd.isNoblock = nonblock) → Total (Here k p X x) (pure ret)
      fun ret o => ∃ b, (ret = QP_SUCCESS → b = nonblock) ∧ Here k p X ⟨{ x.fd with isNoblock := b }, x.socket, x.file⟩ o :=
    fun ret hret => Total.pure fun o ho => ⟨x.fd.isNoblock, hret, ho⟩
  have herror : (QP_ERROR = QP_SUCCESS → x.fd.isNoblock = nonblock) := fun h => absurd h (by decide)
  unfold fdSetfl fdIsNoblock
  rw [if_neg hp]
  refine Here.read_fd (Total.ite (fun _ => hsame _ herror) fun _ => ?_)
  refine Here.ask_fd hp (Total.ite (fun hflag => hsame _ fun _ => hflag) fun _ => ?_)
  refine Here.read_fd ?_
  unfold sysSetfl
  simp only [bind_assoc]
  refine Here.answer fun a => ?_
  intro o ho
  rw [run_bind (rfl : (get : Cmd Objects Objects) o = .ok (o, o))]
  split
  next hset =>
    have hX : Resource.descriptor x.fd.fd ∈ X := hmem fun heq => by
      rw [heq] at hset
      exact absurd hset.1 (by decide)
    -- the descriptor is of this object, so the modes of the others stay
    have haway : Away k { o with nonblock := Function.update o.nonblock x.fd.fd nonblock } := by
      refine ho.toAway.trans rfl (fun _ _ => rfl) fun d hd => Function.update_of_ne (fun heq => ?_) _ _
      exact ho.holds.apart hX (heq ▸ hd)
    refine @access_write _ p (fun o' => o' = { o with nonblock := Function.update o.nonblock x.fd.fd nonblock })
      (Here k p X ⟨{ x.fd with isNoblock := nonblock }, x.socket, x.file⟩) _ _ _ ?_ ?_
      (Total.pure fun o' ho' => ⟨nonblock, fun _ => rfl, ho'⟩) _ rfl
    · rintro o' rfl
      exact ho.isValid
    · rintro o' rfl
      refine ⟨haway.trans rfl (fun q hq => ?_) fun _ _ => rfl, ho.holds, ho.apart, ho.valid, fun _ _ _ => ?_, ?_⟩
      · have hqp : q ≠ p := fun heq => ho.apart (heq ▸ hq)
        simp [content, Function.update_of_ne hqp]
      · simp
      · simp [content, ← ho.here]
  next => exact hsame _ herror o ho

/-! ### The functions that use an object -/

/-- What is left by a function that uses the object: the object may have another descriptor, or none, and other flags. -/
def Used (k : Context) (p : Ptr) (Y : Multiset Resource) (x : Content) (o : Objects) : Prop :=
  ∃ fd b openFlag, Here k p (descriptors fd + Y) ⟨{ x.fd with fd := fd, isNoblock := b }, x.socket,
    { x.file with openFlag := openFlag }⟩ o

theorem openInto_here {nonblock : Bool} (hflag : k.agreed → x.fd.isNoblock = nonblock) (hx : x.fd.fd = QP_FD_INVALID) :
    Total (Here k p Y x) (openInto p nonblock >>= fun _ => pure QP_SUCCESS) fun _ => Used k p Y x :=
  Here.open_into hflag hx fun fd _ => Total.pure fun _ ho => ⟨fd, x.fd.isNoblock, x.file.openFlag, ho⟩

theorem fdSetfl_used {nonblock : Bool} (hp : p ≠ NULL) :
    Total (Here k p (descriptors x.fd.fd + Y) x) (fdSetfl nonblock p) fun _ => Used k p Y x := by
  refine (fdSetfl_here hp fun hne => ?_).conseq (fun _ ho => ho) fun _ o ho => ?_
  · exact Multiset.mem_add.mpr (.inl (mem_descriptors.mpr ⟨hne, rfl⟩))
  · obtain ⟨b, -, ho⟩ := ho
    exact ⟨x.fd.fd, b, x.file.openFlag, ho⟩

theorem socketClose_here {shut : Int} (hp : p ≠ NULL) : Total (Here k p (descriptors x.fd.fd + Y) x) (socketClose p shut)
    fun _ => Here k p Y { x with fd := { x.fd with fd := QP_FD_INVALID } } := by
  unfold socketClose fdIsValid
  refine Here.ask_fd hp (Total.ite (fun _ => ?_) fun hvalid => ?_)
  · by_cases hshut : shut ≠ QP_SOCKET_SHUT_CLOSE
    · rw [run_when hshut, bind_assoc]
      exact Here.answer fun _ => fdClose_here hp
    · rw [when_skip hshut]
      exact fdClose_here hp
  · exact Here.closed hvalid

theorem socketSetNoblock_used (hp : p ≠ NULL) :
    Total (Here k p (descriptors x.fd.fd + Y) x) (socketSetNoblock p) fun _ => Used k p Y x := by
  unfold socketSetNoblock
  rw [if_neg hp]
  exact fdSetfl_used hp

theorem fileClose_here (hp : p ≠ NULL) : Total (Here k p (descriptors x.fd.fd + Y) x) (fileClose p) fun _ =>
    Here k p Y { x with fd := { x.fd with fd := QP_FD_INVALID } } := by
  unfold fileClose fdIsValid
  rw [if_neg hp]
  refine Here.ask_fd hp (Total.ite (fun _ => Here.read_file (fdClose_here hp)) fun hvalid => Here.closed hvalid)

/-- A file that has a descriptor is not opened again, so no descriptor gets lost. -/
theorem fileOpen_used {path : Nat} {oflag : BitVec 32} (hp : p ≠ NULL)
    (hflag : k.agreed → x.fd.isNoblock = oflag.getLsbD nonblockBit) :
    Total (Here k p (descriptors x.fd.fd + Y) x) (fileOpen p path oflag) fun _ => Used k p Y x := by
  have hsame : Total (Here k p (descriptors x.fd.fd + Y) x) (pure QP_ERROR : Cmd Objects Int) fun _ => Used k p Y x :=
    Total.pure fun o ho => ⟨x.fd.fd, x.fd.isNoblock, x.file.openFlag, ho⟩
  unfold fileOpen fdIsValid
  rw [if_neg hp]
  refine Here.ask_fd hp (Total.ite (fun _ => hsame) fun h => ?_)
  have hinvalid : x.fd.fd = QP_FD_INVALID := not_not.mp fun hne => h (.inl (decide_eq_true hne))
  rw [hinvalid, descriptors_invalid, zero_add]
  -- the bit of `O_NONBLOCK` is not that of `O_DIRECT`
  have hrest : ∀ openFlag : BitVec 32, openFlag.getLsbD nonblockBit = oflag.getLsbD nonblockBit →
      Total (Here k p Y ⟨x.fd, x.socket, { x.file with openFlag := openFlag }⟩)
        (do
          openInto p ((← fileAt p).openFlag.getLsbD nonblockBit)
          if (← fdAt p).fd < 0 then return QP_ERROR
          else
            let _ ← answer
            return QP_SUCCESS) fun _ => Used k p Y x := by
    intro openFlag hbit
    refine Here.read_file (Here.open_into (fun hc => (hflag hc).trans hbit.symm) hinvalid fun fd _ => ?_)
    have hused : ∀ o, Here k p (descriptors fd + Y) ⟨{ x.fd with fd := fd }, x.socket, { x.file with openFlag := openFlag }⟩ o →
        Used k p Y x o := fun o ho => ⟨fd, x.fd.isNoblock, openFlag, ho⟩
    refine Here.read_fd (Total.ite (fun _ => Total.pure hused) fun _ => ?_)
    exact Here.answer fun _ => Total.pure hused
  refine Here.write_file (Here.ask_file hp ?_)
  dsimp only
  by_cases hdirect : x.file.isDirectIO = true
  · rw [run_when hdirect]
    refine Here.write_file (hrest (oflag ||| O_DIRECT) ?_)
    rw [BitVec.getLsbD_or]
    simp [O_DIRECT, nonblockBit]
  · rw [when_skip hdirect, pure_bind]
    exact hrest oflag rfl

/-! ### The functions that destroy an object -/

/-- `qp_fd_destroy` of the `qp_fd_s` inside a socket or a file, whose descriptor is closed already. -/
theorem fdDestroy_inside (hp : p ≠ NULL) (hinit : x.fd.isInited = true) (hin : x.fd.isAlloced = false)
    (hv : p ∈ k.base.own ∨ .block p ∈ Y) :
    Total (Here k p (blocks x.fd.aio + Y) { x with fd := { x.fd with fd := QP_FD_INVALID } }) (fdDestroy p)
      fun _ => Here k p Y { x with fd := FdObject.ended x.fd } := by
  have h := @fdDestroy_here k p Y { x with fd := { x.fd with fd := QP_FD_INVALID } } hp hinit hv
    fun halloced => absurd (hin.symm.trans halloced) (by decide)
  refine h.conseq (fun o ho => by rwa [descriptors_invalid, zero_add]) fun _ o ho => ?_
  rw [hin] at ho
  exact ho

theorem valid_itself {isAlloced : Bool} (h : p ∈ k.base.own ∨ isAlloced = true) :
    p ∈ k.base.own ∨ .block p ∈ itself isAlloced p := h.imp_right fun halloced => mem_itself.mpr ⟨halloced, rfl⟩

/-- The memory of an object that is allocated goes at the very end. -/
theorem Here.end_itself {isAlloced : Bool} (hp : p ≠ NULL) (hend : x.fd.isInited = false) :
    Total (Here k p (itself isAlloced p) x) (do
      if isAlloced = true then Objects.free p
      return QP_SUCCESS) fun _ => Gone k p := by
  cases isAlloced with
  | true => exact Here.free_itself hp hend (Total.pure fun _ ho => ho)
  | false => exact Total.pure fun _ ho => ho.gone hend

theorem fdDestroy_gone (hp : p ≠ NULL) (hinit : x.fd.isInited = true) (hown : p ∈ k.base.own ∨ x.fd.isAlloced = true) :
    Total (Here k p (descriptors x.fd.fd + (blocks x.fd.aio + itself x.fd.isAlloced p)) x) (fdDestroy p)
      fun _ => Gone k p := by
  refine (fdDestroy_here hp hinit (valid_itself hown) fun h => by rw [h]).conseq (fun _ ho => ho) fun _ o ho => ?_
  cases halloced : x.fd.isAlloced with
  | true =>
    rw [halloced] at ho
    exact ho
  | false =>
    rw [halloced] at ho
    exact Here.gone ho rfl

theorem socketDestroy_gone (hp : p ≠ NULL) (hinit : x.fd.isInited = true) (hin : x.fd.isAlloced = false)
    (hown : p ∈ k.base.own ∨ x.socket.isAlloced = true) :
    Total (Here k p (descriptors x.fd.fd + (blocks x.fd.aio + itself x.socket.isAlloced p)) x) (socketDestroy p)
      fun _ => Gone k p := by
  unfold socketDestroy fdIsInited
  refine Here.ask_fd hp (Total.ite (fun _ => ?_) fun h => absurd hinit h)
  refine (socketClose_here hp).bind fun _ => (fdDestroy_inside hp hinit hin (valid_itself hown)).bind fun _ => ?_
  exact Here.write_socket (Here.ask_socket hp (Here.end_itself hp rfl))

/-- A buffer of a file is given back, if there is one. -/
theorem Here.drop_buffer {g : FileObject → Ptr} {f : FileObject → FileObject} {m : Cmd Objects Int}
    {Q : Int → Objects → Prop} (hv : p ∈ k.base.own ∨ .block p ∈ Y) (hf : g x.file = NULL → f x.file = x.file)
    (h : Total (Here k p Y ⟨x.fd, x.socket, f x.file⟩) m Q) :
    Total (Here k p (blocks (g x.file) + Y) x) (do
      when (g (← fileAt p) ≠ NULL) do
        Objects.free (g (← fileAt p))
        setFile p f
      m) Q := by
  refine Here.read_file ?_
  by_cases hbuf : g x.file = NULL
  · rw [when_skip (not_not_intro hbuf), pure_bind, hbuf, blocks_null, zero_add]
    rw [hf hbuf] at h
    exact h
  · rw [run_when hbuf]
    simp only [bind_assoc]
    exact Here.read_file (Here.free hv (Here.write_file h))

theorem fileDestroy_gone (hp : p ≠ NULL) (hinit : x.fd.isInited = true) (hin : x.fd.isAlloced = false)
    (hown : p ∈ k.base.own ∨ x.file.isAlloced = true) :
    Total (Here k p (descriptors x.fd.fd + (blocks x.fd.aio + (blocks x.file.wrbuf + (blocks x.file.rdbuf +
      itself x.file.isAlloced p)))) x) (fileDestroy p) fun _ => Gone k p := by
  have hv := valid_itself hown
  have hv' : p ∈ k.base.own ∨ .block p ∈ blocks x.file.rdbuf + itself x.file.isAlloced p :=
    hv.imp_right fun hmem => Multiset.mem_add.mpr (.inr hmem)
  unfold fileDestroy fdIsInited
  refine Here.ask_fd hp (Total.ite (fun _ => ?_) fun h => absurd hinit h)
  refine (fileClose_here hp).bind fun _ => (fdDestroy_inside hp hinit hin ?_).bind fun _ => ?_
  · exact hv'.imp_right fun hmem => Multiset.mem_add.mpr (.inr hmem)
  · refine @Here.drop_buffer k p _ ⟨FdObject.ended x.fd, x.socket, x.file⟩ (·.wrbuf) _ _ _ hv' (fun h => ?_) ?_
    · exact h ▸ rfl
    refine @Here.drop_buffer k p _ ⟨FdObject.ended x.fd, x.socket, { x.file with wrbuf := NULL }⟩ (·.rdbuf) _ _ _ hv
      (fun h => ?_) ?_
    · exact h ▸ rfl
    exact Here.write_file (Here.ask_file hp (Here.end_itself hp rfl))

end QPHi.Objects
