import QPHi.Lib.Owned
import QPHi.Objects

/-! # The objects around descriptors: rules

An object has a descriptor, blocks of memory, and its own memory where that is allocated. While a function works on the
object at one address, what the other objects have stays theirs, and so does what is in them (`Away`); what the object at
the address has is known at every moment (`Here`). One rule for each access and each call of the system. -/

namespace QPHi.Objects
open Command Owned

/-- What is at an address. -/
structure Content where
  fd : FdObject
  socket : SocketObject
  file : FileObject

def content (o : Objects) (p : Ptr) : Content := ⟨o.fd p, o.socket p, o.file p⟩

/-- The resource behind a pointer, behind a descriptor, and behind an address that an object may have for itself. -/
def blocks (p : Ptr) : Multiset Resource := if p = NULL then 0 else {.block p}
def descriptors (fd : Int) : Multiset Resource := if fd = QP_FD_INVALID then 0 else {.descriptor fd}
def itself (isAlloced : Bool) (p : Ptr) : Multiset Resource := if isAlloced then {.block p} else 0

/-- What a function must leave alone: the objects at the addresses `kept`, as they are in `base`, and the resources
    `others`. Where `agreed` holds, the flag of an object tells whether its descriptor has `O_NONBLOCK`. -/
structure Context where
  base : Objects
  kept : Ptr → Prop
  others : Multiset Resource
  agreed : Prop

/-- What was to be left alone is as it was. -/
structure Away (k : Context) (o : Objects) : Prop where
  own : o.own = k.base.own
  content : ∀ q, k.kept q → o.content q = k.base.content q
  modes : ∀ d, .descriptor d ∈ k.others → o.nonblock d = k.base.nonblock d

/-- At `p` there is `x`, with the resources `X`. -/
structure Here (k : Context) (p : Ptr) (X : Multiset Resource) (x : Content) (o : Objects) : Prop extends Away k o where
  holds : Holds o.live (X + k.others)
  apart : ¬ k.kept p
  valid : p ∈ k.base.own ∨ .block p ∈ X
  agrees : k.agreed → x.fd.fd ≠ QP_FD_INVALID → .descriptor x.fd.fd ∈ X → x.fd.isNoblock = o.nonblock x.fd.fd
  here : o.content p = x

/-- There are no resources but those of the others. -/
structure Bare (k : Context) (o : Objects) : Prop extends Away k o where
  holds : Holds o.live k.others

/-- The object at `p` has come to its end. -/
structure Gone (k : Context) (p : Ptr) (o : Objects) : Prop extends Bare k o where
  ended : (o.fd p).isInited = false

/-! ### Resources -/

section
variable {p q : Ptr} {fd d : Int} {isAlloced : Bool} {X : Multiset Resource}

@[simp] theorem blocks_null : blocks NULL = 0 := rfl

@[simp] theorem descriptors_invalid : descriptors QP_FD_INVALID = 0 := rfl

@[simp] theorem itself_false : itself false p = 0 := rfl

theorem blocks_of_ne (h : p ≠ NULL) : blocks p = {.block p} := if_neg h

theorem descriptors_of_ne (h : fd ≠ QP_FD_INVALID) : descriptors fd = {.descriptor fd} := if_neg h

@[simp] theorem mem_blocks_descriptor : .descriptor d ∉ blocks p := by
  unfold blocks
  split <;> simp

@[simp] theorem mem_descriptors_block : .block p ∉ descriptors fd := by
  unfold descriptors
  split <;> simp

@[simp] theorem mem_itself_descriptor : .descriptor d ∉ itself isAlloced p := by
  unfold itself
  split <;> simp

theorem mem_itself : .block q ∈ itself isAlloced p ↔ isAlloced = true ∧ q = p := by
  unfold itself
  split <;> simp_all

theorem mem_descriptors : .descriptor d ∈ descriptors fd ↔ fd ≠ QP_FD_INVALID ∧ d = fd := by
  unfold descriptors
  split <;> simp_all

end

variable {α β : Type} {k : Context} {p q : Ptr} {X Y : Multiset Resource} {x : Content} {o o' : Objects}

/-! ### What is not touched -/

theorem content_fd (h : o.content p = x) : o.fd p = x.fd := congrArg Content.fd h

theorem content_socket (h : o.content p = x) : o.socket p = x.socket := congrArg Content.socket h

theorem content_file (h : o.content p = x) : o.file p = x.file := congrArg Content.file h

/-- A state that differs in what `Away` does not read. -/
theorem Away.trans (h : Away k o) (hown : o'.own = o.own) (hcontent : ∀ q, k.kept q → o'.content q = o.content q)
    (hmodes : ∀ d, .descriptor d ∈ k.others → o'.nonblock d = o.nonblock d) : Away k o' where
  own := hown.trans h.own
  content q hq := (hcontent q hq).trans (h.content q hq)
  modes d hd := (hmodes d hd).trans (h.modes d hd)

theorem Here.of_eq (h : Here k p X x o) (heq : X = Y) : Here k p Y x o := heq ▸ h

theorem Here.isValid (h : Here k p X x o) : o.Valid p := by
  rcases h.valid with hown | hblock
  · exact .inl (h.own ▸ hown)
  · exact .inr (h.holds.mem.mpr (Multiset.mem_add.mpr (.inl hblock)))

theorem Here.bare (h : Here k p 0 x o) : Bare k o := ⟨h.toAway, by simpa using h.holds⟩

theorem Here.gone (h : Here k p 0 x o) (hend : x.fd.isInited = false) : Gone k p o :=
  ⟨h.bare, (congrArg FdObject.isInited (content_fd h.here)).trans hend⟩

/-! ### Memory -/

/-- What is read at a valid address. -/
theorem access_at {P : Objects → Prop} {f : Objects → α} {y : α} {m : α → Cmd Objects β} {Q : β → Objects → Prop}
    (hv : ∀ o, P o → o.Valid q) (hf : ∀ o, P o → f o = y) (h : Total P (m y) Q) :
    Total P ((access q fun o => (f o, o)) >>= m) Q := by
  intro o ho
  have hread : access q (fun o => (f o, o)) o = .ok (y, o) := by
    unfold access
    rw [if_pos (hv o ho)]
    exact congrArg (fun y => Except.ok (y, o)) (hf o ho)
  rw [run_bind hread]
  exact h o ho

theorem Here.read_fd {m : FdObject → Cmd Objects β} {Q : β → Objects → Prop} (h : Total (Here k p X x) (m x.fd) Q) :
    Total (Here k p X x) (fdAt p >>= m) Q :=
  access_at (fun _ ho => ho.isValid) (fun _ ho => content_fd ho.here) h

theorem Here.read_socket {m : SocketObject → Cmd Objects β} {Q : β → Objects → Prop}
    (h : Total (Here k p X x) (m x.socket) Q) : Total (Here k p X x) (socketAt p >>= m) Q :=
  access_at (fun _ ho => ho.isValid) (fun _ ho => content_socket ho.here) h

theorem Here.read_file {m : FileObject → Cmd Objects β} {Q : β → Objects → Prop} (h : Total (Here k p X x) (m x.file) Q) :
    Total (Here k p X x) (fileAt p >>= m) Q :=
  access_at (fun _ ho => ho.isValid) (fun _ ho => content_file ho.here) h

theorem Here.ask_fd {f : FdObject → Bool} {m : Bool → Cmd Objects β} {Q : β → Objects → Prop} (hp : p ≠ NULL)
    (h : Total (Here k p X x) (m (f x.fd)) Q) : Total (Here k p X x) (fdIs f p >>= m) Q := by
  unfold fdIs
  rw [if_neg hp, bind_assoc]
  exact Here.read_fd h

theorem Here.ask_socket {f : SocketObject → Bool} {m : Bool → Cmd Objects β} {Q : β → Objects → Prop} (hp : p ≠ NULL)
    (h : Total (Here k p X x) (m (f x.socket)) Q) : Total (Here k p X x) (socketIs f p >>= m) Q := by
  unfold socketIs
  rw [if_neg hp, bind_assoc]
  exact Here.read_socket h

theorem Here.ask_file {f : FileObject → Bool} {m : Bool → Cmd Objects β} {Q : β → Objects → Prop} (hp : p ≠ NULL)
    (h : Total (Here k p X x) (m (f x.file)) Q) : Total (Here k p X x) (fileIs f p >>= m) Q := by
  unfold fileIs
  rw [if_neg hp, bind_assoc]
  exact Here.read_file h

/-- A state in which only the memory at `p` is new. -/
theorem Here.write {y : Content} (h : Here k p X x o) (hown : o'.own = o.own) (hlive : o'.live = o.live)
    (hnb : o'.nonblock = o.nonblock) (hcontent : ∀ q ≠ p, o'.content q = o.content q) (hhere : o'.content p = y)
    (hagrees : k.agreed → y.fd.fd ≠ QP_FD_INVALID → .descriptor y.fd.fd ∈ X → y.fd.isNoblock = o.nonblock y.fd.fd) :
    Here k p X y o' where
  toAway := h.toAway.trans hown (fun q hq => hcontent q fun hqp => h.apart (hqp ▸ hq)) fun d _ => congrFun hnb d
  holds := hlive ▸ h.holds
  apart := h.apart
  valid := h.valid
  agrees := hnb ▸ hagrees
  here := hhere

theorem access_write {P P' : Objects → Prop} {f : Objects → Objects} {m : Cmd Objects β} {Q : β → Objects → Prop}
    (hv : ∀ o, P o → o.Valid q) (hf : ∀ o, P o → P' (f o)) (h : Total P' m Q) :
    Total P (access q (fun o => ((), f o)) >>= fun _ => m) Q := by
  intro o ho
  have hwrite : access q (fun o => ((), f o)) o = .ok ((), f o) := by
    unfold access
    rw [if_pos (hv o ho)]
  rw [run_bind hwrite]
  exact h (f o) (hf o ho)

/-- Where the descriptor and its flag change, or are new, they have to agree. -/
theorem Here.write_fd {f : FdObject → FdObject} {m : Cmd Objects β} {Q : β → Objects → Prop}
    (hagrees : ∀ o, Here k p X x o → k.agreed → (f x.fd).fd ≠ QP_FD_INVALID → .descriptor (f x.fd).fd ∈ X →
      (f x.fd).isNoblock = o.nonblock (f x.fd).fd)
    (h : Total (Here k p X { x with fd := f x.fd }) m Q) : Total (Here k p X x) (setFd p f >>= fun _ => m) Q := by
  refine access_write (fun _ ho => ho.isValid) (fun o ho => ?_) h
  refine ho.write rfl rfl rfl (fun q hq => ?_) ?_ (hagrees o ho)
  · simp [content, Function.update_of_ne hq]
  · simp [content, ← ho.here]

theorem Here.write_socket {f : SocketObject → SocketObject} {m : Cmd Objects β} {Q : β → Objects → Prop}
    (h : Total (Here k p X { x with socket := f x.socket }) m Q) :
    Total (Here k p X x) (setSocket p f >>= fun _ => m) Q := by
  refine access_write (fun _ ho => ho.isValid) (fun o ho => ?_) h
  refine ho.write rfl rfl rfl (fun q hq => ?_) ?_ ho.agrees
  · simp [content, Function.update_of_ne hq]
  · simp [content, ← ho.here]

theorem Here.write_file {f : FileObject → FileObject} {m : Cmd Objects β} {Q : β → Objects → Prop}
    (h : Total (Here k p X { x with file := f x.file }) m Q) : Total (Here k p X x) (setFile p f >>= fun _ => m) Q := by
  refine access_write (fun _ ho => ho.isValid) (fun o ho => ?_) h
  refine ho.write rfl rfl rfl (fun q hq => ?_) ?_ ho.agrees
  · simp [content, Function.update_of_ne hq]
  · simp [content, ← ho.here]

/-! ### The system -/

/-- An answer of the system changes nothing else. -/
theorem answer_from {P P' : Objects → Prop} {m : Int → Cmd Objects β} {Q : β → Objects → Prop}
    (hP : ∀ o, P o → P' { o with clock := o.clock + 1 }) (h : ∀ a, Total P' (m a) Q) : Total P (answer >>= m) Q := by
  intro o ho
  rw [run_bind (rfl : answer o = .ok (o.answers o.clock, { o with clock := o.clock + 1 }))]
  exact h _ _ (hP o ho)

theorem Here.tick (h : Here k p X x o) : Here k p X x { o with clock := o.clock + 1 } :=
  h.write rfl rfl rfl (fun _ _ => rfl) h.here h.agrees

theorem Bare.tick (h : Bare k o) : Bare k { o with clock := o.clock + 1 } where
  toAway := h.toAway.trans rfl (fun _ _ => rfl) fun _ _ => rfl
  holds := h.holds

theorem Here.answer {m : Int → Cmd Objects β} {Q : β → Objects → Prop} (h : ∀ a, Total (Here k p X x) (m a) Q) :
    Total (Here k p X x) (answer >>= m) Q := answer_from (fun _ ho => ho.tick) h

/-- One more resource, which the object at `p` gets. -/
theorem Here.acquire {r : Resource} (h : Here k p X x o) (hr : r ∉ o.live)
    (hagrees : .descriptor x.fd.fd ≠ r) : Here k p ({r} + X) x { o with live := r :: o.live } where
  toAway := h.toAway.trans rfl (fun _ _ => rfl) fun _ _ => rfl
  holds := (h.holds.acquire hr).of_eq (add_assoc _ _ _).symm
  apart := h.apart
  valid := h.valid.imp_right fun hmem => Multiset.mem_add.mpr (.inr hmem)
  agrees hc hne hmem := by
    rcases Multiset.mem_add.mp hmem with hself | hmem
    · exact absurd (Multiset.mem_singleton.mp hself) hagrees
    · exact h.agrees hc hne hmem
  here := h.here

/-- A resource of the object at `p` goes, and the object is still there. -/
theorem Here.release {r : Resource} (h : Here k p ({r} + X) x o) (hv : p ∈ k.base.own ∨ .block p ∈ X) :
    r ∈ o.live ∧ Here k p X x { o with live := o.live.erase r } := by
  obtain ⟨hr, hholds⟩ := (h.holds.of_eq (add_assoc _ _ _)).release
  refine ⟨hr, h.toAway.trans rfl (fun _ _ => rfl) fun _ _ => rfl, hholds, h.apart, hv, fun hc hne hmem => ?_, h.here⟩
  exact h.agrees hc hne (Multiset.mem_add.mpr (.inr hmem))

/-- A block for the object at `p`, if there is memory. -/
theorem Here.alloc {m : Ptr → Cmd Objects β} {Q : β → Objects → Prop}
    (h : ∀ q, Total (Here k p (blocks q + X) x) (m q) Q) : Total (Here k p X x) (alloc >>= m) Q := by
  unfold Objects.alloc
  rw [bind_assoc]
  refine Here.answer fun a => ?_
  intro o ho
  rw [bind_assoc, run_bind (rfl : (get : Cmd Objects Objects) o = .ok (o, o))]
  split
  next => exact h NULL o (ho.of_eq (by simp))
  next hfresh =>
    rw [not_or] at hfresh
    have hlive : Resource.block a.toNat ∉ o.live := fun hmem => hfresh.2 (.inr hmem)
    refine h a.toNat _ ((ho.acquire hlive (by simp)).of_eq ?_)
    rw [blocks_of_ne hfresh.1]

theorem free_run (hq : q ≠ NULL) (hr : .block q ∈ o.live) :
    Objects.free q o = .ok ((), { o with live := o.live.erase (.block q) }) := by
  show (if q = NULL then _ else if Resource.block q ∈ o.live then _ else _ : Cmd Objects Unit) o = _
  rw [if_neg hq, if_pos hr]
  rfl

/-- A block of the object at `p`, which is not the one that the object is in. -/
theorem Here.free {m : Cmd Objects β} {Q : β → Objects → Prop} (hv : p ∈ k.base.own ∨ .block p ∈ X)
    (h : Total (Here k p X x) m Q) : Total (Here k p (blocks q + X) x) (free q >>= fun _ => m) Q := by
  intro o ho
  by_cases hq : q = NULL
  · have hfree : Objects.free q o = .ok ((), o) := by
      show (if q = NULL then _ else _ : Cmd Objects Unit) o = _
      rw [if_pos hq]
      rfl
    rw [run_bind hfree]
    exact h o (ho.of_eq (by rw [hq, blocks_null, zero_add]))
  · obtain ⟨hr, ho'⟩ := (ho.of_eq (by rw [blocks_of_ne hq]) : Here k p ({.block q} + X) x o).release hv
    rw [run_bind (free_run hq hr)]
    exact h _ ho'

/-- The memory of an object goes as the last of its resources. -/
theorem Here.free_itself (hp : p ≠ NULL) (hend : x.fd.isInited = false) {m : Cmd Objects β} {Q : β → Objects → Prop}
    (h : Total (Gone k p) m Q) : Total (Here k p (itself true p) x) (Objects.free p >>= fun _ => m) Q := by
  intro o ho
  obtain ⟨hr, hholds⟩ := (ho.holds : Holds o.live ({.block p} + k.others)).release
  rw [run_bind (free_run hp hr)]
  refine h _ ⟨⟨ho.toAway.trans rfl (fun _ _ => rfl) fun _ _ => rfl, hholds⟩, ?_⟩
  exact (congrArg FdObject.isInited (content_fd ho.here)).trans hend

/-- The descriptor of the object at `p` is closed, after the object has forgotten it. -/
theorem Here.close {fd : Int} (hfd : fd ≠ QP_FD_INVALID) :
    Total (Here k p (descriptors fd + X) x) (sysClose fd) fun _ => Here k p X x := by
  unfold sysClose
  refine Here.answer fun a => ?_
  intro o ho
  have hv : p ∈ k.base.own ∨ .block p ∈ X := by
    refine ho.valid.imp_right fun hmem => ?_
    exact (Multiset.mem_add.mp hmem).resolve_left mem_descriptors_block
  obtain ⟨hr, ho'⟩ := (ho.of_eq (by rw [descriptors_of_ne hfd]) : Here k p ({.descriptor fd} + X) x o).release hv
  rw [run_bind (rfl : (get : Cmd Objects Objects) o = .ok (o, o)), if_pos hr]
  exact ⟨_, _, rfl, ho'⟩

/-- What a call that opens answers becomes the descriptor of the object at `p`, if the flag fits. -/
theorem Here.open_into {nonblock : Bool} {m : Cmd Objects β} {Q : β → Objects → Prop}
    (hflag : k.agreed → x.fd.isNoblock = nonblock) (hx : x.fd.fd = QP_FD_INVALID)
    (h : ∀ fd, fd = QP_FD_INVALID ∨ 0 ≤ fd →
      Total (Here k p (descriptors fd + X) { x with fd := { x.fd with fd := fd } }) m Q) :
    Total (Here k p X x) (openInto p nonblock >>= fun _ => m) Q := by
  unfold openInto sysOpen
  simp only [bind_assoc]
  refine Here.answer fun a => ?_
  intro o ho
  rw [run_bind (rfl : (get : Cmd Objects Objects) o = .ok (o, o))]
  split
  next =>
    refine Here.write_fd (fun _ _ _ hne _ => absurd rfl hne) (h QP_FD_INVALID (.inl rfl)) o ?_
    rwa [descriptors_invalid, zero_add]
  next hfresh =>
    rw [not_or] at hfresh
    have hne : a ≠ QP_FD_INVALID := fun heq => hfresh.1 (heq ▸ (by decide : (-1 : Int) < 0))
    refine access_write (P := fun o' => Here k p (descriptors a + X) x o' ∧ o'.nonblock a = nonblock)
      (fun _ ho => ho.1.isValid) (fun o' ho' => ?_) (h a (.inr (by omega))) _ ⟨?_, ?_⟩
    · refine ho'.1.write rfl rfl rfl (fun q hq => ?_) ?_ fun hc _ _ => ?_
      · simp [content, Function.update_of_ne hq]
      · simp [content, ← ho'.1.here]
      · rw [ho'.2]
        exact hflag hc
    · have hacq := ho.acquire hfresh.2 fun heq => hne ((Resource.descriptor.inj heq).symm.trans hx)
      rw [descriptors_of_ne hne]
      refine ⟨hacq.toAway.trans rfl (fun _ _ => rfl) fun d hd => ?_, hacq.holds, hacq.apart, hacq.valid,
        fun _ hne' => absurd hx hne', hacq.here⟩
      refine Function.update_of_ne (fun heq => ?_) _ _
      exact hfresh.2 (heq ▸ ho.holds.mem.mpr (Multiset.mem_add.mpr (.inr hd)))
    · exact Function.update_self ..

end QPHi.Objects
