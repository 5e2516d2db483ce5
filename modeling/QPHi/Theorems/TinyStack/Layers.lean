import QPHi.TinyStack

/-! What each layer of the parser makes of a frame: the kind of Ethernet header it starts with, and the results of
    the three levels. -/

namespace QPHi

/-- The word at `i` in network byte order. -/
def Frame.word (frame : Frame) (i : Nat) : Nat := 256 * (frame i).toNat + (frame (i + 1)).toNat

theorem ntohs_load16 (order : ByteOrder) (frame : Frame) (i : Nat) : ntohs order (frame.load16 order i) = frame.word i := by
  have h₀ := (frame i).toNat_lt
  have h₁ := (frame (i + 1)).toNat_lt
  cases order with
  | little =>
    simp only [ntohs, Frame.load16, Frame.word]
    omega
  | big => rfl

namespace Stack

variable {order : ByteOrder} {frame : Frame} {len level : Nat} {link : Int}

/-! ### The kind of a frame -/

/-- An Ethernet header: its size, the link type that is stored before the length is checked, the link type after
    that, and the type of the network layer. -/
structure LinkHeader where
  size : Nat
  early : Proto
  l2 : Proto
  l3 : Proto
deriving DecidableEq, Repr

def linkHeader (frame : Frame) : LinkHeader :=
  if frame.word 12 ≤ 0x05dc then
    if frame.word 14 = 0xffff then ⟨14, .ethernetNovell, .ethernetNovell, .ipx⟩
    else if frame.word 14 = 0xaaaa then ⟨22, .ethernetSnap, .ethernetSnap, datalinkGetType (frame.word 20)⟩
    else ⟨17, .ethernet802, .ethernet802, .unknown⟩
  else ⟨14, .unknown, .ethernetII, datalinkGetType (frame.word 12)⟩

theorem linkHeader_long (h : 0x05dc < frame.word 12) :
    linkHeader frame = ⟨14, .unknown, .ethernetII, datalinkGetType (frame.word 12)⟩ :=
  if_neg (Nat.not_le.mpr h)

theorem linkHeader_novell (h : frame.word 12 ≤ 0x05dc) (hid : frame.word 14 = 0xffff) :
    linkHeader frame = ⟨14, .ethernetNovell, .ethernetNovell, .ipx⟩ := by
  rw [linkHeader, if_pos h, if_pos hid]

theorem linkHeader_snap (h : frame.word 12 ≤ 0x05dc) (hid : frame.word 14 = 0xaaaa) :
    linkHeader frame = ⟨22, .ethernetSnap, .ethernetSnap, datalinkGetType (frame.word 20)⟩ := by
  rw [linkHeader, if_pos h, if_neg (by rw [hid]; decide), if_pos hid]

theorem linkHeader_802 (h : frame.word 12 ≤ 0x05dc) (hnovell : frame.word 14 ≠ 0xffff) (hsnap : frame.word 14 ≠ 0xaaaa) :
    linkHeader frame = ⟨17, .ethernet802, .ethernet802, .unknown⟩ := by
  rw [linkHeader, if_pos h, if_neg hnovell, if_neg hsnap]

theorem linkHeader_size : 14 ≤ (linkHeader frame).size := by
  unfold linkHeader
  split
  · split
    · exact Nat.le_refl 14
    · split
      · exact Nat.le_add_right 14 8
      · exact Nat.le_add_right 14 3
  · exact Nat.le_refl 14

theorem linkHeader_l2 : (linkHeader frame).l2 ≠ .unknown := by
  unfold linkHeader
  split
  · split
    · exact Proto.noConfusion
    · split <;> exact Proto.noConfusion
  · exact Proto.noConfusion

/-- The result after a link header that is there in full. -/
def whole (k : LinkHeader) : FrameResult :=
  { FrameResult.zero with
    l2Type := k.l2
    l3Type := k.l3
    l3Offset := k.size
    smac := some 6
    dmac := some 0
    dataOffset := k.size }

/-- The result after the link layer. -/
def linkResult (k : LinkHeader) (len : Nat) : FrameResult :=
  if len < k.size then { FrameResult.zero with l2Type := k.early, l3Offset := k.size } else whole k

theorem datalinkEthernet_eq {k : LinkHeader} :
    datalinkEthernet k.size k.l2 k.l3 len { FrameResult.zero with l2Type := k.early } =
      (linkResult k len, if len < k.size then .unknown else k.l2) := by
  simp only [datalinkEthernet, linkResult, whole, FrameResult.zero, Nat.zero_add]
  split <;> rfl

theorem datalinkParse_eq : datalinkParse order frame len DLT_EN10MB .zero =
    (linkResult (linkHeader frame) len, if len < (linkHeader frame).size then .unknown else (linkHeader frame).l2) := by
  rw [← datalinkEthernet_eq]
  unfold datalinkParse linkHeader
  rw [if_pos rfl, ntohs_load16, ntohs_load16]
  by_cases htype : frame.word 12 ≤ 0x05dc
  · by_cases hnovell : frame.word 14 = 0xffff
    · simp only [if_pos htype, if_pos hnovell]
      rfl
    · by_cases hsnap : frame.word 14 = 0xaaaa
      · simp only [if_pos htype, if_neg hnovell, if_pos hsnap]
        rw [← ntohs_load16 order frame 20]
        rfl
      · simp only [if_pos htype, if_neg hnovell, if_neg hsnap]
        rfl
  · simp only [if_neg htype]
    rw [← ntohs_load16 order frame 12]
    rfl

/-! ### The three levels -/

/-- The level that is parsed. -/
def levelOf (level : Nat) : Nat := max levelDatalink (min level levelTransmit)

theorem levelOf_cases (level : Nat) : levelOf level = 1 ∨ levelOf level = 2 ∨ levelOf level = 3 := by
  unfold levelOf levelDatalink levelTransmit
  omega

theorem parse_eq : parse order frame len link level = layers order frame len link (levelOf level) (levelOf level) 0 .zero := by
  have hlevel : (if (if level > levelTransmit then levelTransmit else level) < levelDatalink then levelDatalink
      else if level > levelTransmit then levelTransmit else level) = levelOf level := by
    unfold levelOf levelDatalink levelTransmit
    split <;> split at * <;> omega
  simp only [parse, hlevel]

theorem parse_other (hlink : link ≠ DLT_EN10MB) :
    parse order frame len link level = (if levelOf level = 1 then QP_SUCCESS else QP_ERROR, .zero) := by
  have hlayer : layer order frame len link 0 .zero = (.zero, .unknown) := by
    simp only [layer, datalinkParse, if_neg hlink]
    rfl
  rw [parse_eq]
  rcases levelOf_cases level with h | h | h <;> rw [h] <;> simp [layers, hlayer]

theorem parse_datalink (hlevel : levelOf level = 1) :
    parse order frame len DLT_EN10MB level = (QP_SUCCESS, linkResult (linkHeader frame) len) := by
  rw [parse_eq, hlevel]
  simp [layers, layer, datalinkParse_eq]

theorem parse_short (hlevel : levelOf level ≠ 1) (hlen : len < (linkHeader frame).size) :
    parse order frame len DLT_EN10MB level = (QP_ERROR, linkResult (linkHeader frame) len) := by
  rw [parse_eq]
  rcases levelOf_cases level with h | h | h
  · exact absurd h hlevel
  · rw [h]
    simp [layers, layer, datalinkParse_eq, hlen]
  · rw [h]
    simp [layers, layer, datalinkParse_eq, hlen]

theorem parse_network (hlevel : levelOf level = 2) (hlen : (linkHeader frame).size ≤ len) :
    parse order frame len DLT_EN10MB level =
      (QP_SUCCESS, (networkParse frame len (linkResult (linkHeader frame) len)).1) := by
  rw [parse_eq, hlevel]
  simp [layers, layer, datalinkParse_eq, Nat.not_lt.mpr hlen, linkHeader_l2]

theorem parse_transmit (hlevel : levelOf level = 3) (hlen : (linkHeader frame).size ≤ len) :
    parse order frame len DLT_EN10MB level =
      if (networkParse frame len (linkResult (linkHeader frame) len)).2 = .unknown then
        (QP_ERROR, (networkParse frame len (linkResult (linkHeader frame) len)).1)
      else
        (QP_SUCCESS, (transmitParse order frame len (networkParse frame len (linkResult (linkHeader frame) len)).1).1) := by
  rw [parse_eq, hlevel]
  simp [layers, layer, datalinkParse_eq, Nat.not_lt.mpr hlen, linkHeader_l2]

/-! ### The network and transport layers -/

theorem linkResult_whole {k : LinkHeader} (hlen : k.size ≤ len) : linkResult k len = whole k := if_neg (Nat.not_lt.mpr hlen)

/-- The result after an IP header, with the places of its addresses. -/
def ipResult (k : LinkHeader) (l4Type : Proto) (src dst : Nat) : FrameResult :=
  { whole k with
    l4Type := l4Type
    l4Offset := k.size + sizeofIpv4
    src := some (k.size + src)
    dst := some (k.size + dst)
    dataOffset := k.size + sizeofIpv4 }

/-- What the network layer answers about a header whose first 20 bytes are there or not. -/
def ipAnswer (k : LinkHeader) (l4Type : Proto) (src dst len : Nat) : FrameResult × Proto :=
  if len < k.size + sizeofIpv4 then ({ whole k with l3Type := .unknown, l4Offset := k.size + sizeofIpv4 }, .unknown)
  else (ipResult k l4Type src dst, k.l3)

theorem networkIp_whole {k : LinkHeader} {l4Type : Proto} {src dst : Nat} :
    networkIp l4Type src dst len (whole k) = ipAnswer k l4Type src dst len := by
  unfold networkIp ipAnswer ipResult
  rfl

theorem networkParse_ip {k : LinkHeader} (hk : k.l3 = .ip) :
    networkParse frame len (whole k) = ipAnswer k (networkGetType (frame (k.size + 9))) 12 16 len := by
  rw [← networkIp_whole]
  simp only [networkParse, whole, hk]
  rfl

theorem networkParse_ipv6 {k : LinkHeader} (hk : k.l3 = .ipv6) :
    networkParse frame len (whole k) = ipAnswer k .unknown 8 24 len := by
  rw [← networkIp_whole]
  simp only [networkParse, whole, hk]
  rfl

theorem networkParse_other {k : LinkHeader} (hip : k.l3 ≠ .ip) (hipv6 : k.l3 ≠ .ipv6) :
    networkParse frame len (whole k) = ({ whole k with l3Type := .unknown }, .unknown) := by
  unfold networkParse
  split
  next h => exact absurd h hip
  next h => exact absurd h hipv6
  next => rfl

/-- The two protocols that have ports. -/
inductive Transport where
  | tcp
  | udp
deriving DecidableEq, Repr

def Transport.proto : Transport → Proto
  | .tcp => .tcp
  | .udp => .udp

def Transport.number : Transport → UInt8
  | .tcp => 6
  | .udp => 17

def Transport.size : Transport → Nat
  | .tcp => sizeofTcp
  | .udp => sizeofUdp

theorem transmitParse_ports {result : FrameResult} {t : Transport} (h : result.l4Type = t.proto) :
    transmitParse order frame len result = transmitPorts order t.size frame len result := by
  cases t with
  | tcp => simp only [transmitParse, h, Transport.proto]; rfl
  | udp => simp only [transmitParse, h, Transport.proto]; rfl

/-- The transport layer after an IP header, when the ports are there or not. -/
theorem transmitPorts_ipResult {k : LinkHeader} {l4Type : Proto} {src dst size : Nat} :
    transmitPorts order size frame len (ipResult k l4Type src dst) =
      if len < k.size + sizeofIpv4 + size then
        ({ ipResult k l4Type src dst with l4Type := .unknown, dataOffset := k.size + sizeofIpv4 + size }, .unknown)
      else
        ({ ipResult k l4Type src dst with
          dataOffset := k.size + sizeofIpv4 + size
          sport := frame.load16 order (k.size + sizeofIpv4)
          dport := frame.load16 order (k.size + sizeofIpv4 + 2) }, l4Type) := by
  unfold transmitPorts
  rfl

theorem transmitParse_other {result : FrameResult} (h : ∀ t : Transport, result.l4Type ≠ t.proto) :
    transmitParse order frame len result = ({ result with l4Type := .unknown }, .unknown) := by
  unfold transmitParse
  split
  next htcp => exact absurd htcp (h .tcp)
  next hudp => exact absurd hudp (h .udp)
  next => rfl

theorem networkGetType_iff {b : UInt8} {t : Transport} : networkGetType b = t.proto ↔ b = t.number := by
  constructor
  · intro h
    cases t with
    | tcp =>
      unfold networkGetType at h
      split at h <;> first | exact Proto.noConfusion h | skip
      next hb => exact UInt8.toNat_inj.mp hb
    | udp =>
      unfold networkGetType at h
      split at h <;> first | exact Proto.noConfusion h | skip
      next hb => exact UInt8.toNat_inj.mp hb
  · rintro rfl
    cases t <;> rfl

theorem datalinkGetType_ip {n : Nat} : datalinkGetType n = .ip ↔ n = 0x0800 := by
  constructor
  · intro h
    unfold datalinkGetType at h
    split at h
    · exact Proto.noConfusion h
    · split at h
      · exact Proto.noConfusion h
      · split at h <;> first | rfl | exact Proto.noConfusion h
  · rintro rfl
    rfl

end Stack

end QPHi
