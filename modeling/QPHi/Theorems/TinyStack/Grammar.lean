import QPHi.Theorems.TinyStack.Layers

/-! Which frames the parser takes for TCP or UDP, and the results for them. -/

namespace QPHi
namespace Stack

variable {order : ByteOrder} {frame : Frame} {len : Nat} {t : Transport}

/-! ### The frames that are accepted -/

/-- The result for a frame without options in its IPv4 and TCP headers. -/
def layout (order : ByteOrder) (frame : Frame) (l2Type : Proto) (l3Offset : Nat) (t : Transport) : FrameResult where
  l2Type := l2Type
  l2Offset := 0
  l3Type := .ip
  l3Offset := l3Offset
  l4Type := t.proto
  l4Offset := l3Offset + 20
  dataOffset := l3Offset + 20 + t.size
  sport := frame.load16 order (l3Offset + 20)
  dport := frame.load16 order (l3Offset + 22)
  smac := some 6
  dmac := some 0
  src := some (l3Offset + 12)
  dst := some (l3Offset + 16)

theorem parse_layout (hip : (linkHeader frame).l3 = .ip) (hproto : frame ((linkHeader frame).size + 9) = t.number)
    (hlen : (linkHeader frame).size + 20 + t.size ≤ len) :
    parse order frame len DLT_EN10MB levelTransmit =
      (QP_SUCCESS, layout order frame (linkHeader frame).l2 (linkHeader frame).size t) := by
  have hnetwork : networkParse frame len (whole (linkHeader frame)) = (ipResult (linkHeader frame) t.proto 12 16, .ip) := by
    rw [networkParse_ip hip, networkGetType_iff.mpr hproto, ipAnswer, if_neg (by rw [sizeofIpv4]; omega), hip]
  have hports : ¬len < (linkHeader frame).size + sizeofIpv4 + t.size := by
    rw [sizeofIpv4]
    omega
  rw [parse_transmit rfl (by omega), linkResult_whole (by omega), hnetwork, if_neg Proto.noConfusion, transmitParse_ports rfl,
    transmitPorts_ipResult, if_neg hports]
  simp only [ipResult, whole, hip]
  rfl

/-- A frame is taken for TCP or UDP exactly when its network layer is IPv4, the protocol field says so, and the headers
    are there in full. -/
theorem accepts_iff : ((parse order frame len DLT_EN10MB levelTransmit).1 = QP_SUCCESS ∧
    (parse order frame len DLT_EN10MB levelTransmit).2.l4Type = t.proto) ↔
      (linkHeader frame).l3 = .ip ∧ frame ((linkHeader frame).size + 9) = t.number ∧
        (linkHeader frame).size + 20 + t.size ≤ len := by
  constructor
  · intro h
    have hunknown : Proto.unknown ≠ t.proto := by cases t <;> exact Proto.noConfusion
    by_cases hsize : len < (linkHeader frame).size
    · rw [parse_short (by decide) hsize] at h
      cases h.1
    rw [Nat.not_lt] at hsize
    rw [parse_transmit rfl hsize, linkResult_whole hsize] at h
    by_cases hip : (linkHeader frame).l3 = .ip
    · rw [networkParse_ip hip, ipAnswer] at h
      split at h
      next => cases h.1
      next hlen =>
        rw [if_neg (by rw [hip]; exact Proto.noConfusion)] at h
        by_cases hports : ∃ t' : Transport, networkGetType (frame ((linkHeader frame).size + 9)) = t'.proto
        · obtain ⟨t', ht'⟩ := hports
          rw [ht', transmitParse_ports rfl, transmitPorts_ipResult] at h
          split at h
          next => exact absurd h.2 hunknown
          next hfits =>
            have htt : t'.proto = t.proto := h.2
            obtain rfl : t' = t := by cases t' <;> cases t <;> first | rfl | exact Proto.noConfusion htt
            rw [sizeofIpv4] at hfits
            exact ⟨hip, networkGetType_iff.mp ht', by omega⟩
        · rw [transmitParse_other fun t' ht' => hports ⟨t', ht'⟩] at h
          exact absurd h.2 hunknown
    · by_cases hipv6 : (linkHeader frame).l3 = .ipv6
      · rw [networkParse_ipv6 hipv6, ipAnswer] at h
        split at h
        next => cases h.1
        next =>
          split at h
          next => cases h.1
          next => exact absurd h.2 hunknown
      · rw [networkParse_other hip hipv6] at h
        cases h.1
  · rintro ⟨hip, hproto, hlen⟩
    rw [parse_layout hip hproto hlen]
    exact ⟨rfl, rfl⟩

theorem linkHeader_ethernetII (htype : frame.word 12 = 0x0800) : linkHeader frame = ⟨14, .unknown, .ethernetII, .ip⟩ := by
  rw [linkHeader_long (by omega), datalinkGetType_ip.mpr htype]

theorem linkHeader_ethernetSnap (hlen : frame.word 12 ≤ 0x05dc) (hid : frame.word 14 = 0xaaaa) (htype : frame.word 20 = 0x0800) :
    linkHeader frame = ⟨22, .ethernetSnap, .ethernetSnap, .ip⟩ := by
  rw [linkHeader_snap hlen hid, datalinkGetType_ip.mpr htype]

/-- The kinds of Ethernet header in front of IPv4. -/
theorem linkHeader_ip (h : (linkHeader frame).l3 = .ip) :
    frame.word 12 = 0x0800 ∨ (frame.word 12 ≤ 0x05dc ∧ frame.word 14 = 0xaaaa ∧ frame.word 20 = 0x0800) := by
  by_cases hlen : frame.word 12 ≤ 0x05dc
  · by_cases hnovell : frame.word 14 = 0xffff
    · rw [linkHeader_novell hlen hnovell] at h
      exact Proto.noConfusion h
    · by_cases hsnap : frame.word 14 = 0xaaaa
      · rw [linkHeader_snap hlen hsnap] at h
        exact .inr ⟨hlen, hsnap, datalinkGetType_ip.mp h⟩
      · rw [linkHeader_802 hlen hnovell hsnap] at h
        exact Proto.noConfusion h
  · rw [linkHeader_long (Nat.not_le.mp hlen)] at h
    exact .inl (datalinkGetType_ip.mp h)

/-- The frames that `qp_stack_parse` takes for TCP or UDP: Ethernet II or SNAP, with IPv4, the protocol, and both headers
    in full; and the results for them. -/
theorem parse_grammar (order : ByteOrder) (frame : Frame) (len : Nat) (t : Transport) :
    (((parse order frame len DLT_EN10MB levelTransmit).1 = QP_SUCCESS ∧
      (parse order frame len DLT_EN10MB levelTransmit).2.l4Type = t.proto) ↔
        (frame.word 12 = 0x0800 ∧ frame 23 = t.number ∧ 34 + t.size ≤ len) ∨
          (frame.word 12 ≤ 0x05dc ∧ frame.word 14 = 0xaaaa ∧ frame.word 20 = 0x0800 ∧ frame 31 = t.number ∧
            42 + t.size ≤ len)) ∧
      (frame.word 12 = 0x0800 ∧ frame 23 = t.number ∧ 34 + t.size ≤ len →
        parse order frame len DLT_EN10MB levelTransmit = (QP_SUCCESS, layout order frame .ethernetII 14 t)) ∧
      (frame.word 12 ≤ 0x05dc ∧ frame.word 14 = 0xaaaa ∧ frame.word 20 = 0x0800 ∧ frame 31 = t.number ∧ 42 + t.size ≤ len →
        parse order frame len DLT_EN10MB levelTransmit = (QP_SUCCESS, layout order frame .ethernetSnap 22 t)) := by
  refine ⟨?_, ?_, ?_⟩
  · rw [accepts_iff]
    constructor
    · rintro ⟨hip, hproto, hlen⟩
      rcases linkHeader_ip hip with hword | ⟨htype, hid, hword⟩
      · rw [linkHeader_ethernetII hword] at hproto hlen
        exact .inl ⟨hword, hproto, hlen⟩
      · rw [linkHeader_ethernetSnap htype hid hword] at hproto hlen
        exact .inr ⟨htype, hid, hword, hproto, hlen⟩
    · rintro (⟨hword, hproto, hlen⟩ | ⟨htype, hid, hword, hproto, hlen⟩)
      · rw [linkHeader_ethernetII hword]
        exact ⟨rfl, hproto, hlen⟩
      · rw [linkHeader_ethernetSnap htype hid hword]
        exact ⟨rfl, hproto, hlen⟩
  · rintro ⟨hword, hproto, hlen⟩
    have hk := linkHeader_ethernetII hword
    rw [parse_layout (t := t) (by rw [hk]) (by rw [hk]; exact hproto) (by rw [hk]; exact hlen), hk]
  · rintro ⟨htype, hid, hword, hproto, hlen⟩
    have hk := linkHeader_ethernetSnap htype hid hword
    rw [parse_layout (t := t) (by rw [hk]) (by rw [hk]; exact hproto) (by rw [hk]; exact hlen), hk]

end Stack

end QPHi
