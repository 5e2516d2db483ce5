import QPHi.Theorems.TinyStack.Layers

/-! What the parser finds behind a link header does not depend on the header: two frames with the same payload, and with
    headers that name the same protocol for it, have the same network and transport layers, moved by the difference of
    the sizes of the headers. So a frame may be taken out of Ethernet II and put behind a SNAP header. -/

namespace QPHi
namespace Stack

variable {order : ByteOrder} {frame frame' : Frame} {n level : Nat}

/-- Both frames carry the same `n` bytes behind their link headers, which name the same protocol. -/
structure SamePayload (n : Nat) (frame frame' : Frame) : Prop where
  proto : (linkHeader frame').l3 = (linkHeader frame).l3
  bytes : ∀ i < n, frame' ((linkHeader frame').size + i) = frame ((linkHeader frame).size + i)

/-- An offset behind the header `k`, moved behind the header `k'`. Zero is the offset of a layer that was not looked
    for. -/
def moveOffset (k k' : LinkHeader) (i : Nat) : Nat := if i = 0 then 0 else i - k.size + k'.size

/-- A result about a frame with the header `k`, moved behind the header `k'`. -/
def moveResult (k k' : LinkHeader) (r : FrameResult) : FrameResult :=
  { r with
    l2Type := k'.l2
    l3Offset := moveOffset k k' r.l3Offset
    l4Offset := moveOffset k k' r.l4Offset
    dataOffset := moveOffset k k' r.dataOffset
    src := r.src.map (moveOffset k k')
    dst := r.dst.map (moveOffset k k') }

/-! ### The offsets -/

theorem moveOffset_add {k k' : LinkHeader} (hk : 0 < k.size) (i : Nat) : moveOffset k k' (k.size + i) = k'.size + i := by
  rw [moveOffset, if_neg (by omega)]
  omega

theorem moveOffset_size {k k' : LinkHeader} (hk : 0 < k.size) : moveOffset k k' k.size = k'.size := moveOffset_add hk 0

theorem moveOffset_zero {k k' : LinkHeader} : moveOffset k k' 0 = 0 := if_pos rfl

theorem linkHeader_pos : 0 < (linkHeader frame).size := Nat.lt_of_lt_of_le (by decide) linkHeader_size

/-! ### The layers -/

variable {k k' : LinkHeader}

theorem whole_move (hk : 0 < k.size) (hproto : k'.l3 = k.l3) : whole k' = moveResult k k' (whole k) := by
  simp only [moveResult, whole, FrameResult.zero, moveOffset_size hk, moveOffset_zero, hproto, Option.map_none]

theorem ipResult_move (hk : 0 < k.size) (hproto : k'.l3 = k.l3) {l4Type : Proto} {src dst : Nat} :
    ipResult k' l4Type src dst = moveResult k k' (ipResult k l4Type src dst) := by
  simp only [moveResult, ipResult, whole, FrameResult.zero, moveOffset_size hk, moveOffset_add hk, hproto,
    Option.map_some]

theorem ipAnswer_move (hk : 0 < k.size) (hproto : k'.l3 = k.l3) {l4Type : Proto} {src dst : Nat} :
    ipAnswer k' l4Type src dst (k'.size + n) =
      (moveResult k k' (ipAnswer k l4Type src dst (k.size + n)).1, (ipAnswer k l4Type src dst (k.size + n)).2) := by
  unfold ipAnswer
  by_cases hlen : n < sizeofIpv4
  · rw [if_pos (Nat.add_lt_add_left hlen _), if_pos (Nat.add_lt_add_left hlen _)]
    simp only [moveResult, whole, FrameResult.zero, moveOffset_size hk, moveOffset_add hk, Option.map_none]
  · rw [if_neg fun h => hlen (Nat.lt_of_add_lt_add_left h), if_neg fun h => hlen (Nat.lt_of_add_lt_add_left h)]
    simp only [ipResult_move hk hproto, hproto]

theorem ipAnswer_short {l4Type l4Type' : Proto} {src dst : Nat} (hlen : n < sizeofIpv4) :
    ipAnswer k l4Type src dst (k.size + n) = ipAnswer k l4Type' src dst (k.size + n) := by
  unfold ipAnswer
  rw [if_pos (Nat.add_lt_add_left hlen _), if_pos (Nat.add_lt_add_left hlen _)]

theorem networkParse_move (h : SamePayload n frame frame') :
    networkParse frame' ((linkHeader frame').size + n) (whole (linkHeader frame')) =
      (moveResult (linkHeader frame) (linkHeader frame')
        (networkParse frame ((linkHeader frame).size + n) (whole (linkHeader frame))).1,
        (networkParse frame ((linkHeader frame).size + n) (whole (linkHeader frame))).2) := by
  by_cases hip : (linkHeader frame).l3 = .ip
  · rw [networkParse_ip hip, networkParse_ip (h.proto.trans hip), ← ipAnswer_move linkHeader_pos h.proto]
    by_cases hlen : n < sizeofIpv4
    · exact ipAnswer_short hlen
    · rw [h.bytes 9 (by unfold sizeofIpv4 at hlen; omega)]
  by_cases hipv6 : (linkHeader frame).l3 = .ipv6
  · rw [networkParse_ipv6 hipv6, networkParse_ipv6 (h.proto.trans hipv6), ← ipAnswer_move linkHeader_pos h.proto]
  · have hip' : (linkHeader frame').l3 ≠ .ip := h.proto ▸ hip
    have hipv6' : (linkHeader frame').l3 ≠ .ipv6 := h.proto ▸ hipv6
    rw [networkParse_other hip hipv6, networkParse_other hip' hipv6', whole_move linkHeader_pos h.proto]
    rfl

theorem SamePayload.load16 (h : SamePayload n frame frame') {i : Nat} (hi : i + 1 < n) :
    frame'.load16 order ((linkHeader frame').size + i) = frame.load16 order ((linkHeader frame).size + i) := by
  unfold Frame.load16
  rw [Nat.add_assoc, Nat.add_assoc, h.bytes i (by omega), h.bytes (i + 1) hi]

theorem transmitPorts_move (h : SamePayload n frame frame') {l4Type : Proto} {src dst size : Nat} (hsize : 4 ≤ size) :
    transmitPorts order size frame' ((linkHeader frame').size + n) (ipResult (linkHeader frame') l4Type src dst) =
      (moveResult (linkHeader frame) (linkHeader frame')
        (transmitPorts order size frame ((linkHeader frame).size + n) (ipResult (linkHeader frame) l4Type src dst)).1,
        (transmitPorts order size frame ((linkHeader frame).size + n) (ipResult (linkHeader frame) l4Type src dst)).2) := by
  have hmove := @moveOffset_add (linkHeader frame) (linkHeader frame') linkHeader_pos
  rw [transmitPorts_ipResult, transmitPorts_ipResult, ipResult_move linkHeader_pos h.proto]
  simp only [Nat.add_assoc, Nat.add_lt_add_iff_left]
  by_cases hlen : n < sizeofIpv4 + size
  · simp only [if_pos hlen, moveResult, hmove]
  · -- Both ports are in the payload, behind the IP header.
    rw [if_neg hlen, if_neg hlen, h.load16 (by omega), h.load16 (by omega)]
    simp only [moveResult, hmove]

theorem transmitParse_move (h : SamePayload n frame frame') {l4Type : Proto} {src dst : Nat} :
    transmitParse order frame' ((linkHeader frame').size + n) (ipResult (linkHeader frame') l4Type src dst) =
      (moveResult (linkHeader frame) (linkHeader frame')
        (transmitParse order frame ((linkHeader frame).size + n) (ipResult (linkHeader frame) l4Type src dst)).1,
        (transmitParse order frame ((linkHeader frame).size + n) (ipResult (linkHeader frame) l4Type src dst)).2) := by
  by_cases hports : ∃ t : Transport, l4Type = t.proto
  · obtain ⟨t, ht⟩ := hports
    rw [transmitParse_ports (t := t) ht, transmitParse_ports (t := t) ht]
    exact transmitPorts_move h (by cases t <;> decide)
  · rw [not_exists] at hports
    rw [transmitParse_other hports, transmitParse_other hports, ipResult_move linkHeader_pos h.proto]
    rfl

/-! ### All layers -/

/-- An IP header whose protocol is known to the network layer was there in full. -/
theorem networkParse_known {k : LinkHeader} (hknown : (networkParse frame n (whole k)).2 ≠ .unknown) :
    ∃ l4Type src dst, (networkParse frame n (whole k)).1 = ipResult k l4Type src dst := by
  have hanswer : ∀ l4Type src dst, (ipAnswer k l4Type src dst n).2 ≠ .unknown →
      (ipAnswer k l4Type src dst n).1 = ipResult k l4Type src dst := by
    intro l4Type src dst h
    unfold ipAnswer at h ⊢
    split at h
    · exact absurd rfl h
    next hlen => rw [if_neg hlen]
  by_cases hip : k.l3 = .ip
  · rw [networkParse_ip hip] at hknown ⊢
    exact ⟨_, _, _, hanswer _ _ _ hknown⟩
  by_cases hipv6 : k.l3 = .ipv6
  · rw [networkParse_ipv6 hipv6] at hknown ⊢
    exact ⟨_, _, _, hanswer _ _ _ hknown⟩
  · rw [networkParse_other hip hipv6] at hknown
    exact absurd rfl hknown

theorem parse_payload (h : SamePayload n frame frame') :
    parse order frame' ((linkHeader frame').size + n) DLT_EN10MB level =
      ((parse order frame ((linkHeader frame).size + n) DLT_EN10MB level).1,
        moveResult (linkHeader frame) (linkHeader frame')
          (parse order frame ((linkHeader frame).size + n) DLT_EN10MB level).2) := by
  have hlen : (linkHeader frame).size ≤ (linkHeader frame).size + n := Nat.le_add_right _ n
  have hlen' : (linkHeader frame').size ≤ (linkHeader frame').size + n := Nat.le_add_right _ n
  have hlink := linkResult_whole hlen
  have hlink' := linkResult_whole hlen'
  have hnetwork := networkParse_move h
  rcases levelOf_cases level with hlevel | hlevel | hlevel
  · rw [parse_datalink hlevel, parse_datalink hlevel, hlink, hlink', whole_move linkHeader_pos h.proto]
  · rw [parse_network hlevel hlen, parse_network hlevel hlen', hlink, hlink', hnetwork]
  · rw [parse_transmit hlevel hlen, parse_transmit hlevel hlen', hlink, hlink', hnetwork]
    by_cases hproto : (networkParse frame ((linkHeader frame).size + n) (whole (linkHeader frame))).2 = .unknown
    · rw [if_pos hproto, if_pos hproto]
    · rw [if_neg hproto, if_neg hproto]
      obtain ⟨l4Type, src, dst, hip⟩ := networkParse_known hproto
      rw [hip, ← ipResult_move linkHeader_pos h.proto, transmitParse_move h]

/-- A datagram for port 53 behind an Ethernet II header. -/
def datagram : Frame := fun i => match i with
  | 12 => 8
  | 23 => 17
  | 37 => 53
  | _ => 0

/-- The same datagram behind a SNAP header. -/
def snapDatagram : Frame := fun i => match i with
  | 14 => 0xaa
  | 15 => 0xaa
  | 20 => 8
  | 31 => 17
  | 45 => 53
  | _ => 0

theorem parse_payload_snap :
    parse .big snapDatagram 50 DLT_EN10MB 3 =
      (QP_SUCCESS, moveResult (linkHeader datagram) (linkHeader snapDatagram) (parse .big datagram 42 DLT_EN10MB 3).2) :=
  @parse_payload .big datagram snapDatagram 28 3 ⟨rfl, by decide⟩

example : (parse .big snapDatagram 50 DLT_EN10MB 3).2.dport = 53 := by decide

end Stack
end QPHi
