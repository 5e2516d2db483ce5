import QPHi.Theorems.TinyStack.Layers

/-! What a parse to one level says about a parse to another: the layers share one result, and a deeper layer overwrites
    its own part of it only. -/

namespace QPHi
namespace Stack

variable {order : ByteOrder} {frame : Frame} {len level : Nat} {link : Int} {r r' : FrameResult}

/-- The results are the same for the link layer, the network layer and the place of the transport layer. -/
structure SameBelow (r r' : FrameResult) : Prop where
  l2Type : r'.l2Type = r.l2Type
  l2Offset : r'.l2Offset = r.l2Offset
  l3Type : r'.l3Type = r.l3Type
  l3Offset : r'.l3Offset = r.l3Offset
  l4Offset : r'.l4Offset = r.l4Offset
  smac : r'.smac = r.smac
  dmac : r'.dmac = r.dmac
  src : r'.src = r.src
  dst : r'.dst = r.dst

/-- A layer is known only if those below it are. -/
structure Layered (r : FrameResult) : Prop where
  network : r.l3Type ≠ .unknown → r.l2Type ≠ .unknown
  transmit : r.l4Type ≠ .unknown → r.l3Type ≠ .unknown ∧ r.l2Type ≠ .unknown

/-! ### The transport layer -/

theorem transmitPorts_same {size : Nat} : SameBelow r (transmitPorts order size frame len r).1 := by
  unfold transmitPorts
  dsimp only
  split
  · exact ⟨rfl, rfl, rfl, rfl, rfl, rfl, rfl, rfl, rfl⟩
  · exact ⟨rfl, rfl, rfl, rfl, rfl, rfl, rfl, rfl, rfl⟩

theorem transmitParse_same : SameBelow r (transmitParse order frame len r).1 := by
  unfold transmitParse
  split
  · exact transmitPorts_same
  · exact transmitPorts_same
  · exact ⟨rfl, rfl, rfl, rfl, rfl, rfl, rfl, rfl, rfl⟩

/-- The transport layer makes its type unknown, or leaves it. -/
theorem transmitParse_l4Type (h : (transmitParse order frame len r).1.l4Type ≠ .unknown) : r.l4Type ≠ .unknown := by
  unfold transmitParse at h
  split at h
  case h_1 htcp => rw [htcp]; exact Proto.noConfusion
  case h_2 hudp => rw [hudp]; exact Proto.noConfusion
  case h_3 => exact absurd rfl h

theorem Layered.transmitParse (h : Layered r) : Layered (transmitParse order frame len r).1 := by
  have hsame : SameBelow r (Stack.transmitParse order frame len r).1 := transmitParse_same
  refine ⟨fun h₃ => ?_, fun h₄ => ?_⟩
  · rw [hsame.l3Type] at h₃
    rw [hsame.l2Type]
    exact h.network h₃
  · rw [hsame.l3Type, hsame.l2Type]
    exact h.transmit (transmitParse_l4Type h₄)

/-! ### The link and network layers -/

theorem zero_layered : Layered .zero := ⟨fun h => absurd rfl h, fun h => absurd rfl h⟩

theorem linkResult_layered {k : LinkHeader} (hk : k.l2 ≠ .unknown) : Layered (linkResult k len) := by
  unfold linkResult
  split
  · exact ⟨fun h => absurd rfl h, fun h => absurd rfl h⟩
  · exact ⟨fun _ => hk, fun h => absurd rfl h⟩

theorem ipAnswer_layered {k : LinkHeader} {l4Type : Proto} {src dst : Nat} (h₂ : k.l2 ≠ .unknown) (h₃ : k.l3 ≠ .unknown) :
    Layered (ipAnswer k l4Type src dst len).1 := by
  unfold ipAnswer
  split
  · exact ⟨fun _ => h₂, fun h => absurd rfl h⟩
  · exact ⟨fun _ => h₂, fun _ => ⟨h₃, h₂⟩⟩

theorem networkParse_layered {k : LinkHeader} (hk : k.l2 ≠ .unknown) : Layered (networkParse frame len (whole k)).1 := by
  by_cases hip : k.l3 = .ip
  · rw [networkParse_ip hip]
    exact ipAnswer_layered hk (by rw [hip]; exact Proto.noConfusion)
  · by_cases hipv6 : k.l3 = .ipv6
    · rw [networkParse_ipv6 hipv6]
      exact ipAnswer_layered hk (by rw [hipv6]; exact Proto.noConfusion)
    · rw [networkParse_other hip hipv6]
      exact ⟨fun h => absurd rfl h, fun h => absurd rfl h⟩

theorem parse_layered : Layered (parse order frame len link level).2 := by
  by_cases hlink : link = DLT_EN10MB
  · subst hlink
    by_cases hlen : len < (linkHeader frame).size
    · by_cases hlevel : levelOf level = 1
      · rw [parse_datalink hlevel]
        exact linkResult_layered linkHeader_l2
      · rw [parse_short hlevel hlen]
        exact linkResult_layered linkHeader_l2
    · have hwhole := linkResult_whole (Nat.not_lt.mp hlen)
      have hnetwork : Layered (networkParse frame len (whole (linkHeader frame))).1 := networkParse_layered linkHeader_l2
      rcases levelOf_cases level with hlevel | hlevel | hlevel
      · rw [parse_datalink hlevel]
        exact linkResult_layered linkHeader_l2
      · rw [parse_network hlevel (Nat.not_lt.mp hlen), hwhole]
        exact hnetwork
      · rw [parse_transmit hlevel (Nat.not_lt.mp hlen), hwhole]
        split
        · exact hnetwork
        · exact hnetwork.transmitParse
  · rw [parse_other hlink]
    exact zero_layered

/-! ### Two levels -/

/-- What a parse to the network layer and one to the transport layer have to do with each other. -/
structure Agrees (network transmit : Int × FrameResult) : Prop where
  success : transmit.1 = QP_SUCCESS → network.1 = QP_SUCCESS
  same : transmit.1 = QP_SUCCESS → SameBelow network.2 transmit.2
  error : network.1 = QP_ERROR → transmit.1 = QP_ERROR

theorem agrees_error {p q : Int × FrameResult} (h : q.1 = QP_ERROR) : Agrees p q := by
  have hne : q.1 ≠ QP_SUCCESS := by
    rw [h]
    decide
  exact ⟨fun hsuccess => absurd hsuccess hne, fun hsuccess => absurd hsuccess hne, fun _ => h⟩

theorem agrees_success {p q : Int × FrameResult} (h : p.1 = QP_SUCCESS) (hsame : SameBelow p.2 q.2) : Agrees p q := by
  have hne : p.1 ≠ QP_ERROR := by
    rw [h]
    decide
  exact ⟨fun _ => h, fun _ => hsame, fun herror => absurd herror hne⟩

theorem parse_agrees : Agrees (parse order frame len link levelNetwork) (parse order frame len link levelTransmit) := by
  have hnetwork : levelOf levelNetwork = 2 := rfl
  have htransmit : levelOf levelTransmit = 3 := rfl
  by_cases hlink : link = DLT_EN10MB
  · subst hlink
    by_cases hlen : len < (linkHeader frame).size
    · refine agrees_error ?_
      rw [parse_short (by rw [htransmit]; decide) hlen]
    · rw [parse_network hnetwork (Nat.not_lt.mp hlen), parse_transmit htransmit (Nat.not_lt.mp hlen)]
      split
      · exact agrees_error rfl
      · exact agrees_success rfl transmitParse_same
  · refine agrees_error ?_
    rw [parse_other hlink, htransmit]
    rfl

/-- A deeper parse agrees with a shallower one, and no layer of a result is known above an unknown one. -/
theorem parse_levels (order : ByteOrder) (frame : Frame) (len : Nat) (link : Int) :
    Agrees (parse order frame len link levelNetwork) (parse order frame len link levelTransmit) ∧
      ∀ level, Layered (parse order frame len link level).2 :=
  ⟨parse_agrees, fun _ => parse_layered⟩

end Stack

end QPHi
