import QPHi.Basic

/-! The frame parser of `qp_tiny_stack.c` and `qp_tiny_stack/`: the link, network and transport layers of a captured
    frame, one after the other. Every address in a result is an offset from the start of the frame. -/

namespace QPHi

/-! ### Bytes and words -/

/-- The byte order of the host: `__QP_LITTLE_ENDIAN__` or `__QP_BIG_ENDIAN__`. -/
inductive ByteOrder where
  | little
  | big
deriving DecidableEq, Repr

/-- The memory from the start of a frame on. What is captured is a prefix of it; the bytes behind that are there as
    well, and hold anything. -/
abbrev Frame := Nat → UInt8

/-- A `qp_uint16_t` that is loaded from the frame. -/
def Frame.load16 (order : ByteOrder) (frame : Frame) (i : Nat) : Nat :=
  match order with
  | .little => (frame i).toNat + 256 * (frame (i + 1)).toNat
  | .big => 256 * (frame i).toNat + (frame (i + 1)).toNat

/-- `ntohs`, which is `htons` as well. -/
def ntohs (order : ByteOrder) (n : Nat) : Nat :=
  match order with
  | .little => 256 * (n % 256) + n / 256
  | .big => n

/-! ### Protocols and results -/

/-- `QP_STACK_PROTO_UNKNOWN`, which is zero, and the protocols of the three layers. -/
inductive Proto where
  | unknown
  | ethernetII
  | ethernetNovell
  | ethernet802
  | ethernetSnap
  | ip
  | ipv6
  | arp
  | rarp
  | ipx
  | novellIpx
  | snmp
  | ppp
  | gsmp
  | aarp
  | esps
  | sMpls
  | gMpls
  | dPppoe
  | sPppoe
  | lwapp
  | lldp
  | eapol
  | lookback
  | vlan1
  | vlan2
  | icmp
  | igmp
  | tcp
  | udp
  | ggp
  | ipencap
  | st
  | egp
  | igp
  | pup
deriving DecidableEq, Repr

/-- `qp_stack_frame_result_t`. A pointer into the frame is its offset. -/
structure FrameResult where
  l2Type : Proto
  l2Offset : Nat
  l3Type : Proto
  l3Offset : Nat
  l4Type : Proto
  l4Offset : Nat
  dataOffset : Nat
  sport : Nat
  dport : Nat
  smac : Option Nat
  dmac : Option Nat
  src : Option Nat
  dst : Option Nat
deriving DecidableEq, Repr

def FrameResult.zero : FrameResult := ⟨.unknown, 0, .unknown, 0, .unknown, 0, 0, 0, 0, none, none, none, none⟩

abbrev DLT_EN10MB : Int := 1

def levelDatalink : Nat := 1
def levelNetwork : Nat := 2
def levelTransmit : Nat := 3

/-- The sizes of the headers. -/
def sizeofEthernetII : Nat := 14
def sizeofEthernetNovell : Nat := 14
def sizeofEthernet802 : Nat := 17
def sizeofEthernetSnap : Nat := 22
def sizeofIpv4 : Nat := 20
def sizeofTcp : Nat := 20
def sizeofUdp : Nat := 8

namespace Stack

/-! ### The link layer -/

/-- `qp_stack_datalink_get_type`. -/
def datalinkGetType (type : Nat) : Proto :=
  if 0x0101 ≤ type ∧ 0x01ff ≥ type then .unknown
  else if 0x0660 ≤ type ∧ 0x0661 ≥ type then .unknown
  else
    match type with
    | 0x0800 => .ip
    | 0x0806 => .arp
    | 0x8035 => .rarp
    | 0x8037 => .novellIpx
    | 0x80f3 => .aarp
    | 0x8100 => .esps
    | 0x8137 => .ipx
    | 0x814c => .snmp
    | 0x86dd => .ipv6
    | 0x880b => .ppp
    | 0x880c => .gsmp
    | 0x8847 => .sMpls
    | 0x8848 => .gMpls
    | 0x8863 => .dPppoe
    | 0x8864 => .sPppoe
    | 0x88bb => .lwapp
    | 0x88cc => .lldp
    | 0x8e88 => .eapol
    | 0x9000 => .lookback
    | 0x9100 => .vlan1
    | 0x9200 => .vlan2
    | _ => .unknown

/-- The four functions for Ethernet frames. The offset of the next layer is stored before the length is checked. -/
def datalinkEthernet (size : Nat) (l2Type l3Type : Proto) (len : Nat) (result : FrameResult) : FrameResult × Proto :=
  let result := { result with l3Offset := result.l2Offset + size }
  if len < result.l3Offset then (result, .unknown)
  else
    ({ result with
      smac := some (result.l2Offset + 6)
      dmac := some result.l2Offset
      l2Type := l2Type
      l3Type := l3Type
      dataOffset := result.l3Offset }, l2Type)

def datalinkEthernetII (order : ByteOrder) (frame : Frame) (len : Nat) (result : FrameResult) : FrameResult × Proto :=
  datalinkEthernet sizeofEthernetII .ethernetII
    (datalinkGetType (ntohs order (frame.load16 order (result.l2Offset + 12)))) len result

def datalinkEthernetNovell (len : Nat) (result : FrameResult) : FrameResult × Proto :=
  datalinkEthernet sizeofEthernetNovell .ethernetNovell .ipx len result

/-- The type of the next layer is looked up and then disabled. -/
def datalinkEthernet802 (len : Nat) (result : FrameResult) : FrameResult × Proto :=
  datalinkEthernet sizeofEthernet802 .ethernet802 .unknown len result

def datalinkEthernetSnap (order : ByteOrder) (frame : Frame) (len : Nat) (result : FrameResult) : FrameResult × Proto :=
  datalinkEthernet sizeofEthernetSnap .ethernetSnap
    (datalinkGetType (ntohs order (frame.load16 order (result.l2Offset + 20)))) len result

/-- `qp_stack_datalink_parse`. Of all the link types in its `switch`, Ethernet is the only one with a parser. -/
def datalinkParse (order : ByteOrder) (frame : Frame) (len : Nat) (link : Int) (result : FrameResult) :
    FrameResult × Proto :=
  if link = DLT_EN10MB then
    if ntohs order (frame.load16 order 12) ≤ 0x05dc then
      let identify := ntohs order (frame.load16 order 14)
      if identify = 0xffff then datalinkEthernetNovell len { result with l2Type := .ethernetNovell }
      else if identify = 0xaaaa then datalinkEthernetSnap order frame len { result with l2Type := .ethernetSnap }
      else datalinkEthernet802 len { result with l2Type := .ethernet802 }
    else datalinkEthernetII order frame len result
  else (result, result.l2Type)

/-! ### The network layer -/

/-- `qp_stack_network_get_type`. -/
def networkGetType (type : UInt8) : Proto :=
  match type.toNat with
  | 0x01 => .icmp
  | 0x02 => .igmp
  | 0x03 => .ggp
  | 0x04 => .ipencap
  | 0x05 => .st
  | 0x06 => .tcp
  | 0x08 => .egp
  | 0x09 => .igp
  | 0x0c => .pup
  | 0x11 => .udp
  | _ => .unknown

/-- The two functions for IP, with the places of the addresses in the header. Both of them skip an IPv4 header without
    options. -/
def networkIp (l4Type : Proto) (src dst : Nat) (len : Nat) (result : FrameResult) : FrameResult × Proto :=
  let result := { result with l4Offset := result.l3Offset + sizeofIpv4 }
  if len < result.l4Offset then ({ result with l3Type := .unknown }, .unknown)
  else
    ({ result with
      l4Type := l4Type
      src := some (result.l3Offset + src)
      dst := some (result.l3Offset + dst)
      dataOffset := result.l4Offset }, result.l3Type)

def networkIpv4 (frame : Frame) (len : Nat) (result : FrameResult) : FrameResult × Proto :=
  networkIp (networkGetType (frame (result.l3Offset + 9))) 12 16 len result

def networkIpv6 (len : Nat) (result : FrameResult) : FrameResult × Proto := networkIp .unknown 8 24 len result

/-- `qp_stack_network_parse`. -/
def networkParse (frame : Frame) (len : Nat) (result : FrameResult) : FrameResult × Proto :=
  match result.l3Type with
  | .ip => networkIpv4 frame len result
  | .ipv6 => networkIpv6 len result
  | _ => ({ result with l3Type := .unknown }, .unknown)

/-! ### The transport layer -/

/-- The functions for TCP and UDP, whose headers start with the ports. -/
def transmitPorts (order : ByteOrder) (size : Nat) (frame : Frame) (len : Nat) (result : FrameResult) : FrameResult × Proto :=
  let result := { result with dataOffset := result.l4Offset + size }
  if len < result.dataOffset then ({ result with l4Type := .unknown }, .unknown)
  else
    ({ result with
      sport := frame.load16 order result.l4Offset
      dport := frame.load16 order (result.l4Offset + 2) }, result.l4Type)

def transmitTcp (order : ByteOrder) (frame : Frame) (len : Nat) (result : FrameResult) : FrameResult × Proto :=
  transmitPorts order sizeofTcp frame len result

def transmitUdp (order : ByteOrder) (frame : Frame) (len : Nat) (result : FrameResult) : FrameResult × Proto :=
  transmitPorts order sizeofUdp frame len result

/-- `qp_stack_transmit_parse`. -/
def transmitParse (order : ByteOrder) (frame : Frame) (len : Nat) (result : FrameResult) : FrameResult × Proto :=
  match result.l4Type with
  | .tcp => transmitTcp order frame len result
  | .udp => transmitUdp order frame len result
  | _ => ({ result with l4Type := .unknown }, .unknown)

/-! ### All layers -/

/-- The layer that round `i` of the loop of `qp_stack_parse` looks at. -/
def layer (order : ByteOrder) (frame : Frame) (len : Nat) (link : Int) (i : Nat) (result : FrameResult) : FrameResult × Proto :=
  match i with
  | 0 => datalinkParse order frame len link result
  | 1 => networkParse frame len result
  | _ => transmitParse order frame len result

/-- The loop of `qp_stack_parse`, with `rounds` rounds to go. The last layer may be unknown. -/
def layers (order : ByteOrder) (frame : Frame) (len : Nat) (link : Int) (level : Nat) : Nat → Nat → FrameResult → Int × FrameResult
  | 0, _, result => (QP_SUCCESS, result)
  | rounds + 1, i, result =>
    let (result, proto) := layer order frame len link i result
    if proto = .unknown then
      if i ≠ level - 1 then (QP_ERROR, result) else (QP_SUCCESS, result)
    else layers order frame len link level rounds (i + 1) result

/-- `qp_stack_parse`. -/
def parse (order : ByteOrder) (frame : Frame) (len : Nat) (link : Int) (level : Nat) : Int × FrameResult :=
  let level := if level > levelTransmit then levelTransmit else level
  let level := if level < levelDatalink then levelDatalink else level
  layers order frame len link level level 0 .zero

end Stack

end QPHi
