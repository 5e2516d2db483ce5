import QPHi.Lib.Buffer
import QPHi.Theorems.TinyStack.Grammar

/-! What the parser makes of a frame that was encoded. An encoded frame is a list of fields one behind the other, with
    options of any legal length in its IPv4 and TCP headers; the memory behind it holds anything. -/

namespace QPHi
open Buffer

/-! ### Fields in a frame -/

/-- The bytes from `i` on are `bytes`. -/
def Frame.Holds (frame : Frame) (i : Nat) (bytes : List UInt8) : Prop := slice frame i bytes.length = bytes

theorem Frame.holds_append {frame : Frame} {i : Nat} {bytes bytes' : List UInt8} :
    frame.Holds i (bytes ++ bytes') ↔ frame.Holds i bytes ∧ frame.Holds (i + bytes.length) bytes' := by
  unfold Frame.Holds
  rw [List.length_append, ← slice_append]
  constructor
  · exact fun h => List.append_inj h length_slice
  · rintro ⟨h, h'⟩
    rw [h, h']

theorem Frame.holds_cons {frame : Frame} {i : Nat} {b : UInt8} {bytes : List UInt8} :
    frame.Holds i (b :: bytes) ↔ frame i = b ∧ frame.Holds (i + 1) bytes := by
  unfold Frame.Holds
  rw [List.length_cons, slice_succ, List.cons_eq_cons]

/-- A field of `n` bytes. -/
abbrev Bytes (n : Nat) := { bytes : List UInt8 // bytes.length = n }

theorem Frame.holds_field {frame : Frame} {i n : Nat} {field : Bytes n} {bytes : List UInt8} :
    frame.Holds i (field.1 ++ bytes) ↔ slice frame i n = field.1 ∧ frame.Holds (i + n) bytes := by
  obtain ⟨field, rfl⟩ := field
  exact Frame.holds_append

/-- The two bytes of a word in network byte order. -/
def bigEndian (w : UInt16) : List UInt8 := [UInt8.ofNat (w.toNat / 256), UInt8.ofNat (w.toNat % 256)]

theorem Frame.Holds.word {frame : Frame} {i : Nat} {w : UInt16} (h : frame.Holds i (bigEndian w)) : frame.word i = w.toNat := by
  obtain ⟨h₀, h₁⟩ := Frame.holds_cons.mp h
  have hw := w.toNat_lt
  rw [Frame.word, h₀, (Frame.holds_cons.mp h₁).1, UInt8.toNat_ofNat', UInt8.toNat_ofNat']
  omega

namespace Stack

/-! ### Encoded frames -/

/-- The length of a header in words of four bytes, and the options that fill it up behind the first five words. -/
structure HeaderOptions where
  words : Nat
  legal : 5 ≤ words ∧ words ≤ 15
  bytes : Bytes (4 * (words - 5))

/-- What stands between the MAC addresses and the IPv4 header. -/
inductive LinkEncoding where
  | ethernetII
  | ethernetSnap (len : { len : UInt16 // len.toNat ≤ 0x05dc }) (ctl : UInt8) (orgCode : Bytes 3)

def LinkEncoding.encode : LinkEncoding → List UInt8
  | .ethernetII => bigEndian 0x0800
  | .ethernetSnap len ctl orgCode => bigEndian len.1 ++ ([0xaa, 0xaa, ctl] ++ (orgCode.1 ++ bigEndian 0x0800))

/-- An IPv4 header. The bytes of `head` are the fields from the service class to the time to live. -/
structure Ipv4Encoding where
  options : HeaderOptions
  head : Bytes 8
  crc : Bytes 2
  src : Bytes 4
  dst : Bytes 4

def Ipv4Encoding.encode (ip : Ipv4Encoding) (proto : UInt8) : List UInt8 :=
  UInt8.ofNat (0x40 + ip.options.words) ::
    (ip.head.1 ++ (proto :: (ip.crc.1 ++ (ip.src.1 ++ (ip.dst.1 ++ ip.options.bytes.1)))))

/-- A TCP header, with the fields between the ports and the header length, the flags next to it, and the fields behind
    it; or a UDP header. -/
inductive TransportEncoding where
  | tcp (sport dport : UInt16) (numbers : Bytes 8) (flags : Fin 16) (tail : Bytes 7) (options : HeaderOptions)
  | udp (sport dport : UInt16) (tail : Bytes 4)

def TransportEncoding.transport : TransportEncoding → Transport
  | .tcp .. => .tcp
  | .udp .. => .udp

def TransportEncoding.sport : TransportEncoding → UInt16
  | .tcp sport .. => sport
  | .udp sport .. => sport

def TransportEncoding.dport : TransportEncoding → UInt16
  | .tcp _ dport .. => dport
  | .udp _ dport .. => dport

/-- What stands behind the ports. -/
def TransportEncoding.rest : TransportEncoding → List UInt8
  | .tcp _ _ numbers flags tail options =>
    numbers.1 ++ (UInt8.ofNat (16 * options.words + flags.1) :: (tail.1 ++ options.bytes.1))
  | .udp _ _ tail => tail.1

def TransportEncoding.encode (transport : TransportEncoding) : List UInt8 :=
  bigEndian transport.sport ++ (bigEndian transport.dport ++ transport.rest)

structure Packet where
  dmac : Bytes 6
  smac : Bytes 6
  link : LinkEncoding
  ip : Ipv4Encoding
  transport : TransportEncoding
  payload : List UInt8

def Packet.headers (p : Packet) : List UInt8 :=
  p.dmac.1 ++ (p.smac.1 ++ (p.link.encode ++ (p.ip.encode p.transport.transport.number ++ p.transport.encode)))

def Packet.encode (p : Packet) : List UInt8 := p.headers ++ p.payload

/-- Where the TCP or UDP header starts. -/
def Packet.l4Start (p : Packet) : Nat :=
  (p.dmac.1 ++ (p.smac.1 ++ (p.link.encode ++ p.ip.encode p.transport.transport.number))).length

/-- Where the payload starts. -/
def Packet.payloadStart (p : Packet) : Nat := p.headers.length

/-- The memory with the encoded frame at its start. -/
def Packet.frame (p : Packet) (behind : Frame) : Frame := fun i => p.encode.getD i (behind i)

theorem Packet.frame_holds (p : Packet) (behind : Frame) : (p.frame behind).Holds 0 p.encode := slice_getD p.encode

/-! ### The fields of an encoded frame -/

/-- The offset of the IPv4 header. -/
def LinkEncoding.size : LinkEncoding → Nat
  | .ethernetII => 14
  | .ethernetSnap .. => 22

def LinkEncoding.proto : LinkEncoding → Proto
  | .ethernetII => .ethernetII
  | .ethernetSnap .. => .ethernetSnap

theorem LinkEncoding.length_encode (link : LinkEncoding) : 12 + link.encode.length = link.size := by
  cases link with
  | ethernetII => rfl
  | ethernetSnap len ctl orgCode => simp [LinkEncoding.encode, LinkEncoding.size, bigEndian, orgCode.2]

theorem LinkEncoding.linkHeader_eq {frame : Frame} {link : LinkEncoding} (h : frame.Holds 12 link.encode) :
    (linkHeader frame).size = link.size ∧ (linkHeader frame).l2 = link.proto ∧ (linkHeader frame).l3 = .ip := by
  cases link with
  | ethernetII =>
    rw [linkHeader_ethernetII h.word]
    exact ⟨rfl, rfl, rfl⟩
  | ethernetSnap len ctl orgCode =>
    obtain ⟨hlen, h⟩ := Frame.holds_append.mp h
    obtain ⟨hid, h⟩ := Frame.holds_append.mp h
    obtain ⟨-, htype⟩ := Frame.holds_field.mp h
    have hword : frame.word 14 = 0xaaaa := by
      obtain ⟨h₀, hid⟩ := Frame.holds_cons.mp hid
      exact Frame.Holds.word (w := 0xaaaa) (Frame.holds_cons.mpr ⟨h₀, Frame.holds_cons.mpr ⟨(Frame.holds_cons.mp hid).1, rfl⟩⟩)
    rw [linkHeader_ethernetSnap (hlen.word ▸ len.2) hword htype.word]
    exact ⟨rfl, rfl, rfl⟩

theorem HeaderOptions.length_bytes (options : HeaderOptions) : 20 + options.bytes.1.length = 4 * options.words := by
  have hwords := options.legal
  rw [options.bytes.2]
  omega

theorem Ipv4Encoding.length_encode (ip : Ipv4Encoding) (proto : UInt8) : (ip.encode proto).length = 4 * ip.options.words := by
  rw [← ip.options.length_bytes]
  simp [Ipv4Encoding.encode, ip.head.2, ip.crc.2, ip.src.2, ip.dst.2]
  omega

theorem Ipv4Encoding.fields {frame : Frame} {i : Nat} {ip : Ipv4Encoding} {proto : UInt8} (h : frame.Holds i (ip.encode proto)) :
    frame (i + 9) = proto ∧ slice frame (i + 12) 4 = ip.src.1 ∧ slice frame (i + 16) 4 = ip.dst.1 := by
  obtain ⟨-, h⟩ := Frame.holds_cons.mp h
  obtain ⟨-, h⟩ := Frame.holds_field.mp h
  obtain ⟨hproto, h⟩ := Frame.holds_cons.mp h
  obtain ⟨-, h⟩ := Frame.holds_field.mp h
  obtain ⟨hsrc, h⟩ := Frame.holds_field.mp h
  obtain ⟨hdst, -⟩ := Frame.holds_field.mp h
  exact ⟨hproto, hsrc, hdst⟩

/-- A TCP header without options, or a UDP header. -/
def TransportEncoding.Plain : TransportEncoding → Prop
  | .tcp _ _ _ _ _ options => options.words = 5
  | .udp .. => True

theorem TransportEncoding.length_encode (transport : TransportEncoding) :
    transport.transport.size ≤ transport.encode.length ∧
      (transport.encode.length = transport.transport.size ↔ transport.Plain) := by
  cases transport with
  | tcp sport dport numbers flags tail options =>
    have hbytes := options.length_bytes
    have hlength : (TransportEncoding.tcp sport dport numbers flags tail options).encode.length = 4 * options.words := by
      rw [← hbytes]
      simp [TransportEncoding.encode, TransportEncoding.rest, bigEndian, numbers.2, tail.2]
      omega
    rw [hlength]
    simp only [TransportEncoding.transport, Transport.size, sizeofTcp, TransportEncoding.Plain]
    omega
  | udp sport dport tail =>
    simp [TransportEncoding.encode, TransportEncoding.rest, TransportEncoding.transport, TransportEncoding.Plain, Transport.size,
      sizeofUdp, bigEndian, tail.2]

theorem TransportEncoding.ports {frame : Frame} {i : Nat} {transport : TransportEncoding} (h : frame.Holds i transport.encode) :
    frame.word i = transport.sport.toNat ∧ frame.word (i + 2) = transport.dport.toNat := by
  obtain ⟨hsport, h⟩ := Frame.holds_append.mp h
  obtain ⟨hdport, -⟩ := Frame.holds_append.mp h
  exact ⟨hsport.word, hdport.word⟩

/-! ### Parsing an encoded frame -/

/-- What the result says about `p`. -/
structure Recovered (order : ByteOrder) (frame : Frame) (p : Packet) (answer : Int × FrameResult) : Prop where
  success : answer.1 = QP_SUCCESS
  dmac : ∃ i, answer.2.dmac = some i ∧ slice frame i 6 = p.dmac.1
  smac : ∃ i, answer.2.smac = some i ∧ slice frame i 6 = p.smac.1
  src : ∃ i, answer.2.src = some i ∧ slice frame i 4 = p.ip.src.1
  dst : ∃ i, answer.2.dst = some i ∧ slice frame i 4 = p.ip.dst.1
  sport : ntohs order answer.2.sport = p.transport.sport.toNat
  dport : ntohs order answer.2.dport = p.transport.dport.toNat
  l4Offset : answer.2.l4Offset = p.l4Start
  dataOffset : answer.2.dataOffset = p.payloadStart

theorem Packet.l4Start_eq (p : Packet) : p.l4Start = p.link.size + 4 * p.ip.options.words := by
  rw [← p.link.length_encode, ← p.ip.length_encode p.transport.transport.number]
  simp only [Packet.l4Start, List.length_append, p.dmac.2, p.smac.2]
  omega

theorem Packet.payloadStart_eq (p : Packet) : p.payloadStart = p.l4Start + p.transport.encode.length := by
  simp only [Packet.payloadStart, Packet.l4Start, Packet.headers, List.length_append]
  omega

/-- Where the fields of an encoded frame are. -/
theorem Packet.holds_parts {frame : Frame} {p : Packet} (h : frame.Holds 0 p.encode) :
    slice frame 0 6 = p.dmac.1 ∧ slice frame 6 6 = p.smac.1 ∧ frame.Holds 12 p.link.encode ∧
      frame.Holds p.link.size (p.ip.encode p.transport.transport.number) ∧ frame.Holds p.l4Start p.transport.encode := by
  obtain ⟨h, -⟩ := Frame.holds_append.mp h
  obtain ⟨hdmac, h⟩ := Frame.holds_field.mp h
  obtain ⟨hsmac, h⟩ := Frame.holds_field.mp h
  obtain ⟨hlink, h⟩ := Frame.holds_append.mp h
  rw [p.link.length_encode] at h
  obtain ⟨hip, htransport⟩ := Frame.holds_append.mp h
  rw [p.ip.length_encode, ← p.l4Start_eq] at htransport
  exact ⟨hdmac, hsmac, hlink, hip, htransport⟩

/-- The parser takes every encoded frame for one without options. -/
theorem Packet.parse_eq (order : ByteOrder) {frame : Frame} {p : Packet} (h : frame.Holds 0 p.encode) :
    parse order frame p.encode.length DLT_EN10MB levelTransmit =
      (QP_SUCCESS, layout order frame p.link.proto p.link.size p.transport.transport) := by
  obtain ⟨-, -, hlink, hip, -⟩ := holds_parts h
  obtain ⟨hsize, hl2, hl3⟩ := LinkEncoding.linkHeader_eq hlink
  have hwords := p.ip.options.legal
  have hlen : p.link.size + 20 + p.transport.transport.size ≤ p.encode.length := by
    have htransport := p.transport.length_encode.1
    have hstart := p.payloadStart_eq
    rw [p.l4Start_eq] at hstart
    rw [Packet.encode, List.length_append, ← Packet.payloadStart]
    omega
  rw [← hsize] at hip hlen
  rw [parse_layout (t := p.transport.transport) hl3 (Ipv4Encoding.fields hip).1 hlen, hl2, hsize]

/-- Parsing undoes encoding exactly for the frames without options. -/
theorem parse_encode_iff (order : ByteOrder) (p : Packet) (behind : Frame) :
    Recovered order (p.frame behind) p (parse order (p.frame behind) p.encode.length DLT_EN10MB levelTransmit) ↔
      p.ip.options.words = 5 ∧ p.transport.Plain := by
  have h := p.frame_holds behind
  have hplain := p.transport.length_encode.2
  rw [Packet.parse_eq order h]
  constructor
  · intro hrecovered
    have hl4 : p.link.size + 20 = p.l4Start := hrecovered.l4Offset
    have hdata : p.link.size + 20 + p.transport.transport.size = p.payloadStart := hrecovered.dataOffset
    rw [p.payloadStart_eq] at hdata
    have hlength : p.transport.encode.length = p.transport.transport.size := by omega
    rw [p.l4Start_eq] at hl4
    exact ⟨by omega, hplain.mp hlength⟩
  · rintro ⟨hwords, htransport⟩
    obtain ⟨hdmac, hsmac, -, hip, hports⟩ := Packet.holds_parts h
    obtain ⟨-, hsrc, hdst⟩ := Ipv4Encoding.fields hip
    have hl4 : p.l4Start = p.link.size + 20 := by rw [p.l4Start_eq, hwords]
    rw [hl4] at hports
    obtain ⟨hsport, hdport⟩ := TransportEncoding.ports hports
    have hdata : p.payloadStart = p.link.size + 20 + p.transport.transport.size := by
      rw [p.payloadStart_eq, hl4, hplain.mpr htransport]
    exact ⟨rfl, ⟨0, rfl, hdmac⟩, ⟨6, rfl, hsmac⟩, ⟨_, rfl, hsrc⟩, ⟨_, rfl, hdst⟩, (ntohs_load16 ..).trans hsport,
      (ntohs_load16 ..).trans hdport, hl4.symm, hdata.symm⟩

/-- A TCP segment from 10.0.0.1:1024 to 10.0.0.2:80 with a timestamp option of 12 bytes and one byte of payload. -/
def timestampPacket : Packet where
  dmac := ⟨[2, 0, 0, 0, 0, 2], rfl⟩
  smac := ⟨[2, 0, 0, 0, 0, 1], rfl⟩
  link := .ethernetII
  ip := ⟨⟨5, by decide, ⟨[], rfl⟩⟩, ⟨[0, 0, 53, 0, 0, 0, 0, 64], rfl⟩, ⟨[0x66, 0xc1], rfl⟩, ⟨[10, 0, 0, 1], rfl⟩, ⟨[10, 0, 0, 2], rfl⟩⟩
  transport := .tcp 1024 80 ⟨[0, 0, 0, 1, 0, 0, 0, 1], rfl⟩ 0 ⟨[0x18, 1, 0, 0, 0, 0, 0], rfl⟩
    ⟨8, by decide, ⟨[1, 1, 8, 10, 0, 0, 0, 1, 0, 0, 0, 1], rfl⟩⟩
  payload := [0x41]

/-- The options of that segment are taken for its payload. -/
theorem parse_encode_options : ¬Recovered .little (timestampPacket.frame fun _ => 0) timestampPacket
    (parse .little (timestampPacket.frame fun _ => 0) timestampPacket.encode.length DLT_EN10MB levelTransmit) := by
  intro h
  exact absurd h.dataOffset (by decide +kernel)

end Stack

end QPHi
