import QPHi.Theorems.TinyStack.Layers

/-! What the parser does with a frame of which only a prefix was captured: whether the bytes behind the prefix decide
    the result, and whether the result points behind it. The network and transport layers check the length first; the
    link layer chooses the kind of header before it looks at the length, and every layer stores its offset first. -/

namespace QPHi
namespace Stack

variable {order : ByteOrder} {frame frame' : Frame} {len level : Nat} {link : Int}

/-- Two frames of which the same `len` bytes were captured. -/
def Agree (len : Nat) (frame frame' : Frame) : Prop := ∀ i < len, frame' i = frame i

theorem Agree.word (h : Agree len frame frame') {i : Nat} (hi : i + 1 < len) : frame'.word i = frame.word i := by
  unfold Frame.word
  rw [h i (by omega), h (i + 1) hi]

theorem Agree.load16 (h : Agree len frame frame') {i : Nat} (hi : i + 1 < len) :
    frame'.load16 order i = frame.load16 order i := by
  unfold Frame.load16
  rw [h i (by omega), h (i + 1) hi]

theorem word_ne {i : Nat} {b : UInt8} (h : frame i ≠ b) : frame.word i ≠ 256 * b.toNat + b.toNat := by
  intro hword
  have h₀ := (frame (i + 1)).toNat_lt
  have h₁ := b.toNat_lt
  have hne : (frame i).toNat ≠ b.toNat := fun h' => h (UInt8.toNat_inj.mp h')
  unfold Frame.word at hword
  omega

/-! ### The layers that check the length first -/

theorem networkIpv4_agree (h : Agree len frame frame') {result : FrameResult} :
    networkIpv4 frame' len result = networkIpv4 frame len result := by
  unfold networkIpv4 networkIp
  by_cases hlen : len < result.l3Offset + sizeofIpv4
  · simp only [if_pos hlen]
  · rw [h (result.l3Offset + 9) (by rw [sizeofIpv4] at hlen; omega)]

theorem networkParse_agree (h : Agree len frame frame') {result : FrameResult} :
    networkParse frame' len result = networkParse frame len result := by
  unfold networkParse
  rw [networkIpv4_agree h]

theorem transmitPorts_agree (h : Agree len frame frame') {size : Nat} (hsize : 4 ≤ size) {result : FrameResult} :
    transmitPorts order size frame' len result = transmitPorts order size frame len result := by
  unfold transmitPorts
  by_cases hlen : len < result.l4Offset + size
  · simp only [if_pos hlen]
  · simp only [if_neg hlen]
    rw [h.load16 (by omega), h.load16 (by omega)]

theorem transmitParse_agree (h : Agree len frame frame') {result : FrameResult} :
    transmitParse order frame' len result = transmitParse order frame len result := by
  unfold transmitParse transmitTcp transmitUdp
  rw [transmitPorts_agree h (by decide), transmitPorts_agree h (by decide)]

/-! ### The link layer -/

/-- The captured bytes decide which kind of Ethernet header the frame starts with. -/
def Decided (frame : Frame) (len : Nat) : Prop :=
  16 ≤ len ∨ (14 ≤ len ∧ 0x05dc < frame.word 12) ∨ (len = 13 ∧ 6 ≤ (frame 12).toNat) ∨
    (len = 15 ∧ frame 14 ≠ 0xaa ∧ frame 14 ≠ 0xff)

/-- What the link layer stores of a header: all of it, or the little that it stores before the length is checked. -/
def stored (k : LinkHeader) (len : Nat) : LinkHeader :=
  if len < k.size then ⟨k.size, k.early, .unknown, .unknown⟩ else k

theorem stored_agree_sixteen (hlen : 16 ≤ len) (h : Agree len frame frame') :
    stored (linkHeader frame') len = stored (linkHeader frame) len := by
  have htype := h.word (show 12 + 1 < len by omega)
  have hid := h.word (show 14 + 1 < len by omega)
  by_cases hshort : frame.word 12 ≤ 0x05dc
  · by_cases hnovell : frame.word 14 = 0xffff
    · rw [linkHeader_novell hshort hnovell, linkHeader_novell (htype ▸ hshort) (hid ▸ hnovell)]
    · by_cases hsnap : frame.word 14 = 0xaaaa
      · rw [linkHeader_snap hshort hsnap, linkHeader_snap (htype ▸ hshort) (hid ▸ hsnap)]
        unfold stored
        by_cases hlong : len < 22
        · simp only [if_pos hlong]
        · rw [h.word (by omega)]
      · rw [linkHeader_802 hshort hnovell hsnap, linkHeader_802 (htype ▸ hshort) (hid ▸ hnovell) (hid ▸ hsnap)]
  · rw [Nat.not_le] at hshort
    rw [linkHeader_long hshort, linkHeader_long (htype ▸ hshort), htype]

/-- A header whose kind is decided by the captured bytes is stored as the captured bytes say. -/
theorem stored_agree (hdecided : Decided frame len) (h : Agree len frame frame') :
    stored (linkHeader frame') len = stored (linkHeader frame) len := by
  rcases hdecided with hlen | ⟨hlen, hlong⟩ | ⟨rfl, hlong⟩ | ⟨rfl, hsnap, hnovell⟩
  · exact stored_agree_sixteen hlen h
  · have htype := h.word (show 12 + 1 < len by omega)
    rw [linkHeader_long hlong, linkHeader_long (htype ▸ hlong), htype]
  · -- The first byte of the type alone makes it too large for a length.
    have hword : 0x05dc < frame.word 12 := by unfold Frame.word; omega
    have hword' : 0x05dc < frame'.word 12 := by unfold Frame.word; rw [h 12 (by decide)]; omega
    rw [linkHeader_long hword, linkHeader_long hword']
    rfl
  · have htype := h.word (show 12 + 1 < 15 by decide)
    have h14 := h 14 (by decide)
    by_cases hshort : frame.word 12 ≤ 0x05dc
    · rw [linkHeader_802 hshort (word_ne hnovell) (word_ne hsnap),
        linkHeader_802 (htype ▸ hshort) (word_ne (h14 ▸ hnovell)) (word_ne (h14 ▸ hsnap))]
    · rw [Nat.not_le] at hshort
      rw [linkHeader_long hshort, linkHeader_long (htype ▸ hshort), htype]

theorem stored_size (k : LinkHeader) (len : Nat) : (stored k len).size = k.size := by
  unfold stored
  split <;> rfl

theorem linkResult_stored (k : LinkHeader) : linkResult (stored k len) len = linkResult k len := by
  unfold linkResult stored
  by_cases hlen : len < k.size
  · simp only [if_pos hlen]
  · simp only [if_neg hlen]

theorem parse_agree (hdecided : Decided frame len) (h : Agree len frame frame') :
    parse order frame' len DLT_EN10MB level = parse order frame len DLT_EN10MB level := by
  have hstored := stored_agree hdecided h
  have hsize : (linkHeader frame').size = (linkHeader frame).size := by
    rw [← stored_size _ len, hstored, stored_size]
  have hresult : linkResult (linkHeader frame') len = linkResult (linkHeader frame) len := by
    rw [← linkResult_stored, hstored, linkResult_stored]
  by_cases hone : levelOf level = 1
  · rw [parse_datalink hone, parse_datalink hone, hresult]
  by_cases hlen : len < (linkHeader frame).size
  · rw [parse_short hone hlen, parse_short hone (hsize ▸ hlen), hresult]
  rw [Nat.not_lt] at hlen
  rcases levelOf_cases level with hlevel | hlevel | hlevel
  · exact absurd hlevel hone
  · rw [parse_network hlevel hlen, parse_network hlevel (hsize ▸ hlen), hresult, networkParse_agree h]
  · rw [parse_transmit hlevel hlen, parse_transmit hlevel (hsize ▸ hlen), hresult, networkParse_agree h,
      transmitParse_agree h]

/-! ### What is stored at every level -/

theorem networkIp_l2Type {l4Type : Proto} {src dst : Nat} {result : FrameResult} :
    (networkIp l4Type src dst len result).1.l2Type = result.l2Type := by
  simp only [networkIp]
  split <;> rfl

theorem networkParse_l2Type {result : FrameResult} : (networkParse frame len result).1.l2Type = result.l2Type := by
  unfold networkParse
  split
  · exact networkIp_l2Type
  · exact networkIp_l2Type
  · rfl

theorem transmitPorts_l2Type {size : Nat} {result : FrameResult} :
    (transmitPorts order size frame len result).1.l2Type = result.l2Type := by
  simp only [transmitPorts]
  split <;> rfl

theorem transmitParse_l2Type {result : FrameResult} : (transmitParse order frame len result).1.l2Type = result.l2Type := by
  unfold transmitParse
  split
  · exact transmitPorts_l2Type
  · exact transmitPorts_l2Type
  · rfl

theorem parse_l2Type : (parse order frame len DLT_EN10MB level).2.l2Type = (linkResult (linkHeader frame) len).l2Type := by
  by_cases hone : levelOf level = 1
  · rw [parse_datalink hone]
  by_cases hlen : len < (linkHeader frame).size
  · rw [parse_short hone hlen]
  rw [Nat.not_lt] at hlen
  rcases levelOf_cases level with hlevel | hlevel | hlevel
  · exact absurd hlevel hone
  · rw [parse_network hlevel hlen]
    exact networkParse_l2Type
  · rw [parse_transmit hlevel hlen]
    split
    · exact networkParse_l2Type
    · exact transmitParse_l2Type.trans networkParse_l2Type

/-! ### The bytes behind the captured ones -/

/-- The captured bytes with `first` and `second` behind them as the bytes 14 and 15, and zeros elsewhere. -/
def patch (frame : Frame) (len : Nat) (first second : UInt8) : Frame := fun i =>
  if i < len then frame i else if i = 14 then first else if i = 15 then second else 0

theorem patch_agree (frame : Frame) (len : Nat) (first second : UInt8) : Agree len frame (patch frame len first second) :=
  fun _ hi => if_pos hi

theorem linkResult_l2Type {k : LinkHeader} (h : k.early = k.l2) : (linkResult k len).l2Type = k.l2 := by
  unfold linkResult
  split
  · exact h
  · rfl

theorem patch_l2Type (hshort : (patch frame len 0 0).word 12 ≤ 0x05dc) {b : UInt8} (hb : b = 0xff ∨ b = 0xaa)
    (hid : (patch frame len b b).word 14 = 256 * b.toNat + b.toNat) (hzero : (patch frame len 0 0).word 14 % 256 = 0) :
    (parse order (patch frame len b b) len DLT_EN10MB level).2.l2Type ≠
      (parse order (patch frame len 0 0) len DLT_EN10MB level).2.l2Type := by
  have hshort' : (patch frame len b b).word 12 ≤ 0x05dc := hshort
  have h802 := linkHeader_802 hshort (by omega) (by omega)
  rw [parse_l2Type, parse_l2Type, h802]
  rcases hb with rfl | rfl
  · rw [linkHeader_novell hshort' hid, linkResult_l2Type rfl, linkResult_l2Type rfl]
    exact Proto.noConfusion
  · rw [linkHeader_snap hshort' hid, linkResult_l2Type rfl, linkResult_l2Type rfl]
    exact Proto.noConfusion

/-- Two ways to go on behind the captured bytes, when these do not decide. -/
theorem patch_of_not_decided (order : ByteOrder) (level : Nat) (h : ¬Decided frame len) : ∃ b : UInt8,
    (parse order (patch frame len b b) len DLT_EN10MB level).2.l2Type ≠
      (parse order (patch frame len 0 0) len DLT_EN10MB level).2.l2Type := by
  unfold Decided at h
  have hlen : len ≤ 15 := by omega
  have hshort : (patch frame len 0 0).word 12 ≤ 0x05dc := by
    unfold Frame.word patch
    by_cases h13 : len ≤ 12
    · simp [Nat.not_lt.mpr h13, Nat.not_lt.mpr (Nat.le_succ_of_le h13)]
    · by_cases h14 : len = 13
      · have hbyte : (frame 12).toNat < 6 := by omega
        simp [h14]
        omega
      · have hword : frame.word 12 ≤ 0x05dc := by omega
        simpa [Frame.word, show 12 < len by omega, show 13 < len by omega] using hword
  have hzero : (patch frame len 0 0).word 14 % 256 = 0 := by
    simp [Frame.word, patch, Nat.not_lt.mpr hlen]
  by_cases h15 : len = 15
  · have hid : frame 14 = 0xff ∨ frame 14 = 0xaa := by
      by_cases hnovell : frame 14 = 0xff
      · exact .inl hnovell
      · exact .inr (Decidable.byContradiction fun hsnap => h (.inr (.inr (.inr ⟨h15, hsnap, hnovell⟩))))
    refine ⟨frame 14, patch_l2Type hshort hid ?_ hzero⟩
    simp [Frame.word, patch, h15]
  · refine ⟨0xff, patch_l2Type hshort (.inl rfl) ?_ hzero⟩
    simp [Frame.word, patch, show ¬14 < len by omega, show ¬15 < len by omega]

/-- The parser depends on the captured bytes only, exactly when these decide the kind of the header. -/
theorem parse_captured_iff (order : ByteOrder) (frame : Frame) (len : Nat) (link : Int) (level : Nat) :
    (∀ frame', (∀ i < len, frame' i = frame i) →
      parse order frame' len link level = parse order frame len link level) ↔ link ≠ DLT_EN10MB ∨ Decided frame len := by
  constructor
  · intro h
    by_cases hlink : link = DLT_EN10MB
    · subst hlink
      by_cases hdecided : Decided frame len
      · exact .inr hdecided
      · obtain ⟨b, hb⟩ := patch_of_not_decided order level hdecided
        rw [h _ (patch_agree frame len b b), h _ (patch_agree frame len 0 0)] at hb
        exact absurd rfl hb
    · exact .inl hlink
  · rintro (hlink | hdecided) frame' h
    · rw [parse_other hlink, parse_other hlink]
    · by_cases hlink : link = DLT_EN10MB
      · subst hlink
        exact parse_agree hdecided h
      · rw [parse_other hlink, parse_other hlink]

/-- 14 captured bytes of zeros are a Novell frame or an IEEE 802.2 frame, as the two bytes behind them say. -/
theorem parse_behind_captured : ¬∀ frame', (∀ i < 14, frame' i = patch (fun _ => 0) 14 0 0 i) →
    parse .little frame' 14 DLT_EN10MB levelTransmit = parse .little (patch (fun _ => 0) 14 0 0) 14 DLT_EN10MB levelTransmit := by
  intro h
  have hnovell := h (patch (fun _ => 0) 14 0xff 0xff) (by decide)
  exact absurd hnovell (by decide)

/-! ### Positions inside the captured bytes -/

/-- The size of an address of the network layer. -/
def addressSize (l3Type : Proto) : Nat := if l3Type = .ipv6 then 16 else 4

/-- Every position of a result is inside the captured bytes. -/
structure Inside (len : Nat) (result : FrameResult) : Prop where
  l3Offset : result.l3Offset ≤ len
  l4Offset : result.l4Offset ≤ len
  dataOffset : result.dataOffset ≤ len
  smac : ∀ i ∈ result.smac, i + 6 ≤ len
  dmac : ∀ i ∈ result.dmac, i + 6 ≤ len
  src : ∀ i ∈ result.src, i + addressSize result.l3Type ≤ len
  dst : ∀ i ∈ result.dst, i + addressSize result.l3Type ≤ len

/-- The header of the last layer that is looked at was captured in full, or an earlier one is cut off and the parser says
    so. Both IP headers count as cut off when there are less than 20 bytes of them. -/
def Captured (frame : Frame) (len level : Nat) : Prop :=
  let k := linkHeader frame
  if levelOf level = 1 then k.size ≤ len
  else if levelOf level = 2 then
    len < k.size ∨ (k.l3 = .ipv6 → k.size + 40 ≤ len) ∧ (k.l3 = .ip → k.size + 20 ≤ len)
  else
    len < k.size + 20 ∨ (k.l3 = .ipv6 → k.size + 40 ≤ len) ∧
      (k.l3 = .ip → ∀ t : Transport, frame (k.size + 9) = t.number → k.size + 20 + t.size ≤ len)

theorem inside_whole {k : LinkHeader} (hk : 14 ≤ k.size) : Inside len (whole k) ↔ k.size ≤ len := by
  constructor
  · exact fun h => h.l3Offset
  · intro h
    have hmac : 6 + 6 ≤ len := by omega
    exact ⟨h, Nat.zero_le len, h, by simpa [whole] using hmac, by simp [whole]; omega, by simp [whole, FrameResult.zero],
      by simp [whole, FrameResult.zero]⟩

theorem inside_linkResult {k : LinkHeader} (hk : 14 ≤ k.size) : Inside len (linkResult k len) ↔ k.size ≤ len := by
  by_cases hlen : len < k.size
  · refine ⟨fun h => ?_, fun h => absurd h (Nat.not_le.mpr hlen)⟩
    have hoffset := h.l3Offset
    rw [linkResult, if_pos hlen] at hoffset
    exact hoffset
  · rw [linkResult_whole (Nat.not_lt.mp hlen)]
    exact inside_whole hk

/-- The positions after an IP header, with or without the ports behind it. -/
theorem inside_ipResult {k : LinkHeader} (hk : 14 ≤ k.size) {l4Type : Proto} {src dst dataOffset sport dport : Nat} :
    Inside len { ipResult k .unknown src dst with l4Type, dataOffset, sport, dport } ↔
      k.size + 20 ≤ len ∧ dataOffset ≤ len ∧ k.size + src + addressSize k.l3 ≤ len ∧
        k.size + dst + addressSize k.l3 ≤ len := by
  constructor
  · intro h
    exact ⟨h.l4Offset, h.dataOffset, h.src _ rfl, h.dst _ rfl⟩
  · rintro ⟨hl4, hdata, hsrc, hdst⟩
    refine ⟨Nat.le_trans (Nat.le_add_right _ _) hl4, hl4, hdata, ?_, ?_, ?_, ?_⟩
    · rintro i ⟨⟩
      omega
    · rintro i ⟨⟩
      omega
    · rintro i ⟨⟩
      exact hsrc
    · rintro i ⟨⟩
      exact hdst

theorem inside_network {k : LinkHeader} (hk : 14 ≤ k.size) (hlen : k.size ≤ len) :
    Inside len (networkParse frame len (whole k)).1 ↔
      (k.l3 = .ipv6 → k.size + 40 ≤ len) ∧ (k.l3 = .ip → k.size + 20 ≤ len) := by
  have hanswer : ∀ {l4Type : Proto} {src dst : Nat}, Inside len (ipAnswer k l4Type src dst len).1 ↔
      k.size + 20 ≤ len ∧ k.size + src + addressSize k.l3 ≤ len ∧ k.size + dst + addressSize k.l3 ≤ len := by
    intro l4Type src dst
    unfold ipAnswer
    split
    next hshort =>
      refine ⟨fun h => absurd h.l4Offset (Nat.not_le.mpr hshort), fun h => ?_⟩
      rw [sizeofIpv4] at hshort
      omega
    next hfull =>
      refine (inside_ipResult hk).trans ⟨fun h => ⟨h.1, h.2.2⟩, fun h => ⟨h.1, h.1, h.2⟩⟩
  by_cases hip : k.l3 = .ip
  · rw [networkParse_ip hip, hanswer, hip]
    simp [addressSize]
    omega
  · by_cases hipv6 : k.l3 = .ipv6
    · rw [networkParse_ipv6 hipv6, hanswer, hipv6]
      simp [addressSize]
      omega
    · rw [networkParse_other hip hipv6]
      have hwhole := (inside_whole hk).mpr hlen
      exact ⟨fun _ => ⟨fun h => absurd h hipv6, fun h => absurd h hip⟩,
        fun _ => ⟨hwhole.l3Offset, hwhole.l4Offset, hwhole.dataOffset, hwhole.smac, hwhole.dmac,
          fun _ hi => (nomatch hi), fun _ hi => (nomatch hi)⟩⟩

theorem networkParse_cut {k : LinkHeader} (hlen : len < k.size + 20) : (networkParse frame len (whole k)).2 = .unknown := by
  by_cases hip : k.l3 = .ip
  · rw [networkParse_ip hip, ipAnswer, sizeofIpv4, if_pos hlen]
  · by_cases hipv6 : k.l3 = .ipv6
    · rw [networkParse_ipv6 hipv6, ipAnswer, sizeofIpv4, if_pos hlen]
    · rw [networkParse_other hip hipv6]

theorem inside_transmit (order : ByteOrder) {k : LinkHeader} (hk : 14 ≤ k.size) (hlen : k.size + 20 ≤ len) :
    ((networkParse frame len (whole k)).2 ≠ .unknown →
      Inside len (transmitParse order frame len (networkParse frame len (whole k)).1).1) ↔
        (k.l3 = .ipv6 → k.size + 40 ≤ len) ∧
          (k.l3 = .ip → ∀ t : Transport, frame (k.size + 9) = t.number → k.size + 20 + t.size ≤ len) := by
  have hfull : ¬len < k.size + sizeofIpv4 := Nat.not_lt.mpr hlen
  by_cases hip : k.l3 = .ip
  · rw [networkParse_ip hip, ipAnswer, if_neg hfull, hip]
    simp only [ne_eq, reduceCtorEq, not_false_eq_true, forall_const, false_implies, true_and]
    have haddress : k.size + 12 + addressSize k.l3 ≤ len ∧ k.size + 16 + addressSize k.l3 ≤ len := by
      simp only [addressSize, hip, reduceCtorEq, if_false]
      omega
    by_cases hports : ∃ t : Transport, networkGetType (frame (k.size + 9)) = t.proto
    · obtain ⟨t, ht⟩ := hports
      have hnumber : ∀ t', frame (k.size + 9) = t'.number ↔ t' = t := by
        intro t'
        rw [networkGetType_iff.mp ht]
        cases t' <;> cases t <;> decide
      simp only [hnumber, forall_eq]
      rw [ht, transmitParse_ports rfl, transmitPorts_ipResult]
      split
      next hshort =>
        refine ⟨fun h => absurd h.dataOffset (Nat.not_le.mpr hshort), fun h => ?_⟩
        rw [sizeofIpv4] at hshort
        omega
      next hfits => exact (inside_ipResult hk).trans ⟨fun h => h.2.1, fun h => ⟨hlen, h, haddress⟩⟩
    · rw [transmitParse_other fun t ht => hports ⟨t, ht⟩]
      exact ⟨fun _ t ht => absurd ⟨t, networkGetType_iff.mpr ht⟩ hports,
        fun _ => (inside_ipResult hk).mpr ⟨hlen, hlen, haddress⟩⟩
  · by_cases hipv6 : k.l3 = .ipv6
    · rw [networkParse_ipv6 hipv6, ipAnswer, if_neg hfull, hipv6, transmitParse_other (by rintro ⟨⟩ <;> exact Proto.noConfusion)]
      simp only [ne_eq, reduceCtorEq, not_false_eq_true, forall_const, false_implies, and_true]
      have haddress : addressSize k.l3 = 16 := by rw [hipv6, addressSize, if_pos rfl]
      refine (inside_ipResult hk).trans ?_
      rw [haddress]
      exact ⟨fun h => h.2.2.2, fun h => ⟨hlen, hlen, by omega, h⟩⟩
    · rw [networkParse_other hip hipv6]
      exact ⟨fun _ => ⟨fun h => absurd h hipv6, fun h => absurd h hip⟩, fun _ h => absurd rfl h⟩

/-- A successful parse reports positions inside the captured bytes only, exactly when the headers it stands for were
    captured. -/
theorem parse_inside_iff (order : ByteOrder) (frame : Frame) (len level : Nat) :
    ((parse order frame len DLT_EN10MB level).1 = QP_SUCCESS → Inside len (parse order frame len DLT_EN10MB level).2) ↔
      Captured frame len level := by
  have herror : QP_ERROR ≠ QP_SUCCESS := by decide
  unfold Captured
  by_cases hone : levelOf level = 1
  · rw [parse_datalink hone, if_pos hone]
    exact ⟨fun h => (inside_linkResult linkHeader_size).mp (h rfl), fun h _ => (inside_linkResult linkHeader_size).mpr h⟩
  simp only [if_neg hone]
  by_cases hlen : len < (linkHeader frame).size
  · rw [parse_short hone hlen]
    refine ⟨fun _ => ?_, fun _ h => absurd h herror⟩
    split
    · exact .inl hlen
    · exact .inl (Nat.lt_add_right 20 hlen)
  rw [Nat.not_lt] at hlen
  rcases levelOf_cases level with hlevel | hlevel | hlevel
  · exact absurd hlevel hone
  · rw [parse_network hlevel hlen, linkResult_whole hlen, if_pos hlevel, or_iff_right (Nat.not_lt.mpr hlen)]
    exact ⟨fun h => (inside_network linkHeader_size hlen).mp (h rfl), fun h _ => (inside_network linkHeader_size hlen).mpr h⟩
  · have htwo : levelOf level ≠ 2 := by
      rw [hlevel]
      decide
    rw [parse_transmit hlevel hlen, linkResult_whole hlen]
    simp only [if_neg htwo]
    by_cases hcut : len < (linkHeader frame).size + 20
    · rw [if_pos (networkParse_cut hcut)]
      exact ⟨fun _ => .inl hcut, fun _ h => absurd h herror⟩
    · rw [or_iff_right hcut, ← inside_transmit order linkHeader_size (Nat.not_lt.mp hcut)]
      by_cases hunknown : (networkParse frame len (whole (linkHeader frame))).2 = .unknown
      · rw [if_pos hunknown]
        exact ⟨fun _ h => absurd hunknown h, fun _ h => absurd h herror⟩
      · rw [if_neg hunknown]
        exact ⟨fun h _ => h rfl, fun h _ => h hunknown⟩

/-- An Ethernet II frame with IPv6, all of it zeros but the type. -/
def ipv6Frame : Frame := fun i => if i = 12 then 0x86 else if i = 13 then 0xdd else 0

/-- With 34 bytes captured, the destination address of the IPv6 header ends at byte 54. -/
theorem parse_outside_captured : ¬((parse .little ipv6Frame 34 DLT_EN10MB levelNetwork).1 = QP_SUCCESS →
    Inside 34 (parse .little ipv6Frame 34 DLT_EN10MB levelNetwork).2) := by
  intro h
  have hdst := (h (by decide)).dst 38 (by decide)
  exact absurd hdst (by decide)

end Stack

end QPHi
