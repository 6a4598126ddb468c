import SimpleOs.Proof.PingReply

/-!
# Which frames are answered

`net_process_packet` answers a request for the hardware address of its IP address, and an echo request. No
other frame makes it send anything.

It does not check the two length fields of an IP header before it acts on them. For the frames that make it
leave a buffer, what it sends is what the model makes of bytes behind the frame, and says nothing about the
machine; the main result leaves them out.
-/

namespace SimpleOs

open ByteMemory Traced

variable {net : NetConfig} {frame : EthFrame} {stack m : ByteMemory}

namespace EthFrame

/-- A request for the hardware address of this machine. -/
structure ArpRequest (net : NetConfig) (frame : EthFrame) : Prop where
  len : ethHlen + ArpPacket.size ≤ frame.len
  type : ntohs (frame.field EthHeader.type 16) = ethTypeArp
  operation : ntohs (frame.field (ethHlen + ArpPacket.operation) 16) = arpOpRequest
  targetIp : ntohl (frame.field (ethHlen + ArpPacket.targetIp) 32) = net.ourIp

/-- The frame gets to the branch that answers an echo request. The byte that decides it is at the end that
the header claims to have, which may be behind the frame. -/
structure TakenForEcho (net : NetConfig) (frame : EthFrame) : Prop where
  icmp : frame.IcmpTo net
  type : frame.field (ethHlen + frame.ihl) 8 = icmpEchoRequest

/-- A request for an echo, that is in the frame as far as its lengths say and can be answered in one. -/
structure EchoAsked (net : NetConfig) (frame : EthFrame) : Prop where
  icmp : frame.IcmpTo net
  lengths : frame.LengthsFit
  type : frame.field (ethHlen + frame.ihl) 8 = icmpEchoRequest

theorem echoAsked_iff (hlengths : frame.IcmpTo net → frame.LengthsFit) :
    frame.EchoAsked net ↔ frame.TakenForEcho net :=
  ⟨fun h => ⟨h.icmp, h.type⟩, fun h => ⟨h.icmp, hlengths h.icmp, h.type⟩⟩

end EthFrame

theorem value_processArp (net : NetConfig) (stack : ByteMemory)
    (htype : ntohs (frame.field EthHeader.type 16) = ethTypeArp) :
    frame.ArpRequest net ∧ (net.processArp frame stack).value =
        some (net.netSendArpReply frame stack (ntohl (frame.field (ethHlen + ArpPacket.senderIp) 32))
          (ethHlen + ArpPacket.senderMac)).value ∨
      ¬ frame.ArpRequest net ∧ (net.processArp frame stack).value = none := by
  rw [NetConfig.processArp]
  by_cases hlen : frame.len < ethHlen + ArpPacket.size
  · rw [if_pos hlen]
    exact Or.inr ⟨fun h => absurd h.len (not_le.mpr hlen), rfl⟩
  rw [if_neg hlen, value_bind, value_load_frame]
  by_cases hoperation : ntohs (frame.field (ethHlen + ArpPacket.operation) 16) = arpOpRequest
  · rw [if_pos hoperation, value_bind, value_load_frame]
    by_cases htarget : ntohl (frame.field (ethHlen + ArpPacket.targetIp) 32) = net.ourIp
    · rw [if_pos htarget]
      exact Or.inl ⟨⟨not_lt.mp hlen, htype, hoperation, htarget⟩, rfl⟩
    · rw [if_neg htarget]
      exact Or.inr ⟨fun h => htarget h.targetIp, rfl⟩
  · rw [if_neg hoperation]
    exact Or.inr ⟨fun h => hoperation h.operation, rfl⟩

/-- Nothing else makes the branch for IP send anything. -/
theorem value_processIp_none (htype : ntohs (frame.field EthHeader.type 16) = ethTypeIp)
    (htaken : ¬ frame.TakenForEcho net) : (net.processIp frame stack).value = none := by
  rw [NetConfig.processIp]
  by_cases hlen : frame.len < ethHlen + 20
  · rw [if_pos hlen]
    rfl
  rw [if_neg hlen, value_bind, value_load_frame]
  by_cases hversion : frame.field (ethHlen + IpHeader.versionIhl) 8 >>> 4 = 4#8
  swap
  · rw [if_pos hversion]
    rfl
  rw [if_neg (not_not.mpr hversion), value_bind, value_load_frame]
  by_cases hdest : ntohl (frame.field (ethHlen + IpHeader.destIp) 32) ≠ net.ourIp ∧
      ntohl (frame.field (ethHlen + IpHeader.destIp) 32) ≠ 0xFFFFFFFF#32
  · rw [if_pos hdest]
    rfl
  rw [if_neg hdest, value_bind, value_load_frame]
  by_cases hprotocol : frame.field (ethHlen + IpHeader.protocol) 8 = ipProtoIcmp
  swap
  · rw [if_neg hprotocol]
    rfl
  have hto : ntohl (frame.field (ethHlen + IpHeader.destIp) 32) = net.ourIp ∨
      ntohl (frame.field (ethHlen + IpHeader.destIp) 32) = 0xFFFFFFFF#32 := by
    by_contra hother
    exact hdest (not_or.mp hother)
  have hicmp : frame.IcmpTo net := ⟨not_lt.mp hlen, htype, hversion, hto, hprotocol⟩
  rw [if_pos hprotocol, NetConfig.processIcmp, toNat_ipHdrLen, value_bind, value_load_frame]
  change (if frame.field (ethHlen + frame.ihl) 8 = icmpEchoRequest then _ else _ :
    Traced Buffer (Option Sent)).value = _
  rw [if_neg fun hecho => htaken ⟨hicmp, hecho⟩]
  rfl

/-- What is sent for a frame. -/
theorem netProcessPacket_cases (net : NetConfig) (frame : EthFrame) (stack : ByteMemory) :
    frame.ArpRequest net ∧ (net.netProcessPacket frame stack).value =
        some (net.netSendArpReply frame stack (ntohl (frame.field (ethHlen + ArpPacket.senderIp) 32))
          (ethHlen + ArpPacket.senderMac)).value ∨
      frame.TakenForEcho net ∧ (net.netProcessPacket frame stack).value =
        some (net.netSendPingReply frame stack (ntohl (frame.field (ethHlen + IpHeader.srcIp) 32))
          EthHeader.src (frame.field (ethHlen + frame.ihl + IcmpHeader.id) 16)
          (frame.field (ethHlen + frame.ihl + IcmpHeader.sequence) 16) (ethHlen + frame.ihl + 8)
          frame.echoDataLen).value ∨
      ¬ frame.ArpRequest net ∧ ¬ frame.TakenForEcho net ∧ (net.netProcessPacket frame stack).value = none := by
  by_cases htaken : frame.TakenForEcho net
  · exact Or.inr (Or.inl ⟨htaken, value_netProcessPacket htaken.icmp htaken.type⟩)
  rw [NetConfig.netProcessPacket]
  by_cases hshort : frame.len < ethHlen
  · rw [if_pos hshort]
    refine Or.inr (Or.inr ⟨fun h => ?_, htaken, rfl⟩)
    exact absurd h.len (not_le.mpr (hshort.trans_le (Nat.le_add_right _ _)))
  rw [if_neg hshort, value_bind, value_load_frame]
  by_cases harp : ntohs (frame.field EthHeader.type 16) = ethTypeArp
  · rw [if_pos harp]
    obtain h | ⟨hnot, hnone⟩ := value_processArp net stack harp
    · exact Or.inl h
    · exact Or.inr (Or.inr ⟨hnot, htaken, hnone⟩)
  · refine Or.inr (Or.inr ⟨fun h => harp h.type, htaken, ?_⟩)
    rw [if_neg harp]
    split
    · rename_i hip
      exact value_processIp_none hip htaken
    · rfl

/-- What `virtio_net_send` is given for a request for the address. -/
structure ArpReply (net : NetConfig) (frame : EthFrame) (sent : Sent) : Prop where
  len : sent.len.toNat = ethHlen + ArpPacket.size
  ethDest : ∀ i < 6, sent.data (EthHeader.dest + i) = frame.bytes (ethHlen + ArpPacket.senderMac + i)
  ethSrc : ∀ i < 6, sent.data (EthHeader.src + i) = net.mac i
  ethType : ntohs (sent.data.field EthHeader.type 16) = ethTypeArp
  hwType : ntohs (sent.data.field (ethHlen + ArpPacket.hwType) 16) = arpHwEther
  protoType : ntohs (sent.data.field (ethHlen + ArpPacket.protoType) 16) = ethTypeIp
  hwLen : sent.data.field (ethHlen + ArpPacket.hwLen) 8 = 6
  protoLen : sent.data.field (ethHlen + ArpPacket.protoLen) 8 = 4
  operation : ntohs (sent.data.field (ethHlen + ArpPacket.operation) 16) = arpOpReply
  senderMac : ∀ i < 6, sent.data (ethHlen + ArpPacket.senderMac + i) = net.mac i
  senderIp : ntohl (sent.data.field (ethHlen + ArpPacket.senderIp) 32) = net.ourIp
  targetMac : ∀ i < 6, sent.data (ethHlen + ArpPacket.targetMac + i) =
    frame.bytes (ethHlen + ArpPacket.senderMac + i)
  targetIp : sent.data.field (ethHlen + ArpPacket.targetIp) 32 =
    frame.field (ethHlen + ArpPacket.senderIp) 32

/-- What stands before the addresses. -/
def arpHeader (packet : ByteMemory) : ByteMemory :=
  let packet := packet.put (ethHlen + ArpPacket.hwType) (htons arpHwEther)
  let packet := packet.put (ethHlen + ArpPacket.protoType) (htons ethTypeIp)
  let packet := packet.put (ethHlen + ArpPacket.hwLen) 6#8
  let packet := packet.put (ethHlen + ArpPacket.protoLen) 4#8
  packet.put (ethHlen + ArpPacket.operation) (htons arpOpReply)

def NetConfig.arpIps (net : NetConfig) (targetIp : BitVec 32) (packet : ByteMemory) : ByteMemory :=
  (packet.put (ethHlen + ArpPacket.senderIp) (htonl net.ourIp)).put (ethHlen + ArpPacket.targetIp)
    (htonl targetIp)

theorem value_netSendArpReply (targetIp : BitVec 32) (targetMac : Nat) :
    (net.netSendArpReply frame stack targetIp targetMac).value =
      ⟨net.arpIps targetIp (net.arpMacs frame targetMac
          (arpHeader (net.ethReply .arpReply frame targetMac ethTypeArp stack).value)).value,
        BitVec.ofNat 32 (ethHlen + ArpPacket.size)⟩ := by
  simp only [NetConfig.netSendArpReply, value_bind, value_store, value_pure, NetConfig.arpIps, arpHeader]

section

variable {targetIp : BitVec 32} {targetMac x : Nat}

theorem arpHeader_apply (hx : x < ethHlen) : arpHeader m x = m x := by
  rw [ethHlen] at hx
  simp (disch := first | decide | (simp only [ethHlen]; omega)) only [arpHeader, put_apply_of_outside]

theorem field_arpHeader (m : ByteMemory) :
    (arpHeader m).field (ethHlen + ArpPacket.hwType) 16 = htons arpHwEther ∧
      (arpHeader m).field (ethHlen + ArpPacket.protoType) 16 = htons ethTypeIp ∧
      (arpHeader m).field (ethHlen + ArpPacket.hwLen) 8 = 6#8 ∧
      (arpHeader m).field (ethHlen + ArpPacket.protoLen) 8 = 4#8 ∧
      (arpHeader m).field (ethHlen + ArpPacket.operation) 16 = htons arpOpReply := by
  simp (disch := decide) only [arpHeader, field_put_of_apart, field_put_self, and_self]

/-- The loop writes the two hardware addresses, and nothing before them. -/
theorem value_arpMacs (net : NetConfig) (frame : EthFrame) (hmac : targetMac + 6 ≤ 2 ^ 64)
    (packet : ByteMemory) :
    (∀ i < 6, (net.arpMacs frame targetMac packet).value (ethHlen + ArpPacket.senderMac + i) =
        net.mac i) ∧
      (∀ i < 6, (net.arpMacs frame targetMac packet).value (ethHlen + ArpPacket.targetMac + i) =
        frame.bytes (targetMac + i)) ∧
      ∀ x < ethHlen + ArpPacket.senderMac, (net.arpMacs frame targetMac packet).value x = packet x := by
  rw [NetConfig.arpMacs]
  refine value_forUpTo _
    (P := fun n (m : ByteMemory) => (∀ i < n, m (ethHlen + ArpPacket.senderMac + i) = net.mac i) ∧
      (∀ i < n, m (ethHlen + ArpPacket.targetMac + i) = frame.bytes (targetMac + i)) ∧
      ∀ x < ethHlen + ArpPacket.senderMac, m x = packet x)
    ⟨fun i hi => absurd hi (Nat.not_lt_zero i), fun i hi => absurd hi (Nat.not_lt_zero i),
      fun x _ => rfl⟩ ?_
  rintro i hi m ⟨hsender, htarget, hbefore⟩
  simp only [ethHlen, ArpPacket.senderMac, ArpPacket.targetMac] at hsender htarget hbefore ⊢
  simp only [value_bind, value_load, value_store]
  rw [put_byte (by omega), put_byte (by omega), field_byte (by omega)]
  refine ⟨fun j hj => ?_, ?_, fun x hx => ?_⟩
  · rw [Function.update_of_ne (by omega)]
    exact update_apply_of_lt (f := net.mac) hsender j hj
  · refine update_apply_of_lt (f := fun j => frame.bytes (targetMac + j)) fun j hj => ?_
    rw [Function.update_of_ne (by omega), htarget j hj]
  · rw [Function.update_of_ne (by omega), Function.update_of_ne (by omega), hbefore x hx]

theorem arpIps_apply (hx : x < ethHlen + ArpPacket.senderIp ∨
    ethHlen + ArpPacket.targetMac ≤ x ∧ x < ethHlen + ArpPacket.targetIp) :
    net.arpIps targetIp m x = m x := by
  simp only [ethHlen, ArpPacket.senderIp, ArpPacket.targetMac, ArpPacket.targetIp] at hx
  rw [NetConfig.arpIps, put_apply_of_outside, put_apply_of_outside]
  · simp only [ethHlen, ArpPacket.senderIp]
    omega
  · decide
  · simp only [ethHlen, ArpPacket.targetIp]
    omega
  · decide

theorem field_arpIps (net : NetConfig) (targetIp : BitVec 32) (m : ByteMemory) :
    (net.arpIps targetIp m).field (ethHlen + ArpPacket.senderIp) 32 = htonl net.ourIp ∧
      (net.arpIps targetIp m).field (ethHlen + ArpPacket.targetIp) 32 = htonl targetIp := by
  simp (disch := decide) only [NetConfig.arpIps, field_put_of_apart, field_put_self, and_self]

end

theorem arpReply_netSendArpReply (net : NetConfig) (frame : EthFrame) (stack : ByteMemory) :
    ArpReply net frame (net.netSendArpReply frame stack
      (ntohl (frame.field (ethHlen + ArpPacket.senderIp) 32)) (ethHlen + ArpPacket.senderMac)).value := by
  rw [value_netSendArpReply]
  have hmac : ethHlen + ArpPacket.senderMac + 6 ≤ 2 ^ 64 := by decide
  obtain ⟨hdest, hsrc, htype⟩ := value_ethReply net .arpReply frame ethTypeArp stack hmac
  generalize (net.ethReply .arpReply frame (ethHlen + ArpPacket.senderMac) ethTypeArp stack).value =
    eth at *
  obtain ⟨hhwType, hprotoType, hhwLen, hprotoLen, hoperation⟩ := field_arpHeader eth
  obtain ⟨hsender, htarget, hbefore⟩ := value_arpMacs net frame hmac (arpHeader eth)
  generalize (net.arpMacs frame (ethHlen + ArpPacket.senderMac) (arpHeader eth)).value = macs at *
  obtain ⟨hsenderIp, htargetIp⟩ :=
    field_arpIps net (ntohl (frame.field (ethHlen + ArpPacket.senderIp) 32)) macs
  have hkept : ∀ x < ethHlen + ArpPacket.senderMac, net.arpIps
      (ntohl (frame.field (ethHlen + ArpPacket.senderIp) 32)) macs x = arpHeader eth x := fun x hx =>
    (arpIps_apply (Or.inl (hx.trans (by decide)))).trans (hbefore x hx)
  have hfield : ∀ {o w : Nat}, o + w / 8 ≤ ethHlen + ArpPacket.senderMac → (net.arpIps
      (ntohl (frame.field (ethHlen + ArpPacket.senderIp) 32)) macs).field o w = (arpHeader eth).field o w :=
    fun ho => field_congr (fun x _ hx => hkept x (hx.trans_le ho)) (ho.trans (by decide))
  have heth : ∀ x < ethHlen, net.arpIps
      (ntohl (frame.field (ethHlen + ArpPacket.senderIp) 32)) macs x = eth x := fun x hx =>
    (hkept x (hx.trans (by decide))).trans (arpHeader_apply hx)
  exact
    { len := rfl
      ethDest := fun i hi => (heth _ (by simp only [EthHeader.dest, ethHlen]; omega)).trans (hdest i hi)
      ethSrc := fun i hi => (heth _ (by simp only [EthHeader.src, ethHlen]; omega)).trans (hsrc i hi)
      ethType := by
        have hsame := field_congr (w := 16) (o := EthHeader.type) (fun x _ hx => heth x hx) (by decide)
        rw [hsame, htype]
        exact htons_htons ethTypeArp
      hwType := by
        rw [hfield (by decide), hhwType]
        exact htons_htons arpHwEther
      protoType := by
        rw [hfield (by decide), hprotoType]
        exact htons_htons ethTypeIp
      hwLen := (hfield (by decide)).trans hhwLen
      protoLen := (hfield (by decide)).trans hprotoLen
      operation := by
        rw [hfield (by decide), hoperation]
        exact htons_htons arpOpReply
      senderMac := fun i hi => by
        rw [← hsender i hi]
        exact arpIps_apply (Or.inl (by simp only [ethHlen, ArpPacket.senderMac, ArpPacket.senderIp]; omega))
      senderIp := by
        rw [hsenderIp]
        exact htonl_htonl net.ourIp
      targetMac := fun i hi => by
        rw [← htarget i hi]
        refine arpIps_apply (Or.inr ⟨Nat.le_add_right _ _, ?_⟩)
        simp only [ethHlen, ArpPacket.targetMac, ArpPacket.targetIp]
        omega
      targetIp := by
        rw [htargetIp]
        exact htonl_htonl _ }

/-- The reply to a request that fits is not longer than `virtio_net_send` takes. -/
theorem EthFrame.EchoAsked.len_le (h : frame.EchoAsked net) {destIp : BitVec 32} {destMac data : Nat}
    {id seq : BitVec 16} :
    (net.netSendPingReply frame stack destIp destMac id seq data frame.echoDataLen).value.len.toNat ≤
      ethFrameLen := by
  obtain ⟨hle, -, -, hroom⟩ := h.lengths.echo h.type
  have hdata := toNat_echoDataLen_of_le hle
  simp only [ethHlen, ethFrameLen] at hroom ⊢
  have htotal : ((20#32 + 8#32 + frame.echoDataLen).setWidth 16).toNat = 28 + frame.echoDataLen.toNat := by
    rw [BitVec.toNat_setWidth, BitVec.toNat_add]
    change (28 + frame.echoDataLen.toNat) % 2 ^ 32 % 2 ^ 16 = _
    omega
  rw [value_netSendPingReply]
  dsimp only
  rw [BitVec.toNat_add, BitVec.toNat_setWidth_of_le (by decide), htotal]
  change (14 + (28 + frame.echoDataLen.toNat)) % 2 ^ 32 ≤ 1514
  omega

/-- **Exactly the requests are answered.** The lengths of the frame fit, if it is an ICMP message for this
machine. Then it makes `net_process_packet` send something if and only if it asks for the hardware address of
this machine, or asks it for an echo. What is sent is not too long for `virtio_net_send`, and the answer to
the first is the reply that the protocol asks for. -/
theorem answered_iff (net : NetConfig) (frame : EthFrame) (stack : ByteMemory)
    (hlengths : frame.IcmpTo net → frame.LengthsFit) :
    ((∃ sent, (net.netProcessPacket frame stack).value = some sent) ↔
        frame.ArpRequest net ∨ frame.EchoAsked net) ∧
      ∀ sent, (net.netProcessPacket frame stack).value = some sent →
        sent.len.toNat ≤ ethFrameLen ∧ (frame.ArpRequest net → ArpReply net frame sent) := by
  rw [EthFrame.echoAsked_iff hlengths]
  obtain ⟨harp, hvalue⟩ | ⟨htaken, hvalue⟩ | ⟨hnotArp, hnotTaken, hvalue⟩ :=
    netProcessPacket_cases net frame stack
  · refine ⟨iff_of_true ⟨_, hvalue⟩ (Or.inl harp), fun sent hsent => ?_⟩
    obtain rfl := Option.some.inj (hvalue.symm.trans hsent)
    have hreply := arpReply_netSendArpReply net frame stack
    exact ⟨hreply.len.trans_le (by decide), fun _ => hreply⟩
  · refine ⟨iff_of_true ⟨_, hvalue⟩ (Or.inr htaken), fun sent hsent => ?_⟩
    obtain rfl := Option.some.inj (hvalue.symm.trans hsent)
    refine ⟨((EthFrame.echoAsked_iff hlengths).mpr htaken).len_le, fun harp => ?_⟩
    have htype := harp.type.symm.trans htaken.icmp.type
    exact absurd htype (by decide)
  · have hnone : ∀ sent, (net.netProcessPacket frame stack).value ≠ some sent := fun sent hsent =>
      Option.some_ne_none sent (hsent.symm.trans hvalue)
    refine ⟨iff_of_false ?_ (not_or.mpr ⟨hnotArp, hnotTaken⟩), fun sent hsent => absurd hsent (hnone sent)⟩
    rintro ⟨sent, hsent⟩
    exact hnone sent hsent

theorem lengthsFit_pingFrame : pingFrame.LengthsFit := ⟨by decide, by decide⟩

theorem answered_iff_pingFrame :
    ∃ sent, (NetConfig.netProcessPacket ⟨fun _ => 0, 0⟩ pingFrame .zero).value = some sent ∧
      sent.len.toNat ≤ ethFrameLen := by
  obtain ⟨hiff, hsent⟩ :=
    answered_iff ⟨fun _ => 0, 0⟩ pingFrame .zero fun _ => lengthsFit_pingFrame
  have hasked : pingFrame.EchoAsked ⟨fun _ => 0, 0⟩ :=
    ⟨echoRequest_pingFrame.icmp, lengthsFit_pingFrame, echoRequest_pingFrame.type⟩
  obtain ⟨sent, hvalue⟩ := hiff.mpr (Or.inr hasked)
  exact ⟨sent, hvalue, (hsent sent hvalue).1⟩

end SimpleOs
