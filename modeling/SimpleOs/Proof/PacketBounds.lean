import SimpleOs.Net.Packet

/-!
# Which bytes a received packet makes the kernel touch
-/

namespace SimpleOs

def Buffer.size (frame : EthFrame) : Buffer → Nat
  | .frame => frame.len
  | .arpReply => ethHlen + ArpPacket.size
  | .pingReply => ethFrameLen

/-- The access stays in its buffer, and does not write the received frame. -/
def InBounds (frame : EthFrame) (a : Access Buffer) : Prop :=
  (a.kind = .store → a.buffer ≠ .frame) ∧ a.offset + a.size ≤ a.buffer.size frame

instance (frame : EthFrame) : DecidablePred (InBounds frame) :=
  fun _ => inferInstanceAs (Decidable (_ ∧ _))

namespace EthFrame

/-- The field of `w` bits at `offset`, as it is in memory. -/
def field (frame : EthFrame) (offset w : Nat) : BitVec w :=
  BitVec.ofNat w (frame.bytes.read offset (w / 8))

/-- The Internet header length, in bytes. -/
def ihl (frame : EthFrame) : Nat :=
  (frame.field (ethHlen + IpHeader.versionIhl) 8 &&& 0x0F#8).toNat * 4

def totalLen (frame : EthFrame) : Nat :=
  (ntohs (frame.field (ethHlen + IpHeader.totalLen) 16)).toNat

/-- An IPv4 frame with a whole header, addressed to `our_ip` or to everyone, that carries ICMP. -/
structure IcmpTo (net : NetConfig) (frame : EthFrame) : Prop where
  len : ethHlen + 20 ≤ frame.len
  type : ntohs (frame.field EthHeader.type 16) = ethTypeIp
  version : frame.field (ethHlen + IpHeader.versionIhl) 8 >>> 4 = 4#8
  dest : ntohl (frame.field (ethHlen + IpHeader.destIp) 32) = net.ourIp ∨
    ntohl (frame.field (ethHlen + IpHeader.destIp) 32) = 0xFFFFFFFF#32
  protocol : frame.field (ethHlen + IpHeader.protocol) 8 = ipProtoIcmp

/-- The type of the ICMP message is in the frame. If it is a request for an echo, so is the message as
far as the two length fields of the IP header say, and the reply to it has room for its payload. -/
structure LengthsFit (frame : EthFrame) : Prop where
  type : ethHlen + frame.ihl < frame.len
  echo : frame.field (ethHlen + frame.ihl) 8 = icmpEchoRequest →
    frame.ihl ≤ frame.totalLen ∧ ethHlen + frame.ihl + 8 ≤ frame.len ∧
      ethHlen + frame.totalLen ≤ frame.len ∧ ethHlen + 20 + frame.totalLen ≤ ethFrameLen + frame.ihl

end EthFrame

open Traced

variable {net : NetConfig} {frame : EthFrame} {stack m : ByteMemory} {buffer : Buffer}

theorem inBounds_load {buffer : Buffer} {offset size : Nat} :
    InBounds frame ⟨.load, buffer, offset, size⟩ ↔ offset + size ≤ buffer.size frame := by
  simp [InBounds]

theorem inBounds_store {buffer : Buffer} {offset size : Nat} :
    InBounds frame ⟨.store, buffer, offset, size⟩ ↔
      buffer ≠ .frame ∧ offset + size ≤ buffer.size frame := by
  simp [InBounds]

theorem sumWords_inBounds {p len : Nat} (sum : BitVec 32) (hlen : p + len ≤ buffer.size frame) :
    (sumWords buffer m p len sum).Within (InBounds frame) := by
  fun_induction sumWords buffer m p len sum with
  | case1 p len sum ih =>
      rw [within_bind, within_load, inBounds_load]
      exact ⟨by omega, ih _ (by omega)⟩
  | case2 p sum =>
      rw [within_bind, within_load, inBounds_load]
      exact ⟨hlen, within_pure _⟩
  | case3 p sum => exact within_pure _

theorem ipChecksum_inBounds {data : Nat} {len : BitVec 32}
    (hlen : data + len.toNat ≤ buffer.size frame) :
    (ipChecksum buffer m data len).Within (InBounds frame) := by
  have hint : len.toInt.toNat ≤ len.toNat := by
    rw [BitVec.toInt_eq_toNat_cond]
    split <;> omega
  rw [ipChecksum, within_bind]
  exact ⟨sumWords_inBounds _ (by omega), within_pure _⟩

theorem ethReply_inBounds {mac : Nat} (type : BitVec 16) (packet : ByteMemory)
    (hreply : buffer ≠ .frame) (hsize : ethHlen ≤ buffer.size frame)
    (hmac : mac + 6 ≤ frame.len) :
    (net.ethReply buffer frame mac type packet).Within (InBounds frame) := by
  rw [NetConfig.ethReply, within_bind, within_store, inBounds_store]
  refine ⟨?_, hreply, hsize⟩
  rw [within_forUpTo (P := fun i => mac + i + 1 ≤ frame.len ∧ i + 1 ≤ buffer.size frame ∧
    6 + i + 1 ≤ buffer.size frame)]
  · intro i hi
    have hroom : 14 ≤ buffer.size frame := hsize
    omega
  · intro i packet
    simp [inBounds_load, inBounds_store, hreply, EthHeader.dest, EthHeader.src, Buffer.size]

theorem arpMacs_inBounds {targetMac : Nat} (packet : ByteMemory)
    (hmac : targetMac + 6 ≤ frame.len) :
    (net.arpMacs frame targetMac packet).Within (InBounds frame) := by
  rw [NetConfig.arpMacs, within_forUpTo (P := fun i => 22 + i + 1 ≤ 42 ∧
    targetMac + i + 1 ≤ frame.len ∧ 32 + i + 1 ≤ 42)]
  · intro i hi
    omega
  · intro i packet
    simp [inBounds_load, inBounds_store, Buffer.size, ethHlen, ArpPacket.size,
      ArpPacket.senderMac, ArpPacket.targetMac]

theorem netSendArpReply_inBounds (targetIp : BitVec 32) {targetMac : Nat}
    (hmac : targetMac + 6 ≤ frame.len) :
    (net.netSendArpReply frame stack targetIp targetMac).Within (InBounds frame) := by
  have heth (packet : ByteMemory) :
      (net.ethReply .arpReply frame targetMac ethTypeArp packet).Within (InBounds frame) :=
    ethReply_inBounds _ _ Buffer.noConfusion (by simp [Buffer.size]) hmac
  have hmacs (packet : ByteMemory) :
      (net.arpMacs frame targetMac packet).Within (InBounds frame) :=
    arpMacs_inBounds packet hmac
  simp [NetConfig.netSendArpReply, heth, hmacs, inBounds_store, Buffer.size, ethHlen,
    ArpPacket.size, ArpPacket.hwType, ArpPacket.protoType, ArpPacket.hwLen, ArpPacket.protoLen,
    ArpPacket.operation, ArpPacket.senderIp, ArpPacket.targetIp]

theorem copyPayload_inBounds_iff {src payload : Nat} {dataLen : BitVec 32} (packet : ByteMemory) :
    (copyPayload frame src payload dataLen packet).Within (InBounds frame) ↔
      ∀ i < dataLen.toNat, src + i < frame.len ∧ payload + i < ethFrameLen := by
  apply within_forUpTo
  intro i packet
  simp [inBounds_load, inBounds_store, Buffer.size]

theorem netSendPingReply_inBounds_iff (destIp : BitVec 32) {destMac : Nat} (id seq : BitVec 16)
    {data : Nat} {dataLen : BitVec 32} (hmac : destMac + 6 ≤ frame.len) :
    (net.netSendPingReply frame stack destIp destMac id seq data dataLen).Within (InBounds frame) ↔
      ∀ i < dataLen.toNat, data + i < frame.len ∧ 42 + i < ethFrameLen := by
  have heth (packet : ByteMemory) :
      (net.ethReply .pingReply frame destMac ethTypeIp packet).Within (InBounds frame) :=
    ethReply_inBounds _ _ Buffer.noConfusion (by simp [Buffer.size, ethHlen, ethFrameLen]) hmac
  have hheader (packet : ByteMemory) :
      (ipChecksum .pingReply packet 14 20#32).Within (InBounds frame) :=
    ipChecksum_inBounds (by simp [Buffer.size, ethFrameLen])
  -- The checksum of the message reads what the header and the payload have been written to.
  have hmessage (packet : ByteMemory)
      (hcopy : ∀ i < dataLen.toNat, data + i < frame.len ∧ 42 + i < 1514) :
      (ipChecksum .pingReply packet 34 (8#32 + dataLen)).Within (InBounds frame) := by
    have hroom : dataLen.toNat ≤ 1472 := by
      by_contra hlong
      have hlast := (hcopy 1472 (by omega)).2
      omega
    apply ipChecksum_inBounds
    simp only [BitVec.toNat_add, BitVec.toNat_ofNat, Buffer.size, ethFrameLen]
    omega
  simpa [NetConfig.netSendPingReply, heth, hheader, copyPayload_inBounds_iff, inBounds_store,
    Buffer.size, ethHlen, ethFrameLen, IpHeader.versionIhl, IpHeader.tos, IpHeader.totalLen,
    IpHeader.id, IpHeader.flagsFrag, IpHeader.ttl, IpHeader.protocol, IpHeader.checksum,
    IpHeader.srcIp, IpHeader.destIp, IcmpHeader.type, IcmpHeader.code, IcmpHeader.checksum,
    IcmpHeader.id, IcmpHeader.sequence] using hmessage _

theorem toNat_ipHdrLen (frame : EthFrame) :
    ((frame.field (ethHlen + IpHeader.versionIhl) 8 &&& 0x0F#8).setWidth 32 * 4#32).toNat =
      frame.ihl := by
  have hlt := (frame.field (ethHlen + IpHeader.versionIhl) 8 &&& 0x0F#8).isLt
  simp only [BitVec.toNat_mul, BitVec.toNat_setWidth, BitVec.toNat_ofNat, EthFrame.ihl]
  omega

theorem ihl_le (frame : EthFrame) : frame.ihl ≤ 60 :=
  Nat.mul_le_mul_right 4 Nat.and_le_right

theorem toNat_echoDataLen (totalLen : BitVec 16) (ipHdrLen : BitVec 32) :
    (echoDataLen totalLen ipHdrLen).toNat =
      (2 ^ 32 - ipHdrLen.toNat + totalLen.toNat) % 2 ^ 32 - 8 := by
  have hlt := totalLen.isLt
  have hsub : (totalLen.setWidth 32 - ipHdrLen).toNat =
      (2 ^ 32 - ipHdrLen.toNat + totalLen.toNat) % 2 ^ 32 := by
    have hwide : (totalLen.setWidth 32).toNat = totalLen.toNat :=
      BitVec.toNat_setWidth_of_le (by decide)
    rw [BitVec.toNat_sub, hwide]
  by_cases hlong : totalLen.setWidth 32 - ipHdrLen > 8#32
  · rw [echoDataLen, if_pos hlong, BitVec.toNat_sub_of_le (BitVec.le_of_lt hlong), hsub]
    rfl
  · have hshort : (totalLen.setWidth 32 - ipHdrLen).toNat ≤ 8 := not_lt.mp hlong
    rw [echoDataLen, if_neg hlong, ← hsub, Nat.sub_eq_zero_of_le hshort]
    rfl

theorem forall_payload_iff (totalLen : BitVec 16) {ipHdrLen : BitVec 32} {icmp len : Nat}
    (hsmall : ipHdrLen.toNat ≤ 60) (hicmp : icmp + 8 ≤ len) :
    (∀ i < (echoDataLen totalLen ipHdrLen).toNat, icmp + 8 + i < len ∧ 42 + i < 1514) ↔
      ipHdrLen.toNat ≤ totalLen.toNat ∧ icmp + totalLen.toNat ≤ len + ipHdrLen.toNat ∧
        34 + totalLen.toNat ≤ 1514 + ipHdrLen.toNat := by
  have hlt := totalLen.isLt
  rw [toNat_echoDataLen]
  constructor
  · intro hcopy
    -- A total length below the header length wraps around, to more than the reply has room for.
    have hle : ipHdrLen.toNat ≤ totalLen.toNat := by
      by_contra hwrap
      have hlast := (hcopy 1514 (by omega)).2
      omega
    by_cases hempty : totalLen.toNat - ipHdrLen.toNat - 8 = 0
    · omega
    · have hlast := hcopy (totalLen.toNat - ipHdrLen.toNat - 9) (by omega)
      omega
  · rintro ⟨hle, hframe, hreply⟩ i hi
    omega

theorem value_load_frame (offset w : Nat) :
    (load .frame frame.bytes offset w : Traced Buffer (BitVec w)).value = frame.field offset w := rfl

theorem processIcmp_inBounds_iff (hlen : ethHlen + 20 ≤ frame.len) :
    (net.processIcmp frame stack (frame.field (ethHlen + IpHeader.versionIhl) 8)).Within
      (InBounds frame) ↔ frame.LengthsFit := by
  have hihl := toNat_ipHdrLen frame
  have hsmall := ihl_le frame
  have htotal : frame.totalLen = (ntohs (frame.field (ethHlen + IpHeader.totalLen) 16)).toNat := rfl
  have hmac : EthHeader.src + 6 ≤ frame.len := le_trans (by decide) hlen
  rw [NetConfig.processIcmp]
  generalize (frame.field (ethHlen + IpHeader.versionIhl) 8 &&& 0x0F#8).setWidth 32 * 4#32 =
    ipHdrLen at hihl ⊢
  have hcopy (hicmp : ethHlen + frame.ihl + 8 ≤ frame.len) :=
    forall_payload_iff (ntohs (frame.field (ethHlen + IpHeader.totalLen) 16)) (hihl ▸ hsmall) hicmp
  simp only [within_bind, within_ite, within_load, within_pure, inBounds_load,
    netSendPingReply_inBounds_iff _ _ _ hmac]
  simp only [value_load_frame, hihl, ← htotal, Buffer.size] at hcopy ⊢
  constructor
  · rintro ⟨htype, hecho, -⟩
    refine ⟨htype, fun hrequest => ?_⟩
    obtain ⟨-, -, -, hicmp, hpayload, -⟩ := hecho hrequest
    obtain ⟨hle, hframe, hreply⟩ := (hcopy hicmp).mp hpayload
    exact ⟨hle, hicmp, by omega, hreply⟩
  · intro hfit
    refine ⟨hfit.type, fun hrequest => ?_, fun _ => trivial⟩
    obtain ⟨hle, hicmp, hframe, hreply⟩ := hfit.echo hrequest
    have hpayload := (hcopy hicmp).mpr ⟨hle, by omega, hreply⟩
    simp only [ethHlen, IpHeader.totalLen, IpHeader.srcIp, IcmpHeader.id, IcmpHeader.sequence] at *
    exact ⟨by omega, by omega, by omega, by omega, hpayload, trivial⟩

theorem processArp_inBounds : (net.processArp frame stack).Within (InBounds frame) := by
  rw [NetConfig.processArp]
  split
  · exact within_pure _
  · rename_i hlen
    have hlen : 42 ≤ frame.len := not_lt.mp hlen
    have hreply (targetIp : BitVec 32) : (net.netSendArpReply frame stack targetIp
        (ethHlen + ArpPacket.senderMac)).Within (InBounds frame) :=
      netSendArpReply_inBounds targetIp (le_trans (by decide) hlen)
    simp only [within_bind, within_ite, within_load, within_pure, inBounds_load, hreply]
    simp only [Buffer.size, ethHlen, ArpPacket.operation, ArpPacket.targetIp, ArpPacket.senderIp,
      and_true, implies_true]
    exact ⟨by omega, fun _ => ⟨by omega, fun _ => by omega⟩⟩

theorem processIp_inBounds_iff (htype : ntohs (frame.field EthHeader.type 16) = ethTypeIp) :
    (net.processIp frame stack).Within (InBounds frame) ↔
      (frame.IcmpTo net → frame.LengthsFit) := by
  rw [NetConfig.processIp]
  split
  · rename_i hshort
    exact ⟨fun _ hicmp => absurd hicmp.len (not_le.mpr hshort), fun _ => within_pure _⟩
  · rename_i hlen
    have hlen : ethHlen + 20 ≤ frame.len := not_lt.mp hlen
    simp only [within_bind, within_ite, within_load, within_pure, inBounds_load]
    simp only [value_load_frame, processIcmp_inBounds_iff hlen]
    have hheader : 34 ≤ Buffer.size frame .frame := hlen
    constructor
    · rintro ⟨-, -, hversion⟩ hicmp
      obtain ⟨-, -, hdest⟩ := hversion (not_not.mpr hicmp.version)
      have haddressed := hdest fun hother => hicmp.dest.elim hother.1 hother.2
      exact haddressed.2.1 hicmp.protocol
    · intro hfit
      simp only [ethHlen, IpHeader.versionIhl, IpHeader.destIp, IpHeader.protocol] at hfit ⊢
      refine ⟨by omega, fun _ => trivial, fun hversion => ⟨by omega, fun _ => trivial, fun hdest =>
        ⟨by omega, fun hprotocol => hfit ⟨hlen, htype, not_not.mp hversion, ?_, hprotocol⟩,
          fun _ => trivial⟩⟩⟩
      by_contra hother
      exact hdest (not_or.mp hother)

/-- Exactly the frames whose lengths do not fit make `net_process_packet` leave a buffer. -/
theorem netProcessPacket_inBounds_iff (net : NetConfig) (frame : EthFrame) (stack : ByteMemory) :
    (net.netProcessPacket frame stack).Within (InBounds frame) ↔
      (frame.IcmpTo net → frame.LengthsFit) := by
  rw [NetConfig.netProcessPacket]
  split
  · rename_i hshort
    exact ⟨fun _ hicmp => absurd hicmp.len (by omega), fun _ => within_pure _⟩
  · rename_i hlen
    have hlen : 14 ≤ frame.len := not_lt.mp hlen
    simp only [within_bind, within_ite, within_load, within_pure, inBounds_load, processArp_inBounds]
    simp only [value_load_frame]
    constructor
    · rintro ⟨-, -, hother⟩ hicmp
      have hip := (hother (by rw [hicmp.type]; decide)).1 hicmp.type
      exact (processIp_inBounds_iff hicmp.type).mp hip hicmp
    · intro hfit
      exact ⟨hlen, fun _ => trivial,
        fun _ => ⟨fun htype => (processIp_inBounds_iff htype).mpr hfit, fun _ => trivial⟩⟩

/-- An IPv4 frame to everyone of 34 bytes, whose header is said to have 60. -/
def longHeader : EthFrame where
  bytes a := match a with
    | 12 => 0x08
    | 14 => 0x4F
    | 23 => ipProtoIcmp
    | 30 | 31 | 32 | 33 => 0xFF
    | _ => 0
  len := 34
  len_le := by decide

theorem not_inBounds_longHeader :
    ¬∀ (net : NetConfig) (frame : EthFrame) (stack : ByteMemory),
      (net.netProcessPacket frame stack).Within (InBounds frame) := by
  intro h
  have hlong := h ⟨fun _ => 0, 0⟩ longHeader ByteMemory.zero
  revert hlong
  decide

end SimpleOs
