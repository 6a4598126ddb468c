import SimpleOs.Proof.InternetChecksum
import SimpleOs.Proof.PacketBounds

/-!
# Replies to a ping

`net_process_packet` answers an echo request with one frame: the header goes back to where it came from,
the message comes back as it is, and both checksums verify.
-/

namespace SimpleOs

open Traced
open ByteMemory (field_put_self field_put_of_apart field_congr)

variable {net : NetConfig} {frame : EthFrame} {stack m : ByteMemory} {buffer : Buffer}

theorem htons_htons (val : BitVec 16) : htons (htons val) = val := by
  apply BitVec.eq_of_getLsbD_eq
  intro i hi
  interval_cases i <;> simp [htons]

theorem htonl_htonl (val : BitVec 32) : htonl (htonl val) = val := by
  apply BitVec.eq_of_getLsbD_eq
  intro i hi
  interval_cases i <;> simp [htonl]

/-- A loop that stores byte after byte leaves those it has stored alone. -/
theorem update_apply_of_lt {f : Nat → BitVec 8} {base i : Nat}
    (h : ∀ j < i, m (base + j) = f j) :
    ∀ j < i + 1, Function.update m (base + i) (f i) (base + j) = f j := by
  intro j hj
  by_cases heq : j = i
  · rw [heq, Function.update_self]
  · rw [Function.update_of_ne (by omega), h j (by omega)]

theorem value_ethReply (net : NetConfig) (buffer : Buffer) (frame : EthFrame) {mac : Nat}
    (type : BitVec 16) (packet : ByteMemory) (hmac : mac + 6 ≤ 2 ^ 64) :
    (∀ i < 6, (net.ethReply buffer frame mac type packet).value (EthHeader.dest + i) =
        frame.bytes (mac + i)) ∧
      (∀ i < 6, (net.ethReply buffer frame mac type packet).value (EthHeader.src + i) = net.mac i) ∧
        (net.ethReply buffer frame mac type packet).value.field EthHeader.type 16 = htons type := by
  have hloop := value_forUpTo (fun i packet => do
      let byte ← load .frame frame.bytes (mac + i) 8
      let packet ← store buffer packet (EthHeader.dest + i) byte
      store buffer packet (EthHeader.src + i) (net.mac i)) (n := 6) (s := packet)
    (P := fun n m => (∀ i < n, m (EthHeader.dest + i) = frame.bytes (mac + i)) ∧
      ∀ i < n, m (EthHeader.src + i) = net.mac i)
    ⟨fun i hi => absurd hi (Nat.not_lt_zero i), fun i hi => absurd hi (Nat.not_lt_zero i)⟩
    (by
      rintro i hi m ⟨hdest, hsrc⟩
      simp only [EthHeader.dest, EthHeader.src] at hdest hsrc ⊢
      simp only [value_bind, value_load, value_store]
      rw [ByteMemory.put_byte (by omega), ByteMemory.put_byte (by omega),
        ByteMemory.field_byte (by omega)]
      constructor
      · intro j hj
        rw [Function.update_of_ne (by omega)]
        exact update_apply_of_lt (f := fun j => frame.bytes (mac + j)) hdest j hj
      · refine update_apply_of_lt (f := net.mac) fun j hj => ?_
        rw [Function.update_of_ne (by omega), hsrc j hj])
  obtain ⟨hdest, hsrc⟩ := hloop
  rw [NetConfig.ethReply, value_bind, value_store]
  refine ⟨fun i hi => ?_, fun i hi => ?_, field_put_self (by decide) (by decide)⟩
  · rw [ByteMemory.put_apply_of_outside (Or.inl (by simp only [EthHeader.dest, EthHeader.type]; omega))
      (by decide)]
    exact hdest i hi
  · rw [ByteMemory.put_apply_of_outside (Or.inl (by simp only [EthHeader.src, EthHeader.type]; omega))
      (by decide)]
    exact hsrc i hi

theorem value_copyPayload (frame : EthFrame) {src payload : Nat} {dataLen : BitVec 32}
    (packet : ByteMemory)
    (hsrc : src + dataLen.toNat ≤ 2 ^ 64) (hpayload : payload + dataLen.toNat ≤ 2 ^ 64) :
    (∀ i < dataLen.toNat, (copyPayload frame src payload dataLen packet).value (payload + i) =
        frame.bytes (src + i)) ∧
      ∀ x < payload, (copyPayload frame src payload dataLen packet).value x = packet x := by
  refine value_forUpTo _
    (P := fun n (m : ByteMemory) => (∀ i < n, m (payload + i) = frame.bytes (src + i)) ∧
      ∀ x < payload, m x = packet x)
    ⟨fun i hi => absurd hi (Nat.not_lt_zero i), fun x _ => rfl⟩ ?_
  rintro i hi m ⟨hcopied, hkept⟩
  rw [value_bind, value_load, value_store, ByteMemory.put_byte (by omega),
    ByteMemory.field_byte (by omega)]
  refine ⟨update_apply_of_lt (f := fun j => frame.bytes (src + j)) hcopied, fun x hx => ?_⟩
  rw [Function.update_of_ne (by omega), hkept x hx]

/-- The IP header before its checksum. -/
def NetConfig.pingIpHeader (net : NetConfig) (destIp : BitVec 32) (totalLen : BitVec 16)
    (packet : ByteMemory) : ByteMemory :=
  let packet := packet.put (ethHlen + IpHeader.versionIhl) 0x45#8
  let packet := packet.put (ethHlen + IpHeader.tos) 0#8
  let packet := packet.put (ethHlen + IpHeader.totalLen) (htons totalLen)
  let packet := packet.put (ethHlen + IpHeader.id) 0#16
  let packet := packet.put (ethHlen + IpHeader.flagsFrag) 0#16
  let packet := packet.put (ethHlen + IpHeader.ttl) 64#8
  let packet := packet.put (ethHlen + IpHeader.protocol) ipProtoIcmp
  let packet := packet.put (ethHlen + IpHeader.checksum) 0#16
  let packet := packet.put (ethHlen + IpHeader.srcIp) (htonl net.ourIp)
  packet.put (ethHlen + IpHeader.destIp) (htonl destIp)

/-- The header of the message before its checksum. -/
def pingIcmpHeader (id seq : BitVec 16) (packet : ByteMemory) : ByteMemory :=
  let icmp := ethHlen + 20
  let packet := packet.put (icmp + IcmpHeader.type) icmpEchoReply
  let packet := packet.put (icmp + IcmpHeader.code) 0#8
  let packet := packet.put (icmp + IcmpHeader.checksum) 0#16
  let packet := packet.put (icmp + IcmpHeader.id) id
  packet.put (icmp + IcmpHeader.sequence) seq

/-- The packet with the checksum of `len` bytes from `data` on at `o`. -/
def putChecksum (packet : ByteMemory) (o data : Nat) (len : BitVec 32) : ByteMemory :=
  packet.put o (ipChecksum .pingReply packet data len).value

def NetConfig.pingIp (net : NetConfig) (destIp : BitVec 32) (totalLen : BitVec 16)
    (packet : ByteMemory) : ByteMemory :=
  putChecksum (net.pingIpHeader destIp totalLen packet) (ethHlen + IpHeader.checksum) ethHlen 20#32

def EthFrame.pingMessage (frame : EthFrame) (id seq : BitVec 16) (data : Nat) (dataLen : BitVec 32)
    (packet : ByteMemory) : ByteMemory :=
  let icmp := ethHlen + 20
  putChecksum (copyPayload frame data (icmp + 8) dataLen (pingIcmpHeader id seq packet)).value
    (icmp + IcmpHeader.checksum) icmp (8#32 + dataLen)

theorem value_netSendPingReply (destIp : BitVec 32) (destMac : Nat) (id seq : BitVec 16) (data : Nat)
    (dataLen : BitVec 32) :
    (net.netSendPingReply frame stack destIp destMac id seq data dataLen).value =
      ⟨frame.pingMessage id seq data dataLen (net.pingIp destIp ((20#32 + 8#32 + dataLen).setWidth 16)
          (net.ethReply .pingReply frame destMac ethTypeIp stack).value),
        BitVec.ofNat 32 ethHlen + ((20#32 + 8#32 + dataLen).setWidth 16).setWidth 32⟩ := by
  simp only [NetConfig.netSendPingReply, value_bind, value_store, value_pure, EthFrame.pingMessage,
    NetConfig.pingIp, putChecksum, pingIcmpHeader, NetConfig.pingIpHeader]

section

variable {destIp : BitVec 32} {totalLen id seq : BitVec 16} {len : BitVec 32} {o data x : Nat}

theorem pingIpHeader_apply (hx : x < ethHlen) : net.pingIpHeader destIp totalLen m x = m x := by
  rw [ethHlen] at hx
  simp (disch := first | decide | (simp only [ethHlen]; omega)) only [NetConfig.pingIpHeader,
    ByteMemory.put_apply_of_outside]

theorem field_pingIpHeader (net : NetConfig) (destIp : BitVec 32) (totalLen : BitVec 16)
    (m : ByteMemory) :
    (net.pingIpHeader destIp totalLen m).field (ethHlen + IpHeader.versionIhl) 8 = 0x45#8 ∧
      (net.pingIpHeader destIp totalLen m).field (ethHlen + IpHeader.totalLen) 16 = htons totalLen ∧
      (net.pingIpHeader destIp totalLen m).field (ethHlen + IpHeader.protocol) 8 = ipProtoIcmp ∧
      (net.pingIpHeader destIp totalLen m).field (ethHlen + IpHeader.checksum) 16 = 0#16 ∧
      (net.pingIpHeader destIp totalLen m).field (ethHlen + IpHeader.srcIp) 32 = htonl net.ourIp ∧
      (net.pingIpHeader destIp totalLen m).field (ethHlen + IpHeader.destIp) 32 = htonl destIp := by
  simp (disch := decide) only [NetConfig.pingIpHeader, field_put_of_apart, field_put_self, and_self]

theorem pingIcmpHeader_apply (hx : x < ethHlen + 20) : pingIcmpHeader id seq m x = m x := by
  rw [ethHlen] at hx
  simp (disch := first | decide | (simp only [ethHlen]; omega)) only [pingIcmpHeader,
    ByteMemory.put_apply_of_outside]

theorem field_pingIcmpHeader (id seq : BitVec 16) (m : ByteMemory) :
    (pingIcmpHeader id seq m).field (ethHlen + 20 + IcmpHeader.type) 8 = icmpEchoReply ∧
      (pingIcmpHeader id seq m).field (ethHlen + 20 + IcmpHeader.code) 8 = 0#8 ∧
      (pingIcmpHeader id seq m).field (ethHlen + 20 + IcmpHeader.checksum) 16 = 0#16 ∧
      (pingIcmpHeader id seq m).field (ethHlen + 20 + IcmpHeader.id) 16 = id ∧
      (pingIcmpHeader id seq m).field (ethHlen + 20 + IcmpHeader.sequence) 16 = seq := by
  simp (disch := decide) only [pingIcmpHeader, field_put_of_apart, field_put_self, and_self]

theorem putChecksum_apply (hx : x < o ∨ o + 2 ≤ x) (ho : o + 2 ≤ 2 ^ 64) :
    putChecksum m o data len x = m x := ByteMemory.put_apply_of_outside hx ho

theorem field_putChecksum {w : Nat} {o' : Nat} (h : o + 2 ≤ o' ∨ o' + w / 8 ≤ o)
    (ho : o + 2 ≤ 2 ^ 64) (ho' : o' + w / 8 ≤ 2 ^ 64) :
    (putChecksum m o data len).field o' w = m.field o' w := field_put_of_apart h ho ho'

/-- The IP header has been written behind the Ethernet header. -/
structure IpWritten (net : NetConfig) (destIp : BitVec 32) (totalLen : BitVec 16)
    (before after : ByteMemory) : Prop where
  eth : ∀ x < ethHlen, after x = before x
  versionIhl : after.field (ethHlen + IpHeader.versionIhl) 8 = 0x45#8
  totalLen : after.field (ethHlen + IpHeader.totalLen) 16 = htons totalLen
  protocol : after.field (ethHlen + IpHeader.protocol) 8 = ipProtoIcmp
  srcIp : after.field (ethHlen + IpHeader.srcIp) 32 = htonl net.ourIp
  destIp : after.field (ethHlen + IpHeader.destIp) 32 = htonl destIp
  verifies : (ipChecksum .pingReply after ethHlen 20#32).value = 0

theorem ipWritten_pingIp (net : NetConfig) (destIp : BitVec 32) (totalLen : BitVec 16)
    (m : ByteMemory) : IpWritten net destIp totalLen m (net.pingIp destIp totalLen m) := by
  obtain ⟨hversion, htotal, hprotocol, hzero, hsrc, hdest⟩ :=
    field_pingIpHeader net destIp totalLen m
  exact
    { eth := fun x hx => by
        refine (putChecksum_apply (Or.inl ?_) (by decide)).trans (pingIpHeader_apply hx)
        simp only [ethHlen, IpHeader.checksum] at hx ⊢
        omega
      versionIhl := (field_putChecksum (by decide) (by decide) (by decide)).trans hversion
      totalLen := (field_putChecksum (by decide) (by decide) (by decide)).trans htotal
      protocol := (field_putChecksum (by decide) (by decide) (by decide)).trans hprotocol
      srcIp := (field_putChecksum (by decide) (by decide) (by decide)).trans hsrc
      destIp := (field_putChecksum (by decide) (by decide) (by decide)).trans hdest
      verifies := ipChecksum_put_self (j := 5) (by decide) (by decide) (by decide) hzero }

/-- The message has been written behind the IP header. -/
structure MessageWritten (frame : EthFrame) (id seq : BitVec 16) (src : Nat) (dataLen : BitVec 32)
    (before after : ByteMemory) : Prop where
  headers : ∀ x < ethHlen + 20, after x = before x
  type : after.field (ethHlen + 20 + IcmpHeader.type) 8 = icmpEchoReply
  code : after.field (ethHlen + 20 + IcmpHeader.code) 8 = 0
  id : after.field (ethHlen + 20 + IcmpHeader.id) 16 = id
  sequence : after.field (ethHlen + 20 + IcmpHeader.sequence) 16 = seq
  payload : ∀ i < dataLen.toNat, after (ethHlen + 20 + 8 + i) = frame.bytes (src + i)
  verifies : (ipChecksum .pingReply after (ethHlen + 20) (8#32 + dataLen)).value = 0

theorem messageWritten_pingMessage (frame : EthFrame) (id seq : BitVec 16) (m : ByteMemory)
    {src : Nat} {dataLen : BitVec 32} (hdataLen : dataLen.toNat ≤ 1472) (hsrc : src + dataLen.toNat ≤ 2 ^ 64) :
    MessageWritten frame id seq src dataLen m (frame.pingMessage id seq src dataLen m) := by
  obtain ⟨htype, hcode, hzero, hid, hseq⟩ := field_pingIcmpHeader id seq m
  have hroom : ethHlen + 20 + 8 + dataLen.toNat ≤ 2 ^ 64 := by
    simp only [ethHlen]
    omega
  obtain ⟨hcopied, hkept⟩ := value_copyPayload frame (pingIcmpHeader id seq m) hsrc hroom
  have hheader {o w : Nat} (ho : o + w / 8 ≤ ethHlen + 20 + 8) :
      (copyPayload frame src (ethHlen + 20 + 8) dataLen (pingIcmpHeader id seq m)).value.field o w =
        (pingIcmpHeader id seq m).field o w :=
    field_congr (fun x _ hx => hkept x (by omega)) (by simp only [ethHlen] at ho; omega)
  have hlen : (8#32 + dataLen).toNat = 8 + dataLen.toNat := by
    simp only [BitVec.toNat_add, BitVec.toNat_ofNat]
    omega
  have hfield {o w : Nat} (ho : o + w / 8 ≤ ethHlen + 20 + IcmpHeader.checksum ∨
      ethHlen + 20 + IcmpHeader.id ≤ o ∧ o + w / 8 ≤ ethHlen + 20 + 8) :
      (frame.pingMessage id seq src dataLen m).field o w = (pingIcmpHeader id seq m).field o w := by
    simp only [ethHlen, IcmpHeader.checksum, IcmpHeader.id] at ho
    refine (field_putChecksum ?_ (by decide) (by omega)).trans (hheader ?_)
    · simp only [ethHlen, IcmpHeader.checksum]
      omega
    · simp only [ethHlen]
      omega
  exact
    { headers := fun x hx => by
        have hbelow : x < ethHlen + 20 + IcmpHeader.checksum := Nat.lt_of_lt_of_le hx (by decide)
        calc frame.pingMessage id seq src dataLen m x
            = (copyPayload frame src (ethHlen + 20 + 8) dataLen (pingIcmpHeader id seq m)).value x :=
              putChecksum_apply (Or.inl hbelow) (by decide)
          _ = pingIcmpHeader id seq m x := hkept x (by omega)
          _ = m x := pingIcmpHeader_apply hx
      type := (hfield (by decide)).trans htype
      code := (hfield (by decide)).trans hcode
      id := (hfield (by decide)).trans hid
      sequence := (hfield (by decide)).trans hseq
      payload := fun i hi => by
        rw [← hcopied i hi]
        refine putChecksum_apply (Or.inr ?_) (by decide)
        simp only [ethHlen, IcmpHeader.checksum]
        omega
      verifies := by
        refine ipChecksum_put_self (j := 1) (by omega) (by omega) ?_ ((hheader (by decide)).trans hzero)
        simp only [ethHlen]
        omega }

end

/-- What `virtio_net_send` is given for an echo request. -/
structure PingReply (net : NetConfig) (frame : EthFrame) (sent : Sent) : Prop where
  len : sent.len.toNat = ethHlen + 20 + (frame.totalLen - frame.ihl)
  ethDest : ∀ i < 6, sent.data (EthHeader.dest + i) = frame.bytes (EthHeader.src + i)
  ethSrc : ∀ i < 6, sent.data (EthHeader.src + i) = net.mac i
  ethType : ntohs (sent.data.field EthHeader.type 16) = ethTypeIp
  versionIhl : sent.data.field (ethHlen + IpHeader.versionIhl) 8 = 0x45
  totalLen : (ntohs (sent.data.field (ethHlen + IpHeader.totalLen) 16)).toNat =
    20 + (frame.totalLen - frame.ihl)
  protocol : sent.data.field (ethHlen + IpHeader.protocol) 8 = ipProtoIcmp
  srcIp : ntohl (sent.data.field (ethHlen + IpHeader.srcIp) 32) = net.ourIp
  destIp : sent.data.field (ethHlen + IpHeader.destIp) 32 =
    frame.field (ethHlen + IpHeader.srcIp) 32
  headerVerifies : (ipChecksum .pingReply sent.data ethHlen 20).value = 0
  type : sent.data.field (ethHlen + 20 + IcmpHeader.type) 8 = icmpEchoReply
  code : sent.data.field (ethHlen + 20 + IcmpHeader.code) 8 = 0
  id : sent.data.field (ethHlen + 20 + IcmpHeader.id) 16 =
    frame.field (ethHlen + frame.ihl + IcmpHeader.id) 16
  sequence : sent.data.field (ethHlen + 20 + IcmpHeader.sequence) 16 =
    frame.field (ethHlen + frame.ihl + IcmpHeader.sequence) 16
  payload : ∀ i < frame.totalLen - frame.ihl - 8,
    sent.data (ethHlen + 20 + 8 + i) = frame.bytes (ethHlen + frame.ihl + 8 + i)
  messageVerifies : (ipChecksum .pingReply sent.data (ethHlen + 20)
    (BitVec.ofNat 32 (frame.totalLen - frame.ihl))).value = 0

namespace EthFrame

/-- An echo request for this machine, whole and not too long to be answered. -/
structure EchoRequest (net : NetConfig) (frame : EthFrame) : Prop where
  icmp : frame.IcmpTo net
  type : frame.field (ethHlen + frame.ihl) 8 = icmpEchoRequest
  ihl : 20 ≤ frame.ihl
  message : frame.ihl + 8 ≤ frame.totalLen
  len : ethHlen + frame.totalLen ≤ frame.len
  fits : frame.totalLen - frame.ihl + 20 ≤ 1500

def echoDataLen (frame : EthFrame) : BitVec 32 :=
  SimpleOs.echoDataLen (ntohs (frame.field (ethHlen + IpHeader.totalLen) 16))
    ((frame.field (ethHlen + IpHeader.versionIhl) 8 &&& 0x0F#8).setWidth 32 * 4#32)

end EthFrame

theorem toNat_echoDataLen_of_le (h : frame.ihl ≤ frame.totalLen) :
    frame.echoDataLen.toNat = frame.totalLen - frame.ihl - 8 := by
  have hihl := ihl_le frame
  have hlt : frame.totalLen < 2 ^ 16 := BitVec.isLt _
  rw [EthFrame.echoDataLen, toNat_echoDataLen, toNat_ipHdrLen]
  change (2 ^ 32 - frame.ihl + frame.totalLen) % 2 ^ 32 - 8 = _
  omega

/-- The length of the reply behind the Ethernet header does not wrap. -/
theorem toNat_replyLen (hmessage : frame.ihl + 8 ≤ frame.totalLen)
    (hfits : frame.totalLen - frame.ihl + 20 ≤ 1500) :
    ((20#32 + 8#32 + frame.echoDataLen).setWidth 16).toNat = 20 + (frame.totalLen - frame.ihl) := by
  rw [BitVec.toNat_setWidth, BitVec.toNat_add, toNat_echoDataLen_of_le (by omega)]
  change (28 + (frame.totalLen - frame.ihl - 8)) % 2 ^ 32 % 2 ^ 16 = _
  omega

theorem messageLen_eq (hmessage : frame.ihl + 8 ≤ frame.totalLen) :
    8#32 + frame.echoDataLen = BitVec.ofNat 32 (frame.totalLen - frame.ihl) := by
  apply BitVec.eq_of_toNat_eq
  simp only [BitVec.toNat_add, BitVec.toNat_ofNat,
    toNat_echoDataLen_of_le (show frame.ihl ≤ frame.totalLen by omega)]
  omega

/-- The call that a request leads to. -/
theorem value_netProcessPacket (hicmp : frame.IcmpTo net)
    (htype : frame.field (ethHlen + frame.ihl) 8 = icmpEchoRequest) :
    (net.netProcessPacket frame stack).value =
      some (net.netSendPingReply frame stack (ntohl (frame.field (ethHlen + IpHeader.srcIp) 32))
        EthHeader.src (frame.field (ethHlen + frame.ihl + IcmpHeader.id) 16)
        (frame.field (ethHlen + frame.ihl + IcmpHeader.sequence) 16) (ethHlen + frame.ihl + 8)
        frame.echoDataLen).value := by
  have hshort : ¬frame.len < ethHlen := by
    have hlen := hicmp.len
    omega
  have hnotArp : ntohs (frame.field EthHeader.type 16) ≠ ethTypeArp := by
    rw [hicmp.type]
    decide
  have hdest : ¬(ntohl (frame.field (ethHlen + IpHeader.destIp) 32) ≠ net.ourIp ∧
      ntohl (frame.field (ethHlen + IpHeader.destIp) 32) ≠ 0xFFFFFFFF#32) := by
    rintro ⟨hours, hall⟩
    exact hicmp.dest.elim hours hall
  rw [NetConfig.netProcessPacket, if_neg hshort, value_bind, value_load_frame, if_neg hnotArp,
    if_pos hicmp.type, NetConfig.processIp, if_neg (not_lt.mpr hicmp.len), value_bind,
    value_load_frame, if_neg (not_not.mpr hicmp.version), value_bind, value_load_frame, if_neg hdest,
    value_bind, value_load_frame, if_pos hicmp.protocol, NetConfig.processIcmp, toNat_ipHdrLen,
    value_bind, value_load_frame]
  change (if frame.field (ethHlen + frame.ihl) 8 = icmpEchoRequest then _ else _ :
    Traced Buffer (Option Sent)).value = _
  rw [if_pos htype]
  rfl

/-- **Ping.** Every echo request is answered. -/
theorem pingReply_of_echoRequest (net : NetConfig) (frame : EthFrame) (stack : ByteMemory)
    (h : frame.EchoRequest net) :
    ∃ sent, (net.netProcessPacket frame stack).value = some sent ∧ PingReply net frame sent := by
  have hmessage := h.message
  have hfits := h.fits
  have hihl := ihl_le frame
  have hdataLen := toNat_echoDataLen_of_le (show frame.ihl ≤ frame.totalLen by omega)
  have htotal := toNat_replyLen hmessage hfits
  have hlen := messageLen_eq hmessage
  refine ⟨_, value_netProcessPacket h.icmp h.type, ?_⟩
  rw [value_netSendPingReply]
  have hmac : EthHeader.src + 6 ≤ 2 ^ 64 := by decide
  obtain ⟨hdest, hsrc, htype⟩ := value_ethReply net .pingReply frame ethTypeIp stack hmac
  generalize (net.ethReply .pingReply frame EthHeader.src ethTypeIp stack).value = eth at *
  have hip := ipWritten_pingIp net (ntohl (frame.field (ethHlen + IpHeader.srcIp) 32))
    ((20#32 + 8#32 + frame.echoDataLen).setWidth 16) eth
  generalize net.pingIp _ _ eth = header at *
  have hpayload : ethHlen + frame.ihl + 8 + frame.echoDataLen.toNat ≤ 2 ^ 64 := by
    simp only [ethHlen]
    omega
  have hmsg := messageWritten_pingMessage frame
    (frame.field (ethHlen + frame.ihl + IcmpHeader.id) 16)
    (frame.field (ethHlen + frame.ihl + IcmpHeader.sequence) 16) header (by omega) hpayload
  generalize frame.pingMessage _ _ _ _ header = packet at *
  have hbefore : ∀ x < ethHlen, packet x = eth x := fun x hx =>
    (hmsg.headers x (by omega)).trans (hip.eth x hx)
  have hfield {o w : Nat} (ho : o + w / 8 ≤ ethHlen + 20) : packet.field o w = header.field o w :=
    field_congr (fun x _ hx => hmsg.headers x (by omega)) (by simp only [ethHlen] at ho; omega)
  exact
    { len := by
        rw [BitVec.toNat_add, BitVec.toNat_setWidth_of_le (by decide), htotal]
        change (14 + (20 + (frame.totalLen - frame.ihl))) % 2 ^ 32 = 14 + 20 + _
        omega
      ethDest := fun i hi => by
        rw [← hdest i hi]
        exact hbefore _ (by simp only [EthHeader.dest, ethHlen]; omega)
      ethSrc := fun i hi => by
        rw [← hsrc i hi]
        exact hbefore _ (by simp only [EthHeader.src, ethHlen]; omega)
      ethType := by
        have hsame : packet.field EthHeader.type 16 = eth.field EthHeader.type 16 :=
          field_congr (fun x _ hx => hbefore x hx) (by decide)
        rw [hsame, htype]
        exact htons_htons ethTypeIp
      versionIhl := (hfield (by decide)).trans hip.versionIhl
      totalLen := by
        rw [hfield (by decide), hip.totalLen, ← htotal]
        exact congrArg BitVec.toNat (htons_htons _)
      protocol := (hfield (by decide)).trans hip.protocol
      srcIp := by
        rw [hfield (by decide), hip.srcIp]
        exact htonl_htonl net.ourIp
      destIp := by
        rw [hfield (by decide), hip.destIp]
        exact htonl_htonl _
      headerVerifies := by
        rw [← hip.verifies]
        exact ipChecksum_congr (by decide) (fun x _ hx => hmsg.headers x hx) (by decide)
      type := hmsg.type
      code := hmsg.code
      id := hmsg.id
      sequence := hmsg.sequence
      payload := fun i hi => hmsg.payload i (by omega)
      messageVerifies := hlen ▸ hmsg.verifies }

/-- A ping to everyone with a payload of one byte. -/
def pingFrame : EthFrame where
  bytes a := match a with
    | 12 => 0x08
    | 14 => 0x45
    | 17 => 29
    | 23 => ipProtoIcmp
    | 30 | 31 | 32 | 33 => 0xFF
    | 34 => icmpEchoRequest
    | 42 => 0xAB
    | _ => 0
  len := 43
  len_le := by decide

theorem echoRequest_pingFrame : pingFrame.EchoRequest ⟨fun _ => 0, 0⟩ where
  icmp := ⟨by decide, by decide, by decide, by decide, by decide⟩
  type := by decide
  ihl := by decide
  message := by decide
  len := by decide
  fits := by decide

theorem pingReply_of_echoRequest_pingFrame :
    ∃ sent, (NetConfig.netProcessPacket ⟨fun _ => 0, 0⟩ pingFrame ByteMemory.zero).value = some sent ∧
      PingReply ⟨fun _ => 0, 0⟩ pingFrame sent :=
  pingReply_of_echoRequest ⟨fun _ => 0, 0⟩ pingFrame ByteMemory.zero echoRequest_pingFrame

end SimpleOs
