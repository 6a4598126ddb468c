import SimpleOs.Lib.Answers
import SimpleOs.Proof.ArpReply

/-!
# Replies are not answered

Machines that run this network code share a wire with anyone else. What `net_process_packet` sends is never
answered by `net_process_packet`, on whatever machine, so that no traffic arises between the machines alone.
-/

namespace SimpleOs

open ByteMemory Traced

variable {net net' : NetConfig} {frame frame' : EthFrame} {stack stack' m : ByteMemory} {sent : Sent}

/-- What `net_process_packet` is given when `sent` is received: as much of it as there is room for. Behind
it may be anything. -/
structure Carries (frame : EthFrame) (sent : Sent) : Prop where
  len : frame.len = min sent.len.toNat ethFrameLen
  bytes : ∀ x < frame.len, frame.bytes x = sent.data x

theorem Carries.field_eq (h : Carries frame sent) {o w : Nat} (ho : o + w / 8 ≤ frame.len) :
    frame.field o w = sent.data.field o w := by
  have hlen := frame.len_le
  exact field_congr (fun x _ hx => h.bytes x (hx.trans_le ho)) (ho.trans (hlen.trans (by decide)))

theorem ArpReply.not_answered (h : ArpReply net frame sent) (hcarries : Carries frame' sent) :
    ¬ frame'.ArpRequest net' ∧ ¬ frame'.TakenForEcho net' := by
  have hlen : frame'.len = 42 := by
    rw [hcarries.len, h.len]
    rfl
  have htype : ntohs (frame'.field EthHeader.type 16) = ethTypeArp := by
    rw [hcarries.field_eq (by rw [hlen]; decide), h.ethType]
  have hoperation : ntohs (frame'.field (ethHlen + ArpPacket.operation) 16) = arpOpReply := by
    rw [hcarries.field_eq (by rw [hlen]; decide), h.operation]
  refine ⟨fun harp => ?_, fun htaken => ?_⟩
  · exact absurd (hoperation.symm.trans harp.operation) (by decide)
  · exact absurd (htype.symm.trans htaken.icmp.type) (by decide)

/-- The parts of a ping reply that are there whatever its length is. -/
structure PingHeaders (sent : Sent) : Prop where
  ethType : ntohs (sent.data.field EthHeader.type 16) = ethTypeIp
  versionIhl : sent.data.field (ethHlen + IpHeader.versionIhl) 8 = 0x45
  type : sent.data.field (ethHlen + 20 + IcmpHeader.type) 8 = icmpEchoReply

theorem pingMessage_apply {id seq : BitVec 16} {src x : Nat} {dataLen : BitVec 32}
    (hsrc : src ≤ 2 ^ 32) (hx : x < ethHlen + 20 + IcmpHeader.checksum) :
    frame.pingMessage id seq src dataLen m x = pingIcmpHeader id seq m x := by
  have hlt := dataLen.isLt
  have hroom : ethHlen + 20 + 8 + dataLen.toNat ≤ 2 ^ 64 := by
    simp only [ethHlen]
    omega
  have hread : src + dataLen.toNat ≤ 2 ^ 64 := by omega
  obtain ⟨-, hkept⟩ := value_copyPayload frame (pingIcmpHeader id seq m) hread hroom
  rw [EthFrame.pingMessage, putChecksum_apply (Or.inl hx) (by decide)]
  exact hkept x (hx.trans (by decide))

theorem pingHeaders_netSendPingReply (net : NetConfig) (frame : EthFrame) (stack : ByteMemory)
    (destIp : BitVec 32) (id seq : BitVec 16) {src : Nat} (dataLen : BitVec 32) (hsrc : src ≤ 2 ^ 32) :
    PingHeaders (net.netSendPingReply frame stack destIp EthHeader.src id seq src dataLen).value := by
  rw [value_netSendPingReply]
  have hmac : EthHeader.src + 6 ≤ 2 ^ 64 := by decide
  obtain ⟨-, -, htype⟩ := value_ethReply net .pingReply frame ethTypeIp stack hmac
  generalize (net.ethReply .pingReply frame EthHeader.src ethTypeIp stack).value = eth at *
  have hip := ipWritten_pingIp net destIp ((20#32 + 8#32 + dataLen).setWidth 16) eth
  generalize net.pingIp destIp _ eth = header at *
  have hbefore : ∀ x < ethHlen + 20, frame.pingMessage id seq src dataLen header x = header x :=
    fun x hx => (pingMessage_apply hsrc (hx.trans (by decide))).trans (pingIcmpHeader_apply hx)
  exact
    { ethType := by
        have hsame : (frame.pingMessage id seq src dataLen header).field EthHeader.type 16 =
            eth.field EthHeader.type 16 := by
          refine field_congr (fun x _ hx => ?_) (by decide)
          exact (hbefore x (hx.trans (by decide))).trans (hip.eth x hx)
        rw [hsame, htype]
        exact htons_htons ethTypeIp
      versionIhl := by
        refine Eq.trans (field_congr (fun x _ hx => ?_) (by decide)) hip.versionIhl
        exact hbefore x (hx.trans (by decide))
      type := by
        refine Eq.trans (field_congr (fun x _ hx => ?_) (by decide)) (field_pingIcmpHeader id seq header).1
        exact pingMessage_apply hsrc (hx.trans (by decide)) }

/-- The total length of a reply is never that of the IP header alone: with the type of the message, the
frame holds at least one byte more. -/
theorem toNat_pingTotalLen_ne (frame : EthFrame) :
    ((20#32 + 8#32 + frame.echoDataLen).setWidth 16).toNat ≠ 20 := by
  have hihl := ihl_le frame
  have htotal : frame.totalLen < 2 ^ 16 := BitVec.isLt _
  have hdata : frame.echoDataLen.toNat = (2 ^ 32 - frame.ihl + frame.totalLen) % 2 ^ 32 - 8 := by
    rw [EthFrame.echoDataLen, toNat_echoDataLen, toNat_ipHdrLen]
    rfl
  rw [BitVec.toNat_setWidth, BitVec.toNat_add, hdata]
  change (28 + ((2 ^ 32 - frame.ihl + frame.totalLen) % 2 ^ 32 - 8)) % 2 ^ 32 % 2 ^ 16 ≠ 20
  omega

theorem PingHeaders.not_answered (h : PingHeaders sent) (hlen : sent.len.toNat ≠ 34)
    (hcarries : Carries frame' sent) : ¬ frame'.ArpRequest net' ∧ ¬ frame'.TakenForEcho net' := by
  have htype : 14 ≤ frame'.len → ntohs (frame'.field EthHeader.type 16) = ethTypeIp := by
    intro hroom
    rw [hcarries.field_eq hroom, h.ethType]
  refine ⟨fun harp => ?_, fun htaken => ?_⟩
  · have hroom : 42 ≤ frame'.len := harp.len
    exact absurd ((htype (by omega)).symm.trans harp.type) (by decide)
  · have hroom : 34 ≤ frame'.len := htaken.icmp.len
    have hmore : 35 ≤ frame'.len := by
      have heq := hcarries.len
      rw [ethFrameLen] at heq
      omega
    have hihl : frame'.ihl = 20 := by
      rw [EthFrame.ihl, hcarries.field_eq (hroom.trans' (by decide)), h.versionIhl]
      rfl
    have hreply : frame'.field (ethHlen + frame'.ihl) 8 = icmpEchoReply := by
      rw [hihl, ← h.type]
      exact hcarries.field_eq hmore
    exact absurd (hreply.symm.trans htaken.type) (by decide)

/-- What is sent for a frame is not answered. -/
theorem reply_not_answered (hsent : (net.netProcessPacket frame stack).value = some sent)
    (hcarries : Carries frame' sent) : (net'.netProcessPacket frame' stack').value = none := by
  have hnone : ¬ frame'.ArpRequest net' ∧ ¬ frame'.TakenForEcho net' := by
    obtain ⟨-, hvalue⟩ | ⟨-, hvalue⟩ | ⟨-, -, hvalue⟩ := netProcessPacket_cases net frame stack
    · obtain rfl := Option.some.inj (hsent.symm.trans hvalue)
      exact (arpReply_netSendArpReply net frame stack).not_answered hcarries
    · obtain rfl := Option.some.inj (hsent.symm.trans hvalue)
      have hihl := ihl_le frame
      have hsrc : ethHlen + frame.ihl + 8 ≤ 2 ^ 32 := by
        simp only [ethHlen]
        omega
      refine (pingHeaders_netSendPingReply net frame stack _ _ _ _ hsrc).not_answered ?_ hcarries
      have htotal := toNat_pingTotalLen_ne frame
      have hlt := ((20#32 + 8#32 + frame.echoDataLen).setWidth 16).isLt
      rw [value_netSendPingReply]
      dsimp only
      rw [BitVec.toNat_add, BitVec.toNat_setWidth_of_le (by decide)]
      change (14 + _) % 2 ^ 32 ≠ 34
      omega
    · exact absurd (hsent.symm.trans hvalue) (Option.some_ne_none sent)
  obtain ⟨harp, -⟩ | ⟨htaken, -⟩ | ⟨-, -, hvalue⟩ := netProcessPacket_cases net' frame' stack'
  · exact absurd harp hnone.1
  · exact absurd htaken hnone.2
  · exact hvalue

/-- One of the machines receives `m`, and `r` is what it sends. Behind the frame, and on its stack, there may
be anything. -/
def Reacts (machines : Set NetConfig) (m : Sent) (r : Option Sent) : Prop :=
  ∃ net ∈ machines, ∃ frame stack, Carries frame m ∧ (net.netProcessPacket frame stack).value = r

/-- **There are no storms of replies.** Any number of machines, any frames from outside, and frames that are
lost, delayed, and received any number of times: the machines have sent no more replies than they have
received frames from outside, and each reply answers one of these. -/
theorem no_reply_storm (machines : Set NetConfig) {s : Traffic Sent}
    (hrun : Traffic.Run (Reacts machines) .empty s) :
    s.answered ≤ s.received ∧ ∀ x ∈ s.sent, x.isAnswer = true →
      ∃ y ∈ s.sent, y.isAnswer = false ∧ Reacts machines y.content (some x.content) := by
  have hquiet : ∀ m a r, Reacts machines m (some a) → Reacts machines a r → r = none := by
    rintro m a r ⟨net, -, frame, stack, -, hsent⟩ ⟨net', -, frame', stack', hcarries, rfl⟩
    exact reply_not_answered hsent hcarries
  have hcalm := Traffic.calm_empty.run hquiet hrun
  exact ⟨hcalm.answered_le, hcalm.provoked⟩

def allZero : NetConfig := ⟨fun _ => 0, 0⟩

def ping : Sent := ⟨pingFrame.bytes, 43⟩

/-- The machine with the addresses 0 has been pinged. -/
def pinged : Traffic Sent where
  sent := [⟨ping, false⟩] ++
    ((allZero.netProcessPacket pingFrame .zero).value.map fun a => (⟨a, true⟩ : Message Sent)).toList
  received := 0 + 1

theorem run_pinged : Traffic.Run (Reacts {allZero}) .empty pinged := by
  have hpinged : Reacts {allZero} ping (allZero.netProcessPacket pingFrame .zero).value :=
    ⟨allZero, rfl, pingFrame, .zero, ⟨rfl, fun _ _ => rfl⟩, rfl⟩
  have hreceive : Traffic.Step (Reacts {allZero}) ⟨[⟨ping, false⟩], 0⟩ pinged :=
    .receive (x := ⟨ping, false⟩) List.mem_cons_self hpinged
  exact (Relation.ReflTransGen.single (.outside .empty ping)).tail hreceive

theorem no_reply_storm_pinged : pinged.answered ≤ pinged.received ∧ ∀ x ∈ pinged.sent, x.isAnswer = true →
    ∃ y ∈ pinged.sent, y.isAnswer = false ∧ Reacts {allZero} y.content (some x.content) :=
  no_reply_storm {allZero} run_pinged

end SimpleOs
