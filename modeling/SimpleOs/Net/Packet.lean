import SimpleOs.Lib.Access

/-!
# Received packets

`net_process_packet` of `kernel/virtio_net.h` with the two replies it sends, and of `kernel/net.h` the
headers, the byte order and the checksum. `virtio_net_send` is not run: what it is called with is
returned.
-/

namespace SimpleOs

def ethHlen : Nat := 14

def ethFrameLen : Nat := 1514

def ethTypeIp : BitVec 16 := 0x0800

def ethTypeArp : BitVec 16 := 0x0806

def arpHwEther : BitVec 16 := 1

def arpOpRequest : BitVec 16 := 1

def arpOpReply : BitVec 16 := 2

def ipProtoIcmp : BitVec 8 := 1

def icmpEchoReply : BitVec 8 := 0

def icmpEchoRequest : BitVec 8 := 8

/-! The offsets of the fields in their packed structures. -/

namespace EthHeader

def dest : Nat := 0

def src : Nat := 6

def type : Nat := 12

end EthHeader

namespace ArpPacket

def hwType : Nat := 0

def protoType : Nat := 2

def hwLen : Nat := 4

def protoLen : Nat := 5

def operation : Nat := 6

def senderMac : Nat := 8

def senderIp : Nat := 14

def targetMac : Nat := 18

def targetIp : Nat := 24

def size : Nat := 28

end ArpPacket

namespace IpHeader

def versionIhl : Nat := 0

def tos : Nat := 1

def totalLen : Nat := 2

def id : Nat := 4

def flagsFrag : Nat := 6

def ttl : Nat := 8

def protocol : Nat := 9

def checksum : Nat := 10

def srcIp : Nat := 12

def destIp : Nat := 16

end IpHeader

namespace IcmpHeader

def type : Nat := 0

def code : Nat := 1

def checksum : Nat := 2

def id : Nat := 4

def sequence : Nat := 6

end IcmpHeader

def htons (val : BitVec 16) : BitVec 16 :=
  ((val &&& 0xFF#16) <<< 8) ||| ((val >>> 8) &&& 0xFF#16)

def ntohs (val : BitVec 16) : BitVec 16 := htons val

def htonl (val : BitVec 32) : BitVec 32 :=
  ((val &&& 0xFF#32) <<< 24) ||| ((val &&& 0xFF00#32) <<< 8) |||
    ((val >>> 8) &&& 0xFF00#32) ||| ((val >>> 24) &&& 0xFF#32)

def ntohl (val : BitVec 32) : BitVec 32 := htonl val

/-- The received frame and the `packet` arrays of the two functions that reply. -/
inductive Buffer where
  | frame
  | arpReply
  | pingReply
deriving Repr, DecidableEq

open Traced

/-- The loop of `ip_checksum` over the 16-bit words, and the byte that may be left over. -/
def sumWords (buffer : Buffer) (m : ByteMemory) :
    Nat → Nat → BitVec 32 → Traced Buffer (BitVec 32)
  | p, len + 2, sum => do
      let word ← load buffer m p 16
      sumWords buffer m (p + 2) len (sum + word.setWidth 32)
  | p, 1, sum => do
      let byte ← load buffer m p 8
      pure (sum + byte.setWidth 32)
  | _, 0, sum => pure sum

theorem toNat_carries (sum : BitVec 32) :
    ((sum &&& 0xFFFF#32) + (sum >>> 16)).toNat = sum.toNat % 65536 + sum.toNat / 65536 := by
  have hlow : (sum &&& 0xFFFF#32).toNat = sum.toNat % 65536 :=
    Nat.and_two_pow_sub_one_eq_mod sum.toNat 16
  have hlt := sum.isLt
  rw [BitVec.toNat_add, hlow, BitVec.toNat_ushiftRight, Nat.shiftRight_eq_div_pow]
  omega

/-- The loop of `ip_checksum` that adds the carries back. -/
def foldCarries (sum : BitVec 32) : BitVec 32 :=
  if sum >>> 16 = 0#32 then sum else foldCarries ((sum &&& 0xFFFF#32) + (sum >>> 16))
termination_by sum.toNat
decreasing_by
  rename_i hcarry
  have hhigh : sum.toNat / 65536 ≠ 0 := by
    intro hzero
    apply hcarry
    apply BitVec.eq_of_toNat_eq
    simpa [Nat.shiftRight_eq_div_pow] using hzero
  rw [toNat_carries]
  omega

/-- The parameter `len` is an `int`: there is nothing to sum if it is negative. -/
def ipChecksum (buffer : Buffer) (m : ByteMemory) (data : Nat) (len : BitVec 32) :
    Traced Buffer (BitVec 16) := do
  let sum ← sumWords buffer m data len.toInt.toNat 0#32
  pure (~~~((foldCarries sum).setWidth 16))

/-- A received frame. The memory goes on behind it. -/
structure EthFrame where
  bytes : ByteMemory
  len : Nat
  len_le : len ≤ ethFrameLen

/-- The MAC address of the device and `our_ip`. -/
structure NetConfig where
  mac : Nat → BitVec 8
  ourIp : BitVec 32

/-- A call of `virtio_net_send`. -/
structure Sent where
  data : ByteMemory
  len : BitVec 32

/-- The `data_len` of `net_process_packet`. -/
def echoDataLen (totalLen : BitVec 16) (ipHdrLen : BitVec 32) : BitVec 32 :=
  let icmpLen := totalLen.setWidth 32 - ipHdrLen
  if icmpLen > 8#32 then icmpLen - 8#32 else 0#32

/-- The payload of the echo, from `src` in the frame to `payload` in the reply. -/
def copyPayload (frame : EthFrame) (src payload : Nat) (dataLen : BitVec 32) (packet : ByteMemory) :
    Traced Buffer ByteMemory :=
  forUpTo (fun i packet => do
    let byte ← load .frame frame.bytes (src + i) 8
    store .pingReply packet (payload + i) byte) packet dataLen.toNat

namespace NetConfig

variable (net : NetConfig)

/-- The Ethernet header of a reply to the MAC address at `mac` in the frame. -/
def ethReply (buffer : Buffer) (frame : EthFrame) (mac : Nat) (type : BitVec 16)
    (packet : ByteMemory) : Traced Buffer ByteMemory := do
  let packet ← forUpTo (fun i packet => do
    let byte ← load .frame frame.bytes (mac + i) 8
    let packet ← store buffer packet (EthHeader.dest + i) byte
    store buffer packet (EthHeader.src + i) (net.mac i)) packet 6
  store buffer packet EthHeader.type (htons type)

/-- The two MAC addresses of the ARP reply. -/
def arpMacs (frame : EthFrame) (targetMac : Nat) (packet : ByteMemory) : Traced Buffer ByteMemory :=
  let arp := ethHlen
  forUpTo (fun i packet => do
    let packet ← store .arpReply packet (arp + ArpPacket.senderMac + i) (net.mac i)
    let byte ← load .frame frame.bytes (targetMac + i) 8
    store .arpReply packet (arp + ArpPacket.targetMac + i) byte) packet 6

/-- `stack` is what the array holds before it is written. -/
def netSendArpReply (frame : EthFrame) (stack : ByteMemory) (targetIp : BitVec 32)
    (targetMac : Nat) : Traced Buffer Sent := do
  let packet ← net.ethReply .arpReply frame targetMac ethTypeArp stack
  let arp := ethHlen
  let packet ← store .arpReply packet (arp + ArpPacket.hwType) (htons arpHwEther)
  let packet ← store .arpReply packet (arp + ArpPacket.protoType) (htons ethTypeIp)
  let packet ← store .arpReply packet (arp + ArpPacket.hwLen) 6#8
  let packet ← store .arpReply packet (arp + ArpPacket.protoLen) 4#8
  let packet ← store .arpReply packet (arp + ArpPacket.operation) (htons arpOpReply)
  let packet ← net.arpMacs frame targetMac packet
  let packet ← store .arpReply packet (arp + ArpPacket.senderIp) (htonl net.ourIp)
  let packet ← store .arpReply packet (arp + ArpPacket.targetIp) (htonl targetIp)
  pure ⟨packet, BitVec.ofNat 32 (ethHlen + ArpPacket.size)⟩

def netSendPingReply (frame : EthFrame) (stack : ByteMemory) (destIp : BitVec 32) (destMac : Nat)
    (id seq : BitVec 16) (data : Nat) (dataLen : BitVec 32) : Traced Buffer Sent := do
  let packet ← net.ethReply .pingReply frame destMac ethTypeIp stack
  let ip := ethHlen
  let icmp := ip + 20
  let totalLen : BitVec 16 := (20#32 + 8#32 + dataLen).setWidth 16
  let packet ← store .pingReply packet (ip + IpHeader.versionIhl) 0x45#8
  let packet ← store .pingReply packet (ip + IpHeader.tos) 0#8
  let packet ← store .pingReply packet (ip + IpHeader.totalLen) (htons totalLen)
  let packet ← store .pingReply packet (ip + IpHeader.id) 0#16
  let packet ← store .pingReply packet (ip + IpHeader.flagsFrag) 0#16
  let packet ← store .pingReply packet (ip + IpHeader.ttl) 64#8
  let packet ← store .pingReply packet (ip + IpHeader.protocol) ipProtoIcmp
  let packet ← store .pingReply packet (ip + IpHeader.checksum) 0#16
  let packet ← store .pingReply packet (ip + IpHeader.srcIp) (htonl net.ourIp)
  let packet ← store .pingReply packet (ip + IpHeader.destIp) (htonl destIp)
  let checksum ← ipChecksum .pingReply packet ip 20#32
  let packet ← store .pingReply packet (ip + IpHeader.checksum) checksum
  let packet ← store .pingReply packet (icmp + IcmpHeader.type) icmpEchoReply
  let packet ← store .pingReply packet (icmp + IcmpHeader.code) 0#8
  let packet ← store .pingReply packet (icmp + IcmpHeader.checksum) 0#16
  let packet ← store .pingReply packet (icmp + IcmpHeader.id) id
  let packet ← store .pingReply packet (icmp + IcmpHeader.sequence) seq
  let payload := icmp + 8
  let packet ← copyPayload frame data payload dataLen packet
  let checksum ← ipChecksum .pingReply packet icmp (8#32 + dataLen)
  let packet ← store .pingReply packet (icmp + IcmpHeader.checksum) checksum
  pure ⟨packet, BitVec.ofNat 32 ethHlen + totalLen.setWidth 32⟩

/-- The branch of `net_process_packet` for ARP. -/
def processArp (frame : EthFrame) (stack : ByteMemory) : Traced Buffer (Option Sent) := do
  if frame.len < ethHlen + ArpPacket.size then return none
  let arp := ethHlen
  let operation ← load .frame frame.bytes (arp + ArpPacket.operation) 16
  if ntohs operation = arpOpRequest then
    let targetIp ← load .frame frame.bytes (arp + ArpPacket.targetIp) 32
    if ntohl targetIp = net.ourIp then
      let senderIp ← load .frame frame.bytes (arp + ArpPacket.senderIp) 32
      let sent ← net.netSendArpReply frame stack (ntohl senderIp) (arp + ArpPacket.senderMac)
      return some sent
  return none

/-- The branch of `net_process_packet` for ICMP, after the checks on the IP header. -/
def processIcmp (frame : EthFrame) (stack : ByteMemory) (versionIhl : BitVec 8) :
    Traced Buffer (Option Sent) := do
  let ip := ethHlen
  let ipHdrLen : BitVec 32 := (versionIhl &&& 0x0F#8).setWidth 32 * 4#32
  let icmp := ip + ipHdrLen.toNat
  let type ← load .frame frame.bytes (icmp + IcmpHeader.type) 8
  if type = icmpEchoRequest then
    let totalLen ← load .frame frame.bytes (ip + IpHeader.totalLen) 16
    let dataLen := echoDataLen (ntohs totalLen) ipHdrLen
    let srcIp ← load .frame frame.bytes (ip + IpHeader.srcIp) 32
    let id ← load .frame frame.bytes (icmp + IcmpHeader.id) 16
    let seq ← load .frame frame.bytes (icmp + IcmpHeader.sequence) 16
    let sent ← net.netSendPingReply frame stack (ntohl srcIp) EthHeader.src id seq (icmp + 8)
      dataLen
    return some sent
  return none

/-- The branch of `net_process_packet` for IP. -/
def processIp (frame : EthFrame) (stack : ByteMemory) : Traced Buffer (Option Sent) := do
  if frame.len < ethHlen + 20 then return none
  let ip := ethHlen
  let versionIhl ← load .frame frame.bytes (ip + IpHeader.versionIhl) 8
  if versionIhl >>> 4 ≠ 4#8 then return none
  let destIp ← load .frame frame.bytes (ip + IpHeader.destIp) 32
  if ntohl destIp ≠ net.ourIp ∧ ntohl destIp ≠ 0xFFFFFFFF#32 then return none
  let protocol ← load .frame frame.bytes (ip + IpHeader.protocol) 8
  if protocol = ipProtoIcmp then net.processIcmp frame stack versionIhl else return none

def netProcessPacket (frame : EthFrame) (stack : ByteMemory) : Traced Buffer (Option Sent) := do
  if frame.len < ethHlen then return none
  let ethType ← load .frame frame.bytes EthHeader.type 16
  if ntohs ethType = ethTypeArp then net.processArp frame stack
  else if ntohs ethType = ethTypeIp then net.processIp frame stack
  else return none

end NetConfig

end SimpleOs
