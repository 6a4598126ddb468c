import SimpleOs.Drivers.VirtioNetRecv

/-!
# Polling for frames

`net_poll` of `kernel/virtio_net.h`. The device rests while it runs; what is sent goes to other buffers than
those that frames are received into.
-/

namespace SimpleOs

theorem toNat_recvLen_le (len bufSize : BitVec 32) : (recvLen len bufSize).toNat ≤ bufSize.toNat := by
  rw [recvLen]
  split
  · exact le_rfl
  · rename_i hshort
    exact BitVec.not_lt.mp hshort

/-- No more is received than there is room for. -/
theorem RxDriver.toNat_virtioNetRecv_le (dev : RxDriver) (mem : ByteMemory) :
    (dev.virtioNetRecv mem (BitVec.ofNat 32 ethFrameLen)).1.toNat ≤ ethFrameLen := by
  have hlen : ∀ len : BitVec 32, (recvLen len (BitVec.ofNat 32 ethFrameLen)).toInt.toNat ≤ ethFrameLen := by
    intro len
    have hle : (recvLen len (BitVec.ofNat 32 ethFrameLen)).toNat ≤ 1514 := toNat_recvLen_le len _
    rwa [BitVec.toInt_eq_toNat_of_lt (by omega), Int.toNat_natCast]
  rw [virtioNetRecv]
  split_ifs
  · exact Nat.zero_le _
  · exact Nat.zero_le _
  · dsimp only
    split_ifs
    · exact Nat.zero_le _
    · exact hlen _

/-- The array `buffer` after `data` has been copied into it. -/
def copied (buffer : ByteMemory) (data : List (BitVec 8)) : ByteMemory := fun x => data.getD x (buffer x)

/-- The receiving half of the driver, `buffer` of `net_poll`, and what `virtio_net_send` was given. -/
structure Poll where
  dev : RxDriver
  buffer : ByteMemory
  sent : List Sent

/-- The loop of `net_poll`, for the number of turns it is given; `none` says that it would go on. In each
turn, a reply is put together in an array on the stack, which holds anything before. -/
def NetConfig.netPoll (net : NetConfig) (mem : ByteMemory) (stack : Nat → ByteMemory) (p : Poll) :
    Nat → Option Poll
  | 0 => none
  | turns + 1 =>
      let r := p.dev.virtioNetRecv mem (BitVec.ofNat 32 ethFrameLen)
      let buffer := copied p.buffer r.2.1
      if r.1 > 0 then
        let frame : EthFrame := ⟨buffer, r.1.toNat, p.dev.toNat_virtioNetRecv_le mem⟩
        let sent := (net.netProcessPacket frame (stack turns)).value
        netPoll net mem stack ⟨r.2.2, buffer, p.sent ++ sent.toList⟩ turns
      else some ⟨r.2.2, buffer, p.sent⟩

end SimpleOs
