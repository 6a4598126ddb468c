import SimpleOs.Proof.RxBuffers

/-!
# What a receive delivers

`virtio_net_recv` takes the size of the header off the used length without asking whether there is a
whole header. A shorter length wraps around to almost `2 ^ 32`, and what the caller has room for is
copied, whatever the buffer held before.
-/

namespace SimpleOs

open VirtioNet (byteAt)

variable {dev : RxDriver} {mem mem' : ByteMemory} {id len bufSize : BitVec 32}

theorem toNat_recvLen_eq_min : (recvLen len bufSize).toNat =
    min (len - BitVec.ofNat 32 virtioNetHdrSize).toNat bufSize.toNat := by
  rw [recvLen]
  split
  · rename_i hlong
    exact (min_eq_right (BitVec.le_of_lt hlong)).symm
  · rename_i hshort
    exact (min_eq_left (BitVec.not_lt.mp hshort)).symm

theorem toNat_recvLen (bufSize : BitVec 32) (hlen : virtioNetHdrSize ≤ len.toNat) :
    (recvLen len bufSize).toNat = min (len.toNat - virtioNetHdrSize) bufSize.toNat := by
  rw [toNat_recvLen_eq_min]
  congr 1
  exact BitVec.toNat_sub_of_le hlen

/-- Without a whole header, the difference is almost `2 ^ 32`. -/
theorem toNat_recvLen_of_lt (bufSize : BitVec 32) (hlen : len.toNat < virtioNetHdrSize) :
    (recvLen len bufSize).toNat = min (2 ^ 32 - virtioNetHdrSize + len.toNat) bufSize.toNat := by
  rw [toNat_recvLen_eq_min, BitVec.toNat_sub]
  congr 1
  apply Nat.mod_eq_of_lt
  change 2 ^ 32 - 12 + len.toNat < 2 ^ 32
  rw [virtioNetHdrSize] at hlen
  omega

namespace RxDriver

/-- The next entry of the used ring is for a receive buffer, of which `len` bytes are reported. -/
structure Completed (dev : RxDriver) (id len : BitVec 32) : Prop where
  initialized : dev.initialized = true
  hasUsed : dev.queue.hasUsed = true
  elem : dev.queue.usedRing (dev.queue.slot dev.queue.lastUsedIdx) = ⟨id, len⟩
  id_lt : id.toNat < virtioNetRxBuffers

theorem Completed.not_toInt_neg (h : dev.Completed id len) : ¬id.toInt < 0 := by
  have hlt : id.toNat < 16 := h.id_lt
  rw [BitVec.toInt_eq_toNat_of_lt (by omega)]
  omega

theorem Completed.takeUsed_id (h : dev.Completed id len) : dev.queue.takeUsed.1 = id :=
  congrArg VirtqUsedElem.id h.elem

theorem Completed.takeUsed_len (h : dev.Completed id len) : dev.queue.takeUsed.2.1 = len :=
  congrArg VirtqUsedElem.len h.elem

/-- What a call does that finds a completion. -/
theorem Completed.virtioNetRecv (h : dev.Completed id len) (mem : ByteMemory) (bufSize : BitVec 32) :
    dev.virtioNetRecv mem bufSize =
      ((recvLen len bufSize).toInt,
        (List.range (recvLen len bufSize).toNat).map fun i =>
          mem (byteAt (rxBuffer dev.rxBuffers id.toNat) (virtioNetHdrSize + i)),
        { dev with
          queue := (dev.queue.takeUsed.2.2.virtqAddBuffer (rxBuffer dev.rxBuffers id.toNat)
            (BitVec.ofNat 32 virtioNetBufferSize) virtqDescFWrite).2
          packetsRx := dev.packetsRx + 1
          bytesRx := dev.bytesRx + (recvLen len bufSize).setWidth 64 }) := by
  have hinitialized : dev.initialized ≠ false := by simp [h.initialized]
  have hhasUsed : dev.queue.hasUsed ≠ false := by simp [h.hasUsed]
  simp only [RxDriver.virtioNetRecv, if_neg hinitialized, if_neg hhasUsed, h.takeUsed_id,
    h.takeUsed_len, if_neg h.not_toInt_neg]

/-- Nothing but what the device wrote for the packet is delivered, and the length says how much. Memory
from `len` on may be anything. -/
structure DeliversReceived (dev : RxDriver) (mem : ByteMemory) (id len bufSize : BitVec 32) : Prop where
  value : virtioNetHdrSize ≤ len.toNat → len.toNat ≤ virtioNetBufferSize →
    (dev.virtioNetRecv mem bufSize).1 = min (len.toNat - virtioNetHdrSize) bufSize.toNat
  short : len.toNat < virtioNetHdrSize → (dev.virtioNetRecv mem bufSize).2.1 = []
  fresh : len.toNat ≤ virtioNetBufferSize → ∀ mem' : ByteMemory,
    (∀ i < len.toNat, mem' (byteAt (rxBuffer dev.rxBuffers id.toNat) i) =
      mem (byteAt (rxBuffer dev.rxBuffers id.toNat) i)) →
        (dev.virtioNetRecv mem' bufSize).2.1 = (dev.virtioNetRecv mem bufSize).2.1

theorem Completed.deliversReceived_of_le (h : dev.Completed id len)
    (hlen : virtioNetHdrSize ≤ len.toNat) : dev.DeliversReceived mem id len bufSize := by
  have hrecv := toNat_recvLen bufSize hlen
  refine ⟨fun _ hle => ?_, fun hshort => absurd hlen (not_le.mpr hshort), fun hle mem' hsame => ?_⟩
  · have hsmall : (recvLen len bufSize).toNat ≤ 2048 :=
      calc (recvLen len bufSize).toNat
          ≤ len.toNat - virtioNetHdrSize := hrecv ▸ min_le_left _ _
        _ ≤ len.toNat := Nat.sub_le _ _
        _ ≤ 2048 := hle
    rw [h.virtioNetRecv mem bufSize, BitVec.toInt_eq_toNat_of_lt (by omega), hrecv]
  · rw [h.virtioNetRecv mem' bufSize, h.virtioNetRecv mem bufSize]
    apply List.map_congr_left
    intro i hi
    have hlt := List.mem_range.mp hi
    rw [hrecv] at hlt
    exact hsame _ (by omega)

theorem Completed.data_eq_nil_iff (h : dev.Completed id len) (hlen : len.toNat < virtioNetHdrSize) :
    (dev.virtioNetRecv mem bufSize).2.1 = [] ↔ bufSize = 0 := by
  have hrecv := toNat_recvLen_of_lt bufSize hlen
  rw [virtioNetHdrSize] at hrecv
  rw [h.virtioNetRecv mem bufSize, List.map_eq_nil_iff, List.range_eq_nil, hrecv]
  constructor
  · intro hzero
    apply BitVec.eq_of_toNat_eq
    change bufSize.toNat = 0
    omega
  · rintro rfl
    exact min_eq_right (Nat.zero_le _)

/-- Exactly where there is a whole header, or nothing can be copied anyway, is what is delivered what has
been received. -/
theorem deliversReceived_iff (mem : ByteMemory) (bufSize : BitVec 32) (h : dev.Completed id len) :
    dev.DeliversReceived mem id len bufSize ↔ virtioNetHdrSize ≤ len.toNat ∨ bufSize = 0 := by
  constructor
  · intro hdelivers
    by_cases hlen : virtioNetHdrSize ≤ len.toNat
    · exact Or.inl hlen
    · have hshort := not_le.mp hlen
      exact Or.inr ((h.data_eq_nil_iff hshort).mp (hdelivers.short hshort))
  · rintro (hlen | rfl)
    · exact h.deliversReceived_of_le hlen
    · by_cases hlen : virtioNetHdrSize ≤ len.toNat
      · exact h.deliversReceived_of_le hlen
      · have hshort := not_le.mp hlen
        have hnil (mem : ByteMemory) : (dev.virtioNetRecv mem 0).2.1 = [] :=
          (h.data_eq_nil_iff hshort).mpr rfl
        exact ⟨fun hle => absurd hle hlen, fun _ => hnil mem, fun _ mem' _ => by rw [hnil, hnil]⟩

/-- A driver whose first buffer has been completed with this used length. -/
def sampleRx (len : BitVec 32) : RxDriver where
  initialized := true
  queue :=
    { VirtqSystem.sampleMemory with
      size := 16
      usedIdx := 1
      usedRing := fun _ => ⟨0, len⟩ }
  rxBuffers := 0x200000
  packetsRx := 0
  bytesRx := 0

theorem completed_sampleRx (len : BitVec 32) : (sampleRx len).Completed 0 len :=
  ⟨rfl, rfl, rfl, by decide⟩

theorem deliversReceived_iff_sampleRx : (sampleRx 0).DeliversReceived ByteMemory.zero 0 0 1514 ↔
    virtioNetHdrSize ≤ (0#32).toNat ∨ (1514 : BitVec 32) = 0 :=
  deliversReceived_iff ByteMemory.zero 1514 (completed_sampleRx 0)

theorem not_deliversReceived_sampleRx :
    ¬∀ (dev : RxDriver) (mem : ByteMemory) (id len bufSize : BitVec 32), dev.Completed id len →
      dev.DeliversReceived mem id len bufSize := by
  intro h
  have hdelivers := h (sampleRx 0) ByteMemory.zero 0 0 1514 (completed_sampleRx 0)
  have hnil := hdelivers.short (by decide)
  have hzero := ((completed_sampleRx 0).data_eq_nil_iff (by decide)).mp hnil
  exact absurd hzero (by decide)

end RxDriver

/-- What `virtio_net_recv` works on, when nothing is in between. -/
def VirtioNetRx.driver (s : VirtioNetRx) : RxDriver :=
  ⟨s.initialized, s.rx.queue, s.rxBuffers, s.packetsRx, s.bytesRx⟩

end SimpleOs
