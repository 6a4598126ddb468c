import SimpleOs.Drivers.Pci
import SimpleOs.Lib.PciConfig

/-!
# What a scan of the bus finds

`pci_enumerate` visits every function that is there on bus 0, in order, and enters what its registers hold,
until `pci_devices` is full. It changes nothing.
-/

namespace SimpleOs

open PciSpace

variable {σ : Type} {space : PciSpace σ} {rest : PortDevice σ} {s : σ} {bus device func offset : BitVec 8}

theorem msb_pciAddress (bus device func offset : BitVec 8) :
    (pciAddress bus device func offset).msb = true := by
  rw [BitVec.msb_eq_getLsbD_last, pciAddress]
  simp

theorem ofAddress_pciAddress (bus device func offset : BitVec 8) :
    PciRegister.ofAddress (pciAddress bus device func offset) =
      ⟨bus, device.setWidth 5, func.setWidth 3, offset.extractLsb' 2 6⟩ := by
  rw [PciRegister.ofAddress, PciRegister.mk.injEq]
  refine ⟨?_, ?_, ?_, ?_⟩
  all_goals
    refine BitVec.eq_of_getLsbD_eq fun i hi => ?_
    interval_cases i <;> simp [pciAddress]

theorem setWidth_ushiftRight (value : BitVec 32) (n w : Nat) :
    (value >>> n).setWidth w = value.extractLsb' n w := by
  refine BitVec.eq_of_getLsbD_eq fun i hi => ?_
  simp [hi]

/-- The registers of a function. -/
def registers (space : PciSpace σ) (s : σ) (bus device func : BitVec 8) (number : BitVec 6) : BitVec 32 :=
  space.read s ⟨bus, device.setWidth 5, func.setWidth 3, number⟩

theorem gives_pciRead32 : space.Gives rest (pciRead32 bus device func offset) s
    (registers space s bus device func (offset.extractLsb' 2 6)) s := by
  have hgives : space.Gives rest (pciRead32 bus device func offset) s _ s :=
    gives_read (msb_pciAddress bus device func offset) fun value => value
  rwa [ofAddress_pciAddress] at hgives

theorem gives_pciRead16 : space.Gives rest (pciRead16 bus device func offset) s
    ((registers space s bus device func (offset.extractLsb' 2 6)).extractLsb'
      ((offset &&& 2#8).toNat * 8) 16) s := by
  have hgives : space.Gives rest (pciRead16 bus device func offset) s _ s :=
    gives_read (msb_pciAddress bus device func offset)
      fun value => (value >>> ((offset &&& 2#8).toNat * 8)).setWidth 16
  rwa [ofAddress_pciAddress, setWidth_ushiftRight] at hgives

theorem gives_pciRead8 : space.Gives rest (pciRead8 bus device func offset) s
    ((registers space s bus device func (offset.extractLsb' 2 6)).extractLsb'
      ((offset &&& 3#8).toNat * 8) 8) s := by
  have hgives : space.Gives rest (pciRead8 bus device func offset) s _ s :=
    gives_read (msb_pciAddress bus device func offset)
      fun value => (value >>> ((offset &&& 3#8).toNat * 8)).setWidth 8
  rwa [ofAddress_pciAddress, setWidth_ushiftRight] at hgives

namespace PciInfo

/-- The vendor is not the one that is read where nothing is. -/
def Present (r : BitVec 6 → BitVec 32) : Prop := (r 0).extractLsb' 0 16 ≠ 0xFFFF#16

instance (r : BitVec 6 → BitVec 32) : Decidable (Present r) := inferInstanceAs (Decidable (_ ≠ _))

/-- The device has functions other than the first one. -/
def Multifunction (r : BitVec 6 → BitVec 32) : Prop := (r 3).getLsbD 23 = true

instance (r : BitVec 6 → BitVec 32) : Decidable (Multifunction r) := inferInstanceAs (Decidable (_ = _))

/-- What the registers of a function say. -/
def ofRegisters (bus device func : BitVec 8) (r : BitVec 6 → BitVec 32) : PciInfo where
  bus := bus
  device := device
  function := func
  vendorId := (r 0).extractLsb' 0 16
  deviceId := (r 0).extractLsb' 16 16
  revision := (r 2).extractLsb' 0 8
  progIf := (r 2).extractLsb' 8 8
  subclass := (r 2).extractLsb' 16 8
  classCode := (r 2).extractLsb' 24 8
  bar i := if i < 6 then r (4 + BitVec.ofNat 6 i) else 0
  interruptLine := (r 15).extractLsb' 0 8
  interruptPin := (r 15).extractLsb' 8 8
  valid := true

end PciInfo

/-- An array that has been filled up to an index, and then at that index. -/
theorem ite_lt_succ_eq_update {α : Type} (f g : Nat → α) (n : Nat) :
    (fun i => if i < n + 1 then f i else g i) =
      Function.update (fun i => if i < n then f i else g i) n (f n) := by
  funext i
  by_cases hi : i = n
  · rw [hi, Function.update_self, if_pos (Nat.lt_succ_self n)]
  · rw [Function.update_of_ne hi]
    exact if_congr (by omega) rfl rfl

theorem gives_pciDeviceExists : space.Gives rest (pciDeviceExists bus device func) s
    (decide (PciInfo.Present (registers space s bus device func))) s :=
  gives_pciRead16.bind gives_pure

theorem gives_readBars {n : Nat} (hn : n ≤ 6) : space.Gives rest (readBars bus device func n) s
    (fun i => if i < n then registers space s bus device func (4 + BitVec.ofNat 6 i) else 0) s := by
  induction n with
  | zero => exact gives_pure
  | succ n ih =>
      have hlt : n < 6 := hn
      have hnumber : (pciBar0 + BitVec.ofNat 8 (n * 4)).extractLsb' 2 6 = 4 + BitVec.ofNat 6 n := by
        interval_cases n <;> rfl
      have hread : space.Gives rest (pciRead32 bus device func (pciBar0 + BitVec.ofNat 8 (n * 4))) s
          (registers space s bus device func (4 + BitVec.ofNat 6 n)) s := hnumber ▸ gives_pciRead32
      rw [ite_lt_succ_eq_update]
      exact (ih hlt.le).bind (hread.bind gives_pure)

theorem gives_pciGetDeviceInfo : space.Gives rest (pciGetDeviceInfo bus device func) s
    (.ofRegisters bus device func (registers space s bus device func)) s :=
  gives_pciRead16.bind (gives_pciRead16.bind (gives_pciRead8.bind (gives_pciRead8.bind
    (gives_pciRead8.bind (gives_pciRead8.bind (gives_pciRead8.bind (gives_pciRead8.bind
      ((gives_readBars le_rfl).bind gives_pure))))))))

theorem multifunction_iff (r : BitVec 6 → BitVec 32) :
    (r 3).extractLsb' 16 8 &&& 0x80#8 ≠ 0#8 ↔ PciInfo.Multifunction r := by
  have hmask : (r 3).extractLsb' 16 8 &&& 0x80#8 = if (r 3).getLsbD 23 then 0x80#8 else 0#8 := by
    refine BitVec.eq_of_getLsbD_eq fun i hi => ?_
    interval_cases i <;> split <;> simp_all
  rw [hmask, PciInfo.Multifunction]
  split <;> simp_all

/-- What a turn of the loop over the functions finds. -/
def foundFunction (space : PciSpace σ) (s : σ) (bus device : BitVec 8) (func : Nat) : List PciInfo :=
  let r := registers space s bus device (BitVec.ofNat 8 func)
  if PciInfo.Present r then [.ofRegisters bus device (BitVec.ofNat 8 func) r] else []

/-- The functions of a device, of which the first one must be there. -/
def foundDevice (space : PciSpace σ) (s : σ) (bus : BitVec 8) (device : Nat) : List PciInfo :=
  let r := registers space s bus (BitVec.ofNat 8 device) 0
  if PciInfo.Present r then
    (List.range (if PciInfo.Multifunction r then 8 else 1)).flatMap
      (foundFunction space s bus (BitVec.ofNat 8 device))
  else []

def foundBus (space : PciSpace σ) (s : σ) (bus : BitVec 8) : List PciInfo :=
  (List.range 32).flatMap (foundDevice space s bus)

theorem take_append_of_full {α : Type} {l l' : List α} {n : Nat} (hl : l.length ≤ n) (hfull : ¬l.length < n) :
    (l ++ l').take n = l := by
  rw [List.take_append_of_le_length (not_lt.mp hfull), List.take_of_length_le hl]

variable {devices : List PciInfo}

theorem gives_scanFunction {func : Nat} (hlength : devices.length ≤ pciMaxDevices)
    (hfirst : PciInfo.Present (registers space s bus device 0)) :
    space.Gives rest (scanFunction bus device devices func) s
      ((devices ++ foundFunction space s bus device func).take pciMaxDevices) s := by
  rw [scanFunction]
  by_cases hroom : devices.length < pciMaxDevices
  swap
  · rw [if_neg hroom, take_append_of_full hlength hroom]
    exact gives_pure
  rw [if_pos hroom, foundFunction]
  have habsent : space.Gives rest
      (if 0 < func then (!·) <$> pciDeviceExists bus device (BitVec.ofNat 8 func) else pure false) s
      (!decide (PciInfo.Present (registers space s bus device (BitVec.ofNat 8 func)))) s := by
    by_cases hfunc : 0 < func
    · rw [if_pos hfunc]
      exact gives_pciDeviceExists.map _
    · obtain rfl : func = 0 := Nat.eq_zero_of_not_pos hfunc
      rw [if_neg hfunc]
      exact (congrArg (space.Gives rest _ s · s) (congrArg _ (decide_eq_true hfirst))).mpr gives_pure
  refine habsent.bind ?_
  by_cases hpresent : PciInfo.Present (registers space s bus device (BitVec.ofNat 8 func))
  · rw [decide_eq_true hpresent, if_pos hpresent, List.take_of_length_le (by simpa using hroom)]
    exact gives_pciGetDeviceInfo.bind gives_pure
  · rw [decide_eq_false hpresent, if_neg hpresent, List.append_nil, List.take_of_length_le hlength]
    exact gives_pure

theorem gives_scanDevice {device : Nat} (hlength : devices.length ≤ pciMaxDevices) :
    space.Gives rest (scanDevice bus devices device) s
      ((devices ++ foundDevice space s bus device).take pciMaxDevices) s := by
  rw [scanDevice]
  by_cases hroom : devices.length < pciMaxDevices
  swap
  · rw [if_neg hroom, take_append_of_full hlength hroom]
    exact gives_pure
  rw [if_pos hroom, foundDevice]
  refine gives_pciDeviceExists.bind ?_
  by_cases hpresent : PciInfo.Present (registers space s bus (BitVec.ofNat 8 device) 0)
  · rw [decide_eq_true hpresent]
    dsimp only
    rw [if_pos hpresent]
    refine gives_pciRead8.bind ?_
    have hmaxFunc : (if (registers space s bus (BitVec.ofNat 8 device) 0 3).extractLsb' 16 8 &&& 0x80#8 ≠ 0#8
        then 8 else 1) =
        if PciInfo.Multifunction (registers space s bus (BitVec.ofNat 8 device) 0) then 8 else 1 :=
      if_congr (multifunction_iff _) rfl rfl
    exact hmaxFunc ▸ gives_foldlM_take hlength fun func _ l hl => gives_scanFunction hl hpresent
  · rw [decide_eq_false hpresent]
    dsimp only
    rw [if_neg hpresent, List.append_nil, List.take_of_length_le hlength]
    exact gives_pure

theorem gives_scanBus {bus : Nat} (hlength : devices.length ≤ pciMaxDevices) :
    space.Gives rest (scanBus devices bus) s
      ((devices ++ foundBus space s (BitVec.ofNat 8 bus)).take pciMaxDevices) s := by
  rw [scanBus]
  by_cases hroom : devices.length < pciMaxDevices
  · rw [if_pos hroom]
    exact gives_foldlM_take hlength fun device _ l hl => gives_scanDevice hl
  · rw [if_neg hroom, take_append_of_full hlength hroom]
    exact gives_pure

theorem gives_pciEnumerate :
    space.Gives rest pciEnumerate s ((foundBus space s 0).take pciMaxDevices) s := by
  have hscan : space.Gives rest pciEnumerate s
      (([] ++ (List.range 1).flatMap fun bus => foundBus space s (BitVec.ofNat 8 bus)).take pciMaxDevices) s :=
    gives_foldlM_take (Nat.zero_le _) fun _ _ _ hl => gives_scanBus hl
  rwa [List.nil_append, List.range_one, List.flatMap_singleton] at hscan

/-- **A scan finds what is there.** Whatever functions there are, and whatever else the machine does,
`pci_enumerate` enters the functions of bus 0 that are there, in the order of their numbers, with what their
registers say, up to the 32 for which there is room; and it changes nothing. -/
theorem pciEnumerate_finds (space : PciSpace σ) (rest : PortDevice σ) (address : BitVec 32) (s : σ) :
    ((space.host rest).exec pciEnumerate (address, s)).1 = (foundBus space s 0).take pciMaxDevices ∧
      ((space.host rest).exec pciEnumerate (address, s)).2.2 = s :=
  gives_pciEnumerate.exec address

end SimpleOs
