import SimpleOs.Lib.VirtioCard
import SimpleOs.Proof.PciScan
import SimpleOs.Proof.VirtqOwnership

/-!
# Bringing up the network card

A scan of the bus and `virtio_net_init`, on a machine with a card. The card is told that there is a driver if
its first base address register is one for ports; nothing asks what features it has. Writing the command
register clears the status register next to it.
-/

namespace SimpleOs

open PciSpace (gives_pure gives_modify)
open VirtioCard

variable {c : VirtioCard} {pci : PciDevice} {mac : Nat → BitVec 8}

/-- The entry of `pci_devices` is for the card. -/
structure PciDevice.Of (pci : PciDevice) (c : VirtioCard) : Prop where
  bus : pci.bus = c.bus
  device : pci.device.setWidth 5 = c.device
  func : pci.function.setWidth 3 = c.func

theorem PciDevice.Of.register (h : pci.Of c) (number : BitVec 6) :
    (⟨pci.bus, pci.device.setWidth 5, pci.function.setWidth 3, number⟩ : PciRegister) =
      c.register number := by
  rw [h.bus, h.device, h.func]
  rfl

theorem gives_readCommand (h : pci.Of c) :
    Gives (pciRead16 pci.bus pci.device pci.function pciCommand) c c.command c := by
  have hread : registers space c pci.bus pci.device pci.function 1 = c.commandAndStatus := by
    rw [registers, h.register]
    exact if_pos rfl
  have hgives : Gives (pciRead16 pci.bus pci.device pci.function pciCommand) c
      ((registers space c pci.bus pci.device pci.function 1).extractLsb' 0 16) c := gives_pciRead16
  have hlow : c.commandAndStatus.extractLsb' 0 16 = c.command := by
    refine BitVec.eq_of_getLsbD_eq fun i hi => ?_
    have hi' : i < 32 := by omega
    simp [commandAndStatus, hi, hi']
  rwa [hread, hlow] at hgives

/-- The other half of the register is written back as it was read, which clears it. -/
theorem gives_writeCommand (h : pci.Of c) (value : BitVec 16) :
    Gives (pciWrite16 pci.bus pci.device pci.function pciCommand value) c ()
      { c with command := value, pciStatus := 0 } := by
  have hgives : Gives (pciWrite16 pci.bus pci.device pci.function pciCommand value) c () _ :=
    gives_modify (msb_pciAddress pci.bus pci.device pci.function pciCommand) fun tmp =>
      tmp &&& ~~~(0xFFFF#32 <<< 0) ||| (value.setWidth 32 <<< 0)
  have hregister : PciRegister.ofAddress (pciAddress pci.bus pci.device pci.function pciCommand) =
      c.register 1 := (ofAddress_pciAddress _ _ _ _).trans (h.register 1)
  have hlow : (c.commandAndStatus &&& ~~~(0xFFFF#32 <<< 0) ||| (value.setWidth 32 <<< 0)).setWidth 16 =
      value := by
    refine BitVec.eq_of_getLsbD_eq fun i hi => ?_
    interval_cases i <;> simp [commandAndStatus]
  have hhigh : (c.commandAndStatus &&& ~~~(0xFFFF#32 <<< 0) |||
      (value.setWidth 32 <<< 0)).extractLsb' 16 16 = c.pciStatus := by
    refine BitVec.eq_of_getLsbD_eq fun i hi => ?_
    interval_cases i <;> simp [commandAndStatus]
  have hwrite : space.write c (c.register 1) (c.commandAndStatus &&& ~~~(0xFFFF#32 <<< 0) |||
      (value.setWidth 32 <<< 0)) = { c with command := value, pciStatus := 0 } := by
    refine (if_pos rfl).trans ?_
    rw [hlow, hhigh, BitVec.and_not_self]
  have hread : space.read c (c.register 1) = c.commandAndStatus := if_pos rfl
  rwa [hregister, hread, hwrite] at hgives

theorem gives_pciEnableBusMaster (h : pci.Of c) :
    Gives (pciEnableBusMaster pci) c () { c with command := c.command ||| 7, pciStatus := 0 } :=
  (gives_readCommand h).bind (gives_writeCommand h (c.command ||| 7))

theorem gives_ioWait (h : c.Ready) : Gives ioWait c () c := h.elsewhere (by decide) 0

theorem gives_readMac (h : c.Ready) {n : Nat} (hn : n ≤ 6) :
    Gives (readMac c.base mac n) c (fun i => if i < n then c.mac i else mac i) c := by
  induction n with
  | zero => exact gives_pure
  | succ n ih =>
      rw [ite_lt_succ_eq_update]
      exact (ih (Nat.le_of_succ_le hn)).bind ((h.macByte hn).bind gives_pure)

/-- The card after `virtio_net_init`. -/
def broughtUp (c : VirtioCard) : VirtioCard :=
  { c with
    command := c.command ||| 7
    pciStatus := 0
    status := virtioStatusAcknowledge ||| virtioStatusDriver ||| virtioStatusDriverOk
    guestFeatures := virtioNetFMac }

namespace VirtioNetDevice

variable {devices : List PciDevice}

theorem gives_virtioNetInit (dev : VirtioNetDevice)
    (hfind : pciFindDevice devices pciVendorRedhat pciDeviceVirtioNet = some pci)
    (hof : pci.Of c) (hbar : pci.bar 0 = c.bar0) (hio : c.bar0.getLsbD 0 = true) (hbase : c.base ≠ 0)
    (haligned : c.base &&& 0x1F = 0) :
    Gives (virtioNetInit devices dev) c (0,
      { dev with
        pciDev := some pci
        ioBase := c.base
        mac := fun i => if i < 6 then c.mac i else dev.mac i
        initialized := true }) (broughtUp c) := by
  have hbit : ¬(pci.bar 0 &&& 0x01#32 = 0#32) := by
    intro hzero
    have hlow : (c.bar0 &&& 0x01#32).getLsbD 0 = false := by rw [← hbar, hzero]; rfl
    rw [BitVec.getLsbD_and, hio] at hlow
    exact absurd hlow (by decide)
  have hioBase : (pci.bar 0 &&& 0xFFFC#32).setWidth 16 = c.base := by rw [hbar]; rfl
  -- The card after `pci_enable_bus_master`, and after each of the writes.
  let enabled : VirtioCard := { c with command := c.command ||| 7, pciStatus := 0 }
  have henabled : enabled.Ready := ⟨⟨hio, by simp [enabled]⟩, haligned⟩
  have hready : ∀ (status : BitVec 8) (features : BitVec 32),
      Ready { enabled with status := status, guestFeatures := features } :=
    fun _ _ => ⟨henabled.enabled, henabled.aligned⟩
  rw [virtioNetInit.eq_def, hfind]
  dsimp only
  rw [if_neg hbit, hioBase]
  refine (congrArg (Gives · c _ _) (if_neg hbase)).mpr ?_
  refine (gives_pciEnableBusMaster hof).bind ?_
  refine henabled.reset.bind ((gives_ioWait (hready 0 0)).bind ?_)
  refine ((hready 0 0).setStatus (by decide)).bind ((gives_ioWait (hready virtioStatusAcknowledge 0)).bind ?_)
  refine ((hready virtioStatusAcknowledge 0).setStatus (by decide)).bind
    ((gives_ioWait (hready (virtioStatusAcknowledge ||| virtioStatusDriver) 0)).bind ?_)
  let known := virtioStatusAcknowledge ||| virtioStatusDriver
  refine (hready known 0).features.bind (((hready known 0).acceptFeatures virtioNetFMac).bind ?_)
  refine (gives_ioWait (hready known virtioNetFMac)).bind ?_
  refine (gives_readMac (hready known virtioNetFMac) le_rfl).bind ?_
  exact ((hready known virtioNetFMac).setStatus (by decide)).bind gives_pure

/-- The card is there for the driver. -/
def Usable (c : VirtioCard) (devices : List PciDevice) : Prop :=
  (pciFindDevice devices pciVendorRedhat pciDeviceVirtioNet).isSome ∧ c.bar0.getLsbD 0 = true ∧ c.base ≠ 0

/-- Otherwise the card is left alone. -/
theorem gives_virtioNetInit_failed (dev : VirtioNetDevice) (hbar : ∀ pci,
      pciFindDevice devices pciVendorRedhat pciDeviceVirtioNet = some pci → pci.bar 0 = c.bar0)
    (hnot : ¬Usable c devices) : ∃ code < 0, ∃ dev' : VirtioNetDevice, dev'.toVirtioNet = dev.toVirtioNet ∧
      Gives (virtioNetInit devices dev) c (code, dev') c := by
  rw [virtioNetInit.eq_def]
  cases hfind : pciFindDevice devices pciVendorRedhat pciDeviceVirtioNet with
  | none => exact ⟨-1, by decide, dev, rfl, gives_pure⟩
  | some pci =>
      dsimp only
      by_cases hbit : pci.bar 0 &&& 0x01#32 = 0#32
      · rw [if_pos hbit]
        exact ⟨-2, by decide, { dev with pciDev := some pci }, rfl, gives_pure⟩
      rw [if_neg hbit]
      have hbar := hbar pci hfind
      have hioBase : (pci.bar 0 &&& 0xFFFC#32).setWidth 16 = c.base := by rw [hbar]; rfl
      have hio : c.bar0.getLsbD 0 = true := by
        by_contra hclear
        refine hbit (BitVec.eq_of_getLsbD_eq fun i hi => ?_)
        rw [hbar, BitVec.getLsbD_and]
        interval_cases i <;> simp_all
      have hzero : c.base = 0 := by
        by_contra hbase
        exact hnot ⟨by rw [hfind]; rfl, hio, hbase⟩
      rw [hioBase, hzero]
      refine ⟨-3, by decide, { dev with pciDev := some pci, ioBase := 0 }, rfl, ?_⟩
      exact (congrArg (Gives · c _ _) (if_pos rfl)).mpr gives_pure

/-- A scan of the bus, and `virtio_net_init` on what it has found. -/
def scanAndInit (dev : VirtioNetDevice) : Ported (Int × VirtioNetDevice) := do
  let devices ← pciEnumerate
  virtioNetInit (devices.map PciInfo.toPciDevice) dev

/-- What `pci_devices` holds after a scan. -/
def scanned (c : VirtioCard) : List PciDevice :=
  ((foundBus space c 0).take pciMaxDevices).map PciInfo.toPciDevice

theorem gives_scanAndInit {dev : VirtioNetDevice} {r : Int × VirtioNetDevice} {c' : VirtioCard}
    (h : Gives (virtioNetInit (scanned c) dev) c r c') : Gives (scanAndInit dev) c r c' :=
  gives_pciEnumerate.bind h

theorem bar_of_mem_scanned {pci : PciDevice} (hpci : pci ∈ scanned c) (hof : pci.Of c) : pci.bar 0 = c.bar0 := by
  obtain ⟨info, hinfo, rfl⟩ := List.mem_map.mp hpci
  obtain ⟨device, -, hfound⟩ := List.mem_flatMap.mp (List.mem_of_mem_take hinfo)
  rw [foundDevice] at hfound
  split at hfound
  swap
  · cases hfound
  obtain ⟨func, -, hfound⟩ := List.mem_flatMap.mp hfound
  rw [foundFunction] at hfound
  split at hfound
  swap
  · cases hfound
  obtain rfl := List.mem_singleton.mp hfound
  have hregister := hof.register 4
  have hne : c.register 4 ≠ c.register 1 := by
    intro heq
    have hnumber : (4 : BitVec 6) = 1 := congrArg PciRegister.number heq
    exact absurd hnumber (by decide)
  change space.read c _ = _
  exact (congrArg (space.read c) hregister).trans (if_neg hne)

/-- **The card is brought up.** If the first virtio network function that a scan enters is the card, then
`virtio_net_init` succeeds exactly if its first base address register names ports. It leaves the card
enabled, with the driver known to it and the MAC feature accepted, and the driver with the ports and the MAC
address of the card. Otherwise it leaves the card as it was. -/
theorem card_brought_up (c : VirtioCard) (dev : VirtioNetDevice) (address : BitVec 32)
    (hcard : ∀ pci, pciFindDevice (scanned c) pciVendorRedhat pciDeviceVirtioNet = some pci → pci.Of c)
    (haligned : c.base &&& 0x1F = 0) :
    let r := host.exec (scanAndInit dev) (address, c)
    (Usable c (scanned c) → r.1.1 = 0 ∧ r.2.2 = broughtUp c ∧ r.1.2.initialized = true ∧
        r.1.2.ioBase = c.base ∧ (∀ i < 6, r.1.2.mac i = c.mac i) ∧
        r.1.2.pciDev = pciFindDevice (scanned c) pciVendorRedhat pciDeviceVirtioNet) ∧
      (¬Usable c (scanned c) → r.1.1 < 0 ∧ r.2.2 = c ∧ r.1.2.toVirtioNet = dev.toVirtioNet) := by
  have hbar : ∀ pci, pciFindDevice (scanned c) pciVendorRedhat pciDeviceVirtioNet = some pci →
      pci.bar 0 = c.bar0 := fun pci hfind =>
    bar_of_mem_scanned (List.mem_of_find?_eq_some hfind) (hcard pci hfind)
  refine ⟨fun husable => ?_, fun hnot => ?_⟩
  · obtain ⟨pci, hfind⟩ := Option.isSome_iff_exists.mp husable.1
    obtain ⟨hresult, hstate⟩ := (gives_scanAndInit (gives_virtioNetInit dev hfind (hcard pci hfind)
      (hbar pci hfind) husable.2.1 husable.2.2 haligned)).exec address
    rw [hresult]
    exact ⟨rfl, hstate, rfl, rfl, fun i hi => if_pos hi, hfind.symm⟩
  · obtain ⟨code, hcode, dev', hsame, hgives⟩ := gives_virtioNetInit_failed dev hbar hnot
    obtain ⟨hresult, hstate⟩ := (gives_scanAndInit hgives).exec address
    rw [hresult]
    exact ⟨hcode, hstate, hsame⟩

/-- A card that is the third function of the bus, with its ports from 0xC000 on. -/
def thirdCard : VirtioCard where
  bus := 0
  device := 3
  func := 0
  registers r :=
    if r.bus = 0 ∧ r.func = 0 ∧ r.device ∈ [0, 1, 3] then
      if r.number = 0 then if r.device = 3 then 0x10001AF4 else 0x12378086
      else if r.number = 4 then 0xC001
      else 0
    else 0xFFFFFFFF
  command := 0
  pciStatus := 0x10
  hostFeatures := 0x20
  guestFeatures := 0
  status := 0
  mac i := BitVec.ofNat 8 (0x52 + i)

def uninitialized : VirtioNetDevice := .boot VirtqSystem.sampleMemory 0x200000 ByteMemory.zero

theorem of_thirdCard (pci : PciDevice)
    (h : pciFindDevice (scanned thirdCard) pciVendorRedhat pciDeviceVirtioNet = some pci) :
    pci.Of thirdCard := by
  have hplace : (pciFindDevice (scanned thirdCard) pciVendorRedhat pciDeviceVirtioNet).map
      (fun pci => (pci.bus, pci.device, pci.function)) = some (0, 3, 0) := by decide +kernel
  rw [h, Option.map_some, Option.some.injEq, Prod.mk.injEq, Prod.mk.injEq] at hplace
  obtain ⟨hbus, hdevice, hfunc⟩ := hplace
  exact ⟨hbus, by rw [hdevice]; rfl, by rw [hfunc]; rfl⟩

theorem card_brought_up_thirdCard :
    let r := host.exec (scanAndInit uninitialized) (0, thirdCard)
    r.1.1 = 0 ∧ r.2.2 = broughtUp thirdCard ∧ r.1.2.initialized = true ∧
      r.1.2.ioBase = thirdCard.base ∧ (∀ i < 6, r.1.2.mac i = thirdCard.mac i) ∧
      r.1.2.pciDev = pciFindDevice (scanned thirdCard) pciVendorRedhat pciDeviceVirtioNet :=
  (card_brought_up thirdCard uninitialized 0 of_thirdCard (by decide)).1
    ⟨by decide +kernel, rfl, by decide⟩

end VirtioNetDevice

end SimpleOs
