import SimpleOs.Io
import SimpleOs.Drivers.VirtioNet

/-!
# Setting up the network card

`virtio_net_init` of `kernel/virtio_net.h` and what it calls of `kernel/pci.h`. It finds the card, tells
it that there is a driver and reads the MAC address; the queues are not set up.
-/

namespace SimpleOs

open Ported

def pciConfigAddr : BitVec 16 := 0xCF8
def pciConfigData : BitVec 16 := 0xCFC
def pciCommand : BitVec 8 := 0x04

def pciCommandIo : BitVec 16 := 0x0001
def pciCommandMemory : BitVec 16 := 0x0002
def pciCommandMaster : BitVec 16 := 0x0004

def pciVendorRedhat : BitVec 16 := 0x1AF4
def pciDeviceVirtioNet : BitVec 16 := 0x1000

structure PciDevice where
  bus : BitVec 8
  device : BitVec 8
  function : BitVec 8
  vendorId : BitVec 16
  deviceId : BitVec 16
  bar : Nat → BitVec 32

def pciAddress (bus device func offset : BitVec 8) : BitVec 32 :=
  (1#32 <<< 31) ||| (bus.setWidth 32 <<< 16) ||| ((device &&& 0x1F#8).setWidth 32 <<< 11) |||
    ((func &&& 0x07#8).setWidth 32 <<< 8) ||| (offset &&& 0xFC#8).setWidth 32

def pciRead16 (bus device func offset : BitVec 8) : Ported (BitVec 16) := do
  outl pciConfigAddr (pciAddress bus device func offset)
  let value ← inl pciConfigData
  return (value >>> ((offset &&& 2#8).toNat * 8)).setWidth 16

def pciWrite16 (bus device func offset : BitVec 8) (value : BitVec 16) : Ported Unit := do
  outl pciConfigAddr (pciAddress bus device func offset)
  let tmp ← inl pciConfigData
  let tmp := tmp &&& ~~~(0xFFFF#32 <<< ((offset &&& 2#8).toNat * 8))
  outl pciConfigData (tmp ||| (value.setWidth 32 <<< ((offset &&& 2#8).toNat * 8)))

/-- `devices` are the first `pci_device_count` of `pci_devices`. -/
def pciFindDevice (devices : List PciDevice) (vendorId deviceId : BitVec 16) : Option PciDevice :=
  devices.find? fun dev => dev.vendorId = vendorId ∧ dev.deviceId = deviceId

def pciEnableBusMaster (dev : PciDevice) : Ported Unit := do
  let cmd ← pciRead16 dev.bus dev.device dev.function pciCommand
  pciWrite16 dev.bus dev.device dev.function pciCommand
    (cmd ||| (pciCommandMaster ||| pciCommandMemory ||| pciCommandIo))

def virtioPciHostFeatures : BitVec 16 := 0x00
def virtioPciGuestFeatures : BitVec 16 := 0x04
def virtioPciStatus : BitVec 16 := 0x12
def virtioPciConfig : BitVec 16 := 0x14

def virtioStatusAcknowledge : BitVec 8 := 0x01
def virtioStatusDriver : BitVec 8 := 0x02
def virtioStatusDriverOk : BitVec 8 := 0x04

def virtioNetFMac : BitVec 32 := 1#32 <<< 5

def virtioRead8 (base offset : BitVec 16) : Ported (BitVec 8) := inb (base + offset)

def virtioRead32 (base offset : BitVec 16) : Ported (BitVec 32) := inl (base + offset)

def virtioWrite8 (base offset : BitVec 16) (val : BitVec 8) : Ported Unit := outb (base + offset) val

def virtioWrite32 (base offset : BitVec 16) (val : BitVec 32) : Ported Unit := outl (base + offset) val

/-- `virtio_net_dev`, with the fields that `virtio_net_init` is there to fill. -/
structure VirtioNetDevice extends VirtioNet where
  pciDev : Option PciDevice
  ioBase : BitVec 16
  mac : Nat → BitVec 8

/-- The first `n` bytes of the MAC address. -/
def readMac (base : BitVec 16) (mac : Nat → BitVec 8) : Nat → Ported (Nat → BitVec 8)
  | 0 => pure mac
  | n + 1 => do
    let mac ← readMac base mac n
    let byte ← virtioRead8 base (virtioPciConfig + BitVec.ofNat 16 n)
    return Function.update mac n byte

namespace VirtioNetDevice

def virtioNetInit (devices : List PciDevice) (dev : VirtioNetDevice) : Ported (Int × VirtioNetDevice) :=
  match pciFindDevice devices pciVendorRedhat pciDeviceVirtioNet with
  | none => pure (-1, dev)
  | some pci => do
    let dev := { dev with pciDev := some pci }
    let bar0 := pci.bar 0
    if bar0 &&& 0x01#32 = 0#32 then return (-2, dev)
    let dev := { dev with ioBase := (bar0 &&& 0xFFFC#32).setWidth 16 }
    if dev.ioBase = 0#16 then return (-3, dev)
    pciEnableBusMaster pci
    virtioWrite8 dev.ioBase virtioPciStatus 0
    ioWait
    virtioWrite8 dev.ioBase virtioPciStatus virtioStatusAcknowledge
    ioWait
    virtioWrite8 dev.ioBase virtioPciStatus (virtioStatusAcknowledge ||| virtioStatusDriver)
    ioWait
    -- any features will do
    let _features ← virtioRead32 dev.ioBase virtioPciHostFeatures
    virtioWrite32 dev.ioBase virtioPciGuestFeatures virtioNetFMac
    ioWait
    let mac ← readMac dev.ioBase dev.mac 6
    let dev := { dev with mac := mac }
    virtioWrite8 dev.ioBase virtioPciStatus
      (virtioStatusAcknowledge ||| virtioStatusDriver ||| virtioStatusDriverOk)
    return (0, { dev with initialized := true })

/-- `virtio_net_dev` before anything has run: it is static, and all 0. The queues point nowhere; what is
there is `memory`. -/
def boot (memory : Virtqueue) (txBuffers : BitVec 64) (mem : ByteMemory) : VirtioNetDevice where
  toVirtioNet := .start false
    { memory with size := 0, freeHead := 0, numFree := 0, lastUsedIdx := 0 } txBuffers mem
  pciDev := none
  ioBase := 0
  mac _ := 0

/-- What `virtio_net_init` may have done to the device, by what it returned. -/
theorem always_virtioNetInit (devices : List PciDevice) (dev : VirtioNetDevice) :
    Always (fun r => r.2.toVirtioNet =
      { dev.toVirtioNet with initialized := dev.initialized || r.1 == 0 }) (virtioNetInit devices dev) := by
  have hfailed (dev' : VirtioNetDevice) (code : Int) (hcode : (code == 0) = false)
      (hsame : dev'.toVirtioNet = dev.toVirtioNet) : Always (fun r : Int × VirtioNetDevice =>
        r.2.toVirtioNet = { dev.toVirtioNet with initialized := dev.initialized || r.1 == 0 })
          (pure (code, dev')) := by
    apply always_pure
    rw [hsame, hcode, Bool.or_false]
  rw [virtioNetInit]
  split
  · exact hfailed dev (-1) rfl rfl
  · refine always_ite (fun _ => hfailed _ (-2) rfl rfl) fun _ => ?_
    refine always_ite (fun _ => hfailed _ (-3) rfl rfl) fun _ => ?_
    repeat refine always_bind fun _ => ?_
    apply always_pure
    simp

end VirtioNetDevice

end SimpleOs
