import SimpleOs.Drivers.VirtioNetInit

/-!
# Scanning the PCI bus

`pci_enumerate` of `kernel/pci.h` and what it calls. The part of `pci_devices` that is filled is a list, so
that its length is `pci_device_count`.
-/

namespace SimpleOs

open Ported

def pciVendorId : BitVec 8 := 0x00
def pciDeviceId : BitVec 8 := 0x02
def pciRevisionId : BitVec 8 := 0x08
def pciProgIf : BitVec 8 := 0x09
def pciSubclass : BitVec 8 := 0x0A
def pciClass : BitVec 8 := 0x0B
def pciHeaderType : BitVec 8 := 0x0E
def pciBar0 : BitVec 8 := 0x10
def pciInterruptLine : BitVec 8 := 0x3C
def pciInterruptPin : BitVec 8 := 0x3D

def pciMaxDevices : Nat := 32

/-- `pci_device_t`, with the fields that nothing but `pci_get_device_info` uses. -/
structure PciInfo extends PciDevice where
  classCode : BitVec 8
  subclass : BitVec 8
  progIf : BitVec 8
  revision : BitVec 8
  interruptLine : BitVec 8
  interruptPin : BitVec 8
  valid : Bool

def pciRead32 (bus device func offset : BitVec 8) : Ported (BitVec 32) := do
  outl pciConfigAddr (pciAddress bus device func offset)
  inl pciConfigData

def pciRead8 (bus device func offset : BitVec 8) : Ported (BitVec 8) := do
  outl pciConfigAddr (pciAddress bus device func offset)
  let value ← inl pciConfigData
  return (value >>> ((offset &&& 3#8).toNat * 8)).setWidth 8

def pciDeviceExists (bus device func : BitVec 8) : Ported Bool := do
  let vendor ← pciRead16 bus device func pciVendorId
  return vendor ≠ 0xFFFF#16

/-- The first `n` BARs. -/
def readBars (bus device func : BitVec 8) : Nat → Ported (Nat → BitVec 32)
  | 0 => pure fun _ => 0
  | n + 1 => do
    let bar ← readBars bus device func n
    let value ← pciRead32 bus device func (pciBar0 + BitVec.ofNat 8 (n * 4))
    return Function.update bar n value

def pciGetDeviceInfo (bus device func : BitVec 8) : Ported PciInfo := do
  let vendorId ← pciRead16 bus device func pciVendorId
  let deviceId ← pciRead16 bus device func pciDeviceId
  let classCode ← pciRead8 bus device func pciClass
  let subclass ← pciRead8 bus device func pciSubclass
  let progIf ← pciRead8 bus device func pciProgIf
  let revision ← pciRead8 bus device func pciRevisionId
  let interruptLine ← pciRead8 bus device func pciInterruptLine
  let interruptPin ← pciRead8 bus device func pciInterruptPin
  let bar ← readBars bus device func 6
  return ⟨⟨bus, device, func, vendorId, deviceId, bar⟩, classCode, subclass, progIf, revision,
    interruptLine, interruptPin, true⟩

/-! ### The loops

A turn that finds `pci_devices` full does nothing: that is where the loops end. -/

def scanFunction (bus device : BitVec 8) (devices : List PciInfo) (func : Nat) : Ported (List PciInfo) :=
  if devices.length < pciMaxDevices then do
    let absent : Bool ←
      (if 0 < func then (!·) <$> pciDeviceExists bus device (BitVec.ofNat 8 func) else pure false)
    if absent then return devices
    let info ← pciGetDeviceInfo bus device (BitVec.ofNat 8 func)
    return devices ++ [info]
  else pure devices

def scanDevice (bus : BitVec 8) (devices : List PciInfo) (device : Nat) : Ported (List PciInfo) :=
  if devices.length < pciMaxDevices then do
    let present ← pciDeviceExists bus (BitVec.ofNat 8 device) 0
    if !present then return devices
    let header ← pciRead8 bus (BitVec.ofNat 8 device) 0 pciHeaderType
    let maxFunc := if header &&& 0x80#8 ≠ 0#8 then 8 else 1
    (List.range maxFunc).foldlM (scanFunction bus (BitVec.ofNat 8 device)) devices
  else pure devices

def scanBus (devices : List PciInfo) (bus : Nat) : Ported (List PciInfo) :=
  if devices.length < pciMaxDevices then (List.range 32).foldlM (scanDevice (BitVec.ofNat 8 bus)) devices
  else pure devices

def pciEnumerate : Ported (List PciInfo) := (List.range 1).foldlM scanBus []

end SimpleOs
