import SimpleOs.Mm.Pmm
import SimpleOs.Mm.Heap

/-!
# From the firmware to the kernel

`boot_kernel` of `boot/main.c` over an arbitrary firmware, and the memory phase of `kernel_main`. The
firmware is the four boot services called here, as functions of its own state and of memory, which
it shares with the bootloader.
-/

namespace SimpleOs

structure World (σ : Type) where
  firmware : σ
  mem : ByteMemory

structure MapReply (σ : Type) where
  status : Nat
  mmapSize : Nat
  mapKey : Nat
  descSize : Nat
  world : World σ

structure Firmware (σ : Type) where
  getMemoryMap (w : World σ) (mmapSize buffer : Nat) : MapReply σ
  allocatePool (w : World σ) (size : Nat) : Nat × Nat × World σ
  freePool (w : World σ) (buffer : Nat) : World σ
  exitBootServices (w : World σ) (mapKey : Nat) : Nat × World σ

def efiErrorMask : Nat := 0x8000000000000000

def efiBufferTooSmall : Nat := efiErrorMask + 5

/-- `EFI_ERROR(s)`: the status is negative as a signed word. -/
def EfiError (status : Nat) : Prop := efiErrorMask ≤ status

instance (status : Nat) : Decidable (EfiError status) := inferInstanceAs (Decidable (_ ≤ _))

inductive Outcome (σ : Type) where
  | returned (status : Nat) (w : World σ)
  | divideError (w : World σ)
  | entered (w : World σ) (info : BootInfo)

/-- The part of `prepare_kernel` that `kernel_main` checks. -/
def prepareKernel (info : BootInfo) : BootInfo :=
  { info with magic := bootInfoMagic, version := 1 }

def mapBufferSize {σ : Type} (r : MapReply σ) : Nat := wadd r.mmapSize (r.descSize * 16 % 2 ^ 64)

/-- The second attempt of `boot_kernel`, made when `ExitBootServices` has failed once. The buffer and
`mmap_entry_size` of the first attempt stay. -/
def retryExit {σ : Type} (fw : Firmware σ) (w : World σ) (info : BootInfo) : Outcome σ :=
  let r := fw.getMemoryMap w 0 0
  let r := fw.getMemoryMap r.world (mapBufferSize r) info.mmap
  if EfiError r.status then .returned r.status r.world
  else if r.descSize = 0 then .divideError r.world
  else
    let info := { info with mmapEntries := r.mmapSize / r.descSize }
    let (status, w) := fw.exitBootServices r.world r.mapKey
    if EfiError status then .returned status w else .entered w info

def bootKernel {σ : Type} (fw : Firmware σ) (w : World σ) (info : BootInfo) : Outcome σ :=
  let r := fw.getMemoryMap w 0 0
  if r.status ≠ efiBufferTooSmall then .returned r.status r.world
  else
    let size := mapBufferSize r
    let (status, mmap, w) := fw.allocatePool r.world size
    if EfiError status then .returned status w
    else
      let r := fw.getMemoryMap w size mmap
      if EfiError r.status then .returned r.status (fw.freePool r.world mmap)
      else if r.descSize = 0 then .divideError r.world
      else
        let info := { info with
          mmap := mmap
          mmapEntries := r.mmapSize / r.descSize
          mmapEntrySize := r.descSize }
        let (status, w) := fw.exitBootServices r.world r.mapKey
        if EfiError status then retryExit fw w info else .entered w info

structure KernelMemory where
  pmm : Pmm
  heap : Heap

def kernelHeapStart : Nat := 0x400000

def kernelHeapSize : Nat := 1024 * 1024

/-- `kernel_main` up to its memory phase, with its static variables cleared by `_start`; `none` when
it halts on a wrong magic number. -/
def kernelMain (mem : ByteMemory) (info : BootInfo) : Option KernelMemory :=
  if info.magic ≠ bootInfoMagic then none
  else
    some ⟨Pmm.pmmInit mem info.mmap info.mmapEntries ⟨fun _ => 0, 0, 0⟩,
      Heap.heapInit ⟨mem, 0, 0, 0⟩ kernelHeapStart kernelHeapSize⟩

end SimpleOs
