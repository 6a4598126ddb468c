import SimpleOs.Lib.ByteMemory

/-!
# What the bootloader hands to the kernel

The memory map entry of `include/bootinfo.h` and its layout in memory. Both programs include that
header: the bootloader stores the firmware's buffer through a `memory_map_entry_t` pointer and the
kernel indexes that pointer as an array.
-/

namespace SimpleOs

structure MemoryMapEntry where
  type : Nat
  pad : Nat
  physicalStart : Nat
  virtualStart : Nat
  numPages : Nat
  attributes : Nat
deriving Repr, DecidableEq

def memoryBootCode : Nat := 3
def memoryBootData : Nat := 4
def memoryConventional : Nat := 7

/-- `sizeof(memory_map_entry_t)`, the stride of C array indexing. -/
def memoryMapEntrySize : Nat := 40

def MemoryMapEntry.load (mem : ByteMemory) (a : Nat) : MemoryMapEntry where
  type := mem.read a 4
  pad := mem.read (a + 4) 4
  physicalStart := mem.read (a + 8) 8
  virtualStart := mem.read (a + 16) 8
  numPages := mem.read (a + 24) 8
  attributes := mem.read (a + 32) 8

/-- The C expression `mmap[i]`. -/
def memoryMapIndex (mem : ByteMemory) (mmap i : Nat) : MemoryMapEntry :=
  MemoryMapEntry.load mem (mmap + memoryMapEntrySize * i)

def MemoryMapEntry.Usable (e : MemoryMapEntry) : Prop :=
  e.type = memoryConventional ∨ e.type = memoryBootCode ∨ e.type = memoryBootData

instance (e : MemoryMapEntry) : Decidable e.Usable :=
  inferInstanceAs (Decidable (_ ∨ _))

def MemoryMapEntry.Covers (e : MemoryMapEntry) (p : Nat) : Prop :=
  e.physicalStart / 4096 ≤ p ∧ p < e.physicalStart / 4096 + e.numPages

instance (e : MemoryMapEntry) (p : Nat) : Decidable (e.Covers p) :=
  inferInstanceAs (Decidable (_ ∧ _))

def oneRegion (mmap start pages : Nat) : ByteMemory :=
  ((ByteMemory.zero.write mmap 4 memoryConventional).write (mmap + 8) 8 start).write
    (mmap + 24) 8 pages

section OneRegion

variable {a x start pages : Nat}

theorem load_oneRegion (ha : a + 40 ≤ 2 ^ 64) (hstart : start < 2 ^ 64) (hpages : pages < 2 ^ 64) :
    (MemoryMapEntry.load (oneRegion a start pages) a).type = memoryConventional ∧
      (MemoryMapEntry.load (oneRegion a start pages) a).physicalStart = start ∧
      (MemoryMapEntry.load (oneRegion a start pages) a).numPages = pages := by
  refine ⟨?_, ?_, ?_⟩
  · change (oneRegion a start pages).read a 4 = _
    rw [oneRegion, ByteMemory.read_write_of_apart
      (ByteMemory.apart_of_le (by omega) (by omega) (by omega)), ByteMemory.read_write_of_apart
      (ByteMemory.apart_of_le (by omega) (by omega) (by omega)),
      ByteMemory.read_write_self (by decide)]
    rfl
  · change (oneRegion a start pages).read (a + 8) 8 = _
    rw [oneRegion, ByteMemory.read_write_of_apart
      (ByteMemory.apart_of_le (by omega) (by omega) (by omega)),
      ByteMemory.read_write_self (by decide), Nat.mod_eq_of_lt (hstart.trans_le (by decide))]
  · change (oneRegion a start pages).read (a + 24) 8 = _
    rw [oneRegion, ByteMemory.read_write_self (by decide),
      Nat.mod_eq_of_lt (hpages.trans_le (by decide))]

theorem oneRegion_before (ha : a + 40 ≤ 2 ^ 64) (hx : x < a) : oneRegion a start pages x = 0 := by
  have hout : ∀ off n, off + n ≤ 40 → ∀ i < n, (a + off + i) % 2 ^ 64 ≠ x := by
    intro off n hle i hi
    rw [Nat.mod_eq_of_lt (by omega)]
    omega
  rw [oneRegion, ByteMemory.write_apply_of_outside (hout 24 8 (by decide)),
    ByteMemory.write_apply_of_outside (hout 8 8 (by decide))]
  exact ByteMemory.write_apply_of_outside (hout 0 4 (by decide))

end OneRegion

/-- `boot_info_t`, with the fields `kernel_main` checks and passes to `pmm_init`. -/
structure BootInfo where
  magic : Nat
  version : Nat
  mmapEntries : Nat
  mmapEntrySize : Nat
  mmap : Nat
deriving Repr, DecidableEq

def bootInfoMagic : Nat := 0x53494D504C454F53

end SimpleOs
