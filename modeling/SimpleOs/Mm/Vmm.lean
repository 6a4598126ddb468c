import SimpleOs.Lib.X86
import SimpleOs.Mm.Pmm

/-!
# The virtual memory manager

`kernel/mm/vmm.c`: four levels of page tables of 512 words each, in the memory they map and reached by
their physical addresses. TLB invalidation has no effect on tables and is left out.
-/

namespace SimpleOs

open X86 (Word load store)

def vmmPresent : Word := 1#64
def vmmWritable : Word := 2#64
def vmmUser : Word := 4#64
def vmmPwt : Word := 8#64
def vmmPcd : Word := 0x10#64
def vmmAccessed : Word := 0x20#64
def vmmDirty : Word := 0x40#64
def vmmHuge : Word := 0x80#64
def vmmGlobal : Word := 0x100#64
def vmmNx : Word := 0x8000000000000000#64

def frameMask : Word := ~~~0xFFF#64

def pml4Index (virt : Word) : Word := (virt >>> 39) &&& 0x1FF#64
def pdptIndex (virt : Word) : Word := (virt >>> 30) &&& 0x1FF#64
def pdIndex (virt : Word) : Word := (virt >>> 21) &&& 0x1FF#64
def ptIndex (virt : Word) : Word := (virt >>> 12) &&& 0x1FF#64

def entryAddr (table i : Word) : Word := table + 8#64 * i

/-- Memory, the page allocator and `kernel_pml4`; null is 0. -/
structure Vmm where
  mem : ByteMemory
  pmm : Pmm
  kernelPml4 : Word

namespace Vmm

def clearEntries (m : ByteMemory) (table : Word) (i : Nat) : Nat → ByteMemory
  | 0 => m
  | n + 1 => clearEntries (store m (entryAddr table (BitVec.ofNat 64 i)) 0) table (i + 1) n

def allocPageTable (v : Vmm) : Option Word × Vmm :=
  match v.pmm.pmmAllocPage with
  | (none, pmm) => (none, { v with pmm := pmm })
  | (some page, pmm) =>
      (some (BitVec.ofNat 64 page),
        { v with mem := clearEntries v.mem (BitVec.ofNat 64 page) 0 512, pmm := pmm })

/-- One level of `vmm_get_or_create_entry`: the table behind entry `i` of `table`, made if the entry
is not present. -/
def nextTable (v : Vmm) (table i : Word) : Option Word × Vmm :=
  let entry := load v.mem (entryAddr table i)
  if entry &&& vmmPresent = 0 then
    match v.allocPageTable with
    | (none, v) => (none, v)
    | (some page, v) =>
        (some page,
          { v with mem := store v.mem (entryAddr table i) (page ||| vmmPresent ||| vmmWritable) })
  else (some (entry &&& frameMask), v)

/-- The address of the last-level entry of `virt`; a failure keeps the tables made so far. -/
def getOrCreateEntry (v : Vmm) (virt : Word) : Option Word × Vmm :=
  if v.kernelPml4 = 0 then (none, v)
  else
    match v.nextTable v.kernelPml4 (pml4Index virt) with
    | (none, v) => (none, v)
    | (some pdpt, v) =>
        match v.nextTable pdpt (pdptIndex virt) with
        | (none, v) => (none, v)
        | (some pd, v) =>
            match v.nextTable pd (pdIndex virt) with
            | (none, v) => (none, v)
            | (some pt, v) => (some (entryAddr pt (ptIndex virt)), v)

/-- `vmm_init`, with CR3 before and after it; `none` when it halts because there is no page left. -/
def vmmInit (mem : ByteMemory) (pmm : Pmm) (cr3 : Word) : Option (Vmm × Word) :=
  if cr3 ≠ 0 then some (⟨mem, pmm, cr3⟩, cr3)
  else
    match pmm.pmmAllocPage with
    | (none, _) => none
    | (some page, pmm) =>
        let pml4 := BitVec.ofNat 64 page
        some (⟨clearEntries mem pml4 0 512, pmm, pml4⟩, pml4)

def vmmMapPage (v : Vmm) (virt phys flags : Word) : Vmm :=
  match v.getOrCreateEntry virt with
  | (none, v) => v
  | (some entry, v) =>
      { v with mem := store v.mem entry ((phys &&& frameMask) ||| flags ||| vmmPresent) }

def vmmUnmapPage (v : Vmm) (virt : Word) : Vmm :=
  match v.getOrCreateEntry virt with
  | (none, v) => v
  | (some entry, v) => { v with mem := store v.mem entry 0 }

def follow (m : ByteMemory) (table i : Word) : Option Word :=
  if load m (entryAddr table i) &&& vmmPresent = 0 then none
  else some (load m (entryAddr table i) &&& frameMask)

def vmmGetPhysical (v : Vmm) (virt : Word) : Word :=
  if v.kernelPml4 = 0 then 0
  else
    match follow v.mem v.kernelPml4 (pml4Index virt) with
    | none => 0
    | some pdpt =>
        match follow v.mem pdpt (pdptIndex virt) with
        | none => 0
        | some pd =>
            match follow v.mem pd (pdIndex virt) with
            | none => 0
            | some pt =>
                match follow v.mem pt (ptIndex virt) with
                | none => 0
                | some frame => frame ||| (virt &&& 0xFFF#64)

/-- The copy of `n` entries from entry `i` on. -/
def copyEntries (m : ByteMemory) (dst src : Word) (i : Nat) : Nat → ByteMemory
  | 0 => m
  | n + 1 =>
      copyEntries
        (store m (entryAddr dst (BitVec.ofNat 64 i)) (load m (entryAddr src (BitVec.ofNat 64 i))))
        dst src (i + 1) n

def vmmCreateAddressSpace (v : Vmm) : Option Word × Vmm :=
  match v.pmm.pmmAllocPage with
  | (none, pmm) => (none, { v with pmm := pmm })
  | (some page, pmm) =>
      let pml4 := BitVec.ofNat 64 page
      let mem := clearEntries v.mem pml4 0 512
      (some pml4,
        { v with
          mem := if v.kernelPml4 = 0 then mem else copyEntries mem pml4 v.kernelPml4 256 256
          pmm := pmm })

/-- The loop of `vmm_destroy_address_space` over the `n` entries from `i` on. -/
def clearPresent (m : ByteMemory) (pml4 : Word) (i : Nat) : Nat → ByteMemory
  | 0 => m
  | n + 1 =>
      let a := entryAddr pml4 (BitVec.ofNat 64 i)
      clearPresent (if load m a &&& vmmPresent ≠ 0 then store m a 0 else m) pml4 (i + 1) n

def vmmDestroyAddressSpace (v : Vmm) (pml4 : Word) : Vmm :=
  if pml4 = 0 then v
  else
    { v with
      mem := clearPresent v.mem pml4 0 256
      pmm := v.pmm.pmmFreePage pml4.toNat }

end Vmm

end SimpleOs
