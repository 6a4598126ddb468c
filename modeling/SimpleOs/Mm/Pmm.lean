import SimpleOs.BootInfo

/-!
# The physical memory manager

`kernel/mm/pmm.c`: one bit per 4 KiB page of the first 256 MiB, set when the page is used. Page
numbers and addresses never leave the 64-bit range here (a page number is an address divided by
4096), so they are natural numbers; the two counters wrap and are words.
-/

namespace SimpleOs

def pageSize : Nat := 4096

def pmmMaxMemory : Nat := 256 * 1024 * 1024

def pmmMaxPages : Nat := pmmMaxMemory / pageSize

def pmmBitmapSize : Nat := pmmMaxPages / 8

def pmmFirstPage : Nat := 2 * 1024 * 1024 / pageSize

@[simp] theorem pageSize_eq : pageSize = 4096 := rfl

@[simp] theorem pmmMaxPages_eq : pmmMaxPages = 65536 := rfl

@[simp] theorem pmmBitmapSize_eq : pmmBitmapSize = 8192 := rfl

@[simp] theorem pmmFirstPage_eq : pmmFirstPage = 512 := rfl

/-- The static variables of `pmm.c`. -/
structure Pmm where
  bitmap : Nat → BitVec 8
  totalPages : BitVec 64
  usedPages : BitVec 64

namespace Pmm

def bitmapSet (s : Pmm) (page : Nat) : Pmm :=
  if page < pmmMaxPages then
    { s with
      bitmap := Function.update s.bitmap (page / 8)
        (s.bitmap (page / 8) ||| 1#8 <<< (page % 8)) }
  else s

def bitmapClear (s : Pmm) (page : Nat) : Pmm :=
  if page < pmmMaxPages then
    { s with
      bitmap := Function.update s.bitmap (page / 8)
        (s.bitmap (page / 8) &&& ~~~(1#8 <<< (page % 8))) }
  else s

def bitmapTest (s : Pmm) (page : Nat) : Bool :=
  if page < pmmMaxPages then (s.bitmap (page / 8)).getLsbD (page % 8) else true

def markUsed (s : Pmm) (page : Nat) : Pmm :=
  { s.bitmapSet page with usedPages := s.usedPages + 1 }

/-- The body of every freeing loop: clear the bit if it is set and count the page. -/
def release (s : Pmm) (page : Nat) : Pmm :=
  if s.bitmapTest page then { s.bitmapClear page with usedPages := s.usedPages - 1 } else s

/-- `for (j = 0; j < count && start + j < PMM_MAX_PAGES; j++)` over `release`. -/
def releaseRange (s : Pmm) (start : Nat) : Nat → Pmm
  | 0 => s
  | count + 1 =>
      if start < pmmMaxPages then releaseRange (s.release start) (start + 1) count else s

def addRegion (s : Pmm) (e : MemoryMapEntry) : Pmm :=
  if e.Usable then
    let numPages := if e.numPages > pmmMaxPages then pmmMaxPages else e.numPages
    s.releaseRange (e.physicalStart / pageSize) numPages
  else s

def reserveRange (s : Pmm) (page : Nat) : Nat → Pmm
  | 0 => s
  | count + 1 =>
      reserveRange (if s.bitmapTest page then s else s.markUsed page) (page + 1) count

def allUsed (s : Pmm) : Pmm where
  bitmap i := if i < pmmBitmapSize then 0xFF#8 else s.bitmap i
  totalPages := BitVec.ofNat 64 pmmMaxPages
  usedPages := BitVec.ofNat 64 pmmMaxPages

def Accepts (mmap entries : Nat) : Prop :=
  mmap ≠ 0 ∧ entries ≠ 0 ∧ entries ≤ 256

instance (mmap entries : Nat) : Decidable (Accepts mmap entries) :=
  inferInstanceAs (Decidable (_ ∧ _))

def memoryMap (mem : ByteMemory) (mmap entries : Nat) : List MemoryMapEntry :=
  (List.range entries).map (memoryMapIndex mem mmap)

def pmmInit (mem : ByteMemory) (mmap entries : Nat) (s : Pmm) : Pmm :=
  if Accepts mmap entries then
    ((memoryMap mem mmap entries).foldl addRegion s.allUsed).reserveRange 0 pmmFirstPage
  else { s with totalPages := 0, usedPages := 0 }

def allocPageFrom (s : Pmm) (page : Nat) : Nat → Option Nat × Pmm
  | 0 => (none, s)
  | count + 1 =>
      if s.bitmapTest page then allocPageFrom s (page + 1) count
      else (some (page * pageSize), s.markUsed page)

def pmmAllocPage (s : Pmm) : Option Nat × Pmm :=
  s.allocPageFrom pmmFirstPage (pmmMaxPages - pmmFirstPage)

def pmmFreePage (s : Pmm) (addr : Nat) : Pmm :=
  if addr / pageSize < pmmMaxPages then s.release (addr / pageSize) else s

/-- The inner loop of `pmm_alloc_pages`: the first `i` with page `start + i` used. -/
def firstUsed (s : Pmm) (start i : Nat) : Nat → Option Nat
  | 0 => none
  | count + 1 => if s.bitmapTest (start + i) then some i else firstUsed s start (i + 1) count

def markRange (s : Pmm) (start : Nat) : Nat → Pmm
  | 0 => s
  | count + 1 => markRange (s.markUsed start) (start + 1) count

/-- The outer loop of `pmm_alloc_pages`. A used page at `start + i` moves the search past it. -/
def allocPagesFrom (s : Pmm) (count : Nat) : Nat → Nat → Option Nat × Pmm
  | 0, _ => (none, s)
  | fuel + 1, start =>
      if start + count ≤ pmmMaxPages then
        match s.firstUsed start 0 count with
        | none => (some (start * pageSize), s.markRange start count)
        | some i => allocPagesFrom s count fuel (start + i + 1)
      else (none, s)

/-- Each turn of the outer loop moves `start` up, so `PMM_MAX_PAGES` turns are enough. -/
def pmmAllocPages (s : Pmm) (count : Nat) : Option Nat × Pmm :=
  if count = 0 ∨ count > 256 then (none, s)
  else s.allocPagesFrom count pmmMaxPages pmmFirstPage

def pmmFreePages (s : Pmm) (addr count : Nat) : Pmm :=
  s.releaseRange (addr / pageSize) count

def pmmGetTotalPages (s : Pmm) : BitVec 64 := s.totalPages

def pmmGetFreePages (s : Pmm) : BitVec 64 :=
  if s.totalPages > s.usedPages then s.totalPages - s.usedPages else 0

def pmmGetUsedPages (s : Pmm) : BitVec 64 := s.usedPages

end Pmm

end SimpleOs
