import SimpleOs.Lib.Word

/-!
# The kernel heap

`kernel/mm/heap.c`: first-fit allocation from a doubly linked list of blocks whose headers are stored
in the memory being handed out. Every field access is a read or a write of that memory, in the order
the source makes them, and all size and address arithmetic wraps at `2 ^ 64`. A null pointer is `0`.
-/

namespace SimpleOs

inductive Field where
  | size
  | free
  | next
  | prev
deriving Repr, DecidableEq

def Field.offset : Field → Nat
  | size => 0
  | free => 8
  | next => 16
  | prev => 24

/-- `free` is an `int`, the others are words. -/
def Field.width : Field → Nat
  | free => 4
  | _ => 8

def getField (m : ByteMemory) (block : Nat) (f : Field) : Nat :=
  m.read (block + f.offset) f.width

def setField (m : ByteMemory) (block : Nat) (f : Field) (v : Nat) : ByteMemory :=
  m.write (block + f.offset) f.width v

def headerSize : Nat := 32

def minBlockSize : Nat := headerSize + 16

@[simp] theorem headerSize_eq : headerSize = 32 := rfl

@[simp] theorem minBlockSize_eq : minBlockSize = 48 := rfl

def alignSize (size : Nat) : Nat := alignDown (wadd size 7)

/-- The static variables of `heap.c` and the memory they point into. -/
structure Heap where
  mem : ByteMemory
  heapStart : Nat
  heapTotalSize : Nat
  heapUsedSize : Nat

namespace Heap

def heapInit (h : Heap) (start size : Nat) : Heap :=
  if start = 0 ∨ size < minBlockSize then h
  else
    let alignedStart := alignDown (wadd start 7)
    let size := alignDown (wsub size (wsub alignedStart start))
    let m := setField h.mem alignedStart .size (wsub size headerSize)
    let m := setField m alignedStart .free 1
    let m := setField m alignedStart .next 0
    let m := setField m alignedStart .prev 0
    ⟨m, alignedStart, size, 0⟩

/-- The loop of `find_free_block`; the outer `none` is a search that never ends. -/
def findFreeBlockFrom (m : ByteMemory) (size : Nat) : Nat → Nat → Option Nat
  | 0, _ => none
  | fuel + 1, current =>
      if current = 0 then some 0
      else if getField m current .free ≠ 0 ∧ size ≤ getField m current .size then some current
      else findFreeBlockFrom m size fuel (getField m current .next)

/-- There are fewer than `2 ^ 64` block addresses, so a search of that many steps is in a cycle. -/
def findFreeBlock (h : Heap) (size : Nat) : Option Nat :=
  findFreeBlockFrom h.mem size (2 ^ 64) h.heapStart

def relinkPrev (m : ByteMemory) (block v : Nat) : ByteMemory :=
  if block ≠ 0 then setField m block .prev v else m

def splitBlock (m : ByteMemory) (block size : Nat) : ByteMemory :=
  if getField m block .size < wadd size minBlockSize then m
  else
    let newBlock := wadd (wadd block headerSize) size
    let m := setField m newBlock .size (wsub (wsub (getField m block .size) size) headerSize)
    let m := setField m newBlock .free 1
    let m := setField m newBlock .next (getField m block .next)
    let m := setField m newBlock .prev block
    let m := relinkPrev m (getField m block .next) newBlock
    let m := setField m block .size size
    setField m block .next newBlock

/-- The first half of `coalesce_blocks`: absorb the next block if it is free. -/
def coalesceNext (m : ByteMemory) (block : Nat) : ByteMemory :=
  if getField m block .next ≠ 0 ∧ getField m (getField m block .next) .free ≠ 0 then
    let m := setField m block .size (wadd (getField m block .size)
      (wadd headerSize (getField m (getField m block .next) .size)))
    let m := setField m block .next (getField m (getField m block .next) .next)
    relinkPrev m (getField m block .next) block
  else m

/-- The second half: let the previous block absorb this one if it is free. -/
def coalescePrev (m : ByteMemory) (block : Nat) : ByteMemory :=
  if getField m block .prev ≠ 0 ∧ getField m (getField m block .prev) .free ≠ 0 then
    let m := setField m (getField m block .prev) .size
      (wadd (getField m (getField m block .prev) .size)
        (wadd headerSize (getField m block .size)))
    let m := setField m (getField m block .prev) .next (getField m block .next)
    relinkPrev m (getField m block .next) (getField m block .prev)
  else m

def coalesceBlocks (m : ByteMemory) (block : Nat) : ByteMemory :=
  coalescePrev (coalesceNext m block) block

/-- `none` when the search for a block never ends. -/
def kmalloc (h : Heap) (size : Nat) : Option (Nat × Heap) :=
  if size = 0 then some (0, h)
  else
    (h.findFreeBlock (alignSize size)).map fun block =>
      if block = 0 then (0, h)
      else
        let m := splitBlock h.mem block (alignSize size)
        let m := setField m block .free 0
        (wadd block headerSize,
          { h with
            mem := m
            heapUsedSize := wadd h.heapUsedSize (wadd (getField m block .size) headerSize) })

/-- `(ptr + align - 1) & ~(align - 1)`. -/
def alignUp (align ptr : Nat) : Nat := clearBelow align (wsub (wadd ptr align) 1)

def kmallocAligned (h : Heap) (size align : Nat) : Option (Nat × Heap) :=
  let align := if align < 8 then 8 else align
  if align &&& (align - 1) ≠ 0 then some (0, h)
  else
    (h.kmalloc (wadd (wadd size align) headerSize)).map fun result =>
      if result.1 = 0 then result
      else
        let alignedPtr := alignUp align result.1
        (alignedPtr,
          { result.2 with mem := result.2.mem.write (wsub alignedPtr 8) 8 result.1 })

def kfree (h : Heap) (ptr : Nat) : Heap :=
  if ptr = 0 then h
  else
    let block := wsub ptr headerSize
    if getField h.mem block .free ≠ 0 then h
    else
      let m := setField h.mem block .free 1
      { h with
        mem := coalesceBlocks m block
        heapUsedSize := wsub h.heapUsedSize (wadd (getField m block .size) headerSize) }

def copyBytes (m : ByteMemory) (dst src i : Nat) : Nat → ByteMemory
  | 0 => m
  | n + 1 =>
      copyBytes (Function.update m ((dst + i) % 2 ^ 64) (m ((src + i) % 2 ^ 64)))
        dst src (i + 1) n

def CanExpand (m : ByteMemory) (block size : Nat) : Prop :=
  getField m block .next ≠ 0 ∧ getField m (getField m block .next) .free ≠ 0 ∧
    size ≤ wadd (wadd (getField m block .size) headerSize)
      (getField m (getField m block .next) .size)

instance (m : ByteMemory) (block size : Nat) : Decidable (CanExpand m block size) :=
  inferInstanceAs (Decidable (_ ∧ _))

def krealloc (h : Heap) (ptr size : Nat) : Option (Nat × Heap) :=
  if ptr = 0 then h.kmalloc size
  else if size = 0 then some (0, h.kfree ptr)
  else
    let block := wsub ptr headerSize
    let oldSize := getField h.mem block .size
    let size := alignSize size
    if size ≤ oldSize then some (ptr, { h with mem := splitBlock h.mem block size })
    else if CanExpand h.mem block size then
      let m := setField h.mem (getField h.mem block .next) .free 0
      let m := setField m block .size size
      some (ptr, { h with mem := splitBlock m block size })
    else
      (h.kmalloc size).map fun result =>
        if result.1 = 0 then result
        else
          let copySize := if oldSize < size then oldSize else size
          (result.1,
            kfree { result.2 with mem := copyBytes result.2.mem result.1 ptr 0 copySize } ptr)

def kmallocSize (h : Heap) (ptr : Nat) : Nat :=
  if ptr = 0 then 0 else getField h.mem (wsub ptr headerSize) .size

def heapGetTotalSize (h : Heap) : Nat := h.heapTotalSize

def heapGetUsedSize (h : Heap) : Nat := h.heapUsedSize

def heapGetFreeSize (h : Heap) : Nat := wsub h.heapTotalSize h.heapUsedSize

end Heap

end SimpleOs
