import SimpleOs.Lib.Delivery

/-!
# Interrupt stubs

The stubs of `kernel/cpu/isr.S` and the table of `kernel/cpu/idt.c` that leads to them. `isr num` is the
address of the symbol `isr<num>`.
-/

namespace SimpleOs

open X86

/-- `interrupt_frame_t`. -/
structure InterruptFrame where
  r15 : Word
  r14 : Word
  r13 : Word
  r12 : Word
  r11 : Word
  r10 : Word
  r9 : Word
  r8 : Word
  rbp : Word
  rdi : Word
  rsi : Word
  rdx : Word
  rcx : Word
  rbx : Word
  rax : Word
  interruptNumber : Word
  errorCode : Word
  rip : Word
  cs : Word
  rflags : Word
  rsp : Word
  ss : Word
deriving Repr, DecidableEq

/-- The frame that a pointer points to. -/
def InterruptFrame.load (m : ByteMemory) (frame : Word) : InterruptFrame where
  r15 := X86.load m frame
  r14 := X86.load m (frame + 8#64)
  r13 := X86.load m (frame + 16#64)
  r12 := X86.load m (frame + 24#64)
  r11 := X86.load m (frame + 32#64)
  r10 := X86.load m (frame + 40#64)
  r9 := X86.load m (frame + 48#64)
  r8 := X86.load m (frame + 56#64)
  rbp := X86.load m (frame + 64#64)
  rdi := X86.load m (frame + 72#64)
  rsi := X86.load m (frame + 80#64)
  rdx := X86.load m (frame + 88#64)
  rcx := X86.load m (frame + 96#64)
  rbx := X86.load m (frame + 104#64)
  rax := X86.load m (frame + 112#64)
  interruptNumber := X86.load m (frame + 120#64)
  errorCode := X86.load m (frame + 128#64)
  rip := X86.load m (frame + 136#64)
  cs := X86.load m (frame + 144#64)
  rflags := X86.load m (frame + 152#64)
  rsp := X86.load m (frame + 160#64)
  ss := X86.load m (frame + 168#64)

/-- `isr_common_stub` up to its `iretq`; `next` is the address after the call. -/
def isrCommonStub (next : Word) : List Instr :=
  [.push .rax,
   .push .rbx,
   .push .rcx,
   .push .rdx,
   .push .rsi,
   .push .rdi,
   .push .rbp,
   .push .r8,
   .push .r9,
   .push .r10,
   .push .r11,
   .push .r12,
   .push .r13,
   .push .r14,
   .push .r15,
   .subImm 8 .rsp,
   .lea 8 .rsp .rdi,
   .call next,
   .addImm 8 .rsp,
   .pop .r15,
   .pop .r14,
   .pop .r13,
   .pop .r12,
   .pop .r11,
   .pop .r10,
   .pop .r9,
   .pop .r8,
   .pop .rbp,
   .pop .rdi,
   .pop .rsi,
   .pop .rdx,
   .pop .rcx,
   .pop .rbx,
   .pop .rax,
   .addImm 16 .rsp]

def isrNoErrCode (next : Word) (num : Nat) : List Instr :=
  .pushImm 0#64 :: .pushImm (BitVec.ofNat 64 num) :: isrCommonStub next

def isrErrCode (next : Word) (num : Nat) : List Instr :=
  .pushImm (BitVec.ofNat 64 num) :: isrCommonStub next

/-- The numbers with which `isr.S` uses `ISR_NOERRCODE`. -/
def noErrCodeStubs : List Nat :=
  [0, 1, 2, 3, 4, 5, 6, 7, 9, 15, 16, 17, 18, 19, 20,
   32, 33, 34, 35, 36, 37, 38, 39, 40, 41, 42, 43, 44, 45, 46, 47]

def errCodeStubs : List Nat := [8, 10, 11, 12, 13, 14]

/-- The code at the symbol `isr<num>`. -/
def isrStub (next : Word) (num : Nat) : Option (List Instr) :=
  if num ∈ errCodeStubs then some (isrErrCode next num)
  else if num ∈ noErrCodeStubs then some (isrNoErrCode next num)
  else none

/-- `idt_entry_t`. -/
structure IdtEntry where
  offsetLow : BitVec 16
  selector : BitVec 16
  ist : BitVec 8
  typeAttr : BitVec 8
  offsetMid : BitVec 16
  offsetHigh : BitVec 32
  reserved : BitVec 32
deriving Repr, DecidableEq

abbrev Idt := BitVec 8 → IdtEntry

def idtEntry (handler : Word) (selector : BitVec 16) (typeAttr : BitVec 8) : IdtEntry where
  offsetLow := (handler &&& 0xFFFF#64).setWidth 16
  offsetMid := ((handler >>> 16) &&& 0xFFFF#64).setWidth 16
  offsetHigh := ((handler >>> 32) &&& 0xFFFFFFFF#64).setWidth 32
  selector := selector
  ist := 0
  typeAttr := typeAttr
  reserved := 0

def idtSetEntry (idt : Idt) (num : BitVec 8) (handler : Word) (selector : BitVec 16)
    (typeAttr : BitVec 8) : Idt :=
  Function.update idt num (idtEntry handler selector typeAttr)

def idtTypeInterrupt : BitVec 8 := 0x8E
def idtTypeTrap : BitVec 8 := 0x8F
def idtPresent : BitVec 8 := 0x80
def idtDpl0 : BitVec 8 := 0x00
def idtDpl3 : BitVec 8 := 0x60

/-- The vectors that `idt_init` sets up, with the number of the stub and the attributes. `irq<i>` is
another name of `isr<32 + i>`. -/
def idtGates : List (BitVec 8 × Nat × BitVec 8) :=
  [(0, 0, idtTypeInterrupt ||| idtPresent ||| idtDpl0),
   (1, 1, idtTypeInterrupt ||| idtPresent ||| idtDpl0),
   (2, 2, idtTypeInterrupt ||| idtPresent ||| idtDpl0),
   (3, 3, idtTypeTrap ||| idtPresent ||| idtDpl3),
   (4, 4, idtTypeTrap ||| idtPresent ||| idtDpl3),
   (5, 5, idtTypeInterrupt ||| idtPresent ||| idtDpl0),
   (6, 6, idtTypeInterrupt ||| idtPresent ||| idtDpl0),
   (7, 7, idtTypeInterrupt ||| idtPresent ||| idtDpl0),
   (8, 8, idtTypeInterrupt ||| idtPresent ||| idtDpl0),
   (10, 10, idtTypeInterrupt ||| idtPresent ||| idtDpl0),
   (11, 11, idtTypeInterrupt ||| idtPresent ||| idtDpl0),
   (12, 12, idtTypeInterrupt ||| idtPresent ||| idtDpl0),
   (13, 13, idtTypeInterrupt ||| idtPresent ||| idtDpl0),
   (14, 14, idtTypeInterrupt ||| idtPresent ||| idtDpl0),
   (16, 16, idtTypeInterrupt ||| idtPresent ||| idtDpl0),
   (17, 17, idtTypeInterrupt ||| idtPresent ||| idtDpl0),
   (18, 18, idtTypeInterrupt ||| idtPresent ||| idtDpl0),
   (19, 19, idtTypeInterrupt ||| idtPresent ||| idtDpl0),
   (20, 20, idtTypeInterrupt ||| idtPresent ||| idtDpl0),
   (32, 32, idtTypeInterrupt ||| idtPresent ||| idtDpl0),
   (33, 33, idtTypeInterrupt ||| idtPresent ||| idtDpl0),
   (34, 34, idtTypeInterrupt ||| idtPresent ||| idtDpl0),
   (35, 35, idtTypeInterrupt ||| idtPresent ||| idtDpl0),
   (36, 36, idtTypeInterrupt ||| idtPresent ||| idtDpl0),
   (37, 37, idtTypeInterrupt ||| idtPresent ||| idtDpl0),
   (38, 38, idtTypeInterrupt ||| idtPresent ||| idtDpl0),
   (39, 39, idtTypeInterrupt ||| idtPresent ||| idtDpl0),
   (40, 40, idtTypeInterrupt ||| idtPresent ||| idtDpl0),
   (41, 41, idtTypeInterrupt ||| idtPresent ||| idtDpl0),
   (42, 42, idtTypeInterrupt ||| idtPresent ||| idtDpl0),
   (43, 43, idtTypeInterrupt ||| idtPresent ||| idtDpl0),
   (44, 44, idtTypeInterrupt ||| idtPresent ||| idtDpl0),
   (45, 45, idtTypeInterrupt ||| idtPresent ||| idtDpl0),
   (46, 46, idtTypeInterrupt ||| idtPresent ||| idtDpl0),
   (47, 47, idtTypeInterrupt ||| idtPresent ||| idtDpl0)]

def idtInit (isr : Nat → Word) : Idt :=
  idtGates.foldl (fun idt gate => idtSetEntry idt gate.1 (isr gate.2.1) 0x08 gate.2.2)
    fun _ => idtEntry 0 0 0

/-- The processor's view of an entry. -/
def IdtEntry.offset (e : IdtEntry) : Word := e.offsetHigh ++ e.offsetMid ++ e.offsetLow

def IdtEntry.Present (e : IdtEntry) : Prop := e.typeAttr.getLsbD 7 = true

instance : DecidablePred IdtEntry.Present := fun e =>
  inferInstanceAs (Decidable (e.typeAttr.getLsbD 7 = true))

/-- An interrupt through the table, from delivery to `iretq`: the states in which the stub calls
`interrupt_handler`, and what execution goes on with. `code` is what lies at an address. -/
def interrupt (code : Word → Option (List Instr)) (interruptHandler : Machine → Machine) (idt : Idt)
    (rsp0 : Word) (vector : BitVec 8) (errorCode : Word) (p : Processor) (m : ByteMemory) :
    Option (List Machine × Processor) :=
  if (idt vector).Present then
    (code (idt vector).offset).map fun stub =>
      let result := Machine.run interruptHandler stub (p.deliver rsp0 vector.toNat errorCode m)
      (result.1, iretq result.2)
  else none

end SimpleOs
