import SimpleOs.Lib.Spill

/-!
# The first code of the kernel

`_start` of `kernel/entry.S`, from the jump of the boot loader to the call of `kernel_main`. The
direction flag is clear throughout.
-/

namespace SimpleOs

open X86

/-- Addresses from the linker; `mainNext` is the one after the call of `kernel_main`. -/
structure Symbols where
  stackTop : Word
  bssStart : Word
  bssEnd : Word
  mainNext : Word
deriving Repr, DecidableEq

/-- `rcx` words from `rdi` on get the value of `rax`. -/
def repStosq (s : Machine) : Machine where
  regs := Function.update
    (Function.update s.regs .rdi (s.regs .rdi + BitVec.ofNat 64 (8 * (s.regs .rcx).toNat))) .rcx 0
  mem := storeWords s.mem (s.regs .rdi) (List.replicate (s.regs .rcx).toNat (s.regs .rax))

namespace Symbols

def setStack (symbols : Symbols) (s : Machine) : Machine :=
  let s := s.set .rsp symbols.stackTop
  s.set .rsp (s.regs .rsp &&& ~~~15#64)

/-- Up to `.bss_done`. -/
def clearBss (symbols : Symbols) (s : Machine) : Machine :=
  let s := s.set .rdi symbols.bssStart
  let s := s.set .rcx symbols.bssEnd
  let s := s.set .rcx (s.regs .rcx - s.regs .rdi)
  if s.regs .rcx = 0 then s
  else
    let s := s.set .rcx (s.regs .rcx >>> 3)
    if s.regs .rcx = 0 then s
    else repStosq (s.set .rax 0)

/-- The registers that are cleared last, all but `rdi`, `r12` and `rsp`. -/
def clearedRegs : List Reg :=
  [.rax, .rbx, .rcx, .rdx, .rsi, .r8, .r9, .r10, .r11, .r13, .r14, .r15, .rbp]

/-- `_start`, up to the first instruction of `kernel_main`. -/
def start (symbols : Symbols) (s : Machine) : Machine :=
  -- `rcx` holds the boot information
  let s := s.step (.mov .rcx .r12)
  let s := symbols.setStack s
  let s := symbols.clearBss s
  let s := symbols.setStack s
  let s := s.step (.pushImm 0)
  let s := s.step (.mov .r12 .rdi)
  let s := clearedRegs.foldl (fun s r => s.set r 0) s
  s.step (.call symbols.mainNext)

end Symbols

end SimpleOs
