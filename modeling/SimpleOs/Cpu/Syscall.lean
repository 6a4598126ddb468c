import SimpleOs.Lib.X86

/-!
# System calls

`kernel/syscall/syscall_entry.S` and the dispatcher of `kernel/syscall/syscall.c`.
-/

namespace SimpleOs

open X86

def syscallMax : Nat := 16

/-- `syscall_dispatch` through `syscall_table`; `none` is `sys_exit`, which halts for good. Numbers
whose table entry is null are rejected like those outside the table. -/
def syscallDispatch (num arg1 _arg2 arg3 _arg4 _arg5 : Word) : Option Word :=
  if syscallMax ≤ num.toNat then some (-1)
  else
    match num.toNat with
    | 0 => some (-1)
    | 1 => if arg1 ≠ 1 then some (-1) else some arg3
    | 2 => none
    | 3 => some 0
    | 4 => some 0
    | 5 => some 1
    | _ => some (-1)

/-- `syscall_entry`, up to its `sysretq`; `next` is the address after the call. -/
def syscallEntry (next : Word) : List Instr :=
  [.push .rbp,
   .push .rbx,
   .push .r12,
   .push .r13,
   .push .r14,
   .push .r15,
   -- the user's RIP and RFLAGS
   .push .rcx,
   .push .r11,
   .mov .rax .rdi,
   .mov .r10 .rcx,
   -- the arguments
   .push .rdi,
   .push .rsi,
   .push .rdx,
   .push .r10,
   .push .r8,
   .mov .rax .rdi,
   .movLoad 32 .rsp .rsi,
   .movLoad 24 .rsp .rdx,
   .movLoad 16 .rsp .rcx,
   .movLoad 8 .rsp .r8,
   .movLoad 0 .rsp .r9,
   .call next,
   .addImm 40 .rsp,
   .pop .r11,
   .pop .rcx,
   .pop .r15,
   .pop .r14,
   .pop .r13,
   .pop .r12,
   .pop .rbx,
   .pop .rbp]

end SimpleOs
