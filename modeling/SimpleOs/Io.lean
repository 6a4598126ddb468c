import SimpleOs.Lib.Ports

/-!
# Port input and output

What `kernel/io.h` adds to the instructions.
-/

namespace SimpleOs

open Ported

def ioWait : Ported Unit := outb 0x80 0

end SimpleOs
