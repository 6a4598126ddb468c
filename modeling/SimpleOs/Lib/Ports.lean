import Mathlib

/-!
# Input and output ports

Computations that read and write ports. The machine answers each read, and may go by every access that
was made before it.
-/

inductive PortAccess where
  | read (port : BitVec 16) (w : Nat)
  | write (port : BitVec 16) (w : Nat) (value : Nat)
deriving Repr, DecidableEq

/-- What the last access, a read, gives. -/
abbrev Ports := List PortAccess → Nat

abbrev Ported (α : Type) := ReaderT Ports (StateM (List PortAccess)) α

namespace Ported

variable {α β : Type}

def input (w : Nat) (port : BitVec 16) : Ported (BitVec w) := fun ports log =>
  (BitVec.ofNat w (ports (log ++ [.read port w])), log ++ [.read port w])

def output {w : Nat} (port : BitVec 16) (v : BitVec w) : Ported Unit := fun _ log =>
  ((), log ++ [.write port w v.toNat])

def inb (port : BitVec 16) : Ported (BitVec 8) := input 8 port

def inl (port : BitVec 16) : Ported (BitVec 32) := input 32 port

def outb (port : BitVec 16) (v : BitVec 8) : Ported Unit := output port v

def outl (port : BitVec 16) (v : BitVec 32) : Ported Unit := output port v

/-- The value that the computation comes to when it runs after `log`. -/
def value (ports : Ports) (log : List PortAccess) (x : Ported α) : α := (x ports log).1

/-- `p` holds of the value, whatever the machine answers. -/
def Always (p : α → Prop) (x : Ported α) : Prop := ∀ ports log, p (x.value ports log)

variable {p : α → Prop} {q : β → Prop}

theorem always_pure {a : α} (h : p a) : Always p (pure a) := fun _ _ => h

theorem always_bind {x : Ported α} {f : α → Ported β} (h : ∀ a, Always q (f a)) :
    Always q (x >>= f) := fun ports log => h (x ports log).1 ports (x ports log).2

theorem always_ite {c : Prop} [Decidable c] {x y : Ported α} (hx : c → Always p x)
    (hy : ¬c → Always p y) : Always p (if c then x else y) := by
  by_cases hc : c
  · rw [if_pos hc]
    exact hx hc
  · rw [if_neg hc]
    exact hy hc

end Ported
