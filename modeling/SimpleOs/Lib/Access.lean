import SimpleOs.Lib.ByteMemory

/-!
# Computations that record what they access

A computation over a number of buffers returns its value together with the loads and stores it made,
in order. An access out of the bounds of its buffer is recorded like any other, so that whether one is
made can be asked of the record.
-/

inductive AccessKind where
  | load
  | store
deriving Repr, DecidableEq

structure Access (Buffer : Type) where
  kind : AccessKind
  buffer : Buffer
  offset : Nat
  size : Nat
deriving Repr, DecidableEq

structure Traced (Buffer α : Type) where
  value : α
  accesses : List (Access Buffer)

namespace Traced

variable {Buffer α β σ : Type}

instance : Monad (Traced Buffer) where
  pure a := ⟨a, []⟩
  bind x f := ⟨(f x.value).value, x.accesses ++ (f x.value).accesses⟩

/-- The little-endian word of `w` bits at `offset`; `m` is the memory from the start of the buffer on. -/
def load (buffer : Buffer) (m : ByteMemory) (offset w : Nat) : Traced Buffer (BitVec w) :=
  ⟨BitVec.ofNat w (m.read offset (w / 8)), [⟨.load, buffer, offset, w / 8⟩]⟩

def store {w : Nat} (buffer : Buffer) (m : ByteMemory) (offset : Nat) (v : BitVec w) :
    Traced Buffer ByteMemory :=
  ⟨m.write offset (w / 8) v.toNat, [⟨.store, buffer, offset, w / 8⟩]⟩

/-- The loop over `i = 0, ..., n - 1`. -/
def forUpTo (body : Nat → σ → Traced Buffer σ) (s : σ) : Nat → Traced Buffer σ
  | 0 => pure s
  | n + 1 => forUpTo body s n >>= body n

/-- Every access is one of those that `ok` allows. -/
def Within (ok : Access Buffer → Prop) (x : Traced Buffer α) : Prop := ∀ a ∈ x.accesses, ok a

instance (ok : Access Buffer → Prop) [DecidablePred ok] (x : Traced Buffer α) :
    Decidable (x.Within ok) :=
  inferInstanceAs (Decidable (∀ a ∈ x.accesses, ok a))

variable {ok : Access Buffer → Prop}

@[simp]
theorem within_pure (a : α) : (pure a : Traced Buffer α).Within ok := by
  intro a ha
  cases ha

@[simp]
theorem within_bind (x : Traced Buffer α) (f : α → Traced Buffer β) :
    (x >>= f).Within ok ↔ x.Within ok ∧ (f x.value).Within ok :=
  List.forall_mem_append

@[simp]
theorem within_load (buffer : Buffer) (m : ByteMemory) (offset w : Nat) :
    (load buffer m offset w).Within ok ↔ ok ⟨.load, buffer, offset, w / 8⟩ :=
  List.forall_mem_singleton

@[simp]
theorem within_store {w : Nat} (buffer : Buffer) (m : ByteMemory) (offset : Nat) (v : BitVec w) :
    (store buffer m offset v).Within ok ↔ ok ⟨.store, buffer, offset, w / 8⟩ :=
  List.forall_mem_singleton

theorem within_ite {c : Prop} [Decidable c] (x y : Traced Buffer α) :
    (if c then x else y).Within ok ↔ (c → x.Within ok) ∧ (¬c → y.Within ok) := by
  by_cases hc : c <;> simp [hc]

/-- A loop whose accesses do not depend on what it has computed so far. -/
theorem within_forUpTo {body : Nat → σ → Traced Buffer σ} {P : Nat → Prop}
    (hbody : ∀ i s, (body i s).Within ok ↔ P i) (s : σ) (n : Nat) :
    (forUpTo body s n).Within ok ↔ ∀ i < n, P i := by
  induction n with
  | zero => simp [forUpTo]
  | succ n ih => rw [forUpTo, within_bind, ih, hbody, Nat.forall_lt_succ_right]

end Traced
