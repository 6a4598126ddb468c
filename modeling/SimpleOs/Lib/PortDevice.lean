import SimpleOs.Lib.Ports

/-!
# Devices behind ports

A device answers reads, and every access may change its state. `Yields` says what a computation comes to
and in what state it leaves the device. Such facts are about the state in which the computation starts, so
that the accesses before it do not matter and facts about parts compose.
-/

structure PortDevice (σ : Type) where
  /-- What a read of so many bits gives. -/
  answer : σ → BitVec 16 → Nat → Nat
  access : σ → PortAccess → σ

namespace PortDevice

variable {σ α β : Type} (d : PortDevice σ)

def after (s : σ) (log : List PortAccess) : σ := log.foldl d.access s

/-- The machine in which the device was in the state `s` before the first access. -/
def ports (s : σ) : Ports := fun log =>
  match log.getLast? with
  | some (.read port w) => d.answer (d.after s log.dropLast) port w
  | _ => 0

/-- What the computation comes to in the state `s`, and the state that it leaves. -/
def exec (x : Ported α) (s : σ) : α × σ := ((x (d.ports s) []).1, d.after s (x (d.ports s) []).2)

/-- From the state `s` the computation comes to `a` and leaves the device in `s'`. -/
def Yields (x : Ported α) (s : σ) (a : α) (s' : σ) : Prop :=
  ∀ start log, d.after start log = s →
    (x (d.ports start) log).1 = a ∧ d.after start (x (d.ports start) log).2 = s'

variable {d} {s s' s'' : σ} {a : α} {b : β} {x : Ported α} {f : α → Ported β}

theorem Yields.exec_eq (h : d.Yields x s a s') : d.exec x s = (a, s') :=
  Prod.ext (h s [] rfl).1 (h s [] rfl).2

theorem yields_pure : d.Yields (pure a) s a s := fun _ _ h => ⟨rfl, h⟩

theorem Yields.bind (hx : d.Yields x s a s') (hf : d.Yields (f a) s' b s'') :
    d.Yields (x >>= f) s b s'' := by
  intro start log h
  obtain ⟨hvalue, hstate⟩ := hx start log h
  have hrest := hf start _ hstate
  rw [← hvalue] at hrest
  exact hrest

theorem after_concat (s : σ) (log : List PortAccess) (access : PortAccess) :
    d.after s (log ++ [access]) = d.access (d.after s log) access := List.foldl_concat _ _ _ _

theorem yields_input {w : Nat} {port : BitVec 16} : d.Yields (Ported.input w port) s
    (BitVec.ofNat w (d.answer s port w)) (d.access s (.read port w)) := by
  rintro start log rfl
  refine ⟨?_, after_concat start log _⟩
  simp only [Ported.input, ports, List.getLast?_concat, List.dropLast_concat]

theorem yields_output {w : Nat} {port : BitVec 16} {v : BitVec w} : d.Yields (Ported.output port v) s ()
    (d.access s (.write port w v.toNat)) := by
  rintro start log rfl
  exact ⟨rfl, after_concat start log _⟩

/-- What a device gets is what was written. -/
theorem ofNat_toNat_self {w : Nat} (v : BitVec w) : BitVec.ofNat w v.toNat = v := by
  rw [BitVec.ofNat_toNat, BitVec.setWidth_eq]

end PortDevice
