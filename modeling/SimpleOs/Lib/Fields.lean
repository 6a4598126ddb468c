import SimpleOs.Lib.Access

/-!
# Fields in memory

A field of `w` bits at an offset, read and written whole, and the values of computations that do nothing
else. A field keeps its value when another one is written.
-/

namespace ByteMemory

variable {m m' : ByteMemory} {o o' w w' x : Nat} {v : BitVec w}

def field (m : ByteMemory) (o w : Nat) : BitVec w := BitVec.ofNat w (m.read o (w / 8))

def put {w : Nat} (m : ByteMemory) (o : Nat) (v : BitVec w) : ByteMemory := m.write o (w / 8) v.toNat

theorem field_put_self (hw : 8 ∣ w) (hroom : w / 8 ≤ 2 ^ 64) : (m.put o v).field o w = v := by
  have hpow : 256 ^ (w / 8) = 2 ^ w := by
    rw [show 256 = 2 ^ 8 from rfl, ← pow_mul, Nat.mul_div_cancel' hw]
  rw [field, put, read_write_self hroom, hpow, Nat.mod_eq_of_lt v.isLt, BitVec.ofNat_toNat,
    BitVec.setWidth_eq]

theorem field_put_of_apart (h : o + w / 8 ≤ o' ∨ o' + w' / 8 ≤ o) (ho : o + w / 8 ≤ 2 ^ 64)
    (ho' : o' + w' / 8 ≤ 2 ^ 64) : (m.put o v).field o' w' = m.field o' w' := by
  rw [field, put, read_write_of_apart (apart_of_le ho' ho h.symm)]
  rfl

theorem field_congr (h : ∀ x, o ≤ x → x < o + w / 8 → m x = m' x) (ho : o + w / 8 ≤ 2 ^ 64) :
    m.field o w = m'.field o w := by
  unfold field
  congr 1
  apply read_congr
  intro i hi
  rw [Nat.mod_eq_of_lt (show o + i < 2 ^ 64 by omega)]
  exact h _ (Nat.le_add_right o i) (by omega)

/-- A field of one byte is that byte. -/
theorem field_byte (ho : o < 2 ^ 64) : m.field o 8 = m o := by
  rw [field, read, read, Nat.mul_zero, Nat.add_zero, Nat.mod_eq_of_lt ho, BitVec.ofNat_toNat,
    BitVec.setWidth_eq]

theorem put_byte {v : BitVec 8} (ho : o < 2 ^ 64) : m.put o v = Function.update m o v := by
  rw [put, write, write, Nat.mod_eq_of_lt ho, BitVec.ofNat_toNat, BitVec.setWidth_eq]

theorem put_apply_of_outside (h : x < o ∨ o + w / 8 ≤ x) (ho : o + w / 8 ≤ 2 ^ 64) :
    m.put o v x = m x := by
  apply write_apply_of_outside
  intro i hi
  rw [Nat.mod_eq_of_lt (show o + i < 2 ^ 64 by omega)]
  omega

end ByteMemory

namespace Traced

variable {Buffer α β σ : Type}

@[simp]
theorem value_pure (a : α) : (pure a : Traced Buffer α).value = a := rfl

@[simp]
theorem value_bind (x : Traced Buffer α) (f : α → Traced Buffer β) :
    (x >>= f).value = (f x.value).value := rfl

@[simp]
theorem value_load (buffer : Buffer) (m : ByteMemory) (o w : Nat) :
    (load buffer m o w).value = m.field o w := rfl

@[simp]
theorem value_store {w : Nat} (buffer : Buffer) (m : ByteMemory) (o : Nat) (v : BitVec w) :
    (store buffer m o v).value = m.put o v := rfl

/-- What each turn of a loop takes from `i` to `i + 1` holds at the end. -/
theorem value_forUpTo (body : Nat → σ → Traced Buffer σ) {s : σ} {P : Nat → σ → Prop} {n : Nat}
    (hstart : P 0 s) (hbody : ∀ i < n, ∀ s, P i s → P (i + 1) (body i s).value) :
    P n (forUpTo body s n).value := by
  induction n with
  | zero => exact hstart
  | succ n ih =>
      have hfirst := ih fun i hi => hbody i (Nat.lt_succ_of_lt hi)
      exact hbody n (Nat.lt_succ_self n) _ hfirst

variable {buffer : Buffer} {m : ByteMemory} {o w : Nat} {a : α} {b : β} {x : Traced Buffer α}
  {f : α → Traced Buffer β} {ok ok' : Access Buffer → Prop}

/-- The computation gives `a`, and makes no access but those that `ok` allows. -/
structure Returns (x : Traced Buffer α) (a : α) (ok : Access Buffer → Prop) : Prop where
  value : x.value = a
  within : x.Within ok

theorem Returns.pure (a : α) : (pure a : Traced Buffer α).Returns a ok := ⟨rfl, within_pure a⟩

theorem Returns.bind (hx : x.Returns a ok) (hf : (f a).Returns b ok) : (x >>= f).Returns b ok := by
  refine ⟨?_, (within_bind x f).mpr ⟨hx.within, ?_⟩⟩
  · rw [value_bind, hx.value, hf.value]
  · rw [hx.value]
    exact hf.within

theorem Returns.load_bind {f : BitVec w → Traced Buffer β} (hok : ok ⟨.load, buffer, o, w / 8⟩)
    (hf : (f (m.field o w)).Returns b ok) : (load buffer m o w >>= f).Returns b ok :=
  Returns.bind ⟨rfl, (within_load buffer m o w).mpr hok⟩ hf

theorem Returns.store_bind {v : BitVec w} {f : ByteMemory → Traced Buffer β}
    (hok : ok ⟨.store, buffer, o, w / 8⟩) (hf : (f (m.put o v)).Returns b ok) :
    (store buffer m o v >>= f).Returns b ok :=
  Returns.bind ⟨rfl, (within_store buffer m o v).mpr hok⟩ hf

theorem Returns.mono (h : x.Returns a ok) (hok : ∀ access, ok access → ok' access) :
    x.Returns a ok' :=
  ⟨h.value, fun access haccess => hok access (h.within access haccess)⟩

end Traced
