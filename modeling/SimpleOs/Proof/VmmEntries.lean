import SimpleOs.Lib.Paging
import SimpleOs.Lib.Radix
import SimpleOs.Mm.Vmm

/-!
# Entries of page tables

The bit arithmetic of `vmm.c`: which address an entry is at, what an entry points to, and which page
an address lies in.
-/

namespace SimpleOs.Vmm

open X86 (Word load store)

variable {m : ByteMemory} {t t' x y virt u : Word} {i j : Fin 512}

def Aligned (t : Word) : Prop := t &&& frameMask = t

def indexWord (i : Fin 512) : Word := BitVec.ofNat 64 i.val

theorem toNat_and_frameMask (x : Word) : (x &&& frameMask).toNat = x.toNat / 4096 * 4096 := by
  have hlt := x.isLt
  have hmask : frameMask = BitVec.allOnes 64 <<< 12 := by decide
  rw [hmask, ← BitVec.shiftLeft_ushiftRight, BitVec.toNat_shiftLeft, BitVec.toNat_ushiftRight,
    Nat.shiftLeft_eq, Nat.shiftRight_eq_div_pow]
  omega

theorem aligned_and_frameMask (x : Word) : Aligned (x &&& frameMask) := by
  rw [Aligned, BitVec.and_assoc, BitVec.and_self]

theorem Aligned.toNat_eq (ht : Aligned t) : t.toNat = t.toNat / 4096 * 4096 := by
  have heq := toNat_and_frameMask t
  rwa [ht] at heq

theorem aligned_of_toNat {k : Nat} (ht : t.toNat = k * 4096) : Aligned t := by
  apply BitVec.eq_of_toNat_eq
  rw [toNat_and_frameMask, ht]
  omega

theorem toNat_pageAddr {page : Nat} (hpage : page < pmmMaxPages) :
    (BitVec.ofNat 64 (page * pageSize)).toNat = page * 4096 := by
  rw [BitVec.toNat_ofNat, pageSize_eq]
  simp only [pmmMaxPages_eq] at hpage
  omega

theorem toNat_entryAddr (ht : Aligned t) (i : Fin 512) :
    (entryAddr t (indexWord i)).toNat = t.toNat + 8 * i.val := by
  have hlt := t.isLt
  have htn := ht.toNat_eq
  have hi := i.isLt
  rw [entryAddr, indexWord, BitVec.toNat_add, BitVec.toNat_mul, BitVec.toNat_ofNat,
    BitVec.toNat_ofNat]
  omega

/-- The entries of all page tables are words of their own. -/
theorem load_store (ht : Aligned t) (ht' : Aligned t') :
    load (store m (entryAddr t (indexWord i)) x) (entryAddr t' (indexWord j)) =
      if t' = t ∧ j = i then x else load m (entryAddr t' (indexWord j)) := by
  split
  · rename_i hsame
    rw [hsame.1, hsame.2, X86.load_store_self]
  · rename_i hother
    have htn := ht.toNat_eq
    have htn' := ht'.toNat_eq
    have hlt := t.isLt
    have hlt' := t'.isLt
    have hi := i.isLt
    have hj := j.isLt
    have hne : ¬ (t'.toNat = t.toNat ∧ j.val = i.val) := by
      rintro ⟨htable, hindex⟩
      exact hother ⟨BitVec.eq_of_toNat_eq htable, Fin.ext hindex⟩
    rw [load, store, load, toNat_entryAddr ht, toNat_entryAddr ht',
      ByteMemory.read_write_of_apart (ByteMemory.apart_of_le (by omega) (by omega) (by omega))]

theorem mask_and_frameMask (hx : x &&& frameMask = 0) : (y ||| x) &&& frameMask = y &&& frameMask := by
  rw [BitVec.and_or_distrib_right, hx]
  exact BitVec.or_zero

theorem mapped_and_frameMask (hflags : y &&& frameMask = 0) :
    ((x &&& frameMask) ||| y ||| vmmPresent) &&& frameMask = x &&& frameMask := by
  rw [mask_and_frameMask (by decide), mask_and_frameMask hflags, BitVec.and_assoc, BitVec.and_self]

theorem table_and_frameMask (ht : Aligned t) :
    (t ||| vmmPresent ||| vmmWritable) &&& frameMask = t := by
  rw [mask_and_frameMask (by decide), mask_and_frameMask (by decide), ht]

theorem and_vmmPresent_eq_zero : x &&& vmmPresent = 0 ↔ x.getLsbD 0 = false :=
  X86.Paging.and_twoPow_eq_zero x (k := 0) (by decide)

def slot (x : Word) : Fin 512 := ⟨x.toNat % 512, Nat.mod_lt _ (by decide)⟩

def pathOf (virt : Word) : List (Fin 512) :=
  [slot (pml4Index virt), slot (pdptIndex virt), slot (pdIndex virt), slot (ptIndex virt)]

/-- Bits 12 to 47, which select the page. -/
def pageOf (virt : Word) : Word := (virt >>> 12) &&& 0xFFFFFFFFF#64

theorem toNat_index (virt : Word) (n : Nat) :
    ((virt >>> n) &&& 0x1FF#64).toNat = virt.toNat / 2 ^ n % 512 := by
  have hlow := X86.Paging.toNat_and_ones (k := 9) (by decide) (virt >>> n)
  rwa [BitVec.toNat_ushiftRight, Nat.shiftRight_eq_div_pow] at hlow

theorem indexWord_slot (virt : Word) (n : Nat) :
    indexWord (slot ((virt >>> n) &&& 0x1FF#64)) = (virt >>> n) &&& 0x1FF#64 := by
  apply BitVec.eq_of_toNat_eq
  have hindex := toNat_index virt n
  simp only [indexWord, slot, BitVec.toNat_ofNat]
  omega

theorem toNat_pageOf (virt : Word) : (pageOf virt).toNat = virt.toNat / 2 ^ 12 % 2 ^ 36 := by
  have hlow := X86.Paging.toNat_and_ones (k := 36) (by decide) (virt >>> 12)
  rwa [BitVec.toNat_ushiftRight, Nat.shiftRight_eq_div_pow] at hlow

theorem pathOf_eq_iff : pathOf u = pathOf virt ↔ pageOf u = pageOf virt := by
  have hpage : pageOf u = pageOf virt ↔
      u.toNat / 2 ^ 12 % 2 ^ 36 = virt.toNat / 2 ^ 12 % 2 ^ 36 := by
    rw [← BitVec.toNat_inj, toNat_pageOf, toNat_pageOf]
  simp only [pathOf, List.cons.injEq, and_true, slot, pml4Index, pdptIndex, pdIndex, ptIndex,
    toNat_index, Fin.mk.injEq, hpage]
  omega

end SimpleOs.Vmm
