import SimpleOs.Proof.PmmAlloc
import SimpleOs.Proof.VmmEntries

/-!
# Translation by the kernel and by the processor

`vmm_get_physical` takes every present entry for a pointer to a table and keeps all its bits from 12
on, and `vmm_init` takes CR3 for the address of a table. So it follows the processor exactly where no
entry maps a huge page or has a bit above bit 51, and CR3 has no flag. Wherever else a word is misread,
the memory may hold anything there: `Probe` is an address for which it can be filled with words that
lead `vmm_get_physical` above `2 ^ 52`.
-/

namespace SimpleOs.Vmm

open X86 (Word load store)
open X86.Paging

/-- `vmm_get_physical` from the table of level `n` at `table` on. -/
def descend (m : ByteMemory) (virt : Word) : Nat → Word → Option Word
  | 0, table => (follow m table (index 0 virt)).map fun frame => frame ||| (virt &&& 0xFFF#64)
  | n + 1, table => (follow m table (index (n + 1) virt)).bind (descend m virt n)

/-- An entry of level `n` that points to what its bits from 12 on say. -/
def Plain (n : Nat) (e : Word) : Prop := Present e → e.toNat < 2 ^ 52 ∧ (MapsPage n e → n = 0)

/-- All entries of a walk from level `n` on are plain. -/
def AllPlain : Nat → List Word → Prop
  | _, [] => True
  | n, e :: es => Plain n e ∧ AllPlain (n - 1) es

/-- CR3 is the address of a table and the entries are plain. Or else CR3 is off by less than a word,
the processor finds an entry that is not present, and so does the kernel, in the middle of the first
entry. -/
def Understood (cr3 : Word) (es : List Word) : Prop :=
  cr3.toNat % 4096 = 0 ∧ AllPlain 3 es ∨
  (0 < cr3.toNat % 4096 ∧ cr3.toNat % 4096 < 8) ∧ (∃ e ∈ es, ¬Present e) ∧
    ∀ e ∈ es.head?, e.getLsbD (8 * (cr3.toNat % 4096)) = false

/-- What `vmm_init` has left in memory and in CR3, which held a physical address and flags. -/
def Installed (v : Vmm) (cr3 : Word) : Prop :=
  ∃ mem pmm boot, boot.toNat < 2 ^ 52 ∧ vmmInit mem pmm boot = some (v, cr3)

variable {v : Vmm} {m : ByteMemory} {virt t e x cr3 : Word} {n : Nat} {es : List Word}

theorem vmmGetPhysical_eq_descend (hroot : v.kernelPml4 ≠ 0) (virt : Word) :
    v.vmmGetPhysical virt = (descend v.mem virt 3 v.kernelPml4).getD 0 := by
  rw [vmmGetPhysical, if_neg hroot]
  change _ = ((follow v.mem v.kernelPml4 (pml4Index virt)).bind fun pdpt =>
    (follow v.mem pdpt (pdptIndex virt)).bind fun pd => (follow v.mem pd (pdIndex virt)).bind fun pt =>
      (follow v.mem pt (ptIndex virt)).map fun frame => frame ||| (virt &&& 0xFFF#64)).getD 0
  cases follow v.mem v.kernelPml4 (pml4Index virt) with
  | none => rfl
  | some pdpt =>
      simp only [Option.bind_some]
      cases follow v.mem pdpt (pdptIndex virt) with
      | none => rfl
      | some pd =>
          simp only [Option.bind_some]
          cases follow v.mem pd (pdIndex virt) with
          | none => rfl
          | some pt =>
              simp only [Option.bind_some]
              cases follow v.mem pt (ptIndex virt) <;> rfl

theorem Installed.root (h : v.Installed cr3) :
    v.kernelPml4 = cr3 ∧ cr3 ≠ 0 ∧ cr3.toNat < 2 ^ 52 := by
  obtain ⟨mem, pmm, boot, hboot, hinit⟩ := h
  rw [vmmInit] at hinit
  split at hinit
  · rename_i hne
    obtain ⟨rfl, rfl⟩ := Prod.mk.injEq _ _ _ _ ▸ Option.some_inj.mp hinit
    exact ⟨rfl, hne, hboot⟩
  · obtain ⟨page, hwindow, heq⟩ | heq := pmm.pmmAllocPage_cases
    · rw [heq] at hinit
      simp only [Option.some_inj, Prod.mk.injEq] at hinit
      obtain ⟨rfl, rfl⟩ := hinit
      have hlow : 512 ≤ page := hwindow.first_le
      have hhigh : page + 1 ≤ 65536 := hwindow.le_max
      have hpage := toNat_pageAddr hwindow.le_max
      refine ⟨rfl, fun hzero => ?_, lt_of_eq_of_lt hpage (by omega)⟩
      have hnat : page * 4096 = 0 := hpage.symm.trans (congrArg BitVec.toNat hzero)
      omega
    · rw [heq] at hinit
      cases hinit

theorem installed_mk (m : ByteMemory) (pmm : Pmm) (hne : cr3 ≠ 0) (hlt : cr3.toNat < 2 ^ 52) :
    Installed ⟨m, pmm, cr3⟩ cr3 :=
  ⟨m, pmm, cr3, hlt, if_pos hne⟩

theorem follow_of_present (h : Present (load m (entryAddr t x))) :
    follow m t x = some (load m (entryAddr t x) &&& frameMask) := if_neg h

theorem follow_of_not_present (h : ¬Present (load m (entryAddr t x))) : follow m t x = none :=
  if_pos (not_not.mp h)

theorem and_frameMask_of_lt (he : e.toNat < 2 ^ 52) : e &&& frameMask = address e := by
  apply BitVec.eq_of_toNat_eq
  rw [toNat_and_frameMask, toNat_address, Nat.mod_eq_of_lt he]
  rfl

theorem address_of_aligned (hlt : t.toNat < 2 ^ 52) (haligned : t.toNat % 4096 = 0) :
    address t = t := by
  apply BitVec.eq_of_toNat_eq
  rw [toNat_address]
  omega

theorem frame_zero (e virt : Word) : frame 0 e virt = address e ||| (virt &&& 0xFFF#64) := by
  have hbase : address e &&& ~~~offsetMask 0 = address e := by
    rw [address, BitVec.and_assoc]
    rfl
  rw [frame, hbase]
  rfl

theorem descend_eq_walk (h : AllPlain n (entries m virt n t)) :
    descend m virt n (address t) = walk m virt n t := by
  induction n generalizing t with
  | zero =>
      rw [descend, walk]
      by_cases hpresent : Present (load m (cell t 0 virt))
      · rw [follow_of_present hpresent, if_pos hpresent, frame_zero,
          ← and_frameMask_of_lt (h.1 hpresent).1]
        rfl
      · rw [follow_of_not_present hpresent, if_neg hpresent]
        rfl
  | succ n ih =>
      rw [descend, walk]
      by_cases hpresent : Present (load m (cell t (n + 1) virt))
      · have hplain : Plain (n + 1) (load m (cell t (n + 1) virt)) := by
          rw [entries] at h
          split at h <;> exact h.1
        obtain ⟨hlt, hpage⟩ := hplain hpresent
        have htable : ¬MapsPage (n + 1) (load m (cell t (n + 1) virt)) :=
          fun hmaps => Nat.succ_ne_zero n (hpage hmaps)
        rw [entries, if_pos ⟨hpresent, htable⟩] at h
        rw [follow_of_present hpresent, if_pos hpresent, if_neg htable, ← ih h.2,
          ← and_frameMask_of_lt hlt]
        rfl
      · rw [follow_of_not_present hpresent, if_neg hpresent]
        rfl

/-- The kernel reads the first entry at an address off by `k` bytes, the lowest bit of which is bit
`8 * k` of the entry. -/
theorem present_misplaced (m : ByteMemory) (virt : Word) {k : Nat} (hk : k < 8)
    (hcr3 : cr3.toNat % 4096 = k) (hlt : cr3.toNat < 2 ^ 52) :
    Present (load m (entryAddr cr3 (index 3 virt))) ↔
      (load m (cell cr3 3 virt)).getLsbD (8 * k) = true := by
  have haddress := toNat_address cr3
  have hindex := X86.Paging.toNat_index 3 virt
  have hcell := toNat_cell cr3 3 virt
  have hread : (entryAddr cr3 (index 3 virt)).toNat = (cell cr3 3 virt).toNat + k := by
    rw [entryAddr, BitVec.toNat_add, BitVec.toNat_mul, BitVec.toNat_ofNat]
    omega
  have hfirst : (load m (entryAddr cr3 (index 3 virt))).getLsbD (8 * 0) =
      (load m (cell cr3 3 virt)).getLsbD (8 * k) := by
    rw [getLsbD_load _ _ hk, getLsbD_load _ _ (by decide), hread]
    rfl
  rw [present_iff, ← hfirst]

theorem getD_eq_of_understood (hcr3 : cr3.toNat < 2 ^ 52) (h : Understood cr3 (entries m virt 3 cr3)) :
    (descend m virt 3 cr3).getD 0 = (walk m virt 3 cr3).getD 0 := by
  obtain ⟨haligned, hplain⟩ | ⟨⟨hpos, hsmall⟩, habsent, hbit⟩ := h
  · have hwalk := descend_eq_walk hplain
    rw [address_of_aligned hcr3 haligned] at hwalk
    rw [hwalk]
  · have hhead : (entries m virt 3 cr3).head? = some (load m (cell cr3 3 virt)) := by
      rw [entries]
      split <;> rfl
    have hclear := hbit _ hhead
    have hmissing : ¬Present (load m (entryAddr cr3 (index 3 virt))) := by
      rw [present_misplaced m virt hsmall rfl hcr3, hclear]
      exact Bool.false_ne_true
    rw [walk_eq_none_iff.mpr habsent, descend, follow_of_not_present hmissing]
    rfl

/-- A memory of bytes 1 reads as this word, which is an entry for a table above `2 ^ 52`. -/
def onesWord : Word := 0x0101010101010101#64

theorem load_ones {a : Word} (h : ∀ i < 8, m ((a.toNat + i) % 2 ^ 64) = 1) : load m a = onesWord := by
  have hread : m.read a.toNat 8 = ByteMemory.read (fun _ => 1) 0 8 :=
    ByteMemory.read_congr fun i hi => h i hi
  rw [load, hread]
  rfl

theorem toNat_frame_le (x y : Word) : x.toNat ≤ (x ||| y).toNat := by
  rw [BitVec.toNat_or]
  exact Nat.left_le_or

/-- An entry with a bit above bit 51 leads to a result with one, in a memory of ones from `2 ^ 52`. -/
theorem descend_of_high_entry (hhigh : ∀ a, 2 ^ 52 ≤ a → m a = 1)
    (hpresent : Present (load m (entryAddr t (index n virt))))
    (hentry : 2 ^ 52 ≤ (load m (entryAddr t (index n virt))).toNat) :
    ∃ p, descend m virt n t = some p ∧ 2 ^ 52 ≤ p.toNat := by
  have htable : 2 ^ 52 ≤ (load m (entryAddr t (index n virt)) &&& frameMask).toNat := by
    rw [toNat_and_frameMask]
    omega
  induction n generalizing t with
  | zero =>
      rw [descend, follow_of_present hpresent]
      exact ⟨_, rfl, htable.trans (toNat_frame_le _ _)⟩
  | succ n ih =>
      rw [descend, follow_of_present hpresent, Option.bind_some]
      have haligned := toNat_and_frameMask (load m (entryAddr t (index (n + 1) virt)))
      generalize load m (entryAddr t (index (n + 1) virt)) &&& frameMask = table at htable haligned ⊢
      have hnext : load m (entryAddr table (index n virt)) = onesWord := by
        have hindex := X86.Paging.toNat_index n virt
        have hlt := table.isLt
        apply load_ones
        intro i hi
        apply hhigh
        rw [entryAddr, BitVec.toNat_add, BitVec.toNat_mul, BitVec.toNat_ofNat]
        omega
      apply ih
      · rw [hnext]
        decide
      · rw [hnext]
        decide
      · rw [hnext]
        decide

/-- A huge page, or a table above `2 ^ 52`, is read as a table that holds ones. -/
theorem descend_of_not_allPlain (hhigh : ∀ a, 2 ^ 52 ≤ a → m a = 1)
    (hfree : ∀ t' j, j + (entries m virt n t).length ≤ n → load m (cell t' j virt) = onesWord)
    (h : ¬AllPlain n (entries m virt n t)) :
    ∃ p, descend m virt n (address t) = some p ∧ 2 ^ 52 ≤ p.toNat := by
  have hhead : ∀ k t', ¬AllPlain k (entries m virt k t') → Present (load m (cell t' k virt)) := by
    intro k t' hnot
    by_contra hpresent
    apply hnot
    cases k with
    | zero => exact ⟨fun h => absurd h hpresent, trivial⟩
    | succ k =>
        rw [entries, if_neg fun h => hpresent h.1]
        exact ⟨fun h => absurd h hpresent, trivial⟩
  induction n generalizing t with
  | zero =>
      have hpresent := hhead 0 t h
      have hentry : 2 ^ 52 ≤ (load m (cell t 0 virt)).toNat := by
        by_contra hlow
        exact h ⟨fun _ => ⟨not_le.mp hlow, fun _ => rfl⟩, trivial⟩
      exact descend_of_high_entry hhigh hpresent hentry
  | succ n ih =>
      have hpresent := hhead (n + 1) t h
      by_cases hentry : 2 ^ 52 ≤ (load m (cell t (n + 1) virt)).toNat
      · exact descend_of_high_entry hhigh hpresent hentry
      · have htable := and_frameMask_of_lt (not_le.mp hentry)
        have hdescend : descend m virt (n + 1) (address t) =
            descend m virt n (address (load m (cell t (n + 1) virt))) := by
          rw [descend, follow_of_present hpresent, Option.bind_some, ← htable]
          rfl
        rw [hdescend]
        by_cases hpage : MapsPage (n + 1) (load m (cell t (n + 1) virt))
        · rw [entries, if_neg fun h => h.2 hpage] at hfree
          have hnext := hfree (load m (cell t (n + 1) virt)) n (by simp)
          apply descend_of_high_entry hhigh
          · change Present (load m (cell _ n virt))
            rw [hnext]
            decide
          · change 2 ^ 52 ≤ (load m (cell _ n virt)).toNat
            rw [hnext]
            decide
        · rw [entries, if_pos ⟨hpresent, hpage⟩] at hfree h
          apply ih
          · intro t' j hj
            apply hfree
            rw [List.length_cons]
            omega
          · intro hplain
            exact h ⟨fun _ => ⟨not_le.mp hentry, fun hmaps => absurd hmaps hpage⟩, hplain⟩

/-- The walk of `virt` looks at different indices, and only in level 3 near a word `k` bytes into a
table. -/
structure Probe (k : Nat) (virt : Word) : Prop where
  canonical : Canonical virt
  odd : virt.getLsbD 0 = true
  top : index 3 virt = 0#64
  below : ∀ j < 3, (index j virt).toNat ≠ 0 ∧ (index j virt).toNat ≠ k / 8 ∧
    (index j virt).toNat ≠ k / 8 + 1
  distinct : ∀ i j, i ≤ 3 → j < i → index i virt ≠ index j virt

theorem exists_probe (k : Nat) : ∃ virt, Probe k virt := by
  by_cases hk : k < 32
  · -- the indices below level 3 are 6, 7 and 8
    refine ⟨0x180E08001#64, by decide, by decide, by decide, fun j hj => ?_, fun i j hi hj => ?_⟩
    · have hindex : 6 ≤ (index j 0x180E08001#64).toNat := by
        interval_cases j <;> decide
      omega
    · interval_cases i <;> interval_cases j <;> decide
  · -- and here 1, 2 and 3
    refine ⟨0x40403001#64, by decide, by decide, by decide, fun j hj => ?_, fun i j hi hj => ?_⟩
    · have hindex : 1 ≤ (index j 0x40403001#64).toNat ∧ (index j 0x40403001#64).toNat ≤ 3 := by
        interval_cases j <;> decide
      omega
    · interval_cases i <;> interval_cases j <;> decide

/-- Ones, but for the entries of the walk of `virt`. -/
def probeMemory (virt cr3 : Word) (es : List Word) : ByteMemory :=
  lay (fun _ => 1) (places virt 3 cr3 es)

theorem probeMemory_high (hlen : es.length ≤ 4) {a : Nat} (ha : 2 ^ 52 ≤ a) :
    probeMemory virt cr3 es a = 1 := by
  apply lay_apply _ hlen
  intro t' j _ _ _
  have hcell := cell_lt t' j virt
  omega

theorem load_probeMemory_free (hprobe : Probe (cr3.toNat % 4096) virt) (hlen : es.length ≤ 4)
    {t : Word} {j : Nat} (hj : j + es.length ≤ 3) :
    load (probeMemory virt cr3 es) (cell t j virt) = onesWord := by
  apply load_ones
  intro i hi
  apply lay_apply _ hlen
  intro t' j' hj' hlast _
  have hapart := cell_apart (cell_ne (hprobe.distinct j' j hj' (by omega)).symm t t')
  have hcell := cell_lt t j virt
  omega

/-- The bytes of the first entry as the kernel reads it, from the second word of the table on. -/
theorem probeMemory_misplaced (hprobe : Probe (cr3.toNat % 4096) virt) (hlen : es.length ≤ 4)
    (hlt : cr3.toNat < 2 ^ 52) {i : Nat} (hi : i < 8)
    (hk : 8 ≤ cr3.toNat % 4096 + i) :
    probeMemory virt cr3 es ((cr3.toNat + i) % 2 ^ 64) = 1 := by
  apply lay_apply _ hlen
  intro t' j hj _ htop
  have hcell := toNat_cell t' j virt
  have haddress := toNat_address t'
  by_cases hlevel : j = 3
  · subst hlevel
    obtain rfl := htop rfl
    rw [hprobe.top, BitVec.toNat_ofNat] at hcell
    omega
  · have hbelow := hprobe.below j (by omega)
    have hindex := X86.Paging.toNat_index j virt
    omega

theorem understood_of_getD_eq (hlt : cr3.toNat < 2 ^ 52) (hprobe : Probe (cr3.toNat % 4096) virt)
    (hlen : es.length ≤ 4) (hes : entries (probeMemory virt cr3 es) virt 3 cr3 = es)
    (h : (descend (probeMemory virt cr3 es) virt 3 cr3).getD 0 =
      (walk (probeMemory virt cr3 es) virt 3 cr3).getD 0) : Understood cr3 es := by
  have hhigh : ∀ a, 2 ^ 52 ≤ a → probeMemory virt cr3 es a = 1 := fun a => probeMemory_high hlen
  have hfree : ∀ t' j, j + es.length ≤ 3 →
      load (probeMemory virt cr3 es) (cell t' j virt) = onesWord :=
    fun t' j => load_probeMemory_free hprobe hlen
  have hones : ∀ i < 8, 8 ≤ cr3.toNat % 4096 + i →
      probeMemory virt cr3 es ((cr3.toNat + i) % 2 ^ 64) = 1 :=
    fun i => probeMemory_misplaced hprobe hlen hlt
  generalize probeMemory virt cr3 es = m at *
  have hnot : ¬∃ p, descend m virt 3 cr3 = some p ∧ 2 ^ 52 ≤ p.toNat := by
    rintro ⟨p, hdescend, hp⟩
    rw [hdescend] at h
    cases hwalk : walk m virt 3 cr3 with
    | none =>
        rw [hwalk] at h
        obtain rfl : p = 0 := h
        simp at hp
    | some q =>
        rw [hwalk] at h
        obtain ⟨j, hj, e, hq⟩ := exists_frame_of_walk hwalk
        have hframe := frame_lt hj e virt
        obtain rfl : p = q := h
        rw [hq] at hp
        omega
  have hfirst : entryAddr cr3 (index 3 virt) = cr3 := by
    rw [hprobe.top, entryAddr]
    simp
  by_cases haligned : cr3.toNat % 4096 = 0
  · refine Or.inl ⟨haligned, by_contra fun hplain => hnot ?_⟩
    rw [← hes] at hplain hfree
    rw [← address_of_aligned hlt haligned]
    exact descend_of_not_allPlain hhigh hfree hplain
  · by_cases hsmall : 8 ≤ cr3.toNat % 4096
    · -- the kernel reads the words of another entry
      have hload : load m (entryAddr cr3 (index 3 virt)) = onesWord := by
        rw [hfirst]
        exact load_ones fun i hi => hones i hi (by omega)
      refine absurd (descend_of_high_entry hhigh ?_ ?_) hnot <;>
        · rw [hload]
          decide
    · have hk : cr3.toNat % 4096 < 8 := by omega
      have hpresent := present_misplaced m virt hk rfl hlt
      by_cases hbit : (load m (cell cr3 3 virt)).getLsbD (8 * (cr3.toNat % 4096)) = true
      · -- its last byte is one of the next entry's
        have hlast : (load m (entryAddr cr3 (index 3 virt))).getLsbD (8 * 7) = true := by
          rw [hfirst, getLsbD_load _ _ (by decide), hones 7 (by decide) (by omega)]
          rfl
        have hentry : 2 ^ 56 ≤ (load m (entryAddr cr3 (index 3 virt))).toNat :=
          Nat.ge_two_pow_of_testBit hlast
        exact absurd (descend_of_high_entry hhigh (hpresent.mpr hbit) (by omega)) hnot
      · refine Or.inr ⟨⟨by omega, hk⟩, ?_, ?_⟩
        · rw [descend, follow_of_not_present (mt hpresent.mp hbit)] at h
          rw [← hes, ← walk_eq_none_iff]
          cases hwalk : walk m virt 3 cr3 with
          | none => rfl
          | some p =>
              rw [hwalk] at h
              obtain ⟨j, hj, e, rfl⟩ := exists_frame_of_walk hwalk
              have hodd := getLsbD_frame hj e virt
              have hzero : 0 = frame j e virt := h
              rw [← hzero, hprobe.odd] at hodd
              cases hodd
        · rw [← hes, entries]
          split <;> simpa using hbit

/-- Given CR3 and the entries that a walk meets, `vmm_get_physical` agrees with the processor in every
memory with such a walk exactly if they are understood. -/
theorem vmmGetPhysical_agrees_iff {cr3 : Word} {es : List Word}
    (hmet : ∃ (v : Vmm) (virt : Word), v.Installed cr3 ∧ entries v.mem virt 3 cr3 = es) :
    (∀ (v : Vmm) (virt : Word), v.Installed cr3 → Canonical virt → entries v.mem virt 3 cr3 = es →
      v.vmmGetPhysical virt = (walk v.mem virt 3 cr3).getD 0) ↔ Understood cr3 es := by
  obtain ⟨v₀, virt₀, hinstalled, hes⟩ := hmet
  obtain ⟨-, hne, hlt⟩ := hinstalled.root
  constructor
  · intro hagrees
    obtain ⟨virt, hprobe⟩ := exists_probe (cr3.toNat % 4096)
    have hlen : es.length ≤ 4 := hes ▸ length_entries_le
    have hlay : entries (probeMemory virt cr3 es) virt 3 cr3 = es := by
      rw [← hes]
      exact entries_lay v₀.mem _ virt₀ cr3 hprobe.distinct
    have hv := installed_mk (probeMemory virt cr3 es) v₀.pmm hne hlt
    have hphysical := hagrees _ virt hv hprobe.canonical hlay
    rw [vmmGetPhysical_eq_descend (hv.root.1 ▸ hne)] at hphysical
    exact understood_of_getD_eq hlt hprobe hlen hlay hphysical
  · intro hunderstood v virt hv _ hentries
    obtain ⟨hroot, -, -⟩ := hv.root
    rw [vmmGetPhysical_eq_descend (hroot ▸ hne), hroot]
    exact getD_eq_of_understood hlt (hentries ▸ hunderstood)

/-- Tables at `0x1000`, `0x2000` and `0x3000` that map the first 2 MiB, by one entry, to the second. -/
def hugeTree : Vmm where
  mem a := match a with
    | 0x1000 => 0x01
    | 0x1001 => 0x20
    | 0x2000 => 0x01
    | 0x2001 => 0x30
    | 0x3000 => 0x81
    | 0x3002 => 0x20
    | _ => 0
  pmm := ⟨fun _ => 0, 0, 0⟩
  kernelPml4 := 0x1000#64

theorem vmmGetPhysical_agrees_iff_hugeTree :
    (∀ (v : Vmm) (virt : Word), v.Installed 0x1000#64 → Canonical virt →
      entries v.mem virt 3 0x1000#64 = [0x2001#64, 0x3001#64, 0x200081#64] →
      v.vmmGetPhysical virt = (walk v.mem virt 3 0x1000#64).getD 0) ↔
    Understood 0x1000#64 [0x2001#64, 0x3001#64, 0x200081#64] :=
  vmmGetPhysical_agrees_iff
    ⟨hugeTree, 0x1234#64, installed_mk _ _ (by decide) (by decide), by decide⟩

theorem not_agrees_hugeTree :
    hugeTree.Installed 0x1000#64 ∧ Canonical 0x1234#64 ∧
      walk hugeTree.mem 0x1234#64 3 0x1000#64 = some 0x201234#64 ∧
      hugeTree.vmmGetPhysical 0x1234#64 = 0 :=
  ⟨installed_mk _ _ (by decide) (by decide), by decide, by decide, by decide⟩

end SimpleOs.Vmm
