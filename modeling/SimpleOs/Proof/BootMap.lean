import SimpleOs.Boot.BootKernel
import SimpleOs.Proof.PmmPages

/-!
# The memory map between bootloader and kernel

The firmware lays its descriptors out at a stride of its own choosing and `boot_kernel` records that
stride, but the kernel indexes the buffer as an array of 40-byte entries. The two agree when the
stride is 40 or there is only one descriptor, and in no other case.
-/

namespace SimpleOs

/-- A firmware that describes memory by `ds`, descriptor `i` in the 40 bytes at offset
`i * stride`, and does not touch the loader's buffer when boot services end. -/
structure Firmware.Delivers {σ : Type} (fw : Firmware σ) (ds : List MemoryMapEntry)
    (stride : Nat) : Prop where
  map : ∀ w size buffer, buffer ≠ 0 → ¬ EfiError (fw.getMemoryMap w size buffer).status →
    (fw.getMemoryMap w size buffer).mmapSize = ds.length * stride ∧
    (fw.getMemoryMap w size buffer).descSize = stride ∧
    (List.range ds.length).map (fun i => MemoryMapEntry.load
      (fw.getMemoryMap w size buffer).world.mem (buffer + i * stride)) = ds
  pool : ∀ w size, ¬ EfiError (fw.allocatePool w size).1 → (fw.allocatePool w size).2.1 ≠ 0
  exit : ∀ w key, (fw.exitBootServices w key).2.mem = w.mem

/-- The kernel finds the map where boot info says it is. -/
structure HandsOver {σ : Type} (ds : List MemoryMapEntry) (stride : Nat) (w : World σ)
    (info : BootInfo) : Prop where
  magic : info.magic = bootInfoMagic
  mmap : info.mmap ≠ 0
  entries : info.mmapEntries = ds.length
  stored : (List.range ds.length).map
    (fun i => MemoryMapEntry.load w.mem (info.mmap + i * stride)) = ds

variable {σ : Type} {fw : Firmware σ} {ds : List MemoryMapEntry} {stride : Nat} {w w' : World σ}
  {info info' : BootInfo}

theorem handsOver_retryExit (hfw : fw.Delivers ds stride) (hstride : 0 < stride)
    (hmagic : info.magic = bootInfoMagic) (hmmap : info.mmap ≠ 0)
    (henter : retryExit fw w info = .entered w' info') : HandsOver ds stride w' info' := by
  unfold retryExit at henter
  simp only at henter
  split at henter
  · cases henter
  · rename_i hstatus
    split at henter
    · cases henter
    · split at henter
      · cases henter
      · cases henter
        obtain ⟨hsize, hdesc, hstored⟩ := hfw.map _ _ _ hmmap hstatus
        refine ⟨hmagic, hmmap, ?_, ?_⟩
        · simp only [hsize, hdesc]
          exact Nat.mul_div_cancel _ hstride
        · simp only [hfw.exit]
          exact hstored

theorem handsOver_bootKernel (hfw : fw.Delivers ds stride) (hstride : 0 < stride)
    (henter : bootKernel fw w (prepareKernel info) = .entered w' info') :
    HandsOver ds stride w' info' := by
  unfold bootKernel at henter
  simp only at henter
  split at henter
  · cases henter
  · split at henter
    · cases henter
    · rename_i hpool
      split at henter
      · cases henter
      · rename_i hstatus
        split at henter
        · cases henter
        · have hmmap := hfw.pool _ _ hpool
          split at henter
          · exact handsOver_retryExit hfw hstride rfl hmmap henter
          · cases henter
            obtain ⟨hsize, hdesc, hstored⟩ := hfw.map _ _ _ hmmap hstatus
            refine ⟨rfl, hmmap, ?_, ?_⟩
            · simp only [hsize, hdesc]
              exact Nat.mul_div_cancel _ hstride
            · simp only [hfw.exit]
              exact hstored

/-- The kernel starts, and its free pages are those between 2 MiB and 256 MiB that a usable descriptor
covers. -/
def FreePagesRight (mem : ByteMemory) (info : BootInfo) (ds : List MemoryMapEntry) : Prop :=
  ∃ k, kernelMain mem info = some k ∧ ∀ q, k.pmm.bitmapTest q = false ↔
    pmmFirstPage ≤ q ∧ q < pmmMaxPages ∧ Pmm.UsablePage ds q

theorem HandsOver.memoryMap_eq (hover : HandsOver ds stride w info)
    (hstride : stride = memoryMapEntrySize ∨ ds.length = 1) :
    Pmm.memoryMap w.mem info.mmap info.mmapEntries = ds := by
  rw [Pmm.memoryMap, hover.entries]
  conv_rhs => rw [← hover.stored]
  apply List.map_congr_left
  intro i hi
  rw [List.mem_range] at hi
  obtain heq | hone := hstride
  · rw [memoryMapIndex, heq, mul_comm]
  · obtain rfl : i = 0 := by omega
    rw [memoryMapIndex, mul_zero, zero_mul]

theorem HandsOver.freePagesRight (hover : HandsOver ds stride w info)
    (hlength : 1 ≤ ds.length ∧ ds.length ≤ 256)
    (hstride : stride = memoryMapEntrySize ∨ ds.length = 1) :
    FreePagesRight w.mem info ds := by
  have haccept : Pmm.Accepts info.mmap info.mmapEntries := by
    refine ⟨hover.mmap, ?_, ?_⟩
    all_goals
      rw [hover.entries]
      omega
  refine ⟨_, if_neg (not_not.mpr hover.magic), fun q => ?_⟩
  rw [Pmm.bitmapTest_pmmInit haccept, hover.memoryMap_eq hstride]

def plainFirmware (image : ByteMemory) (n stride buffer : Nat) : Firmware Unit where
  getMemoryMap w _ address :=
    if address = buffer then ⟨0, n * stride, 0, stride, ⟨(), image⟩⟩
    else ⟨efiBufferTooSmall, n * stride, 0, stride, w⟩
  allocatePool w _ := (0, buffer, w)
  freePool w _ := w
  exitBootServices w _ := (0, w)

def descriptors (image : ByteMemory) (n stride buffer : Nat) : List MemoryMapEntry :=
  (List.range n).map fun i => MemoryMapEntry.load image (buffer + i * stride)

section Plain

variable {image : ByteMemory} {n buffer : Nat}

theorem delivers_plainFirmware (hbuffer : buffer ≠ 0) :
    (plainFirmware image n stride buffer).Delivers (descriptors image n stride buffer) stride := by
  have hlength : (descriptors image n stride buffer).length = n := by simp [descriptors]
  refine ⟨fun w size address _ hstatus => ?_, fun _ _ _ => hbuffer, fun _ _ => rfl⟩
  unfold plainFirmware at hstatus ⊢
  simp only at hstatus ⊢
  split
  · rename_i heq
    rw [hlength, heq]
    exact ⟨rfl, rfl, rfl⟩
  · rename_i hne
    rw [if_neg hne] at hstatus
    exact absurd (show EfiError efiBufferTooSmall by decide) hstatus

theorem bootKernel_plainFirmware (hbuffer : buffer ≠ 0) (hstride : stride ≠ 0) (w : World Unit)
    (info : BootInfo) :
    bootKernel (plainFirmware image n stride buffer) w info =
      .entered ⟨(), image⟩
        { info with mmap := buffer, mmapEntries := n, mmapEntrySize := stride } := by
  have hok : ¬ EfiError 0 := by decide
  simp only [bootKernel, plainFirmware, if_neg hbuffer.symm, if_neg hok, if_neg hstride, ne_eq,
    not_true_eq_false, if_true, if_false, Nat.mul_div_cancel n (Nat.pos_of_ne_zero hstride)]

theorem not_freePagesRight_last (buffer : Nat) (hn : 2 ≤ n) (hn' : n ≤ 256) (hstride : 40 < stride)
    (hbuffer : buffer ≠ 0) (hroom : buffer + n * stride ≤ 2 ^ 64) {info : BootInfo}
    (hmmap : info.mmap = buffer) (hentries : info.mmapEntries = n) :
    ¬ FreePagesRight (oneRegion (buffer + (n - 1) * stride) 0x200000 1) info
      (descriptors (oneRegion (buffer + (n - 1) * stride) 0x200000 1) n stride buffer) := by
  have hlast : (n - 1) * stride + stride = n * stride := by
    rw [← Nat.succ_mul, Nat.succ_eq_add_one, Nat.sub_add_cancel (by omega)]
  have hfurther : (n - 1) * 40 < (n - 1) * stride := Nat.mul_lt_mul_of_pos_left hstride (by omega)
  rintro ⟨k, hk, hpages⟩
  have hmagic : info.magic = bootInfoMagic := by
    by_contra hne
    rw [kernelMain, if_pos hne] at hk
    cases hk
  rw [kernelMain, if_neg (not_not.mpr hmagic), Option.some_inj, hmmap, hentries] at hk
  have hfree : k.pmm.bitmapTest 512 = false := by
    rw [hpages]
    refine ⟨by decide, by decide, _, List.mem_map.mpr ⟨n - 1, List.mem_range.mpr (by omega), rfl⟩, ?_⟩
    obtain ⟨htype, hstart, hnum⟩ := load_oneRegion (a := buffer + (n - 1) * stride)
      (show buffer + (n - 1) * stride + 40 ≤ 2 ^ 64 by omega) (show 0x200000 < 2 ^ 64 by decide)
      (show 1 < 2 ^ 64 by decide)
    exact ⟨Or.inl htype, by rw [MemoryMapEntry.Covers, hstart, hnum]; decide⟩
  rw [← hk, Pmm.bitmapTest_pmmInit ⟨hbuffer, by omega, hn'⟩] at hfree
  obtain ⟨-, -, e, he, husable, -⟩ := hfree
  obtain ⟨i, hi, rfl⟩ := List.mem_map.mp he
  rw [List.mem_range] at hi
  -- the first byte of every entry the kernel reads is below the last descriptor
  have hbefore : i * 40 ≤ (n - 1) * 40 := Nat.mul_le_mul_right 40 (by omega)
  have htype : (memoryMapIndex (oneRegion (buffer + (n - 1) * stride) 0x200000 1) buffer i).type % 256 =
      0 := by
    change ByteMemory.read _ (buffer + 40 * i) (3 + 1) % 256 = 0
    rw [ByteMemory.read, Nat.mod_eq_of_lt (show buffer + 40 * i < 2 ^ 64 by omega),
      oneRegion_before (by omega) (by omega)]
    exact Nat.add_mul_mod_self_left _ _ _
  obtain h | h | h := husable
  all_goals
    rw [h] at htype
    exact absurd htype (by decide)

theorem not_freePagesRight_empty {mem : ByteMemory} {info : BootInfo}
    (hentries : info.mmapEntries = 0) : ¬ FreePagesRight mem info [] := by
  rintro ⟨k, hk, hpages⟩
  have hmagic : info.magic = bootInfoMagic := by
    by_contra hne
    rw [kernelMain, if_pos hne] at hk
    cases hk
  have hreject : ¬ Pmm.Accepts info.mmap 0 := fun haccept => haccept.2.1 rfl
  rw [kernelMain, if_neg (not_not.mpr hmagic), Option.some_inj, hentries, Pmm.pmmInit,
    if_neg hreject] at hk
  have hfree : k.pmm.bitmapTest 512 = false := by
    simp [← hk, Pmm.bitmapTest]
  obtain ⟨-, -, e, he, -⟩ := (hpages 512).mp hfree
  simp at he

end Plain

/-- Bootloader and kernel agree on every map of `n` descriptors at `stride`: whatever the descriptors
and the firmware are, if the kernel is entered its free pages are right. -/
def MapsAgree (n stride : Nat) : Prop :=
  ∀ (σ : Type) (fw : Firmware σ) (ds : List MemoryMapEntry) (w w' : World σ) (info info' : BootInfo),
    ds.length = n → fw.Delivers ds stride →
    bootKernel fw w (prepareKernel info) = .entered w' info' → FreePagesRight w'.mem info' ds

/-- **Map format.** For maps of at most 256 descriptors at strides of at least 40, bootloader and
kernel agree exactly when there is a descriptor and either the stride is 40 or it is the only one. -/
theorem mapsAgree_iff {n stride : Nat} (hn : n ≤ 256) (hstride : 40 ≤ stride)
    (hsize : n * stride < 2 ^ 64) :
    MapsAgree n stride ↔ 1 ≤ n ∧ (stride = 40 ∨ n = 1) := by
  constructor
  · intro hagree
    have hplain := fun image => hagree Unit (plainFirmware image n stride 1)
      (descriptors image n stride 1) ⟨(), ByteMemory.zero⟩ _ ⟨0, 0, 0, 0, 0⟩ _ (by simp [descriptors])
      (delivers_plainFirmware (by decide))
      (bootKernel_plainFirmware (by decide) (by omega) _ _)
    obtain rfl | hpos := Nat.eq_zero_or_pos n
    · exact absurd (hplain ByteMemory.zero) (not_freePagesRight_empty rfl)
    · refine ⟨hpos, ?_⟩
      by_contra hother
      rw [not_or] at hother
      exact not_freePagesRight_last 1 (by omega) hn (by omega) (by decide) (by omega) rfl rfl
        (hplain _)
  · rintro ⟨hpos, heq⟩ σ fw ds w w' info info' rfl hfw henter
    exact (handsOver_bootKernel hfw (by omega) henter).freePagesRight ⟨hpos, hn⟩ heq

theorem mapsAgree_one : MapsAgree 1 48 :=
  (mapsAgree_iff (by decide) (by decide) (by decide)).mpr ⟨by decide, Or.inr rfl⟩

def twoDescriptors : ByteMemory := oneRegion (0x9000 + (2 - 1) * 48) 0x200000 1

theorem not_mapsAgree_two :
    (plainFirmware twoDescriptors 2 48 0x9000).Delivers (descriptors twoDescriptors 2 48 0x9000) 48 ∧
      bootKernel (plainFirmware twoDescriptors 2 48 0x9000) ⟨(), ByteMemory.zero⟩
          (prepareKernel ⟨0, 0, 0, 0, 0⟩) =
        .entered ⟨(), twoDescriptors⟩ ⟨bootInfoMagic, 1, 2, 48, 0x9000⟩ ∧
      ¬ FreePagesRight twoDescriptors ⟨bootInfoMagic, 1, 2, 48, 0x9000⟩
          (descriptors twoDescriptors 2 48 0x9000) := by
  refine ⟨delivers_plainFirmware (by decide), bootKernel_plainFirmware (by decide) (by decide) _ _, ?_⟩
  exact not_freePagesRight_last 0x9000 (by decide) (by decide) (by decide) (by decide) (by decide)
    rfl rfl

end SimpleOs
