import SimpleOs.Boot.BootKernel
import SimpleOs.Proc.Process
import SimpleOs.Proof.PmmOwnership

/-!
# The page allocator and the kernel heap

`kernel_main` gives the heap a fixed range of memory and does not tell the page allocator. Whoever
asks for pages afterwards (callers of the allocator, and threads for their stacks) gets pages of that
range if the memory map calls them usable.
-/

namespace SimpleOs

open Pmm (Allocation Holding)

namespace Kernel

def stackOf (k : Kernel) (p : ProcPtr) : Option Allocation :=
  if (k.processes p).state = .unused then none
  else some ⟨(k.processes p).kernelStack, kernelStackSize / pageSize⟩

def threadStacks (k : Kernel) : List Allocation := (List.finRange 64).filterMap k.stackOf

end Kernel

inductive PageCall where
  | pmm (call : Pmm.Call)
  | create (name : List (BitVec 8)) (entry : Nat) (priority : Int)
  | destroy (p : ProcPtr)
deriving Repr, DecidableEq

/-- The kernel together with what the direct callers of the page allocator hold. -/
structure PageUsers where
  kernel : Kernel
  held : List Allocation

namespace PageUsers

def step (s : PageUsers) : PageCall → PageUsers
  | .pmm call =>
      let h := Holding.step ⟨s.kernel.pmm, s.held⟩ call
      ⟨{ s.kernel with pmm := h.pmm }, h.live⟩
  | .create name entry priority =>
      ⟨(s.kernel.processCreateKernelThread name entry priority).2, s.held⟩
  | .destroy p => ⟨s.kernel.processDestroy p, s.held⟩

def Matching (s : PageUsers) : PageCall → Prop
  | .pmm call => Holding.Matching ⟨s.kernel.pmm, s.held⟩ call
  | _ => True

def Run : PageUsers → PageUsers → Prop :=
  Relation.ReflTransGen fun s s' => ∃ call, s.Matching call ∧ s' = s.step call

def holding (s : PageUsers) : Holding := ⟨s.kernel.pmm, s.held ++ s.kernel.threadStacks⟩

/-- `kernel_main` after its memory and process phases. -/
def start (km : KernelMemory) (kernelPml4 : X86.Word) (tssRsp0 : Nat) (cr3 : X86.Word) :
    PageUsers :=
  ⟨(Kernel.loaded km.heap.mem km.pmm kernelPml4 tssRsp0 cr3).processInit, []⟩

/-- The invariant of a run. Kernel threads have no page table of their own. -/
structure Sound (es : List MemoryMapEntry) (s : PageUsers) : Prop where
  ledger : Holding.Sound es s.holding
  noTable : ∀ p, (s.kernel.processes p).pageTable = 0

variable {es : List MemoryMapEntry} {s s' : PageUsers} {p : ProcPtr} {k : Kernel}

theorem perm_filterMap {α β : Type} [DecidableEq α] {l : List α} {a : α} (f : α → Option β)
    (ha : a ∈ l) : (l.filterMap f).Perm ((f a).toList ++ (l.erase a).filterMap f) := by
  refine ((List.perm_cons_erase ha).filterMap f).trans ?_
  rw [List.filterMap_cons]
  cases f a <;> exact List.Perm.refl _

theorem perm_threadStacks {k' : Kernel} (hsame : ∀ q, q ≠ p → k'.stackOf q = k.stackOf q) :
    ∃ others, k.threadStacks.Perm ((k.stackOf p).toList ++ others) ∧
      k'.threadStacks.Perm ((k'.stackOf p).toList ++ others) := by
  have hmem : p ∈ List.finRange 64 := List.mem_finRange p
  have hothers : ((List.finRange 64).erase p).filterMap k'.stackOf =
      ((List.finRange 64).erase p).filterMap k.stackOf := by
    refine List.filterMap_congr fun q hq => hsame q ?_
    exact ((List.nodup_finRange 64).mem_erase_iff.mp hq).1
  exact ⟨_, perm_filterMap k.stackOf hmem, hothers ▸ perm_filterMap k'.stackOf hmem⟩

theorem receive_append (held others : List Allocation) (count : Nat) (r : Option Nat × Pmm) :
    Holding.receive (held ++ others) count r =
      ⟨(Holding.receive held count r).pmm, (Holding.receive held count r).live ++ others⟩ := by
  obtain ⟨_ | addr, pmm⟩ := r <;> rfl

theorem holding_pmm {call : Pmm.Call} (hmatch : s.Matching (.pmm call)) :
    (s.step (.pmm call)).holding = s.holding.step call := by
  cases call with
  | allocPage => exact (receive_append s.held _ 1 _).symm
  | allocPages count => exact (receive_append s.held _ count _).symm
  | freePage addr =>
      simp only [holding, Holding.step, List.erase_append_left s.kernel.threadStacks hmatch]
      rfl
  | freePages addr count =>
      simp only [holding, Holding.step, List.erase_append_left s.kernel.threadStacks hmatch]
      rfl

theorem Sound.pmm (h : s.Sound es) {call : Pmm.Call} (hmatch : s.Matching (.pmm call)) :
    (s.step (.pmm call)).Sound es := by
  refine ⟨?_, h.noTable⟩
  rw [holding_pmm hmatch]
  refine h.ledger.step ⟨call, ?_, rfl⟩
  cases call with
  | allocPage => trivial
  | allocPages count => trivial
  | freePage addr => exact List.mem_append_left _ hmatch
  | freePages addr count => exact List.mem_append_left _ hmatch

theorem create_cases (k : Kernel) (name : List (BitVec 8)) (entry : Nat) (priority : Int) :
    ((k.processCreateKernelThread name entry priority).2.pmm = k.pmm ∧
      (k.processCreateKernelThread name entry priority).2.processes = k.processes) ∨
    ∃ p q, k.stackOf p = none ∧ k.pmm.Window (kernelStackSize / pageSize) q ∧
      (k.processCreateKernelThread name entry priority).2.pmm =
        k.pmm.markRange q (kernelStackSize / pageSize) ∧
      (k.processCreateKernelThread name entry priority).2.stackOf p =
        some ⟨q * pageSize, kernelStackSize / pageSize⟩ ∧
      ((k.processCreateKernelThread name entry priority).2.processes p).pageTable = 0 ∧
      ∀ r, r ≠ p →
        (k.processCreateKernelThread name entry priority).2.processes r = k.processes r := by
  simp only [Kernel.processCreateKernelThread]
  cases hslot : k.allocProcessSlot with
  | none => exact .inl ⟨rfl, rfl⟩
  | some p =>
      have hunused : (k.processes p).state = .unused := by
        simpa using List.find?_some hslot
      obtain ⟨q, hwindow, -, halloc⟩ | halloc :=
        Pmm.pmmAllocPages_cases k.pmm (kernelStackSize / pageSize)
      · rw [halloc]
        refine .inr ⟨p, q, by simp [Kernel.stackOf, hunused], hwindow, rfl, ?_, ?_, fun r hr => ?_⟩
        · simp [Kernel.stackOf]
        · simp
        · exact Function.update_of_ne hr _ _
      · rw [halloc]
        exact .inl ⟨rfl, rfl⟩

theorem stackOf_congr {k k' : Kernel} (h : k'.processes p = k.processes p) :
    k'.stackOf p = k.stackOf p := by
  simp only [Kernel.stackOf, h]

theorem Sound.create (h : s.Sound es) (name : List (BitVec 8)) (entry : Nat) (priority : Int) :
    (s.step (.create name entry priority)).Sound es := by
  obtain ⟨hpmm, hprocesses⟩ | ⟨p, q, hnone, hwindow, hpmm, hstack, htable, hsame⟩ :=
    create_cases s.kernel name entry priority
  · have hholding : (s.step (.create name entry priority)).holding = s.holding := by
      have hstack := fun r => stackOf_congr (congrFun hprocesses r)
      simp only [holding, step, hpmm, Kernel.threadStacks, funext hstack]
    refine ⟨hholding ▸ h.ledger, fun r => ?_⟩
    exact (congrArg Process.pageTable (congrFun hprocesses r)).trans (h.noTable r)
  · obtain ⟨others, hbefore, hafter⟩ := perm_threadStacks fun r hr => stackOf_congr (hsame r hr)
    rw [hnone] at hbefore
    rw [hstack] at hafter
    refine ⟨?_, fun r => ?_⟩
    · have hperm : (s.step (.create name entry priority)).holding.live.Perm
          (⟨q * pageSize, kernelStackSize / pageSize⟩ :: s.holding.live) := by
        refine (hafter.append_left s.held).trans (List.perm_middle.trans ?_)
        exact (hbefore.symm.append_left s.held).cons _
      have htaken := h.ledger.take (Holding.window_pages hwindow) Holding.freePages_markRange
      change Ownership.Ledger _ _ (Pmm.freePages _) _
      rw [show (s.step (.create name entry priority)).holding.pmm = _ from hpmm]
      exact htaken.perm hperm
    · by_cases hr : r = p
      · exact hr ▸ htable
      · exact (congrArg Process.pageTable (hsame r hr)).trans (h.noTable r)

theorem Sound.kernelStack_ne_zero (h : s.Sound es) (hp : (s.kernel.processes p).state ≠ .unused) :
    (s.kernel.processes p).kernelStack ≠ 0 := by
  have hstack : s.kernel.stackOf p =
      some ⟨(s.kernel.processes p).kernelStack, kernelStackSize / pageSize⟩ := if_neg hp
  have hmem : ⟨(s.kernel.processes p).kernelStack, kernelStackSize / pageSize⟩ ∈ s.holding.live :=
    List.mem_append_right _ (List.mem_filterMap.mpr ⟨p, List.mem_finRange p, hstack⟩)
  have hpage : (s.kernel.processes p).kernelStack / pageSize ∈
      Allocation.pages ⟨(s.kernel.processes p).kernelStack, kernelStackSize / pageSize⟩ :=
    ⟨le_rfl, Nat.lt_add_of_pos_right (show 0 < kernelStackSize / pageSize by decide)⟩
  intro hzero
  have hfirst := (h.ledger.live_subset _ hmem hpage).1
  rw [hzero] at hfirst
  exact absurd hfirst (by decide)

theorem Sound.destroy (h : s.Sound es) (p : ProcPtr) : (s.step (.destroy p)).Sound es := by
  by_cases hused : (s.kernel.processes p).state = .unused
  · simp only [step, Kernel.processDestroy, if_pos hused]
    exact h
  · have hstack : s.kernel.stackOf p =
        some ⟨(s.kernel.processes p).kernelStack, kernelStackSize / pageSize⟩ := if_neg hused
    have hpmm : (s.kernel.processDestroy p).pmm = s.kernel.pmm.pmmFreePages
        (s.kernel.processes p).kernelStack (kernelStackSize / pageSize) := by
      simp only [Kernel.processDestroy, if_neg hused, if_pos (h.kernelStack_ne_zero hused),
        if_neg (not_not.mpr (h.noTable p))]
    have hprocesses : (s.kernel.processDestroy p).processes = Function.update s.kernel.processes p
        { s.kernel.processes p with state := .unused, pid := 0 } := by
      simp only [Kernel.processDestroy, if_neg hused]
    have hnone : (s.kernel.processDestroy p).stackOf p = none := by
      simp [Kernel.stackOf, hprocesses]
    have hsame : ∀ r, r ≠ p → (s.kernel.processDestroy p).stackOf r = s.kernel.stackOf r :=
      fun r hr => stackOf_congr (by rw [hprocesses, Function.update_of_ne hr])
    obtain ⟨others, hbefore, hafter⟩ := perm_threadStacks hsame
    rw [hstack] at hbefore
    rw [hnone] at hafter
    refine ⟨?_, fun r => ?_⟩
    · have hlive : s.holding.live.Perm
          (⟨(s.kernel.processes p).kernelStack, kernelStackSize / pageSize⟩ :: (s.held ++ others)) :=
        (hbefore.append_left s.held).trans List.perm_middle
      have hperm : (s.step (.destroy p)).holding.live.Perm (s.holding.live.erase
          ⟨(s.kernel.processes p).kernelStack, kernelStackSize / pageSize⟩) := by
        have herase := hlive.erase ⟨(s.kernel.processes p).kernelStack, kernelStackSize / pageSize⟩
        rw [List.erase_cons_head] at herase
        exact (hafter.append_left s.held).trans herase.symm
      have hfreed := h.ledger.free (hlive.mem_iff.mpr List.mem_cons_self)
      change Ownership.Ledger _ _ (Pmm.freePages _) _
      rw [show (s.step (.destroy p)).holding.pmm = _ from hpmm]
      exact hfreed.perm hperm
    · have htable : ((s.kernel.processDestroy p).processes r).pageTable =
          (s.kernel.processes r).pageTable := by
        rw [hprocesses]
        by_cases hr : r = p <;> simp [hr]
      exact htable.trans (h.noTable r)

theorem Sound.step (h : s.Sound es) {call : PageCall} (hmatch : s.Matching call) :
    (s.step call).Sound es := by
  cases call with
  | pmm call => exact h.pmm hmatch
  | create name entry priority => exact h.create name entry priority
  | destroy p => exact h.destroy p

theorem Sound.run (h : s.Sound es) (hrun : Run s s') : s'.Sound es := by
  induction hrun with
  | refl => exact h
  | tail _ hstep ih =>
      obtain ⟨call, hmatch, rfl⟩ := hstep
      exact ih.step hmatch

theorem pmm_kernelMain {mem : ByteMemory} {info : BootInfo} {km : KernelMemory}
    (hmain : kernelMain mem info = some km) :
    km.pmm = Pmm.pmmInit mem info.mmap info.mmapEntries ⟨fun _ => 0, 0, 0⟩ := by
  simp only [kernelMain] at hmain
  split at hmain
  · cases hmain
  · obtain rfl := Option.some_inj.mp hmain
    rfl

theorem sound_start {mem : ByteMemory} {info : BootInfo} {km : KernelMemory}
    (hmain : kernelMain mem info = some km) (haccept : Pmm.Accepts info.mmap info.mmapEntries)
    (kernelPml4 : X86.Word) (tssRsp0 : Nat) (cr3 : X86.Word) :
    (start km kernelPml4 tssRsp0 cr3).Sound (Pmm.memoryMap mem info.mmap info.mmapEntries) := by
  have hpmm := pmm_kernelMain hmain
  have hnone : (start km kernelPml4 tssRsp0 cr3).kernel.threadStacks = [] := by
    rw [Kernel.threadStacks, List.filterMap_eq_nil_iff]
    intro p _
    rfl
  refine ⟨?_, fun p => rfl⟩
  have hinit : Holding.Sound _ ⟨km.pmm, []⟩ := hpmm ▸ Holding.sound_pmmInit haccept _
  rw [holding, hnone]
  exact hinit

/-- The addresses `kernel_main` gives to `heap_init`. -/
def InKernelHeap (addr : Nat) : Prop :=
  kernelHeapStart ≤ addr ∧ addr < kernelHeapStart + kernelHeapSize

instance (addr : Nat) : Decidable (InKernelHeap addr) := inferInstanceAs (Decidable (_ ∧ _))

/-- No byte of a page that is handed out belongs to the heap. -/
def ApartFromHeap (s : PageUsers) : Prop :=
  ∀ a ∈ s.holding.live, ∀ addr, addr / pageSize ∈ a.pages → ¬ InKernelHeap addr

theorem Sound.apartFromHeap (h : s.Sound es)
    (hes : ∀ addr, InKernelHeap addr → ¬ Pmm.UsablePage es (addr / pageSize)) : s.ApartFromHeap :=
  fun a ha addr hpage hheap => hes addr hheap (h.ledger.live_subset a ha hpage).2.2

def freeBelow (pmm : Pmm) (q : Nat) : Finset Nat :=
  (Finset.range (q + 1)).filter fun r => pmm.bitmapTest r = false

theorem card_freeBelow_markRange {pmm : Pmm} {q r : Nat} (hle : r ≤ q)
    (hfree : pmm.bitmapTest r = false) :
    (freeBelow (pmm.markRange r 1) q).card < (freeBelow pmm q).card := by
  refine Finset.card_lt_card ((Finset.ssubset_iff_of_subset ?_).mpr ⟨r, ?_, ?_⟩)
  · intro x hx
    simp only [freeBelow, Finset.mem_filter, Pmm.bitmapTest_markRange, Bool.or_eq_false_iff] at hx ⊢
    exact ⟨hx.1, hx.2.2⟩
  · simp only [freeBelow, Finset.mem_filter, Finset.mem_range]
    exact ⟨by omega, hfree⟩
  · simp [freeBelow, Pmm.bitmapTest_markRange]

theorem allocPage_progress {q : Nat} (hfirst : pmmFirstPage ≤ q)
    (hfree : s.kernel.pmm.bitmapTest q = false) :
    (∃ a ∈ (s.step (.pmm .allocPage)).holding.live, q ∈ a.pages) ∨
      (s.step (.pmm .allocPage)).kernel.pmm.bitmapTest q = false ∧
        (freeBelow (s.step (.pmm .allocPage)).kernel.pmm q).card <
          (freeBelow s.kernel.pmm q).card := by
  have hmax : q + 1 ≤ pmmMaxPages := Pmm.lt_of_bitmapTest_eq_false hfree
  have hwindow : s.kernel.pmm.Window 1 q := ⟨hfirst, hmax, fun r hle hlt => by
    rwa [show r = q by omega]⟩
  obtain ⟨r, hr, hleast, halloc⟩ | ⟨hnone, -⟩ := Pmm.pmmAllocPage_firstFit s.kernel.pmm
  · have hle : r ≤ q := hleast q hwindow
    have hrfree := hr.free r le_rfl (by omega)
    have hpmm : (s.step (.pmm .allocPage)).kernel.pmm = s.kernel.pmm.markRange r 1 := by
      simp only [step, Holding.step, halloc]
      rfl
    by_cases heq : r = q
    · have hheld : (s.step (.pmm .allocPage)).held = ⟨r * pageSize, 1⟩ :: s.held := by
        simp only [step, Holding.step, halloc]
        rfl
      have hdiv : r * pageSize / pageSize = r := Nat.mul_div_cancel r (by decide)
      refine .inl ⟨⟨r * pageSize, 1⟩, List.mem_append_left _ (hheld ▸ List.mem_cons_self), ?_⟩
      simp only [Pmm.Allocation.mem_pages, hdiv]
      omega
    · rw [hpmm]
      refine .inr ⟨?_, card_freeBelow_markRange hle hrfree⟩
      rw [Pmm.bitmapTest_markRange, hfree, Bool.or_false, decide_eq_false_iff_not]
      omega
  · exact absurd hwindow (hnone q)

theorem exists_run_allocPage {q : Nat} (hfirst : pmmFirstPage ≤ q)
    (hfree : s.kernel.pmm.bitmapTest q = false) :
    ∃ s' a, Run s s' ∧ a ∈ s'.holding.live ∧ q ∈ a.pages := by
  induction hn : (freeBelow s.kernel.pmm q).card using Nat.strong_induction_on generalizing s with
  | _ n ih =>
      have hrun : Run s (s.step (.pmm .allocPage)) :=
        Relation.ReflTransGen.single ⟨.pmm .allocPage, trivial, rfl⟩
      obtain ⟨a, ha, hq⟩ | ⟨hstill, hless⟩ := allocPage_progress hfirst hfree
      · exact ⟨_, a, hrun, ha, hq⟩
      · obtain ⟨s', a, hrest, ha, hq⟩ := ih _ (hn ▸ hless) hstill rfl
        exact ⟨s', a, hrun.trans hrest, ha, hq⟩

theorem exists_run_in_heap {mem : ByteMemory} {info : BootInfo} {km : KernelMemory}
    (hmain : kernelMain mem info = some km) (haccept : Pmm.Accepts info.mmap info.mmapEntries)
    {addr : Nat} (haddr : InKernelHeap addr)
    (husable : Pmm.UsablePage (Pmm.memoryMap mem info.mmap info.mmapEntries) (addr / pageSize))
    (kernelPml4 : X86.Word) (tssRsp0 : Nat) (cr3 : X86.Word) :
    ∃ s, Run (start km kernelPml4 tssRsp0 cr3) s ∧ ¬ s.ApartFromHeap := by
  obtain ⟨hstart, hend⟩ := haddr
  have hfirst : pmmFirstPage ≤ addr / pageSize := by
    simp only [kernelHeapStart, pmmFirstPage_eq, pageSize_eq] at *
    omega
  have hlast : addr / pageSize < pmmMaxPages := by
    simp only [kernelHeapStart, kernelHeapSize, pmmMaxPages_eq, pageSize_eq] at *
    omega
  have hfree : (start km kernelPml4 tssRsp0 cr3).kernel.pmm.bitmapTest (addr / pageSize) = false := by
    change km.pmm.bitmapTest _ = false
    rw [pmm_kernelMain hmain]
    exact (Pmm.bitmapTest_pmmInit haccept).mpr ⟨hfirst, hlast, husable⟩
  obtain ⟨s, a, hrun, ha, hpage⟩ := exists_run_allocPage hfirst hfree
  exact ⟨s, hrun, fun hapart => hapart a ha addr hpage ⟨hstart, hend⟩⟩

/-- **Heap and page allocator.** For an accepted map, the pages handed out stay apart from the heap in
every run exactly if no usable entry covers a page of the heap. -/
theorem apartFromHeap_iff {mem : ByteMemory} {info : BootInfo} {km : KernelMemory}
    (hmain : kernelMain mem info = some km) (haccept : Pmm.Accepts info.mmap info.mmapEntries)
    (kernelPml4 : X86.Word) (tssRsp0 : Nat) (cr3 : X86.Word) :
    (∀ s, Run (start km kernelPml4 tssRsp0 cr3) s → s.ApartFromHeap) ↔
      ∀ addr, InKernelHeap addr →
        ¬ Pmm.UsablePage (Pmm.memoryMap mem info.mmap info.mmapEntries) (addr / pageSize) := by
  constructor
  · intro hall addr haddr husable
    obtain ⟨s, hrun, hclash⟩ :=
      exists_run_in_heap hmain haccept haddr husable kernelPml4 tssRsp0 cr3
    exact hclash (hall s hrun)
  · intro hes s hrun
    exact ((sound_start hmain haccept kernelPml4 tssRsp0 cr3).run hrun).apartFromHeap hes

def oneEntryInfo : BootInfo where
  magic := bootInfoMagic
  version := 1
  mmapEntries := 1
  mmapEntrySize := 40
  mmap := 4096

theorem usablePage_oneRegion {start pages p : Nat} (hstart : start < 2 ^ 64) (hpages : pages < 2 ^ 64) :
    Pmm.UsablePage (Pmm.memoryMap (oneRegion 4096 start pages) 4096 1) p ↔
      start / pageSize ≤ p ∧ p < start / pageSize + pages := by
  obtain ⟨htype, hphysical, hnum⟩ := load_oneRegion (a := 4096) (by decide) hstart hpages
  have hmap : Pmm.memoryMap (oneRegion 4096 start pages) 4096 1 =
      [MemoryMapEntry.load (oneRegion 4096 start pages) 4096] := rfl
  rw [hmap]
  simp only [Pmm.UsablePage, List.mem_singleton, exists_eq_left, MemoryMapEntry.Usable,
    MemoryMapEntry.Covers, htype, hphysical, hnum]
  simp

def kernelMemoryOf (mem : ByteMemory) : KernelMemory :=
  ⟨Pmm.pmmInit mem 4096 1 ⟨fun _ => 0, 0, 0⟩,
    Heap.heapInit ⟨mem, 0, 0, 0⟩ kernelHeapStart kernelHeapSize⟩

theorem kernelMain_oneEntryInfo (mem : ByteMemory) :
    kernelMain mem oneEntryInfo = some (kernelMemoryOf mem) := if_neg (by decide)

theorem apartFromHeap_eightMiB :
    ((start (kernelMemoryOf (oneRegion 4096 0x800000 0x1000)) 0 0 0).step
      (.create [65] 0 16)).ApartFromHeap := by
  refine (apartFromHeap_iff (kernelMain_oneEntryInfo _) (by decide) 0 0 0).mpr
    (fun addr haddr husable => ?_) _ (Relation.ReflTransGen.single ⟨.create [65] 0 16, trivial, rfl⟩)
  have hpage := (usablePage_oneRegion (by decide) (by decide)).mp husable
  simp only [InKernelHeap, kernelHeapStart, kernelHeapSize, pageSize_eq] at *
  omega

theorem not_apartFromHeap_oneMiB : ¬ ∀ mem info km kernelPml4 tssRsp0 cr3 s,
    kernelMain mem info = some km → Pmm.Accepts info.mmap info.mmapEntries →
    Run (start km kernelPml4 tssRsp0 cr3) s → s.ApartFromHeap := by
  intro h
  have hmain := kernelMain_oneEntryInfo (oneRegion 4096 0x100000 0xFF00)
  have hheap : InKernelHeap 0x400000 := by decide
  have husable : Pmm.UsablePage (Pmm.memoryMap (oneRegion 4096 0x100000 0xFF00) 4096 1)
      (0x400000 / pageSize) := (usablePage_oneRegion (by decide) (by decide)).mpr (by decide)
  obtain ⟨s, hrun, hclash⟩ := exists_run_in_heap hmain (by decide) hheap husable 0 0 0
  exact hclash (h _ _ _ _ _ _ s hmain (by decide) hrun)

end PageUsers

end SimpleOs
