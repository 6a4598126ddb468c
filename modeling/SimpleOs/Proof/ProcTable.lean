import SimpleOs.Proof.ProcLife

/-!
# The process table, the PIDs and the stacks

Three records of who exists: the states in the table, `next_pid`, and the bitmap of the page allocator.
They agree after every sequence of creations and destructions: the live processes are numbered below
`next_pid`, each has two pages of its own that are marked used, and no other page has been taken.
-/

namespace SimpleOs

/-- What a caller can do with the table after `process_init`. -/
inductive ProcCall where
  | create (name : List (BitVec 8)) (entry : Nat) (priority : Int)
  | destroy (p : Option ProcPtr)
deriving Repr, DecidableEq

namespace ProcCall

def IsCreate : ProcCall → Prop
  | .create _ _ _ => True
  | .destroy _ => False

instance : DecidablePred IsCreate := fun call => by
  cases call <;> unfold IsCreate <;> infer_instance

end ProcCall

namespace Kernel

def stepProc (k : Kernel) : ProcCall → Kernel
  | .create name entry priority => (k.processCreateKernelThread name entry priority).2
  | .destroy none => k
  | .destroy (some p) => k.processDestroy p

def runProc (k : Kernel) (calls : List ProcCall) : Kernel := calls.foldl stepProc k

def live (k : Kernel) : Finset ProcPtr := Finset.univ.filter k.Live

variable {k k' : Kernel} {p q : ProcPtr} {calls : List ProcCall} {base : BitVec 64}

/-- What the table, `next_pid` and the page allocator agree on; `base` pages were in use at first. -/
structure Tabled (base : BitVec 64) (k : Kernel) : Prop where
  pid_range : ∀ p, k.Live p → 1 ≤ (k.processes p).pid.toNat ∧
    (k.processes p).pid.toNat ≤ k.nextPid.toNat - 1
  pid_injective : ∀ p q, k.Live p → k.Live q → (k.processes p).pid = (k.processes q).pid → p = q
  get_eq_some_iff : ∀ pid p, k.processGet pid = some p ↔ k.Live p ∧ (k.processes p).pid = pid
  get_eq_none_iff : ∀ pid, k.processGet pid = none ↔ ∀ p, k.Live p → (k.processes p).pid ≠ pid
  stack_used : ∀ p, k.Live p → ∃ page, page + 2 ≤ pmmMaxPages ∧
    (k.processes p).kernelStack = page * pageSize ∧
    k.pmm.bitmapTest page = true ∧ k.pmm.bitmapTest (page + 1) = true
  stack_apart : ∀ p q, p ≠ q → k.Live p → k.Live q →
    (k.processes p).kernelStack + kernelStackSize ≤ (k.processes q).kernelStack ∨
      (k.processes q).kernelStack + kernelStackSize ≤ (k.processes p).kernelStack
  used_pages : k.pmm.usedPages = base + 2 * BitVec.ofNat 64 k.live.card
  failed_create : ∀ name entry priority k',
    k.processCreateKernelThread name entry priority = (none, k') → k' = k
  create_destroy : ∀ name entry priority p k',
    k.processCreateKernelThread name entry priority = (some p, k') →
      (k'.processDestroy p).pmm.bitmap = k.pmm.bitmap

/-- The part of it that carries the induction. -/
structure Accounts (base : BitVec 64) (k : Kernel) : Prop where
  housed : k.Housed
  stack : ∀ p, k.Live p → ∃ page, pmmFirstPage ≤ page ∧ page + 2 ≤ pmmMaxPages ∧
    (k.processes p).kernelStack = page * pageSize
  next_pos : 0 < k.nextPid.toNat
  pid_range : ∀ p, k.Live p → 0 < (k.processes p).pid.toNat ∧
    (k.processes p).pid.toNat < k.nextPid.toNat
  pid_injective : ∀ p q, k.Live p → k.Live q → (k.processes p).pid = (k.processes q).pid → p = q
  used : k.pmm.usedPages = base + 2 * BitVec.ofNat 64 k.live.card

theorem mem_live : p ∈ k.live ↔ k.Live p := by
  simp [live]

section Spawned

variable {start entry : Nat} {name : List (BitVec 8)} {priority : Int}

theorem live_spawned_eq (hdead : ¬ k.Live p) :
    (k.spawned p start name entry priority).live.card = k.live.card + 1 := by
  have hinsert : (k.spawned p start name entry priority).live = insert p k.live := by
    ext q
    rw [Finset.mem_insert, mem_live, mem_live, live_spawned]
  rw [hinsert, Finset.card_insert_of_notMem fun hmem => hdead (mem_live.mp hmem)]

theorem pid_spawned_self : ((k.spawned p start name entry priority).processes p).pid = k.nextPid := by
  simp [spawned]

theorem Accounts.spawned (h : k.Accounts base) (hdead : ¬ k.Live p)
    (hwindow : k.pmm.Window (kernelStackSize / pageSize) start)
    (hnext : k.nextPid.toNat + 1 < 2 ^ 64) :
    (k.spawned p start name entry priority).Accounts base := by
  have hcount : (k.spawned p start name entry priority).nextPid.toNat = k.nextPid.toNat + 1 := by
    change (k.nextPid + 1).toNat = _
    rw [BitVec.toNat_add]
    exact Nat.mod_eq_of_lt hnext
  -- the new PID is none of those given out before
  have hnew : ∀ q, k.Live q → (k.processes q).pid ≠ k.nextPid := by
    intro q hq heq
    have hlt := (h.pid_range q hq).2
    rw [heq] at hlt
    exact lt_irrefl _ hlt
  refine ⟨h.housed.spawned hwindow, fun q hq => ?_, by omega, fun q hq => ?_,
    fun q r hq hr hpid => ?_, ?_⟩
  · by_cases hqp : q = p
    · refine ⟨start, hwindow.first_le, hwindow.le_max, ?_⟩
      simp [hqp, Kernel.spawned]
    · rw [processes_spawned hqp]
      exact h.stack q ((live_spawned.mp hq).resolve_left hqp)
  · rw [hcount]
    by_cases hqp : q = p
    · rw [hqp, pid_spawned_self]
      exact ⟨h.next_pos, Nat.lt_succ_self _⟩
    · rw [processes_spawned hqp]
      obtain ⟨hpos, hlt⟩ := h.pid_range q ((live_spawned.mp hq).resolve_left hqp)
      exact ⟨hpos, Nat.lt_succ_of_lt hlt⟩
  · by_cases hqp : q = p
    · by_cases hrp : r = p
      · exact hqp.trans hrp.symm
      · rw [hqp, pid_spawned_self, processes_spawned hrp] at hpid
        exact absurd hpid.symm (hnew r ((live_spawned.mp hr).resolve_left hrp))
    · have hq' := (live_spawned.mp hq).resolve_left hqp
      rw [processes_spawned hqp] at hpid
      by_cases hrp : r = p
      · rw [hrp, pid_spawned_self] at hpid
        exact absurd hpid (hnew q hq')
      · rw [processes_spawned hrp] at hpid
        exact h.pid_injective q r hq' ((live_spawned.mp hr).resolve_left hrp) hpid
  · rw [live_spawned_eq hdead]
    calc (k.spawned p start name entry priority).pmm.usedPages
        = k.pmm.usedPages + 2 := Pmm.usedPages_markRange
      _ = base + 2 * BitVec.ofNat 64 k.live.card + 2 := by rw [h.used]
      _ = base + 2 * BitVec.ofNat 64 (k.live.card + 1) := by
          rw [BitVec.ofNat_add, BitVec.mul_add, BitVec.add_assoc]
          rfl

end Spawned

theorem pmm_destroy (hp : k.Live p) (hstack : (k.processes p).kernelStack ≠ 0)
    (htable : (k.processes p).pageTable = 0) : (k.processDestroy p).pmm =
      k.pmm.pmmFreePages (k.processes p).kernelStack (kernelStackSize / pageSize) := by
  simp only [processDestroy, if_neg hp, if_pos hstack, if_neg (not_not.mpr htable)]

theorem nextPid_destroy : (k.processDestroy p).nextPid = k.nextPid := by
  unfold processDestroy
  simp only
  split <;> rfl

theorem live_destroy_eq (hp : k.Live p) :
    (k.processDestroy p).live.card + 1 = k.live.card := by
  have herase : (k.processDestroy p).live = k.live.erase p := by
    ext q
    rw [Finset.mem_erase, mem_live, mem_live, live_destroy, and_comm]
  rw [herase, Finset.card_erase_add_one (mem_live.mpr hp)]

theorem Accounts.destroy (h : k.Accounts base) (p : ProcPtr) : (k.processDestroy p).Accounts base := by
  refine ⟨h.housed.destroy p, fun q hq => ?_, by rw [nextPid_destroy]; exact h.next_pos,
    fun q hq => ?_, fun q r hq hr hpid => ?_, ?_⟩
  · obtain ⟨hq, hqp⟩ := live_destroy.mp hq
    rw [processes_destroy hqp]
    exact h.stack q hq
  · obtain ⟨hq, hqp⟩ := live_destroy.mp hq
    rw [processes_destroy hqp, nextPid_destroy]
    exact h.pid_range q hq
  · obtain ⟨hq, hqp⟩ := live_destroy.mp hq
    obtain ⟨hr, hrp⟩ := live_destroy.mp hr
    rw [processes_destroy hqp, processes_destroy hrp] at hpid
    exact h.pid_injective q r hq hr hpid
  · by_cases hp : k.Live p
    · obtain ⟨page, hfirst, hmax, hstack⟩ := h.stack p hp
      have hpage : (k.processes p).kernelStack / pageSize = page := by simp [hstack]
      have hne : (k.processes p).kernelStack ≠ 0 := by
        rw [pmmFirstPage_eq] at hfirst
        rw [hstack, pageSize_eq]
        omega
      have hused : ∀ q, page ≤ q → q < page + kernelStackSize / pageSize →
          k.pmm.bitmapTest q = true := by
        intro q hle hlt
        apply h.housed.used p hp
        rw [OnStack, hpage]
        exact ⟨hle, hlt⟩
      have hcard := live_destroy_eq hp
      rw [pmm_destroy hp hne (h.housed.kernel p hp), Pmm.pmmFreePages, hpage]
      calc (k.pmm.releaseRange page (kernelStackSize / pageSize)).usedPages
          = k.pmm.usedPages - 2 := Pmm.usedPages_releaseRange hmax hused
        _ = base + 2 * BitVec.ofNat 64 ((k.processDestroy p).live.card + 1) - 2 := by
            rw [h.used, hcard]
        _ = base + 2 * BitVec.ofNat 64 (k.processDestroy p).live.card := by
            rw [BitVec.ofNat_add, BitVec.mul_add, ← BitVec.add_assoc]
            exact BitVec.add_sub_cancel _ _
    · have hsame : k.processDestroy p = k := by
        rw [processDestroy]
        exact if_pos (not_not.mp hp)
      rw [hsame]
      exact h.used

theorem accounts_processInit (k : Kernel) : k.processInit.Accounts k.pmm.usedPages := by
  have hdead : ∀ p, ¬ k.processInit.Live p := fun p => by simp [Live, processInit]
  have hempty : k.processInit.live = ∅ :=
    Finset.eq_empty_of_forall_notMem fun p hmem => hdead p (mem_live.mp hmem)
  refine ⟨⟨fun p hp => absurd hp (hdead p), fun p q _ hp => absurd hp (hdead p),
    fun p hp => absurd hp (hdead p)⟩, fun p hp => absurd hp (hdead p), Nat.one_pos,
    fun p hp => absurd hp (hdead p), fun p q hp => absurd hp (hdead p), ?_⟩
  rw [hempty, Finset.card_empty]
  change k.pmm.usedPages = k.pmm.usedPages + 2 * 0#64
  rw [BitVec.mul_zero, BitVec.add_zero]

theorem Accounts.step (h : k.Accounts base) (call : ProcCall)
    (hnext : call.IsCreate → k.nextPid.toNat + 1 < 2 ^ 64) : (k.stepProc call).Accounts base ∧
      (k.stepProc call).nextPid.toNat ≤ k.nextPid.toNat + if call.IsCreate then 1 else 0 := by
  cases call with
  | create name entry priority =>
      obtain ⟨p, start, hdead, hwindow, heq⟩ | heq := k.create_cases name entry priority
      · rw [stepProc, heq]
        refine ⟨h.spawned hdead hwindow (hnext trivial), ?_⟩
        change (k.nextPid + 1).toNat ≤ k.nextPid.toNat + 1
        rw [BitVec.toNat_add]
        exact Nat.mod_le _ _
      · rw [stepProc, heq]
        exact ⟨h, Nat.le_add_right _ _⟩
  | destroy o =>
      cases o with
      | none => exact ⟨h, le_rfl⟩
      | some p => exact ⟨h.destroy p, by rw [stepProc, nextPid_destroy]; exact le_rfl⟩

theorem Accounts.run (h : k.Accounts base)
    (hnext : k.nextPid.toNat + calls.countP (fun call => call.IsCreate) < 2 ^ 64) :
    (k.runProc calls).Accounts base := by
  induction calls generalizing k with
  | nil => exact h
  | cons call calls ih =>
      rw [List.countP_cons] at hnext
      simp only [decide_eq_true_eq] at hnext
      obtain ⟨hstep, hle⟩ := h.step call fun hcreate => by
        rw [if_pos hcreate] at hnext
        omega
      exact ih hstep (by omega)

theorem processGet_eq_some (h : k.Accounts base) (pid : X86.Word) (p : ProcPtr) :
    k.processGet pid = some p ↔ k.Live p ∧ (k.processes p).pid = pid := by
  constructor
  · intro hget
    simpa [Live] using List.find?_some hget
  · rintro ⟨hp, hpid⟩
    cases hget : k.processGet pid with
    | none =>
        have hnone := List.find?_eq_none.mp hget p (List.mem_finRange p)
        simp only [decide_eq_true_eq] at hnone
        exact absurd ⟨hp, hpid⟩ hnone
    | some q =>
        have hq : k.Live q ∧ (k.processes q).pid = pid := by
          simpa [Live] using List.find?_some hget
        rw [h.pid_injective q p hq.1 hp (hq.2.trans hpid.symm)]

theorem Accounts.tabled (h : k.Accounts base) : k.Tabled base where
  pid_range p hp := by
    obtain ⟨hpos, hlt⟩ := h.pid_range p hp
    exact ⟨hpos, Nat.le_sub_one_of_lt hlt⟩
  pid_injective := h.pid_injective
  get_eq_some_iff := processGet_eq_some h
  get_eq_none_iff pid := by
    rw [Option.eq_none_iff_forall_ne_some]
    refine forall_congr' fun p => ?_
    rw [ne_eq, processGet_eq_some h, not_and]
  stack_used p hp := by
    obtain ⟨page, -, hmax, hstack⟩ := h.stack p hp
    have hpage : (k.processes p).kernelStack / pageSize = page := by simp [hstack]
    have hused : ∀ q, page ≤ q → q < page + 2 → k.pmm.bitmapTest q = true := by
      intro q hle hlt
      apply h.housed.used p hp
      rw [OnStack, hpage]
      exact ⟨hle, hlt⟩
    exact ⟨page, hmax, hstack, hused page le_rfl (by omega), hused (page + 1) (by omega) (by omega)⟩
  stack_apart p q hne hp hq := by
    obtain ⟨page, -, -, hstack⟩ := h.stack p hp
    obtain ⟨page', -, -, hstack'⟩ := h.stack q hq
    have hapart : page + 2 ≤ page' ∨ page' + 2 ≤ page := by
      by_contra hoverlap
      have hcommon : ∀ r, page ≤ r → r < page + 2 → ¬ (page' ≤ r ∧ r < page' + 2) := by
        intro r hle hlt
        have hnot := h.housed.apart p q hne hp hq r
        simp only [OnStack, hstack, hstack', pageSize_eq, Nat.mul_div_cancel _ (show 0 < 4096 by decide)]
          at hnot
        exact hnot ⟨hle, hlt⟩
      have hfirst := hcommon page le_rfl (by omega)
      have hsecond := hcommon (page + 1) (by omega) (by omega)
      omega
    rw [hstack, hstack', pageSize_eq, kernelStackSize]
    omega
  used_pages := h.used
  failed_create name entry priority k' hcreate := by
    obtain ⟨p, start, -, -, heq⟩ | heq := k.create_cases name entry priority
    · rw [heq] at hcreate
      cases hcreate
    · exact (Prod.mk.inj (heq.symm.trans hcreate)).2.symm
  create_destroy name entry priority p k' hcreate := by
    obtain ⟨start, -, hwindow, rfl⟩ := Kernel.eq_spawned_of_create hcreate
    have hlive : (k.spawned p start name entry priority).Live p := live_spawned.mpr (.inl rfl)
    have hstack : ((k.spawned p start name entry priority).processes p).kernelStack =
        start * pageSize := by simp [Kernel.spawned]
    have hne : start * pageSize ≠ 0 := by
      have hfirst := hwindow.first_le
      rw [pmmFirstPage_eq] at hfirst
      rw [pageSize_eq]
      omega
    have htable : ((k.spawned p start name entry priority).processes p).pageTable = 0 := by
      simp [Kernel.spawned]
    rw [pmm_destroy hlive (by rwa [hstack]) htable, hstack, Pmm.pmmFreePages,
      Nat.mul_div_cancel start (by decide)]
    exact Pmm.bitmap_releaseRange_markRange hwindow.le_max hwindow.free

/-- **Process table and stacks.** After `process_init` and any creations, fewer than `2 ^ 64 - 1`, and
destructions, whatever the page allocator had handed out before. -/
theorem processes_tabled (k : Kernel)
    (hcount : calls.countP (fun call => call.IsCreate) < 2 ^ 64 - 1) :
    (k.processInit.runProc calls).Tabled k.pmm.usedPages := by
  refine ((accounts_processInit k).run ?_).tabled
  change 1 + _ < 2 ^ 64
  omega

theorem processes_tabled_two :
    ((loaded ByteMemory.zero Pmm.allConventional 0 0 0).processInit.runProc
      [.create [97] 0x100000 5, .create [98] 0x200000 6, .destroy none]).Tabled
        Pmm.allConventional.usedPages := by
  have hcount : [ProcCall.create [97] 0x100000 5, .create [98] 0x200000 6, .destroy none].countP
      (fun call => call.IsCreate) < 2 ^ 64 - 1 := by decide
  exact processes_tabled (loaded ByteMemory.zero Pmm.allConventional 0 0 0) hcount

end Kernel

end SimpleOs
