import SimpleOs.Boot.BootKernel

/-!
# The memory map buffer of the bootloader

`boot_kernel` allocates its buffer once, for the map it was told of first. When `ExitBootServices`
fails it asks for the size again and passes what it is told then, with the same buffer, and it keeps
the descriptor size of the first map. So the calls are right as long as the map does not outgrow the
buffer between the two attempts and its descriptors keep their size.
-/

namespace SimpleOs

/-- A call of `GetMemoryMap`: the arguments, and what it left in the variables it is given. -/
structure MapCall where
  given : Nat
  buffer : Nat
  status : Nat
  mmapSize : Nat
  mapKey : Nat
  descSize : Nat
deriving DecidableEq

inductive Service where
  | getMemoryMap (call : MapCall)
  | allocatePool (size status buffer : Nat)
  | freePool (buffer : Nat)
  | exitBootServices (mapKey status : Nat)
deriving DecidableEq

namespace Firmware

variable {σ : Type} (fw : Firmware σ) (w : World σ) (info : BootInfo)

def query : MapReply σ := fw.getMemoryMap w 0 0

def pool : Nat × Nat × World σ := fw.allocatePool (fw.query w).world (mapBufferSize (fw.query w))

def firstMap : MapReply σ :=
  fw.getMemoryMap (fw.pool w).2.2 (mapBufferSize (fw.query w)) (fw.pool w).2.1

def firstExit : Nat × World σ := fw.exitBootServices (fw.firstMap w).world (fw.firstMap w).mapKey

def requery : MapReply σ := fw.getMemoryMap (fw.firstExit w).2 0 0

def secondMap : MapReply σ :=
  fw.getMemoryMap (fw.requery w).world (mapBufferSize (fw.requery w)) (fw.pool w).2.1

def secondExit : Nat × World σ := fw.exitBootServices (fw.secondMap w).world (fw.secondMap w).mapKey

/-- Boot info after the first attempt. -/
def firstInfo : BootInfo :=
  { info with
    mmap := (fw.pool w).2.1
    mmapEntries := (fw.firstMap w).mmapSize / (fw.firstMap w).descSize
    mmapEntrySize := (fw.firstMap w).descSize }

def secondInfo : BootInfo :=
  { fw.firstInfo w info with
    mmapEntries := (fw.secondMap w).mmapSize / (fw.secondMap w).descSize }

theorem bootKernel_eq : bootKernel fw w info =
    if (fw.query w).status ≠ efiBufferTooSmall then .returned (fw.query w).status (fw.query w).world
    else if EfiError (fw.pool w).1 then .returned (fw.pool w).1 (fw.pool w).2.2
    else if EfiError (fw.firstMap w).status then
      .returned (fw.firstMap w).status (fw.freePool (fw.firstMap w).world (fw.pool w).2.1)
    else if (fw.firstMap w).descSize = 0 then .divideError (fw.firstMap w).world
    else if EfiError (fw.firstExit w).1 then
      if EfiError (fw.secondMap w).status then
        .returned (fw.secondMap w).status (fw.secondMap w).world
      else if (fw.secondMap w).descSize = 0 then .divideError (fw.secondMap w).world
      else if EfiError (fw.secondExit w).1 then .returned (fw.secondExit w).1 (fw.secondExit w).2
      else .entered (fw.secondExit w).2 (fw.secondInfo w info)
    else .entered (fw.firstExit w).2 (fw.firstInfo w info) := rfl

end Firmware

section Recording

variable {σ : Type} {fw : Firmware σ} {w : World σ} {info : BootInfo}

def MapReply.call (r : MapReply σ) (given buffer : Nat) : MapCall :=
  ⟨given, buffer, r.status, r.mmapSize, r.mapKey, r.descSize⟩

def World.recorded (w : World σ) (log : List Service) : World (σ × List Service) :=
  ⟨(w.firmware, log), w.mem⟩

def World.forget (w : World (σ × List Service)) : World σ := ⟨w.firmware.1, w.mem⟩

def World.log (w : World (σ × List Service)) : List Service := w.firmware.2

/-- The same firmware, keeping a list of the calls made. -/
def Firmware.recording (fw : Firmware σ) : Firmware (σ × List Service) where
  getMemoryMap w mmapSize buffer :=
    let r := fw.getMemoryMap w.forget mmapSize buffer
    ⟨r.status, r.mmapSize, r.mapKey, r.descSize,
      r.world.recorded (w.log ++ [.getMemoryMap (r.call mmapSize buffer)])⟩
  allocatePool w size :=
    let (status, buffer, w') := fw.allocatePool w.forget size
    (status, buffer, w'.recorded (w.log ++ [.allocatePool size status buffer]))
  freePool w buffer := (fw.freePool w.forget buffer).recorded (w.log ++ [.freePool buffer])
  exitBootServices w mapKey :=
    let (status, w') := fw.exitBootServices w.forget mapKey
    (status, w'.recorded (w.log ++ [.exitBootServices mapKey status]))

def Outcome.world : Outcome σ → World σ
  | .returned _ w => w
  | .divideError w => w
  | .entered w _ => w

/-- `boot_kernel` with its calls recorded from the start. -/
def recordedBoot (fw : Firmware σ) (w : World σ) (info : BootInfo) : Outcome (σ × List Service) :=
  bootKernel fw.recording (w.recorded []) info

namespace Firmware

variable (fw : Firmware σ) (w : World σ)

/-- The calls of the first attempt up to its map, and with `ExitBootServices`. -/
def mapLog : List Service :=
  [.getMemoryMap ((fw.query w).call 0 0),
    .allocatePool (mapBufferSize (fw.query w)) (fw.pool w).1 (fw.pool w).2.1,
    .getMemoryMap ((fw.firstMap w).call (mapBufferSize (fw.query w)) (fw.pool w).2.1)]

def exitLog : List Service :=
  fw.mapLog w ++ [.exitBootServices (fw.firstMap w).mapKey (fw.firstExit w).1]

def remapLog : List Service :=
  fw.exitLog w ++ [.getMemoryMap ((fw.requery w).call 0 0),
    .getMemoryMap ((fw.secondMap w).call (mapBufferSize (fw.requery w)) (fw.pool w).2.1)]

def reexitLog : List Service :=
  fw.remapLog w ++ [.exitBootServices (fw.secondMap w).mapKey (fw.secondExit w).1]

end Firmware

theorem recordedBoot_eq (fw : Firmware σ) (w : World σ) (info : BootInfo) : recordedBoot fw w info =
    if (fw.query w).status ≠ efiBufferTooSmall then
      .returned (fw.query w).status ((fw.query w).world.recorded ((fw.mapLog w).take 1))
    else if EfiError (fw.pool w).1 then
      .returned (fw.pool w).1 ((fw.pool w).2.2.recorded ((fw.mapLog w).take 2))
    else if EfiError (fw.firstMap w).status then
      .returned (fw.firstMap w).status ((fw.freePool (fw.firstMap w).world (fw.pool w).2.1).recorded
        (fw.mapLog w ++ [.freePool (fw.pool w).2.1]))
    else if (fw.firstMap w).descSize = 0 then
      .divideError ((fw.firstMap w).world.recorded (fw.mapLog w))
    else if EfiError (fw.firstExit w).1 then
      if EfiError (fw.secondMap w).status then
        .returned (fw.secondMap w).status ((fw.secondMap w).world.recorded (fw.remapLog w))
      else if (fw.secondMap w).descSize = 0 then
        .divideError ((fw.secondMap w).world.recorded (fw.remapLog w))
      else if EfiError (fw.secondExit w).1 then
        .returned (fw.secondExit w).1 ((fw.secondExit w).2.recorded (fw.reexitLog w))
      else .entered ((fw.secondExit w).2.recorded (fw.reexitLog w)) (fw.secondInfo w info)
    else .entered ((fw.firstExit w).2.recorded (fw.exitLog w)) (fw.firstInfo w info) := by
  rw [recordedBoot, Firmware.bootKernel_eq]
  rfl

/-- Every call made with the allocated buffer passes at most the size it was allocated with. -/
def WithinBuffer (log : List Service) : Prop :=
  ∀ size status buffer, .allocatePool size status buffer ∈ log → ¬ EfiError status →
    ∀ call, .getMemoryMap call ∈ log → call.buffer = buffer → call.given ≤ size

def Service.readsMap : Service → Option MapCall
  | .getMemoryMap call => if EfiError call.status then none else some call
  | _ => none

/-- The last call of `GetMemoryMap` that succeeded. -/
def lastMap (log : List Service) : Option MapCall := (log.filterMap Service.readsMap).getLast?

/-- Boot info describes the map that was read last, and it is its key that was accepted. -/
def Describes (log : List Service) (info : BootInfo) : Prop :=
  ∃ call status, lastMap log = some call ∧ info.mmap = call.buffer ∧
    info.mmapEntries = call.mmapSize / call.descSize ∧ info.mmapEntrySize = call.descSize ∧
    log.getLast? = some (.exitBootServices call.mapKey status) ∧ ¬ EfiError status

def NeverOverstates (fw : Firmware σ) (w : World σ) (info : BootInfo) : Prop :=
  WithinBuffer (recordedBoot fw w info).world.log ∧
    ∀ w' info', recordedBoot fw w info = .entered w' info' → Describes w'.log info'

theorem WithinBuffer.mono {log log' : List Service} (h : WithinBuffer log')
    (hsub : log ⊆ log') : WithinBuffer log :=
  fun size status buffer hallocated hok call hcall =>
    h size status buffer (hsub hallocated) hok call (hsub hcall)

theorem describes_exit_iff (log : List Service) (call : MapCall) {info : BootInfo} {status : Nat}
    (hmap : ¬ EfiError call.status) (hexit : ¬ EfiError status) :
    Describes (log ++ [.getMemoryMap call, .exitBootServices call.mapKey status]) info ↔
      info.mmap = call.buffer ∧ info.mmapEntries = call.mmapSize / call.descSize ∧
        info.mmapEntrySize = call.descSize := by
  have hlast : lastMap (log ++ [.getMemoryMap call, .exitBootServices call.mapKey status]) =
      some call := by
    have hcall : Service.readsMap (.getMemoryMap call) = some call := if_neg hmap
    have hnone : [Service.exitBootServices call.mapKey status].filterMap Service.readsMap = [] := rfl
    rw [lastMap, List.filterMap_append, List.filterMap_cons_some hcall, hnone, List.getLast?_concat]
  constructor
  · rintro ⟨call', status', hcall', hmmap, hentries, hsize, -⟩
    obtain rfl : call = call' := Option.some_inj.mp (hlast.symm.trans hcall')
    exact ⟨hmmap, hentries, hsize⟩
  · rintro ⟨hmmap, hentries, hsize⟩
    exact ⟨call, status, hlast, hmmap, hentries, hsize, by simp, hexit⟩

namespace Firmware

variable (fw : Firmware σ) (w : World σ)

/-- Everything succeeds up to `ExitBootServices`, which fails. -/
def FailsOnce : Prop :=
  (fw.query w).status = efiBufferTooSmall ∧ ¬ EfiError (fw.pool w).1 ∧
    ¬ EfiError (fw.firstMap w).status ∧ (fw.firstMap w).descSize ≠ 0 ∧ EfiError (fw.firstExit w).1

/-- The second attempt succeeds. -/
def ThenSucceeds : Prop :=
  ¬ EfiError (fw.secondMap w).status ∧ (fw.secondMap w).descSize ≠ 0 ∧ ¬ EfiError (fw.secondExit w).1

/-- If `ExitBootServices` fails once, the map then asked for is not larger than the buffer; and if the
second attempt succeeds, its descriptors are of the size they were. -/
def KeepsToBuffer : Prop :=
  fw.FailsOnce w → mapBufferSize (fw.requery w) ≤ mapBufferSize (fw.query w) ∧
    (fw.ThenSucceeds w → (fw.secondMap w).descSize = (fw.firstMap w).descSize)

variable {fw : Firmware σ} {w : World σ}

theorem withinBuffer_mapLog (log : List Service)
    (hmap : ∀ call, .getMemoryMap call ∈ log → call.given ≤ mapBufferSize (fw.query w))
    (hpool : ∀ size status buffer, .allocatePool size status buffer ∉ log) :
    WithinBuffer (fw.mapLog w ++ log) := by
  intro size status buffer hallocated _ call hcall _
  simp only [mapLog, List.mem_append, List.mem_cons, List.not_mem_nil, or_false, reduceCtorEq,
    false_or, hpool, Service.allocatePool.injEq] at hallocated
  simp only [mapLog, List.mem_append, List.mem_cons, List.not_mem_nil, or_false, reduceCtorEq,
    false_or, Service.getMemoryMap.injEq] at hcall
  rw [hallocated.1]
  obtain (rfl | rfl) | hcall := hcall
  · exact Nat.zero_le _
  · exact le_rfl
  · exact hmap call hcall

/-- The second attempt keeps to the buffer exactly when it passes no more than its size. -/
theorem withinBuffer_remapLog_iff (hpool : ¬ EfiError (fw.pool w).1) (log : List Service)
    (hmap : ∀ call, .getMemoryMap call ∉ log)
    (halloc : ∀ size status buffer, .allocatePool size status buffer ∉ log) :
    WithinBuffer (fw.remapLog w ++ log) ↔
      mapBufferSize (fw.requery w) ≤ mapBufferSize (fw.query w) := by
  constructor
  · intro hwithin
    exact hwithin (mapBufferSize (fw.query w)) (fw.pool w).1 (fw.pool w).2.1
      (by simp [remapLog, exitLog, mapLog]) hpool
      ((fw.secondMap w).call (mapBufferSize (fw.requery w)) (fw.pool w).2.1) (by simp [remapLog]) rfl
  · intro hle
    rw [remapLog, exitLog, List.append_assoc, List.append_assoc]
    refine withinBuffer_mapLog _ (fun call hcall => ?_) fun size status buffer hallocated => ?_
    · simp only [List.mem_append, List.mem_cons, List.not_mem_nil, or_false, reduceCtorEq,
        false_or, Service.getMemoryMap.injEq, hmap] at hcall
      obtain rfl | rfl := hcall
      · exact Nat.zero_le _
      · exact hle
    · simp [halloc] at hallocated

theorem describes_exitLog (info : BootInfo) (hmap : ¬ EfiError (fw.firstMap w).status)
    (hexit : ¬ EfiError (fw.firstExit w).1) : Describes (fw.exitLog w) (fw.firstInfo w info) :=
  (describes_exit_iff
    [.getMemoryMap ((fw.query w).call 0 0),
      .allocatePool (mapBufferSize (fw.query w)) (fw.pool w).1 (fw.pool w).2.1]
    ((fw.firstMap w).call (mapBufferSize (fw.query w)) (fw.pool w).2.1) hmap hexit).mpr
    ⟨rfl, rfl, rfl⟩

/-- The second attempt keeps the descriptor size of the first. -/
theorem describes_reexitLog_iff (info : BootInfo) (hmap : ¬ EfiError (fw.secondMap w).status)
    (hexit : ¬ EfiError (fw.secondExit w).1) :
    Describes (fw.reexitLog w) (fw.secondInfo w info) ↔
      (fw.secondMap w).descSize = (fw.firstMap w).descSize := by
  have hiff : Describes _ (fw.secondInfo w info) ↔ _ := describes_exit_iff
    (fw.exitLog w ++ [.getMemoryMap ((fw.requery w).call 0 0)])
    ((fw.secondMap w).call (mapBufferSize (fw.requery w)) (fw.pool w).2.1) hmap hexit
  rw [List.append_assoc] at hiff
  rw [reexitLog, remapLog, List.append_assoc]
  exact hiff.trans ⟨fun h => h.2.2.symm, fun h => ⟨rfl, rfl, h.symm⟩⟩

end Firmware

open Firmware

variable {fw : Firmware σ} {w : World σ} {info : BootInfo}

theorem withinBuffer_firstAttempt (log : List Service)
    (hmap : ∀ call, .getMemoryMap call ∉ log)
    (hpool : ∀ size status buffer, .allocatePool size status buffer ∉ log) :
    WithinBuffer (fw.mapLog w ++ log) :=
  withinBuffer_mapLog log (fun call hcall => absurd hcall (hmap call)) hpool

theorem neverOverstates_of_not_failsOnce (h : ¬ fw.FailsOnce w) : NeverOverstates fw w info := by
  have hwhole : WithinBuffer (fw.mapLog w) := by
    have hnil : WithinBuffer (fw.mapLog w ++ []) := withinBuffer_firstAttempt [] (by simp) (by simp)
    rwa [List.append_nil] at hnil
  rw [NeverOverstates, recordedBoot_eq]
  by_cases hquery : (fw.query w).status ≠ efiBufferTooSmall
  · rw [if_pos hquery]
    exact ⟨hwhole.mono (List.take_subset 1 _), nofun⟩
  rw [if_neg hquery]
  by_cases hpool : EfiError (fw.pool w).1
  · rw [if_pos hpool]
    exact ⟨hwhole.mono (List.take_subset 2 _), nofun⟩
  rw [if_neg hpool]
  by_cases hmap : EfiError (fw.firstMap w).status
  · rw [if_pos hmap]
    exact ⟨withinBuffer_firstAttempt _ (by simp) (by simp), nofun⟩
  rw [if_neg hmap]
  by_cases hdesc : (fw.firstMap w).descSize = 0
  · rw [if_pos hdesc]
    exact ⟨hwhole, nofun⟩
  rw [if_neg hdesc]
  by_cases hexit : EfiError (fw.firstExit w).1
  · exact absurd ⟨not_not.mp hquery, hpool, hmap, hdesc, hexit⟩ h
  · rw [if_neg hexit]
    refine ⟨withinBuffer_firstAttempt _ (by simp) (by simp), fun w' info' heq => ?_⟩
    cases heq
    exact describes_exitLog info hmap hexit

theorem neverOverstates_iff_of_failsOnce (h : fw.FailsOnce w) : NeverOverstates fw w info ↔
    mapBufferSize (fw.requery w) ≤ mapBufferSize (fw.query w) ∧
      (fw.ThenSucceeds w → (fw.secondMap w).descSize = (fw.firstMap w).descSize) := by
  obtain ⟨hquery, hpool, hmap, hdesc, hexit⟩ := h
  have hremap : WithinBuffer (fw.remapLog w) ↔
      mapBufferSize (fw.requery w) ≤ mapBufferSize (fw.query w) := by
    have hnil := withinBuffer_remapLog_iff hpool [] (by simp) (by simp)
    rwa [List.append_nil] at hnil
  have hreexit : WithinBuffer (fw.reexitLog w) ↔
      mapBufferSize (fw.requery w) ≤ mapBufferSize (fw.query w) :=
    withinBuffer_remapLog_iff hpool _ (by simp) (by simp)
  rw [NeverOverstates, recordedBoot_eq, if_neg (not_not.mpr hquery), if_neg hpool, if_neg hmap,
    if_neg hdesc, if_pos hexit]
  split_ifs with hmap' hdesc' hexit'
  · exact and_congr hremap (iff_of_true nofun fun hthen => absurd hmap' hthen.1)
  · exact and_congr hremap (iff_of_true nofun fun hthen => absurd hdesc' hthen.2.1)
  · exact and_congr hreexit (iff_of_true nofun fun hthen => absurd hexit' hthen.2.2)
  · refine and_congr hreexit ⟨fun hdescribes _ => ?_, fun hsame w' info' heq => ?_⟩
    · exact (describes_reexitLog_iff info hmap' hexit').mp (hdescribes _ _ rfl)
    · cases heq
      exact (describes_reexitLog_iff info hmap' hexit').mpr (hsame ⟨hmap', hdesc', hexit'⟩)

/-- **The map buffer.** Whatever the firmware answers, `boot_kernel` passes no more than the size of its
buffer, and hands over a description of the map whose key was accepted, exactly when a failure of
`ExitBootServices` is not followed by a map that has outgrown the buffer or by an accepted one with
descriptors of another size. -/
theorem neverOverstates_iff (fw : Firmware σ) (w : World σ) (info : BootInfo) :
    NeverOverstates fw w info ↔ fw.KeepsToBuffer w := by
  by_cases h : fw.FailsOnce w
  · rw [neverOverstates_iff_of_failsOnce h]
    exact ⟨fun hkeeps _ => hkeeps, fun hkeeps => hkeeps h⟩
  · exact iff_of_true (neverOverstates_of_not_failsOnce h) fun hfails => absurd hfails h

/-- A firmware whose map has one descriptor of 48 bytes until `ExitBootServices` has failed once, and
`n` of them afterwards. -/
def growingFirmware (n : Nat) : Firmware Bool where
  getMemoryMap w _ buffer :=
    ⟨if buffer = 0 then efiBufferTooSmall else 0, (if w.firmware then n else 1) * 48, 0, 48, w⟩
  allocatePool w _ := (0, 0x9000, w)
  freePool w _ := w
  exitBootServices w _ := if w.firmware then (0, w) else (efiErrorMask + 2, ⟨true, w.mem⟩)

/-- The buffer is of 48 + 16 * 48 bytes; the call made with it after the failure passes 48 more. -/
theorem not_neverOverstates_growing :
    ¬ NeverOverstates (growingFirmware 2) ⟨false, ByteMemory.zero⟩ ⟨0, 0, 0, 0, 0⟩ := by
  rintro ⟨hwithin, -⟩
  have hcall := hwithin 816 0 0x9000 (by decide) (by decide) ⟨864, 0x9000, 0, 96, 0, 48⟩ (by decide) rfl
  exact absurd hcall (by decide)

end Recording

end SimpleOs
