import Mathlib

/-!
# Interrupt controllers

The 8259A with fixed priorities and edge-triggered lines, and two of them as a PC has them: the second one
drives line 2 of the first. Of the commands there are the initialization and the end of an interrupt that
does not name a line; the modes that only other commands turn on are left out.
-/

/-- Which word a write to the data port is. -/
inductive IcwState where
  | ready
  | icw2
  | icw3
  | icw4
deriving Repr, DecidableEq

/-- The request, in-service and mask registers and what the initialization words have set. -/
structure Pic8259 where
  irr : BitVec 8
  isr : BitVec 8
  imr : BitVec 8
  vectorBase : BitVec 8
  cascade : BitVec 8
  icw4Needed : Bool
  icwState : IcwState
deriving Repr, DecidableEq

namespace Pic8259

/-- The lowest line has the highest priority. -/
def first (lines : BitVec 8) : Option Nat := (List.range 8).find? lines.getLsbD

/-- The line of which the controller asks the processor to take an interrupt: one that is requested and not
masked, if none of its priority or of a higher one is in service. -/
def interrupt (c : Pic8259) : Option Nat :=
  (first (c.irr &&& ~~~c.imr)).filter fun line =>
    c.icwState = .ready ∧ ∀ n ≤ line, c.isr.getLsbD n = false

def request (c : Pic8259) (line : Nat) : Pic8259 := { c with irr := c.irr ||| BitVec.twoPow 8 line }

def acknowledge (c : Pic8259) (line : Nat) : Pic8259 :=
  { c with
    irr := c.irr &&& ~~~BitVec.twoPow 8 line
    isr := c.isr ||| BitVec.twoPow 8 line }

/-- The interrupt of the highest priority is no longer in service. -/
def endOfInterrupt (c : Pic8259) : Pic8259 :=
  match first c.isr with
  | none => c
  | some line => { c with isr := c.isr &&& ~~~BitVec.twoPow 8 line }

def writeCommand (c : Pic8259) (v : BitVec 8) : Pic8259 :=
  if v.getLsbD 4 then
    { c with irr := 0, isr := 0, imr := 0, icw4Needed := v.getLsbD 0, icwState := .icw2 }
  else if v = 0x20 then c.endOfInterrupt
  else c

def writeData (c : Pic8259) (v : BitVec 8) : Pic8259 :=
  match c.icwState with
  | .ready => { c with imr := v }
  | .icw2 => { c with vectorBase := v &&& 0xF8, icwState := .icw3 }
  | .icw3 => { c with cascade := v, icwState := if c.icw4Needed then .icw4 else .ready }
  | .icw4 => { c with icwState := .ready }

/-- The mask after a line has been enabled or disabled. -/
def switch (mask : BitVec 8) (line : Nat) (on : Bool) : BitVec 8 :=
  if on then mask &&& ~~~BitVec.twoPow 8 line else mask ||| BitVec.twoPow 8 line

end Pic8259

/-- Lines 0 to 7 are those of the master, 8 to 15 those of the slave. -/
structure PicPair where
  master : Pic8259
  slave : Pic8259
deriving Repr, DecidableEq

namespace PicPair

open Pic8259

/-- What is connected to line 2 of the master is the slave. -/
def request (p : PicPair) (line : Nat) : PicPair :=
  if line = 2 then p
  else if line < 8 then { p with master := p.master.request line }
  else { p with slave := p.slave.request (line - 8) }

/-- The mask register of a line is written, with the line enabled or disabled. -/
def switch (p : PicPair) (line : Nat) (on : Bool) : PicPair :=
  if line < 8 then { p with master := p.master.writeData (Pic8259.switch p.master.imr line on) }
  else { p with slave := p.slave.writeData (Pic8259.switch p.slave.imr (line - 8) on) }

/-- The interrupt of a line has been handled. -/
def endOfInterrupt (p : PicPair) (line : Nat) : PicPair :=
  ⟨p.master.endOfInterrupt, if 8 ≤ line then p.slave.endOfInterrupt else p.slave⟩

/-- The master with line 2 as the slave drives it. -/
def driven (p : PicPair) : Pic8259 :=
  match p.slave.interrupt with
  | none => { p.master with irr := p.master.irr &&& ~~~BitVec.twoPow 8 2 }
  | some _ => p.master.request 2

/-- The vector of the interrupt that the processor takes, its line, and the controllers after that. For a
line of the master to which it has been told that there is a slave, the slave gives the vector, if it has
been told that it is the one on this line. -/
def accept (p : PicPair) : Option (BitVec 8 × Nat × PicPair) := do
  let line ← p.driven.interrupt
  let master := p.driven.acknowledge line
  if p.master.cascade.getLsbD line then
    if line = 2 ∧ p.slave.cascade = 2 then
      let n ← p.slave.interrupt
      some (p.slave.vectorBase + BitVec.ofNat 8 n, 8 + n, ⟨master, p.slave.acknowledge n⟩)
    else none
  else some (p.master.vectorBase + BitVec.ofNat 8 line, line, { p with master := master })

end PicPair

namespace Pic8259

variable {c : Pic8259} {v : BitVec 8} {line n : Nat}

theorem getLsbD_set (hn : n < 8) :
    (v ||| BitVec.twoPow 8 line).getLsbD n = if n = line then true else v.getLsbD n := by
  rw [BitVec.getLsbD_or, BitVec.getLsbD_twoPow]
  by_cases h : n = line
  · subst h
    simp [hn]
  · simp [h, Ne.symm h]

theorem getLsbD_clear (hn : n < 8) :
    (v &&& ~~~BitVec.twoPow 8 line).getLsbD n = if n = line then false else v.getLsbD n := by
  rw [BitVec.getLsbD_and, BitVec.getLsbD_not, BitVec.getLsbD_twoPow]
  by_cases h : n = line
  · simp [h]
  · simp [h, Ne.symm h, hn]

theorem first_twoPow : ∀ n < 8, first (BitVec.twoPow 8 n) = some n := by decide

theorem clear_twoPow : ∀ n < 8, BitVec.twoPow 8 n &&& ~~~BitVec.twoPow 8 n = 0#8 := by decide

theorem interrupt_eq (hready : c.icwState = .ready) (hidle : c.isr = 0) :
    c.interrupt = first (c.irr &&& ~~~c.imr) := by
  have hall : ∀ line, decide (c.icwState = .ready ∧ ∀ n ≤ line, c.isr.getLsbD n = false) = true :=
    fun line => decide_eq_true ⟨hready, fun n _ => by rw [hidle]; exact BitVec.getLsbD_zero⟩
  rw [interrupt]
  cases first (c.irr &&& ~~~c.imr) with
  | none => rfl
  | some line => exact Option.filter_some_pos (hall line)

theorem endOfInterrupt_eq (hline : line < 8) (hisr : c.isr = BitVec.twoPow 8 line) :
    c.endOfInterrupt = { c with isr := 0 } := by
  rw [endOfInterrupt, hisr, first_twoPow line hline]
  exact congrArg (fun isr => { c with isr := isr }) (clear_twoPow line hline)

theorem writeData_of_ready (hready : c.icwState = .ready) : c.writeData v = { c with imr := v } := by
  rw [writeData, hready]

theorem getLsbD_unmasked (hn : n < 8) :
    (v &&& ~~~c.imr).getLsbD n = (v.getLsbD n && !c.imr.getLsbD n) := by
  rw [BitVec.getLsbD_and, BitVec.getLsbD_not, decide_eq_true hn, Bool.true_and]

theorem getLsbD_switch (hn : n < 8) {on : Bool} :
    (switch v line on).getLsbD n = if n = line then !on else v.getLsbD n := by
  cases on
  · exact getLsbD_set hn
  · exact getLsbD_clear hn

end Pic8259

/-- Which of the lines are enabled and which are requested, and the vectors of their interrupts. -/
structure Arbiter where
  enabled : Nat → Bool
  pending : Nat → Bool
  vector : Nat → BitVec 8

namespace Arbiter

def enable (a : Arbiter) (line : Nat) (on : Bool) : Arbiter :=
  { a with enabled := Function.update a.enabled line on }

def request (a : Arbiter) (line : Nat) (on : Bool) : Arbiter :=
  { a with pending := Function.update a.pending line on }

/-- A request of the slave goes through line 2. -/
def deliverable (a : Arbiter) (line : Nat) : Bool :=
  a.pending line && a.enabled line && (decide (line < 8) || a.enabled 2)

/-- From the highest priority to the lowest. -/
def order : List Nat := [0, 1] ++ (List.range 8).map (8 + ·) ++ [3, 4, 5, 6, 7]

def next (a : Arbiter) : Option Nat := order.find? a.deliverable

variable {a : Arbiter} {line n : Nat} {on : Bool}

theorem enabled_enable :
    (a.enable line on).enabled n = if n = line then on else a.enabled n := Function.update_apply ..

theorem pending_request :
    (a.request line on).pending n = if n = line then on else a.pending n := Function.update_apply ..

end Arbiter

namespace PicPair

open Pic8259

variable {p : PicPair} {a : Arbiter} {m s : BitVec 8} {line n : Nat}

/-- The controllers are initialized and arbitrate as `a`; `m` and `s` are in service. -/
structure Arbitrates (p : PicPair) (a : Arbiter) (m s : BitVec 8) : Prop where
  ready : p.master.icwState = .ready ∧ p.slave.icwState = .ready
  cascade : p.master.cascade = 4 ∧ p.slave.cascade = 2
  vectors : ∀ n < 8, p.master.vectorBase + BitVec.ofNat 8 n = a.vector n ∧
    p.slave.vectorBase + BitVec.ofNat 8 n = a.vector (8 + n)
  service : p.master.isr = m ∧ p.slave.isr = s
  masterMask : ∀ n < 8, p.master.imr.getLsbD n = !a.enabled n
  slaveMask : ∀ n < 8, p.slave.imr.getLsbD n = !a.enabled (8 + n)
  masterRequests : ∀ n < 8, n ≠ 2 → p.master.irr.getLsbD n = a.pending n
  slaveRequests : ∀ n < 8, p.slave.irr.getLsbD n = a.pending (8 + n)

theorem Arbitrates.request (h : p.Arbitrates a m s) (hline : line < 16) (hslave : line ≠ 2) :
    (p.request line).Arbitrates (a.request line true) m s := by
  rw [PicPair.request, if_neg hslave]
  split
  · rename_i hmaster
    refine ⟨h.ready, h.cascade, h.vectors, h.service, h.masterMask, h.slaveMask, fun n hn hne => ?_, fun n hn => ?_⟩
    · rw [Arbiter.pending_request, ← h.masterRequests n hn hne]
      exact getLsbD_set hn
    · rw [Arbiter.pending_request, if_neg (by omega), h.slaveRequests n hn]
  · rename_i hmaster
    refine ⟨h.ready, h.cascade, h.vectors, h.service, h.masterMask, h.slaveMask, fun n hn hne => ?_, fun n hn => ?_⟩
    · rw [Arbiter.pending_request, if_neg (by omega), h.masterRequests n hn hne]
    · rw [Arbiter.pending_request, ← h.slaveRequests n hn]
      refine (getLsbD_set hn).trans (if_congr ?_ rfl rfl)
      omega

theorem Arbitrates.switch (h : p.Arbitrates a m s) (on : Bool) :
    (p.switch line on).Arbitrates (a.enable line on) m s := by
  unfold PicPair.switch
  split
  · rename_i hmaster
    rw [writeData_of_ready h.ready.1]
    refine ⟨h.ready, h.cascade, h.vectors, h.service, fun n hn => ?_, fun n hn => ?_, h.masterRequests,
      h.slaveRequests⟩
    · rw [Arbiter.enabled_enable, getLsbD_switch hn, h.masterMask n hn]
      split <;> rfl
    · rw [Arbiter.enabled_enable, if_neg (by omega), h.slaveMask n hn]
  · rename_i hmaster
    rw [writeData_of_ready h.ready.2]
    refine ⟨h.ready, h.cascade, h.vectors, h.service, fun n hn => ?_, fun n hn => ?_, h.masterRequests,
      h.slaveRequests⟩
    · rw [Arbiter.enabled_enable, if_neg (by omega), h.masterMask n hn]
    · rw [Arbiter.enabled_enable, getLsbD_switch hn, h.slaveMask n hn]
      by_cases heq : n = line - 8
      · rw [if_pos heq, if_pos (by omega)]
      · rw [if_neg heq, if_neg (by omega)]

theorem Arbitrates.endMaster (h : p.Arbitrates a (BitVec.twoPow 8 line) s) (hline : line < 8) :
    ({ p with master := p.master.endOfInterrupt } : PicPair).Arbitrates a 0 s := by
  rw [endOfInterrupt_eq hline h.service.1]
  exact ⟨h.ready, h.cascade, h.vectors, ⟨rfl, h.service.2⟩, h.masterMask, h.slaveMask, h.masterRequests,
    h.slaveRequests⟩

theorem Arbitrates.endSlave (h : p.Arbitrates a m (BitVec.twoPow 8 line)) (hline : line < 8) :
    ({ p with slave := p.slave.endOfInterrupt } : PicPair).Arbitrates a m 0 := by
  rw [endOfInterrupt_eq hline h.service.2]
  exact ⟨h.ready, h.cascade, h.vectors, ⟨h.service.1, rfl⟩, h.masterMask, h.slaveMask, h.masterRequests,
    h.slaveRequests⟩

theorem Arbitrates.slave_interrupt (h : p.Arbitrates a m 0) :
    p.slave.interrupt = (List.range 8).find? fun n => a.pending (8 + n) && a.enabled (8 + n) := by
  rw [interrupt_eq h.ready.2 h.service.2, first]
  refine List.find?_congr fun n hn => ?_
  have hn := List.mem_range.mp hn
  rw [getLsbD_unmasked hn, h.slaveRequests n hn, h.slaveMask n hn, Bool.not_not]

theorem driven_eq : p.driven = { p.master with irr := p.driven.irr } := by
  rw [driven]
  cases p.slave.interrupt <;> rfl

theorem getLsbD_driven (hn : n < 8) : p.driven.irr.getLsbD n =
    if n = 2 then p.slave.interrupt.isSome else p.master.irr.getLsbD n := by
  rw [driven]
  cases p.slave.interrupt with
  | none => exact getLsbD_clear hn
  | some _ => exact getLsbD_set hn

/-- Line 2 of the master is requested as long as the slave has an interrupt. -/
theorem Arbitrates.driven_interrupt (h : p.Arbitrates a 0 s) : p.driven.interrupt =
    (List.range 8).find? fun n =>
      (if n = 2 then p.slave.interrupt.isSome else a.pending n) && a.enabled n := by
  have hready : p.driven.icwState = .ready := by rw [driven_eq, h.ready.1]
  have hidle : p.driven.isr = 0 := by rw [driven_eq, h.service.1]
  have himr : p.driven.imr = p.master.imr := by rw [driven_eq]
  rw [interrupt_eq hready hidle, first, himr]
  refine List.find?_congr fun n hn => ?_
  have hn := List.mem_range.mp hn
  rw [getLsbD_unmasked hn, getLsbD_driven hn, h.masterMask n hn, Bool.not_not]
  by_cases htwo : n = 2
  · rw [if_pos htwo, if_pos htwo]
  · rw [if_neg htwo, if_neg htwo, h.masterRequests n hn htwo]

theorem find?_slave : ((List.range 8).map (8 + ·)).find? a.deliverable =
    if a.enabled 2 then
      ((List.range 8).find? fun n => a.pending (8 + n) && a.enabled (8 + n)).map (8 + ·)
    else none := by
  rw [List.find?_map]
  have hline : ∀ n, (a.deliverable ∘ (8 + ·)) n =
      (a.pending (8 + n) && a.enabled (8 + n) && a.enabled 2) := by
    intro n
    rw [Function.comp_apply, Arbiter.deliverable, decide_eq_false (by omega), Bool.false_or]
  split
  · rename_i hcascade
    refine congrArg (Option.map (8 + ·)) (List.find?_congr fun n _ => ?_)
    rw [hline, hcascade, Bool.and_true]
  · rename_i hcascade
    refine congrArg (Option.map (8 + ·)) (List.find?_eq_none.mpr fun n _ => ?_)
    rw [hline, Bool.eq_false_iff.mpr hcascade, Bool.and_false]
    exact Bool.false_ne_true

/-- The controllers ask for an interrupt of this line. -/
def AsksFor (p : PicPair) : Option Nat → Prop
  | none => p.driven.interrupt = none
  | some line =>
      line < 16 ∧ line ≠ 2 ∧
        if line < 8 then p.driven.interrupt = some line
        else p.driven.interrupt = some 2 ∧ p.slave.interrupt = some (line - 8)

theorem asksFor_master {o : Option Nat} (hmaster : ∀ line, o = some line → line < 8 ∧ line ≠ 2)
    (h : p.driven.interrupt = o) : p.AsksFor o := by
  cases o with
  | none => exact h
  | some line =>
      obtain ⟨hline, hne⟩ := hmaster line rfl
      exact ⟨by omega, hne, (if_pos hline).mpr h⟩

/-- What the two controllers ask for is the first line that can be delivered. -/
theorem Arbitrates.asksFor (h : p.Arbitrates a 0 0) : p.AsksFor a.next := by
  have hnext : a.next = (([0, 1].find? a.deliverable).or
      (((List.range 8).map (8 + ·)).find? a.deliverable)).or ([3, 4, 5, 6, 7].find? a.deliverable) := by
    rw [Arbiter.next, Arbiter.order, List.find?_append, List.find?_append]
  have hsplit : List.range 8 = [0, 1] ++ [2] ++ [3, 4, 5, 6, 7] := rfl
  have hline : ∀ n < 8, n ≠ 2 → ((if n = 2 then p.slave.interrupt.isSome else a.pending n) &&
      a.enabled n) = a.deliverable n := by
    intro n hn hne
    rw [if_neg hne, Arbiter.deliverable, decide_eq_true hn, Bool.true_or, Bool.and_true]
  have hlow : ∀ n ∈ [0, 1], n < 8 ∧ n ≠ 2 := by decide
  have hhigh : ∀ n ∈ [3, 4, 5, 6, 7], n < 8 ∧ n ≠ 2 := by decide
  have hdriven := h.driven_interrupt
  rw [hsplit, List.find?_append, List.find?_append, List.find?_singleton, if_pos rfl,
    List.find?_congr fun n hn => hline n (hlow n hn).1 (hlow n hn).2,
    List.find?_congr fun n hn => hline n (hhigh n hn).1 (hhigh n hn).2] at hdriven
  rw [find?_slave, ← h.slave_interrupt] at hnext
  cases hfirst : [0, 1].find? a.deliverable with
  | some line =>
      rw [hfirst] at hnext hdriven
      rw [hnext]
      exact asksFor_master (fun n hn => hlow n (List.mem_of_find?_eq_some (hfirst.trans hn))) hdriven
  | none =>
      rw [hfirst, Option.none_or] at hnext hdriven
      by_cases hmiddle : p.slave.interrupt.isSome ∧ a.enabled 2
      · obtain ⟨hsome, hcascade⟩ := hmiddle
        obtain ⟨n, hslave⟩ := Option.isSome_iff_exists.mp hsome
        have hn : n < 8 :=
          List.mem_range.mp (List.mem_of_find?_eq_some (h.slave_interrupt.symm.trans hslave))
        rw [hslave, hcascade] at hnext hdriven
        have hnext : a.next = some (8 + n) := hnext
        rw [hnext]
        refine ⟨by omega, by omega, (if_neg (by omega)).mpr ⟨hdriven, ?_⟩⟩
        rw [hslave, Nat.add_sub_cancel_left]
      · have hnone : (if a.enabled 2 then p.slave.interrupt.map (8 + ·) else none) = none := by
          rw [ite_eq_right_iff]
          intro hcascade
          rw [Option.map_eq_none_iff, ← Option.not_isSome_iff_eq_none]
          exact fun hsome => hmiddle ⟨hsome, hcascade⟩
        rw [hnone, Option.none_or] at hnext
        rw [if_neg fun hboth => hmiddle (Bool.and_eq_true_iff.mp hboth), Option.none_or] at hdriven
        rw [hnext]
        exact asksFor_master (fun n hn => hhigh n (List.mem_of_find?_eq_some hn)) hdriven

theorem Arbitrates.accept_none (h : p.Arbitrates a 0 0) (hnext : a.next = none) : p.accept = none := by
  have hasks := h.asksFor
  rw [hnext] at hasks
  rw [PicPair.accept, show p.driven.interrupt = none from hasks]
  rfl

theorem Arbitrates.acknowledge (h : p.Arbitrates a 0 s) (hline : line < 8) :
    ({ p with master := p.driven.acknowledge line } : PicPair).Arbitrates
      (if line = 2 then a else a.request line false) (BitVec.twoPow 8 line) s := by
  have hpending : ∀ n, n ≠ 2 → (if line = 2 then a else a.request line false).pending n =
      if n = line then false else a.pending n := by
    intro n hne
    split
    · rw [if_neg (by omega)]
    · exact Arbiter.pending_request
  have henabled : (if line = 2 then a else a.request line false).enabled = a.enabled := by
    split <;> rfl
  have hvector : (if line = 2 then a else a.request line false).vector = a.vector := by
    split <;> rfl
  rw [driven_eq]
  refine ⟨h.ready, h.cascade, ?_, ⟨?_, h.service.2⟩, ?_, ?_, fun n hn hne => ?_, fun n hn => ?_⟩
  · rw [hvector]
    exact h.vectors
  · exact (congrArg (· ||| BitVec.twoPow 8 line) h.service.1).trans BitVec.zero_or
  · rw [henabled]
    exact h.masterMask
  · rw [henabled]
    exact h.slaveMask
  · rw [hpending n hne, ← h.masterRequests n hn hne]
    refine (getLsbD_clear hn).trans (if_congr Iff.rfl rfl ?_)
    rw [getLsbD_driven hn, if_neg hne]
  · rw [hpending (8 + n) (by omega), if_neg (by omega), h.slaveRequests n hn]

theorem Arbitrates.acknowledgeSlave (h : p.Arbitrates a m 0) :
    ({ p with slave := p.slave.acknowledge line } : PicPair).Arbitrates (a.request (8 + line) false) m
      (BitVec.twoPow 8 line) := by
  refine ⟨h.ready, h.cascade, h.vectors, ⟨h.service.1, ?_⟩, h.masterMask, h.slaveMask, fun n hn hne => ?_,
    fun n hn => ?_⟩
  · exact (congrArg (· ||| BitVec.twoPow 8 line) h.service.2).trans BitVec.zero_or
  · rw [Arbiter.pending_request, if_neg (by omega), h.masterRequests n hn hne]
  · rw [Arbiter.pending_request, ← h.slaveRequests n hn]
    refine (getLsbD_clear hn).trans (if_congr ?_ rfl rfl)
    omega

theorem getLsbD_four : ∀ n < 8, n ≠ 2 → (4#8).getLsbD n = false := by decide

/-- What the master and the slave have in service while an interrupt of this line is handled. -/
def inService (line : Nat) : BitVec 8 × BitVec 8 :=
  if line < 8 then (BitVec.twoPow 8 line, 0) else (BitVec.twoPow 8 2, BitVec.twoPow 8 (line - 8))

theorem Arbitrates.accept_some (h : p.Arbitrates a 0 0) (hnext : a.next = some line) :
    ∃ p', p.accept = some (a.vector line, line, p') ∧ line < 16 ∧
      p'.Arbitrates (a.request line false) (inService line).1 (inService line).2 := by
  have hasks := h.asksFor
  rw [hnext] at hasks
  obtain ⟨hline, hne, hasks⟩ := hasks
  rw [inService]
  by_cases hmaster : line < 8
  · rw [if_pos hmaster] at hasks ⊢
    have hcascade : p.master.cascade.getLsbD line = false := by
      rw [h.cascade.1]
      exact getLsbD_four line hmaster hne
    have hafter := h.acknowledge hmaster
    rw [if_neg hne] at hafter
    refine ⟨_, ?_, hline, hafter⟩
    rw [PicPair.accept, hasks]
    simp only [Option.bind_eq_bind, Option.bind_some, hcascade, ← (h.vectors line hmaster).1]
    rfl
  · rw [if_neg hmaster] at hasks ⊢
    obtain ⟨n, rfl⟩ := Nat.exists_eq_add_of_le (Nat.le_of_not_lt hmaster)
    rw [Nat.add_sub_cancel_left] at hasks ⊢
    have hcascade : p.master.cascade.getLsbD 2 = true := by
      rw [h.cascade.1]
      rfl
    refine ⟨_, ?_, hline, (h.acknowledge (show 2 < 8 by decide)).acknowledgeSlave⟩
    rw [PicPair.accept, hasks.1]
    simp only [Option.bind_eq_bind, Option.bind_some, hcascade, hasks.2, h.cascade.2,
      ← (h.vectors n (by omega)).2]
    rfl

theorem Arbitrates.endOfInterrupt (h : p.Arbitrates a (inService line).1 (inService line).2)
    (hline : line < 16) : (p.endOfInterrupt line).Arbitrates a 0 0 := by
  rw [inService] at h
  rw [PicPair.endOfInterrupt]
  by_cases hmaster : line < 8
  · rw [if_pos hmaster] at h
    rw [if_neg (by omega)]
    exact h.endMaster hmaster
  · rw [if_neg hmaster] at h
    rw [if_pos (by omega)]
    exact (h.endMaster (by decide)).endSlave (by omega)

end PicPair
