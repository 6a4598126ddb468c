import SimpleOs.Lib.CString
import SimpleOs.Lib.Ring

/-!
# The command history

`kernel/shell/history.c`. A line is given as the string it points to; a line that is returned is given as
the index of its entry.
-/

namespace SimpleOs

def historyMaxEntries : Nat := 16
def historyMaxLine : Nat := 128

/-- The static variables. Only the selection is ever negative. -/
structure History where
  historyEntries : Nat → Nat → BitVec 8
  historyCount : Nat
  historyStart : Nat
  navPos : Int

/-- `str_equal`, the second string by the bytes before its terminator. -/
def strEqual (a : Nat → BitVec 8) : List (BitVec 8) → Bool
  | [] => a 0 == 0
  | c :: b => if a 0 ≠ 0 then if a 0 ≠ c then false else strEqual (fun i => a (i + 1)) b else a 0 == c

/-- The loop that copies a string from the `i`th byte on, at most `n` bytes, and the terminator. -/
def copyFrom (dst src : Nat → BitVec 8) (i : Nat) : Nat → (Nat → BitVec 8)
  | 0 => Function.update dst i 0
  | n + 1 =>
      if src i = 0 then Function.update dst i 0
      else copyFrom (Function.update dst i (src i)) src (i + 1) n

namespace History

def historyInit (h : History) : History :=
  { h with historyCount := 0, historyStart := 0, navPos := -1 }

def historyResetNav (h : History) : History := { h with navPos := -1 }

/-- The end of `history_add`. -/
def insert (h : History) (line : CString) : History :=
  let stored (i : Nat) :=
    Function.update h.historyEntries i
      (copyFrom (h.historyEntries i) line.byte 0 (historyMaxLine - 1))
  if h.historyCount < historyMaxEntries then
    { historyEntries := stored ((h.historyStart + h.historyCount) % historyMaxEntries)
      historyCount := h.historyCount + 1
      historyStart := h.historyStart
      navPos := -1 }
  else
    { historyEntries := stored h.historyStart
      historyCount := h.historyCount
      historyStart := (h.historyStart + 1) % historyMaxEntries
      navPos := -1 }

/-- `history_add`; `none` is `NULL`. -/
def historyAdd (h : History) : Option CString → History
  | none => h.historyResetNav
  | some line =>
      if line.byte 0 = 0 then h.historyResetNav
      else if 0 < h.historyCount ∧
          strEqual (h.historyEntries ((h.historyStart + h.historyCount - 1) % historyMaxEntries))
            line.bytes then
        h.historyResetNav
      else h.insert line

/-- The index of the entry at a distance from the newest. -/
def entryIndex (h : History) (fromNewest : Int) : Nat :=
  ((h.historyStart + h.historyCount - 1 - fromNewest : Int).tmod historyMaxEntries).toNat

/-- `history_prev`, with the entry it returns. -/
def historyPrev (h : History) : Option Nat × History :=
  if h.historyCount = 0 then (none, h)
  else
    let navPos := if h.navPos < h.historyCount - 1 then h.navPos + 1 else h.navPos
    (some (h.entryIndex navPos), { h with navPos := navPos })

/-- `history_next`, with the entry it returns. -/
def historyNext (h : History) : Option Nat × History :=
  if h.historyCount = 0 then (none, h)
  else if h.navPos = -1 then (none, h)
  else if h.navPos > 0 then
    (some (h.entryIndex (h.navPos - 1)), { h with navPos := h.navPos - 1 })
  else (none, { h with navPos := -1 })

/-- The string in an entry. -/
def line (h : History) (i : Nat) : CString := .ofArray (h.historyEntries i) historyMaxLine

/-- The lines that are stored, oldest first. -/
def lines (h : History) : List CString :=
  (Ring.contents h.historyEntries historyMaxEntries h.historyStart h.historyCount).map
    (CString.ofArray · historyMaxLine)

end History

inductive HistoryEvent where
  | add (line : Option CString)
  | prev
  | next
  | resetNav
deriving DecidableEq

namespace History

def step (h : History) : HistoryEvent → History
  | .add line => h.historyAdd line
  | .prev => h.historyPrev.2
  | .next => h.historyNext.2
  | .resetNav => h.historyResetNav

def run (h : History) (events : List HistoryEvent) : History := events.foldl step h

end History

end SimpleOs
