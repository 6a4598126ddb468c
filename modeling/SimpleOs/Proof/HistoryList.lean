import SimpleOs.Lib.Recall
import SimpleOs.Shell.History

/-!
# The history recalls what was entered

The ring of entries holds, oldest first, the lines that a `Recall` keeps, and the selection is one less
than its cursor. Each function then does what the operation of the same name does.
-/

namespace SimpleOs

/-- The line that is entered by a call, if there is one. -/
def HistoryEvent.entered : HistoryEvent → Option CString
  | .add (some line) => if line.byte 0 = 0 then none else some line
  | _ => none

def HistoryEvent.Fits (e : HistoryEvent) : Prop := ∀ line, e = .add (some line) → line.length ≤ 127

theorem strEqual_eq {a : Nat → BitVec 8} {l b : List (BitVec 8)} (hl : 0 ∉ l) (hb : 0 ∉ b)
    (ha : ∀ i ≤ l.length, a i = l.getD i 0) : strEqual a b = decide (l = b) := by
  induction b generalizing a l with
  | nil =>
      cases l with
      | nil => rw [strEqual, ha 0 le_rfl]; rfl
      | cons d l =>
          have hhead : a 0 = d := ha 0 (Nat.zero_le _)
          have hd : d ≠ 0 := fun hd => hl (hd ▸ List.mem_cons_self)
          rw [strEqual, hhead, beq_eq_false_iff_ne.mpr hd, decide_eq_false (List.cons_ne_nil d l)]
  | cons c b ih =>
      have hc : c ≠ 0 := fun hc => hb (hc ▸ List.mem_cons_self)
      cases l with
      | nil =>
          have hhead : a 0 = 0 := ha 0 le_rfl
          rw [strEqual, hhead, if_neg (not_not_intro rfl), beq_eq_false_iff_ne.mpr hc.symm,
            decide_eq_false (List.cons_ne_nil c b).symm]
      | cons d l =>
          have hhead : a 0 = d := ha 0 (Nat.zero_le _)
          have hd : d ≠ 0 := fun hd => hl (hd ▸ List.mem_cons_self)
          have htail := ih (fun hmem => hl (List.mem_cons_of_mem d hmem))
            (fun hmem => hb (List.mem_cons_of_mem c hmem)) fun i hi => ha (i + 1) (Nat.succ_le_succ hi)
          rw [strEqual, hhead, if_pos hd, htail]
          by_cases hdc : d = c
          · simp [hdc]
          · simp [hdc]

theorem strEqual_of_storedIn {a : Nat → BitVec 8} {s : CString} (h : s.StoredIn a) (t : CString) :
    strEqual a t.bytes = decide (s = t) := by
  rw [strEqual_eq s.nonzero t.nonzero h]
  exact decide_eq_decide.mpr CString.ext_iff.symm

theorem storedIn_copyFrom {s : CString} {dst : Nat → BitVec 8} {i n : Nat} (hi : i ≤ s.length)
    (hn : s.length ≤ i + n) (hdst : ∀ j < i, dst j = s.byte j) :
    s.StoredIn (copyFrom dst s.byte i n) := by
  have hend : ∀ {i dst}, i = s.length → (∀ j < i, dst j = s.byte j) →
      s.StoredIn (Function.update dst i 0) := by
    rintro i dst rfl hdst j hj
    rcases Nat.lt_or_eq_of_le hj with hlt | rfl
    · rw [Function.update_of_ne hlt.ne, hdst j hlt]
    · rw [Function.update_self, CString.byte_length]
  induction n generalizing i dst with
  | zero => exact hend (by omega) hdst
  | succ n ih =>
      rw [copyFrom]
      split
      · rename_i hzero
        refine hend (Nat.le_antisymm hi ?_) hdst
        by_contra hlt
        exact CString.byte_ne_zero (Nat.not_le.mp hlt) hzero
      · rename_i hne
        have hlt : i < s.length := by
          apply Nat.lt_of_le_of_ne hi
          rintro rfl
          exact hne s.byte_length
        apply ih hlt (by omega)
        intro j hj
        rcases Nat.lt_or_eq_of_le (Nat.le_of_lt_succ hj) with hji | rfl
        · rw [Function.update_of_ne hji.ne, hdst j hji]
        · rw [Function.update_self]

namespace History

variable {h : History} {r : Recall CString historyMaxEntries} {line : CString} {i n : Nat}

@[simp]
theorem length_lines : h.lines.length = h.historyCount := by
  rw [lines, List.length_map, Ring.length_contents]

theorem getElem?_lines (hi : i < h.historyCount) :
    h.lines[i]? = some (h.line ((h.historyStart + i) % historyMaxEntries)) := by
  rw [lines, List.getElem?_map, Ring.getElem?_contents hi, Option.map_some, History.line]

theorem entryIndex_eq (hn : n < h.historyCount) :
    h.entryIndex n = (h.historyStart + (h.historyCount - 1 - n)) % historyMaxEntries := by
  have hnat : (h.historyStart + h.historyCount - 1 - n : Int) =
      (h.historyStart + (h.historyCount - 1 - n) : Nat) := by omega
  rw [entryIndex, hnat, ← Int.ofNat_tmod, Int.toNat_natCast]

theorem line_entryIndex (hn : n < h.historyCount) :
    some (h.line (h.entryIndex n)) = h.lines.reverse[n]? := by
  rw [List.getElem?_reverse (by rwa [length_lines]), length_lines,
    getElem?_lines (show h.historyCount - 1 - n < h.historyCount by omega), entryIndex_eq hn]

structure Represents (h : History) (r : Recall CString historyMaxEntries) : Prop where
  start_lt : h.historyStart < historyMaxEntries
  lines_eq : h.lines = r.entries
  length_lt : ∀ s ∈ r.entries, s.length < historyMaxLine
  navPos_eq : h.navPos = r.cursor - 1

theorem Represents.count_eq (hr : h.Represents r) : h.historyCount = r.entries.length := by
  rw [← hr.lines_eq, length_lines]

theorem represents_historyInit (h : History) : h.historyInit.Represents .empty where
  start_lt := show 0 < historyMaxEntries by decide
  lines_eq := rfl
  length_lt := fun s hs => absurd hs List.not_mem_nil
  navPos_eq := rfl

theorem Represents.reset (hr : h.Represents r) : h.historyResetNav.Represents r.reset where
  start_lt := hr.start_lt
  lines_eq := hr.lines_eq
  length_lt := hr.length_lt
  navPos_eq := rfl

theorem Represents.prev (hr : h.Represents r) : h.historyPrev.2.Represents r.prev := by
  have hcount := hr.count_eq
  have hnav := hr.navPos_eq
  have hcursor := r.cursor_le
  rw [historyPrev]
  split
  · refine ⟨hr.start_lt, hr.lines_eq, hr.length_lt, ?_⟩
    rw [hnav, Recall.cursor_prev]
    omega
  · refine ⟨hr.start_lt, hr.lines_eq, hr.length_lt, ?_⟩
    rw [Recall.cursor_prev]
    dsimp only
    split
    · omega
    · omega

theorem Represents.next (hr : h.Represents r) : h.historyNext.2.Represents r.next := by
  have hcount := hr.count_eq
  have hnav := hr.navPos_eq
  have hcursor := r.cursor_le
  have hrest : ∀ g : History, g.historyEntries = h.historyEntries →
      g.historyCount = h.historyCount → g.historyStart = h.historyStart →
      g.navPos = (r.cursor - 1 : Nat) - 1 → g.Represents r.next := by
    rintro ⟨entries, count, start, nav⟩ rfl rfl rfl hg
    exact ⟨hr.start_lt, hr.lines_eq, hr.length_lt, hg⟩
  rw [historyNext]
  split_ifs
  · exact hrest h rfl rfl rfl (by omega)
  · exact hrest h rfl rfl rfl (by omega)
  · exact hrest _ rfl rfl rfl (by dsimp only; omega)
  · exact hrest _ rfl rfl rfl (by dsimp only; omega)

theorem lines_insert (hstart : h.historyStart < historyMaxEntries)
    (hcount : h.historyCount ≤ historyMaxEntries) (hline : line.length < historyMaxLine) :
    (h.insert line).lines = (h.lines ++ [line]).rtake historyMaxEntries := by
  have hstored (i : Nat) : CString.ofArray
      (copyFrom (h.historyEntries i) line.byte 0 (historyMaxLine - 1)) historyMaxLine = line := by
    have hcopied : line.StoredIn
        (copyFrom (h.historyEntries i) line.byte 0 (historyMaxLine - 1)) :=
      storedIn_copyFrom (Nat.zero_le _) (by omega) fun j hj => absurd hj (Nat.not_lt_zero j)
    exact hcopied.ofArray_eq hline
  rw [insert, List.rtake, List.length_append, length_lines, List.length_singleton]
  split
  · rename_i hlt
    rw [show h.historyCount + 1 - historyMaxEntries = 0 by omega, List.drop_zero, lines,
      Ring.contents_push hlt, List.map_append, List.map_singleton, hstored]
    rfl
  · have hfull : h.historyCount = historyMaxEntries := by omega
    rw [hfull, Nat.add_sub_cancel_left, lines, Ring.contents_replace (by decide) hstart,
      List.map_append, List.map_singleton, hstored, List.map_tail, ← List.drop_one,
      List.drop_append_of_le_length (by rw [length_lines, hfull]; decide), lines, hfull]

theorem Represents.insert (hr : h.Represents r) (hline : line.length < historyMaxLine) :
    (h.insert line).Represents (r.push line) where
  start_lt := by
    rw [History.insert]
    split
    · exact hr.start_lt
    · exact Nat.mod_lt _ (by decide)
  lines_eq := by
    have hcount : h.historyCount ≤ historyMaxEntries := hr.count_eq ▸ r.length_le
    rw [lines_insert hr.start_lt hcount hline, hr.lines_eq, Recall.entries_push]
  length_lt s hs := by
    rw [Recall.entries_push] at hs
    rcases List.mem_append.mp (List.mem_of_mem_drop hs) with hold | hnew
    · exact hr.length_lt s hold
    · rwa [List.mem_singleton.mp hnew]
  navPos_eq := by
    rw [History.insert]
    split
    · rfl
    · rfl

/-- The newest entry is compared to the line. -/
theorem Represents.strEqual_newest (hr : h.Represents r) (hpos : 0 < h.historyCount) :
    strEqual (h.historyEntries ((h.historyStart + h.historyCount - 1) % historyMaxEntries))
      line.bytes = decide (r.entries.getLast? = some line) := by
  have hlast : r.entries.getLast? =
      some (h.line ((h.historyStart + h.historyCount - 1) % historyMaxEntries)) := by
    rw [List.getLast?_eq_getElem?, ← hr.count_eq, ← hr.lines_eq, getElem?_lines (by omega),
      Nat.add_sub_assoc hpos]
  have hshort := hr.length_lt _ (List.mem_of_getLast? hlast)
  rw [strEqual_of_storedIn (CString.storedIn_ofArray hshort)]
  apply decide_eq_decide.mpr
  rw [hlast, Option.some.injEq, History.line]

theorem Represents.add (hr : h.Represents r) (hline : line.length < historyMaxLine)
    (hne : line.byte 0 ≠ 0) : (h.historyAdd (some line)).Represents (r.add line) := by
  rw [historyAdd, if_neg hne, Recall.add]
  by_cases hpos : 0 < h.historyCount
  · rw [hr.strEqual_newest hpos]
    simp only [hpos, true_and, decide_eq_true_eq]
    split
    · exact hr.reset
    · exact hr.insert hline
  · have hnone : r.entries = [] := List.length_eq_zero_iff.mp (by rw [← hr.count_eq]; omega)
    rw [if_neg fun h => hpos h.1, if_neg (by simp [hnone])]
    exact hr.insert hline

theorem Represents.step (hr : h.Represents r) {e : HistoryEvent} (he : e.Fits)
    {as : List CString} (hkept : r.entries = Recall.kept historyMaxEntries as) :
    ∃ r' : Recall CString historyMaxEntries, (h.step e).Represents r' ∧
      r'.entries = Recall.kept historyMaxEntries (as ++ e.entered.toList) := by
  cases e with
  | add line =>
      cases line with
      | none => exact ⟨r.reset, hr.reset, by simp [HistoryEvent.entered, hkept]⟩
      | some line =>
          rw [HistoryEvent.entered, History.step]
          split
          · rename_i hzero
            rw [historyAdd, if_pos hzero]
            exact ⟨r.reset, hr.reset, by simp [hkept]⟩
          · rename_i hne
            exact ⟨r.add line, hr.add (Nat.lt_succ_of_le (he line rfl)) hne,
              Recall.entries_add (by decide) hkept⟩
  | prev => exact ⟨r.prev, hr.prev, by simp [HistoryEvent.entered, hkept]⟩
  | next => exact ⟨r.next, hr.next, by simp [HistoryEvent.entered, hkept]⟩
  | resetNav => exact ⟨r.reset, hr.reset, by simp [HistoryEvent.entered, hkept]⟩

theorem represents_run (h : History) {events : List HistoryEvent} (hfits : ∀ e ∈ events, e.Fits) :
    ∃ r : Recall CString historyMaxEntries, (h.historyInit.run events).Represents r ∧
      r.entries = Recall.kept historyMaxEntries (events.filterMap HistoryEvent.entered) := by
  induction events using List.reverseRecOn with
  | nil => exact ⟨.empty, represents_historyInit h, rfl⟩
  | append_singleton events e ih =>
      obtain ⟨r, hr, hkept⟩ := ih fun e' he' => hfits e' (List.mem_append_left _ he')
      obtain ⟨r', hr', hkept'⟩ :=
        hr.step (hfits e (List.mem_append_right _ (List.mem_singleton_self e))) hkept
      refine ⟨r', ?_, ?_⟩
      · rw [run, List.foldl_append]
        exact hr'
      · rw [List.filterMap_append, hkept']
        congr 2

theorem Represents.prevs (hr : h.Represents r) (k : Nat) :
    (h.run (List.replicate k .prev)).Represents (Recall.prev^[k] r) := by
  induction k with
  | zero => exact hr
  | succ k ih =>
      rw [List.replicate_succ', run, List.foldl_append, Function.iterate_succ_apply']
      exact ih.prev

theorem Represents.historyPrev_fst (hr : h.Represents r) :
    h.historyPrev.1.map h.line = r.prev.selected := by
  have hcount := hr.count_eq
  have hnav := hr.navPos_eq
  have hcursor := r.cursor_le
  rw [historyPrev, Recall.selected, Recall.cursor_prev, Recall.entries_prev]
  split
  · rw [if_pos (by omega)]
    rfl
  · have hmoved : (if h.navPos < h.historyCount - 1 then h.navPos + 1 else h.navPos) =
        (min (r.cursor + 1) r.entries.length - 1 : Nat) := by
      split
      · omega
      · omega
    have hmin : min (r.cursor + 1) r.entries.length ≠ 0 := by omega
    rw [hmoved, if_neg hmin, Option.map_some, line_entryIndex (by omega), hr.lines_eq]

theorem Represents.historyNext_fst (hr : h.Represents r) :
    h.historyNext.1.map h.line = r.next.selected := by
  have hcount := hr.count_eq
  have hnav := hr.navPos_eq
  have hcursor := r.cursor_le
  rw [historyNext, Recall.selected, Recall.cursor_next, Recall.entries_next]
  split_ifs
  · rfl
  · omega
  · rfl
  · omega
  · omega
  · rw [show h.navPos - 1 = (r.cursor - 1 - 1 : Nat) by omega, Option.map_some,
      line_entryIndex (by omega), hr.lines_eq]
  · rfl
  · omega

/-- The lines are those that a list of the last 16 entered keeps, one entered again right away counted
once; going back `k` times from no selection gives the `k`th newest, or the oldest. -/
theorem history_recalls (h₀ : History) (events : List HistoryEvent)
    (hfits : ∀ e ∈ events, e.Fits) :
    let h := h₀.historyInit.run events
    let L := (events.filterMap HistoryEvent.entered).destutter (· ≠ ·)
    h.lines = L.rtake (min historyMaxEntries L.length) ∧
      (-1 ≤ h.navPos ∧ h.navPos ≤ h.historyCount - 1) ∧
      (∀ k, 0 < k →
        let g := h.historyResetNav.run (List.replicate (k - 1) .prev)
        g.historyPrev.1.map g.line = h.lines.reverse[min k h.historyCount - 1]? ∧
          g.historyPrev.2.navPos = (min k h.historyCount : Nat) - 1) ∧
      (h.navPos ≤ 0 → h.historyNext.1 = none ∧ h.historyNext.2.navPos = -1) ∧
      ∀ i : Nat, h.navPos = i + 1 →
        h.historyNext.1.map h.line = h.lines.reverse[i]? ∧ h.historyNext.2.navPos = i := by
  intro h L
  obtain ⟨r, hr, hkept⟩ := represents_run h₀ hfits
  have hkeptL : r.entries = L.rtake historyMaxEntries := hkept
  have hcount : h.historyCount = r.entries.length := hr.count_eq
  have hnav : h.navPos = r.cursor - 1 := hr.navPos_eq
  have hcursor := r.cursor_le
  refine ⟨?_, ⟨by omega, by omega⟩, fun k hk => ?_, fun hle => ?_, fun i hi => ?_⟩
  · rw [hr.lines_eq, hkeptL, List.rtake, List.rtake]
    congr 1
    omega
  · intro g
    obtain ⟨j, rfl⟩ := Nat.exists_eq_succ_of_ne_zero hk.ne'
    have hg : g.Represents (Recall.prev^[j] r.reset) := hr.reset.prevs j
    have hprev := hg.prev.navPos_eq
    rw [← Function.iterate_succ_apply' (f := Recall.prev), Recall.cursor_prevs] at hprev
    rw [hg.historyPrev_fst, ← Function.iterate_succ_apply' (f := Recall.prev),
      Recall.selected_prevs hk, hcount]
    exact ⟨by rw [← hr.lines_eq], hprev⟩
  · rw [historyNext]
    split_ifs
    · exact ⟨rfl, by dsimp only; omega⟩
    · exact ⟨rfl, by assumption⟩
    · omega
    · exact ⟨rfl, rfl⟩
  · rw [historyNext, if_neg (by omega), if_neg (by omega), if_pos (by omega),
      show h.navPos - 1 = i by omega, Option.map_some, line_entryIndex (by omega)]
    exact ⟨rfl, rfl⟩

/-- `a` is entered twice, then `b`; two steps back is `a`. -/
def twoLines : List HistoryEvent :=
  [.add (some ⟨[97], by decide⟩), .add (some ⟨[97], by decide⟩), .add (some ⟨[98], by decide⟩),
    .prev, .prev]

theorem fits_twoLines : ∀ e ∈ twoLines, e.Fits := by
  intro e he line hline
  subst hline
  simp only [twoLines, List.mem_cons, List.not_mem_nil, HistoryEvent.add.injEq, Option.some.injEq,
    reduceCtorEq, or_false] at he
  rcases he with rfl | rfl | rfl <;> decide

theorem history_recalls_twoLines :
    let h := (History.mk (fun _ _ => 0) 0 0 0).historyInit.run twoLines
    h.lines.map CString.bytes = [[97], [98]] ∧
      (h.historyNext.1.map h.line).map CString.bytes = some [98] := by
  intro h
  obtain ⟨hlines, -, -, -, hnext⟩ := history_recalls ⟨fun _ _ => 0, 0, 0, 0⟩ twoLines fits_twoLines
  have hnav : h.navPos = 1 := by decide +kernel
  have hbytes : h.lines.map CString.bytes = [[97], [98]] := by
    rw [hlines]
    decide +kernel
  refine ⟨hbytes, ?_⟩
  rw [(hnext 0 hnav).1, ← List.getElem?_map, List.map_reverse, hbytes]
  rfl

end History

end SimpleOs
