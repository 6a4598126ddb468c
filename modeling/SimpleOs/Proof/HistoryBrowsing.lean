import SimpleOs.Lib.Draft
import SimpleOs.Proof.LineEditing

/-!
# Browsing the history

`shell_readline` sets the line aside at the first arrow key after an edit, and takes it back where no
entry is selected. So enough DOWN keys bring back what was last edited, and not what the line was before
they were pressed: a key that is ignored between two arrow keys does not set the line aside anew.
-/

namespace SimpleOs

variable {c : BitVec 8} {t u : CString}

def IsArrow (c : BitVec 8) : Prop := c = keyUp ∨ c = keyDown

/-- The keys that end browsing. -/
def IsEdit (c : BitVec 8) : Prop := Printable c ∨ c = ascii '\x08'

instance (c : BitVec 8) : Decidable (IsEdit c) := inferInstanceAs (Decidable (_ ∨ _))

theorem IsEdit.not_arrow (hc : IsEdit c) : ¬ IsArrow c := by
  rintro (rfl | rfl)
  · exact absurd hc (by decide)
  · exact absurd hc (by decide)

theorem IsEdit.ne_newline (hc : IsEdit c) : c ≠ ascii '\n' := by
  rintro rfl
  exact absurd hc (by decide)

namespace Readline

variable {s : Readline} {d : Draft CString historyMaxEntries} {keys before ignored : List (BitVec 8)}

/-- `len` is the length of the string in `buf`. -/
structure LengthOk (s : Readline) : Prop where
  length : s.len = s.text.length
  le : s.len ≤ 127
  terminated : s.buf s.len = 0

/-- `shell_readline` holds `d`. -/
structure Holds (s : Readline) (d : Draft CString historyMaxEntries) : Prop where
  stored : d.line.StoredIn s.buf
  length : d.line.length = s.len
  short : d.line.length < shellMaxLine
  savedValid : s.savedValid = d.saved.isSome
  saved : ∀ u ∈ d.saved, u.length < shellMaxLine ∧ u.StoredIn s.saved
  history : s.history.Represents d.history

theorem Holds.text_eq (h : s.Holds d) : s.text = d.line := h.stored.ofArray_eq h.short

theorem Holds.lengthOk (h : s.Holds d) : s.LengthOk := by
  have hshort := h.short
  have hend := h.stored d.line.length le_rfl
  rw [CString.byte_length, h.length] at hend
  rw [h.length, shellMaxLine] at hshort
  exact ⟨by rw [h.text_eq, h.length], Nat.le_of_lt_succ hshort, hend⟩

theorem Holds.save (h : s.Holds d) :
    s.save.Holds { d with saved := some d.draft } ∧ s.save.returned = s.returned := by
  rw [Readline.save]
  cases hsaved : d.saved with
  | some u =>
      have hdraft : d.draft = u := by rw [Draft.draft, hsaved, Option.getD_some]
      have hvalid : s.savedValid = true := by rw [h.savedValid, hsaved, Option.isSome_some]
      rw [if_pos hvalid, hdraft, ← hsaved]
      exact ⟨h, rfl⟩
  | none =>
      have hdraft : d.draft = d.line := by rw [Draft.draft, hsaved, Option.getD_none]
      have hvalid : ¬ s.savedValid = true := by
        rw [h.savedValid, hsaved, Option.isSome_none]
        decide
      have hcopied : d.line.StoredIn (strCopy s.saved d.line shellMaxLine) :=
        storedIn_copyFrom (Nat.zero_le _) (Nat.le_sub_one_of_lt h.short) fun j hj =>
          absurd hj (Nat.not_lt_zero j)
      rw [if_neg hvalid, hdraft]
      refine ⟨⟨h.stored, h.length, h.short, rfl, fun u hu => ?_, h.history⟩, rfl⟩
      obtain rfl := Option.some.inj hu
      rw [h.text_eq]
      exact ⟨h.short, hcopied⟩

theorem Holds.browse (h : s.Holds d) (hsaved : d.saved = some u) {entry : Option Nat × History}
    {r : Recall CString historyMaxEntries} (hafter : entry.2.Represents r)
    (hline : entry.1.map entry.2.line = r.selected) :
    (s.browse entry).Holds ⟨r.selected.getD u, some u, r⟩ ∧ (s.browse entry).returned = s.returned := by
  obtain ⟨hshort, hstored⟩ := h.saved u hsaved
  have hreplaced : ∀ w : CString, w.length < shellMaxLine →
      ({ s with history := entry.2 }.replaceInput w).Holds ⟨w, some u, r⟩ ∧
        ({ s with history := entry.2 }.replaceInput w).returned = s.returned := by
    intro w hw
    obtain ⟨buf, hbuf, heq⟩ := replaceInput_cases (s := { s with history := entry.2 }) hw
    rw [heq]
    exact ⟨⟨hbuf, rfl, hw, by rw [h.savedValid, hsaved], hsaved ▸ h.saved, hafter⟩, rfl⟩
  rw [Readline.browse, ← hline]
  cases hentry : entry.1 with
  | some i =>
      have hselected : r.selected = some (entry.2.line i) := by
        rw [← hline, hentry, Option.map_some]
      exact hreplaced _ (hafter.length_lt _ (Recall.mem_of_selected hselected))
  | none =>
      have hvalid : s.savedValid = true := by rw [h.savedValid, hsaved, Option.isSome_some]
      have heq : CString.ofArray s.saved shellMaxLine = u := hstored.ofArray_eq hshort
      dsimp only
      rw [if_pos hvalid, heq]
      exact hreplaced u hshort

def move (c : BitVec 8) : Recall CString historyMaxEntries → Recall CString historyMaxEntries :=
  if c = keyUp then Recall.prev else Recall.next

theorem Holds.arrow (h : s.Holds d) (hwait : s.returned = false) (hc : IsArrow c) :
    (s.key c).Holds (d.browse (move c)) ∧ (s.key c).returned = false := by
  obtain ⟨hsave, hreturned⟩ := h.save
  have hhistory := hsave.history
  have hentry : ∀ entry : Option Nat × History, ∀ r : Recall CString historyMaxEntries,
      entry.2.Represents r → entry.1.map entry.2.line = r.selected →
      (s.save.browse entry).Holds ⟨r.selected.getD d.draft, some d.draft, r⟩ ∧
        (s.save.browse entry).returned = false := by
    intro entry r hafter hline
    obtain ⟨hholds, hsame⟩ := hsave.browse rfl hafter hline
    exact ⟨hholds, by rw [hsame, hreturned, hwait]⟩
  rw [key, if_neg (by rw [hwait]; decide), if_pos (show c = keyUp ∨ c = keyDown from hc), Draft.browse,
    move]
  dsimp only
  split
  · refine hentry _ _ hhistory.prev ?_
    rw [funext (line_historyPrev s.save.history), hhistory.historyPrev_fst]
  · refine hentry _ _ hhistory.next ?_
    rw [funext (line_historyNext s.save.history), hhistory.historyNext_fst]

theorem Holds.edit (h : s.Holds d) (hwait : s.returned = false) (hc : IsEdit c) :
    ∃ t, (s.key c).Holds (d.edit t) ∧ (s.key c).returned = false := by
  have hlen := h.length
  have hshort := h.short
  have hsame : ∀ s' : Readline, s'.buf = s.buf → s'.len = s.len → s'.savedValid = false →
      s'.history = s.history → s'.Holds (d.edit d.line) := by
    rintro ⟨buf, len, saved, valid, history, console, returned⟩ rfl rfl rfl rfl
    exact ⟨h.stored, hlen, hshort, rfl, fun u hu => absurd hu (Option.not_mem_none u), h.history⟩
  rw [key, if_neg (by rw [hwait]; decide),
    if_neg (show ¬ (c = keyUp ∨ c = keyDown) from hc.not_arrow), if_neg hc.ne_newline]
  by_cases hback : c = ascii '\x08'
  · rw [if_pos hback]
    split
    · refine ⟨d.line.dropLast, ⟨?_, ?_, ?_, rfl, ?_, h.history⟩, hwait⟩
      · rw [← hlen]
        exact h.stored.dropLast
      · rw [Draft.edit, CString.length_dropLast, hlen]
      · rw [Draft.edit, CString.length_dropLast]
        omega
      · exact fun u hu => absurd hu (Option.not_mem_none u)
    · exact ⟨d.line, hsame _ rfl rfl rfl rfl, hwait⟩
  · have hprint : Printable c := hc.resolve_right hback
    rw [if_neg hback, if_pos (show 32 ≤ c.toNat ∧ c.toNat < 127 from hprint)]
    split
    · rename_i hroom
      refine ⟨d.line.snoc c hprint.ne_zero, ⟨?_, ?_, ?_, rfl, ?_, h.history⟩, hwait⟩
      · rw [← hlen]
        exact h.stored.snoc hprint.ne_zero
      · rw [Draft.edit, CString.length_snoc, hlen]
      · rw [Draft.edit, CString.length_snoc, hlen]
        omega
      · exact fun u hu => absurd hu (Option.not_mem_none u)
    · exact ⟨d.line, hsame _ rfl rfl rfl rfl, hwait⟩

theorem Holds.newline (h : s.Holds d) (hwait : s.returned = false) :
    (s.key (ascii '\n')).Holds d := by
  rw [key, if_neg (by rw [hwait]; decide), if_neg (by decide), if_pos rfl]
  refine ⟨?_, h.length, h.short, h.savedValid, h.saved, h.history⟩
  rw [← h.length]
  exact h.stored.terminate

theorem key_ignored (hwait : s.returned = false) (harrow : ¬ IsArrow c) (hedit : ¬ IsEdit c)
    (hnewline : c ≠ ascii '\n') : s.key c = s := by
  obtain ⟨hprint, hback⟩ := not_or.mp hedit
  rw [key, if_neg (by rw [hwait]; decide), if_neg (show ¬ (c = keyUp ∨ c = keyDown) from harrow),
    if_neg hnewline, if_neg hback, if_neg (show ¬ (32 ≤ c.toNat ∧ c.toNat < 127) from hprint)]

theorem run_returned (hreturned : s.returned = true) (keys : List (BitVec 8)) : s.run keys = s := by
  induction keys with
  | nil => rfl
  | cons c keys ih =>
      rw [run, List.foldl_cons, key, if_pos hreturned]
      exact ih

theorem Holds.exists_key (h : s.Holds d) (c : BitVec 8) : ∃ d', (s.key c).Holds d' := by
  cases hwait : s.returned with
  | true =>
      rw [key, if_pos hwait]
      exact ⟨d, h⟩
  | false =>
      by_cases harrow : IsArrow c
      · exact ⟨_, (h.arrow hwait harrow).1⟩
      by_cases hedit : IsEdit c
      · obtain ⟨t, ht, -⟩ := h.edit hwait hedit
        exact ⟨_, ht⟩
      by_cases hnewline : c = ascii '\n'
      · rw [hnewline]
        exact ⟨d, h.newline hwait⟩
      · rw [key_ignored hwait harrow hedit hnewline]
        exact ⟨d, h⟩

theorem Holds.exists_run (h : s.Holds d) (keys : List (BitVec 8)) : ∃ d', (s.run keys).Holds d' := by
  have hinv : ∀ (s : Readline) (c : BitVec 8), (∃ d, s.Holds d) → ∃ d, (s.key c).Holds d :=
    fun _ c ⟨_, h⟩ => h.exists_key c
  exact Prefix.inv_foldl hinv ⟨d, h⟩ keys

theorem run_append (s : Readline) (keys keys' : List (BitVec 8)) :
    s.run (keys ++ keys') = (s.run keys).run keys' := List.foldl_append

/-- Without an edit the draft stays what it is. -/
theorem Holds.browsing (h : s.Holds d) (hwait : s.returned = false)
    (hkeys : ∀ c ∈ keys, ¬ IsEdit c ∧ c ≠ ascii '\n') :
    ∃ d', (s.run keys).Holds d' ∧ d'.draft = d.draft ∧ (s.run keys).returned = false := by
  induction keys generalizing s d with
  | nil => exact ⟨d, h, rfl, hwait⟩
  | cons c keys ih =>
      have hrest : ∀ c' ∈ keys, ¬ IsEdit c' ∧ c' ≠ ascii '\n' := fun c' hc' =>
        hkeys c' (List.mem_cons_of_mem c hc')
      obtain ⟨hedit, hnewline⟩ := hkeys c List.mem_cons_self
      rw [run, List.foldl_cons]
      by_cases harrow : IsArrow c
      · obtain ⟨hmoved, hstill⟩ := h.arrow hwait harrow
        obtain ⟨d', hd', hdraft, hwait'⟩ := ih hmoved hstill hrest
        exact ⟨d', hd', hdraft, hwait'⟩
      · rw [key_ignored hwait harrow hedit hnewline]
        exact ih h hwait hrest

theorem Holds.downs (h : s.Holds d) (hwait : s.returned = false) (n : Nat) :
    (s.run (List.replicate n keyDown)).Holds ((Draft.browse · Recall.next)^[n] d) ∧
      (s.run (List.replicate n keyDown)).returned = false := by
  induction n with
  | zero => exact ⟨h, hwait⟩
  | succ n ih =>
      rw [List.replicate_succ', run_append, Function.iterate_succ_apply']
      exact ih.1.arrow ih.2 (Or.inr rfl)

/-- After an edit the line is the draft. -/
theorem Holds.exists_edited (h : s.Holds d) (hd : d.saved = none)
    (hbefore : before = [] ∨ ∃ c, before.getLast? = some c ∧ IsEdit c) :
    ∃ d', (s.run before).Holds d' ∧ ((s.run before).returned = false → d'.draft = d'.line) := by
  obtain rfl | ⟨c, hlast, hc⟩ := hbefore
  · exact ⟨d, h, fun _ => by rw [Draft.draft, hd, Option.getD_none]⟩
  · obtain ⟨init, rfl⟩ := List.getLast?_eq_some_iff.mp hlast
    rw [run_append]
    obtain ⟨d', hd'⟩ := h.exists_run init
    cases hwait : (s.run init).returned with
    | true =>
        rw [run_returned hwait]
        exact ⟨d', hd', fun hread => absurd (hwait.symm.trans hread) (by decide)⟩
    | false =>
        obtain ⟨t, ht, -⟩ := hd'.edit hwait hc
        exact ⟨_, ht, fun _ => rfl⟩

/-- The DOWN keys at the end bring back what was last edited. -/
theorem Holds.text_downs (h : s.Holds d) (hd : d.saved = none) {n : Nat} (hn : 16 ≤ n)
    (hbefore : before = [] ∨ ∃ c, before.getLast? = some c ∧ IsEdit c)
    (hkeys : ∀ c ∈ keys, ¬ IsEdit c ∧ c ≠ ascii '\n') :
    (s.run (before ++ keys ++ List.replicate n keyDown)).text = (s.run before).text := by
  obtain ⟨d₁, hd₁, hline⟩ := h.exists_edited hd hbefore
  rw [run_append, run_append]
  cases hwait : (s.run before).returned with
  | true => rw [run_returned hwait, run_returned hwait]
  | false =>
      obtain ⟨d₂, hd₂, hdraft, hwait₂⟩ := hd₁.browsing hwait hkeys
      obtain ⟨hdowns, -⟩ := hd₂.downs hwait₂ n
      have hshown := Draft.line_nexts (show 0 < n by omega) (show historyMaxEntries ≤ n from hn) d₂
      rw [hdowns.text_eq, hd₁.text_eq, hshown, hdraft, hline hwait]

theorem holds_start (buf saved : Nat → BitVec 8) {history : History}
    {r : Recall CString historyMaxEntries} (hr : history.Represents r) (k : Console) :
    (start buf saved history k).Holds (.start .empty r.reset) where
  stored := CString.storedIn_empty
  length := rfl
  short := typed_empty.1
  savedValid := rfl
  saved := nofun
  history := hr.reset

/-- **What was edited survives history browsing.** For every history and every sequence of keys, `len` is
the length of the string in `buf` after each key; and after arrow keys that end with at least 16 DOWN
keys, `buf` is what it was after the last printable character or backspace before them, or empty. -/
theorem edited_text_survives (h₀ : History) {events : List HistoryEvent}
    (hfits : ∀ e ∈ events, e.Fits) (buf saved : Nat → BitVec 8) (k : Console)
    (keys : List (BitVec 8)) :
    (∀ pre, pre <+: keys → ((start buf saved (h₀.historyInit.run events) k).run pre).LengthOk) ∧
    ∀ (before ignored arrows : List (BitVec 8)) (n : Nat),
      before ++ ignored ++ (arrows ++ List.replicate n keyDown) <+: keys →
      (before = [] ∨ ∃ c, before.getLast? = some c ∧ IsEdit c) →
      (∀ c ∈ ignored, ¬ IsEdit c ∧ c ≠ ascii '\n') → (∀ c ∈ arrows, IsArrow c) → 16 ≤ n →
      ((start buf saved (h₀.historyInit.run events) k).run
          (before ++ ignored ++ (arrows ++ List.replicate n keyDown))).text =
        ((start buf saved (h₀.historyInit.run events) k).run before).text := by
  obtain ⟨r, hr, -⟩ := History.represents_run h₀ hfits
  have hstart := holds_start buf saved hr k
  refine ⟨fun pre _ => ?_, fun before ignored arrows n _ hbefore hignored harrows hn => ?_⟩
  · obtain ⟨d, hd⟩ := hstart.exists_run pre
    exact hd.lengthOk
  · have hkeys : ∀ c ∈ ignored ++ arrows, ¬ IsEdit c ∧ c ≠ ascii '\n' := by
      intro c hc
      obtain hc | hc := List.mem_append.mp hc
      · exact hignored c hc
      · refine ⟨fun hedit => hedit.not_arrow (harrows c hc), ?_⟩
        obtain rfl | rfl := harrows c hc
        · decide
        · decide
    have htext := hstart.text_downs rfl hn hbefore hkeys
    rwa [← List.append_assoc before, List.append_assoc _ arrows] at htext

theorem zero_notMem_a : (0 : BitVec 8) ∉ [97] := by decide

/-- After the line `a` has been entered. -/
def oneEntry : Readline :=
  start (fun _ => 0) (fun _ => 0) (emptyHistory.historyInit.run [.add (some ⟨[97], zero_notMem_a⟩)])
    screen

theorem edited_text_survives_oneEntry :
    (oneEntry.run ([ascii 'b'] ++ [keyLeft] ++ ([keyUp] ++ List.replicate 16 keyDown))).text =
      (oneEntry.run [ascii 'b']).text := by
  refine (edited_text_survives emptyHistory (fun e he => ?_) (fun _ => 0) (fun _ => 0) screen _).2
    [ascii 'b'] [keyLeft] [keyUp] 16 List.prefix_rfl (Or.inr ⟨_, rfl, by decide⟩) ?_ ?_ le_rfl
  · obtain rfl := List.mem_singleton.mp he
    rintro t ⟨⟩
    decide
  · rintro c hc
    obtain rfl := List.mem_singleton.mp hc
    exact ⟨by decide, by decide⟩
  · rintro c hc
    exact Or.inl (List.mem_singleton.mp hc)

/-- UP recalls the entry, LEFT is ignored, and 16 DOWN keys bring back the empty line. -/
theorem not_restored_ignoredKey :
    (oneEntry.run [keyUp, keyLeft]).text = ⟨[97], by decide⟩ ∧
    (oneEntry.run ([keyUp, keyLeft] ++ List.replicate 16 keyDown)).text = .empty ∧
    (oneEntry.run ([keyUp, keyLeft] ++ List.replicate 16 keyDown)).text ≠
      (oneEntry.run [keyUp, keyLeft]).text := by
  have hbefore : (oneEntry.run [keyUp, keyLeft]).text = ⟨[97], by decide⟩ := by decide +kernel
  have hafter : (oneEntry.run ([keyUp, keyLeft] ++ List.replicate 16 keyDown)).text = .empty := by
    decide +kernel
  refine ⟨hbefore, hafter, ?_⟩
  rw [hbefore, hafter]
  decide

end Readline

end SimpleOs
