import SimpleOs.Lib.Prefix
import SimpleOs.Proof.ConsoleColumns
import SimpleOs.Proof.HistoryList
import SimpleOs.Shell.Readline

/-!
# The line on the screen

`shell_readline` erases with one backspace for each character of the line, and the console does not go
back from the first column of a row to the row above. The cursor is where the line ends for as long as
nothing is erased across the start of a row, and no longer.
-/

namespace SimpleOs

variable {b c : BitVec 8} {t u : CString}

theorem Printable.ne_zero (h : Printable b) : b ≠ 0 := by
  rintro rfl
  exact absurd h.1 (by decide)

/-- A line as `shell_readline` makes them. -/
def Typed (t : CString) : Prop := t.length < shellMaxLine ∧ ∀ b ∈ t.bytes, Printable b

theorem typed_empty : Typed .empty := ⟨by decide, fun _ hb => absurd hb List.not_mem_nil⟩

theorem Typed.snoc (h : Typed t) (hc : Printable c) (hlen : t.length < shellMaxLine - 1) :
    Typed (t.snoc c hc.ne_zero) := by
  refine ⟨by rw [CString.length_snoc]; omega, fun b hb => ?_⟩
  obtain hb | hb := List.mem_append.mp hb
  · exact h.2 b hb
  · rwa [List.mem_singleton.mp hb]

theorem Typed.dropLast (h : Typed t) : Typed t.dropLast := by
  refine ⟨?_, fun b hb => h.2 b (List.mem_of_mem_dropLast hb)⟩
  rw [CString.length_dropLast]
  exact (Nat.sub_le _ _).trans_lt h.1

theorem strLen_bytes (t : CString) : strLen t.bytes = t.length := by
  obtain ⟨l, hl⟩ := t
  induction l with
  | nil => rfl
  | cons b l ih =>
      rw [List.mem_cons, not_or] at hl
      rw [strLen, if_pos (Ne.symm hl.1), ih hl.2]
      rfl

namespace Readline

variable {s : Readline}

/-- `shell_readline` holds the line `t`, and what it can bring back is a line as well. -/
structure Editing (s : Readline) (t : CString) : Prop where
  stored : t.StoredIn s.buf
  length : t.length = s.len
  typed : Typed t
  saved : s.savedValid = true → ∃ u : CString, Typed u ∧ u.StoredIn s.saved
  history : ∃ r, s.history.Represents r ∧ ∀ u ∈ r.entries, Typed u

theorem Editing.text_eq (h : s.Editing t) : s.text = t := h.stored.ofArray_eq h.typed.1

/-- `replace_input` takes back one column for each character of the line and prints the new one. -/
theorem replaceInput_cases (hu : u.length < shellMaxLine) : ∃ buf, u.StoredIn buf ∧
    s.replaceInput u = { s with
      buf := buf
      len := u.length
      console := ((Console.consolePutchar · (ascii '\x08'))^[s.len] s.console).consolePrint
        u.bytes } := by
  by_cases hfirst : u.byte 0 = 0
  · have hempty : u = .empty := by
      obtain ⟨l, hl⟩ := u
      cases l with
      | nil => rfl
      | cons b l => exact absurd (hfirst ▸ List.mem_cons_self) hl
    subst hempty
    exact ⟨_, CString.storedIn_empty, by rw [replaceInput, if_neg (not_not_intro hfirst)]; rfl⟩
  · have hcopied : u.StoredIn (strCopy (Function.update s.buf 0 0) u shellMaxLine) :=
      storedIn_copyFrom (Nat.zero_le _) (by omega) fun j hj => absurd hj (Nat.not_lt_zero j)
    refine ⟨_, hcopied, ?_⟩
    rw [replaceInput, if_pos hfirst]
    dsimp only
    rw [hcopied.ofArray_eq hu, strLen_bytes]

theorem Editing.replaceInput (h : s.Editing t) (hu : Typed u) : (s.replaceInput u).Editing u := by
  obtain ⟨buf, hstored, heq⟩ := replaceInput_cases (s := s) hu.1
  rw [heq]
  exact ⟨hstored, rfl, hu, h.saved, h.history⟩

theorem Editing.save (h : s.Editing t) : s.save.Editing t := by
  rw [Readline.save]
  split
  · exact h
  · have hcopied : t.StoredIn (strCopy s.saved t shellMaxLine) :=
      storedIn_copyFrom (Nat.zero_le _) (by have := h.typed.1; omega) fun j hj =>
        absurd hj (Nat.not_lt_zero j)
    refine ⟨h.stored, h.length, h.typed, fun _ => ⟨t, h.typed, ?_⟩, h.history⟩
    rwa [h.text_eq]

/-- An arrow key puts another line in the place of the one that is held. -/
theorem Editing.browse (h : s.Editing t) {entry : Option Nat × History}
    {r : Recall CString historyMaxEntries} (hafter : entry.2.Represents r)
    (hentries : ∀ u ∈ r.entries, Typed u)
    (hline : ∀ u, entry.1.map entry.2.line = some u → Typed u) :
    ∃ u, Typed u ∧ (s.browse entry).Editing u ∧
      s.browse entry = { s with history := entry.2 }.replaceInput u := by
  have hmoved : { s with history := entry.2 }.Editing t :=
    ⟨h.stored, h.length, h.typed, h.saved, r, hafter, hentries⟩
  rw [Readline.browse]
  cases hentry : entry.1 with
  | some i =>
      have hi : Typed (entry.2.line i) := hline _ (by rw [hentry]; rfl)
      exact ⟨_, hi, hmoved.replaceInput hi, rfl⟩
  | none =>
      dsimp only
      split
      · rename_i hsaved
        obtain ⟨u, hu, hstored⟩ := h.saved hsaved
        rw [hstored.ofArray_eq hu.1]
        exact ⟨u, hu, hmoved.replaceInput hu, rfl⟩
      · exact ⟨.empty, typed_empty, hmoved.replaceInput typed_empty, rfl⟩

/-- The next key is awaited, with the line `t` and the console `k`. -/
structure Awaits (s : Readline) (t : CString) (k : Console) : Prop where
  editing : s.Editing t
  waiting : s.returned = false
  console : s.console = k

theorem line_historyPrev (h : History) (i : Nat) : h.historyPrev.2.line i = h.line i := by
  rw [History.historyPrev]
  split
  · rfl
  · rfl

theorem line_historyNext (h : History) (i : Nat) : h.historyNext.2.line i = h.line i := by
  rw [History.historyNext]
  split_ifs
  · rfl
  · rfl
  · rfl
  · rfl

theorem Editing.arrow (h : s.Editing t) (hwait : s.returned = false) (hc : c = keyUp ∨ c = keyDown) :
    ∃ u, Typed u ∧ (s.key c).Awaits u
      (((Console.consolePutchar · (ascii '\x08'))^[s.len] s.console).consolePrint u.bytes) := by
  have hsaved := h.save
  have hsave : s.save.returned = s.returned ∧ s.save.console = s.console ∧ s.save.len = s.len := by
    rw [Readline.save]
    split
    · exact ⟨rfl, rfl, rfl⟩
    · exact ⟨rfl, rfl, rfl⟩
  obtain ⟨r, hr, hentries⟩ := hsaved.history
  have hbrowse : ∃ u entry, Typed u ∧ (s.key c).Editing u ∧
      s.key c = { s.save with history := entry }.replaceInput u := by
    rw [key, if_neg (by rw [hwait]; decide), if_pos hc]
    dsimp only
    split
    · obtain ⟨u, hu, hedit, heq⟩ := hsaved.browse hr.prev hentries fun u hu => by
        rw [funext (line_historyPrev s.save.history), hr.historyPrev_fst] at hu
        exact hentries u (r.entries_prev ▸ Recall.mem_of_selected hu)
      exact ⟨u, _, hu, hedit, heq⟩
    · obtain ⟨u, hu, hedit, heq⟩ := hsaved.browse hr.next hentries fun u hu => by
        rw [funext (line_historyNext s.save.history), hr.historyNext_fst] at hu
        exact hentries u (r.entries_next ▸ Recall.mem_of_selected hu)
      exact ⟨u, _, hu, hedit, heq⟩
  obtain ⟨u, entry, hu, hedit, heq⟩ := hbrowse
  obtain ⟨buf, -, hreplace⟩ := replaceInput_cases (s := { s.save with history := entry }) hu.1
  rw [hreplace] at heq
  refine ⟨u, hu, hedit, ?_, ?_⟩
  · rw [heq]
    exact hsave.1.trans hwait
  · rw [heq]
    dsimp only
    rw [hsave.2.1, hsave.2.2]

/-- Everything that a key does to the line and to the console. -/
theorem Editing.key_cases (h : s.Editing t) (hwait : s.returned = false) (c : BitVec 8) :
    (∃ u, (c = keyUp ∨ c = keyDown) ∧ Typed u ∧ (s.key c).Awaits u
      (((Console.consolePutchar · (ascii '\x08'))^[s.len] s.console).consolePrint u.bytes)) ∨
    (c = ascii '\n' ∧ (s.key c).Editing t ∧ (s.key c).returned = true ∧
      (s.key c).console = s.console.consolePutchar c) ∨
    (c = ascii '\x08' ∧ 0 < s.len ∧ (s.key c).Awaits t.dropLast (s.console.consolePutchar c)) ∨
    (∃ hc : Printable c, s.len < shellMaxLine - 1 ∧
      (s.key c).Awaits (t.snoc c hc.ne_zero) (s.console.consolePutchar c)) ∨
    (c ≠ keyUp ∧ c ≠ keyDown ∧ (c = ascii '\x08' → s.len = 0) ∧ (s.key c).Awaits t s.console) := by
  have hlen := h.length
  by_cases harrow : c = keyUp ∨ c = keyDown
  · obtain ⟨u, hu, hafter⟩ := h.arrow hwait harrow
    exact Or.inl ⟨u, harrow, hu, hafter⟩
  obtain ⟨hup, hdown⟩ := not_or.mp harrow
  right
  rw [key, if_neg (by rw [hwait]; decide), if_neg harrow]
  by_cases hnewline : c = ascii '\n'
  · rw [if_pos hnewline, hnewline]
    refine Or.inl ⟨rfl, ⟨?_, hlen, h.typed, h.saved, h.history⟩, rfl, rfl⟩
    rw [← hlen]
    exact h.stored.terminate
  rw [if_neg hnewline]
  right
  by_cases hback : c = ascii '\x08'
  · rw [if_pos hback, hback]
    split
    · rename_i hpos
      refine Or.inl ⟨rfl, hpos, ⟨?_, ?_, h.typed.dropLast, nofun, h.history⟩, hwait, rfl⟩
      · rw [← hlen]
        exact h.stored.dropLast
      · rw [CString.length_dropLast, hlen]
    · rename_i hzero
      exact Or.inr (Or.inr ⟨by decide, by decide, fun _ => by omega,
        ⟨h.stored, hlen, h.typed, nofun, h.history⟩, hwait, rfl⟩)
  rw [if_neg hback]
  right
  by_cases hprint : Printable c
  · rw [if_pos (show 32 ≤ c.toNat ∧ c.toNat < 127 from hprint)]
    split
    · rename_i hroom
      refine Or.inl ⟨hprint, hroom, ⟨?_, ?_, h.typed.snoc hprint (by omega), nofun, h.history⟩,
        hwait, rfl⟩
      · rw [← hlen]
        exact h.stored.snoc hprint.ne_zero
      · rw [CString.length_snoc, hlen]
    · exact Or.inr ⟨hup, hdown, fun hc => absurd hc hback,
        ⟨h.stored, hlen, h.typed, nofun, h.history⟩, hwait, rfl⟩
  · rw [if_neg (show ¬ (32 ≤ c.toNat ∧ c.toNat < 127) from hprint)]
    exact Or.inr ⟨hup, hdown, fun hc => absurd hc hback, h, hwait, rfl⟩

/-- The prompt takes as many columns as it has characters. -/
def promptColumns : Nat := 10

/-- The console after the prompt and the line have been printed from column 0. -/
def afresh (s : Readline) : Console :=
  (shellPrompt { s.console with cursorX := 0 }).consolePrint s.text.bytes

/-- While keys are read, the cursor is where it would be had prompt and line been printed afresh. -/
def Shows (s : Readline) : Prop := s.returned = false → s.console.cursorX = s.afresh.cursorX

/-- The key does not make `shell_readline` erase across the start of a row. -/
def StaysInRow (s : Readline) (c : BitVec 8) : Prop :=
  s.returned = false →
    (c = keyUp ∨ c = keyDown → promptColumns + s.len < s.console.columns) ∧
    (c = ascii '\x08' → 0 < s.len → (promptColumns + s.len) % s.console.columns ≠ 0)

variable {k k' : Console} {n len width : Nat}

theorem columns_shellPrompt (k : Console) : (shellPrompt k).columns = k.columns := by
  unfold shellPrompt
  generalize "simpleos".toList.map ascii = name
  generalize "> ".toList.map ascii = sign
  exact (Console.columns_printIn colorCyan).trans (Console.columns_printIn colorGreen)

theorem atColumn_shellPrompt (hstart : k.cursorX = 0) (hwide : promptColumns < k.columns) :
    (shellPrompt k).AtColumn promptColumns := by
  have hname : ∀ b ∈ "simpleos".toList.map ascii, Printable b := by decide +kernel
  have hsign : ∀ b ∈ "> ".toList.map ascii, Printable b := by decide +kernel
  have hlength : 0 + ("simpleos".toList.map ascii).length + ("> ".toList.map ascii).length =
      promptColumns := by decide +kernel
  have hzero : k.AtColumn 0 := by
    rw [Console.AtColumn, hstart]
    rfl
  unfold shellPrompt
  generalize "simpleos".toList.map ascii = name at *
  generalize "> ".toList.map ascii = sign at *
  have hfirst := hzero.printIn colorGreen (by omega) hname
  have hsecond := hfirst.printIn colorCyan (by rw [Console.columns_printIn]; omega) hsign
  rwa [hlength] at hsecond

theorem atColumn_iff (h : k'.AtColumn n) : k.cursorX = k'.cursorX ↔ k.AtColumn n := by
  rw [← BitVec.toNat_inj, h]
  rfl

theorem Editing.shows_iff (h : s.Editing t) (hwait : s.returned = false)
    (hwide : promptColumns < s.console.columns) :
    s.Shows ↔ s.console.AtColumn ((promptColumns + t.length) % s.console.columns) := by
  have hlen := h.typed.1
  have hsame : (shellPrompt { s.console with cursorX := 0 }).columns = s.console.columns :=
    columns_shellPrompt _
  have hprompt : (shellPrompt { s.console with cursorX := 0 }).AtColumn promptColumns :=
    atColumn_shellPrompt rfl hwide
  have hline := hprompt.print (by rwa [hsame])
    (by rw [promptColumns, ← CString.length]; rw [shellMaxLine] at hlen; omega) h.typed.2
  rw [hsame] at hline
  rw [Shows, afresh, h.text_eq, atColumn_iff hline]
  exact ⟨fun hshows => hshows hwait, fun hcolumn _ => hcolumn⟩

theorem mod_sub_one_iff (hwidth : 1 < width) (hn : 0 < n) :
    n % width - 1 = (n - 1) % width ↔ n % width ≠ 0 := by
  have hlt := Nat.mod_lt n (by omega : 0 < width)
  obtain ⟨m, rfl⟩ : ∃ m, n = m + 1 := ⟨n - 1, by omega⟩
  have hm := Nat.mod_lt m (by omega : 0 < width)
  rw [Nat.add_sub_cancel, Nat.add_mod, Nat.mod_eq_of_lt hwidth]
  obtain heq | hlast := Nat.eq_or_lt_of_le (Nat.succ_le_of_lt hm)
  · rw [show m % width + 1 = width from heq, Nat.mod_self]
    omega
  · rw [Nat.mod_eq_of_lt (show m % width + 1 < width from hlast)]
    omega

theorem mod_sub_iff (hwide : promptColumns < width) :
    ((promptColumns + len) % width - len + n) % width = (promptColumns + n) % width ↔
      promptColumns + len < width := by
  have hlt := Nat.mod_lt (promptColumns + len) (by omega : 0 < width)
  have hcancel : ((promptColumns + len) % width - len + n) % width = (promptColumns + n) % width ↔
      (promptColumns + len) % width - len = promptColumns := by
    constructor
    · intro h
      have hmod : (promptColumns + len) % width - len ≡ promptColumns [MOD width] :=
        Nat.ModEq.add_right_cancel' n h
      rwa [Nat.ModEq, Nat.mod_eq_of_lt (by omega), Nat.mod_eq_of_lt hwide] at hmod
    · intro h
      rw [h]
  rw [hcancel]
  constructor
  · intro h
    rw [promptColumns] at h hlt ⊢
    omega
  · intro hrow
    rw [Nat.mod_eq_of_lt hrow]
    omega

theorem Editing.exists_key (h : s.Editing t) (c : BitVec 8) :
    ∃ u, (s.key c).Editing u ∧ (s.key c).console.columns = s.console.columns := by
  cases hwait : s.returned with
  | true =>
      rw [key, if_pos hwait]
      exact ⟨t, h, rfl⟩
  | false =>
      obtain ⟨u, -, -, hafter⟩ | ⟨-, hedit, -, hconsole⟩ | ⟨-, -, hafter⟩ | ⟨hc, -, hafter⟩ |
        ⟨-, -, -, hafter⟩ := h.key_cases hwait c
      · refine ⟨u, hafter.editing, Console.columns_eq ?_⟩
        rw [hafter.console, Console.fbWidth_consolePrint, Console.fbWidth_backspaces]
      · refine ⟨t, hedit, Console.columns_eq ?_⟩
        rw [hconsole, Console.fbWidth_consolePutchar]
      · refine ⟨_, hafter.editing, Console.columns_eq ?_⟩
        rw [hafter.console, Console.fbWidth_consolePutchar]
      · refine ⟨_, hafter.editing, Console.columns_eq ?_⟩
        rw [hafter.console, Console.fbWidth_consolePutchar]
      · exact ⟨t, hafter.editing, by rw [hafter.console]⟩

theorem Awaits.shows_iff (h : s.Awaits t k) (hwide : promptColumns < k.columns) (hat : k.AtColumn n) :
    s.Shows ↔ n = (promptColumns + t.length) % k.columns := by
  obtain ⟨hedit, hwait, rfl⟩ := h
  rw [hedit.shows_iff hwait hwide, Console.AtColumn, hat]
  omega

/-- A key keeps the cursor where it belongs exactly when it does not erase across the start of a row. -/
theorem Editing.shows_key_iff (h : s.Editing t) (hwide : promptColumns < s.console.columns)
    (hshows : s.Shows) (c : BitVec 8) : (s.key c).Shows ↔ s.StaysInRow c := by
  cases hwait : s.returned with
  | true =>
      rw [key, if_pos hwait]
      exact iff_of_true hshows fun hread => absurd (hwait.symm.trans hread) (by decide)
  | false =>
      have hlen := h.length
      have hshort := h.typed.1
      have hat := (h.shows_iff hwait hwide).mp hshows
      rw [hlen] at hat hshort
      have hcolumn := Nat.mod_lt (promptColumns + s.len) (by omega : 0 < s.console.columns)
      have hsmall : (promptColumns + s.len) % s.console.columns ≤ 10 + s.len := Nat.mod_le _ _
      obtain ⟨u, harrow, hu, hafter⟩ | ⟨rfl, -, hreturned, -⟩ | ⟨rfl, hpos, hafter⟩ |
        ⟨hc, hroom, hafter⟩ | ⟨hup, hdown, hzero, hafter⟩ := h.key_cases hwait c
      · -- the line is erased and another one printed
        have hsame : ((Console.consolePutchar · (ascii '\x08'))^[s.len] s.console).columns =
            s.console.columns := Console.columns_eq Console.fbWidth_backspaces
        have hshort' := hu.1
        rw [shellMaxLine, CString.length] at hshort'
        have hprinted := (hat.backspaces s.len).print (by omega) (by omega) hu.2
        rw [hafter.shows_iff (by rwa [Console.columns_eq Console.fbWidth_consolePrint, hsame])
          hprinted, Console.columns_eq Console.fbWidth_consolePrint, hsame, ← CString.length,
          mod_sub_iff hwide]
        refine ⟨fun hrow _ => ⟨fun _ => hrow, ?_⟩, fun hstays => (hstays hwait).1 harrow⟩
        rintro rfl
        exact absurd harrow (by decide)
      · refine iff_of_true (fun hread => absurd (hreturned.symm.trans hread) (by decide)) fun _ => ?_
        exact ⟨fun harrow => absurd harrow (by decide), fun hback => absurd hback (by decide)⟩
      · have hsame : (s.console.consolePutchar (ascii '\x08')).columns = s.console.columns :=
          Console.columns_eq Console.fbWidth_consolePutchar
        have hpred : promptColumns + (s.len - 1) = promptColumns + s.len - 1 := by omega
        rw [hafter.shows_iff (by rwa [hsame]) hat.backspace, hsame, CString.length_dropLast, hlen,
          hpred, mod_sub_one_iff (by rw [promptColumns] at hwide; omega) (by omega)]
        refine ⟨fun hne _ => ⟨fun harrow => absurd harrow (by decide), fun _ _ => hne⟩, ?_⟩
        exact fun hstays => (hstays hwait).2 rfl hpos
      · have hsame : (s.console.consolePutchar c).columns = s.console.columns :=
          Console.columns_eq Console.fbWidth_consolePutchar
        rw [shellMaxLine] at hroom
        refine iff_of_true ?_ fun _ => ⟨?_, fun hback => absurd hback (hc.ne_ascii (by decide))⟩
        · rw [hafter.shows_iff (by rwa [hsame]) (hat.putchar hcolumn (by omega) hc), hsame,
            CString.length_snoc, hlen, Nat.mod_add_mod, Nat.add_assoc]
        · rintro (rfl | rfl)
          · exact absurd hc (by decide)
          · exact absurd hc (by decide)
      · refine iff_of_true ?_ fun _ => ⟨fun harrow => (harrow.elim hup hdown).elim, ?_⟩
        · rw [hafter.shows_iff hwide hat, hlen]
        · intro hback hpos
          exact absurd (hzero hback) hpos.ne'

variable (buf saved : Nat → BitVec 8)

theorem editing_start {history : History} {r : Recall CString historyMaxEntries}
    (hr : history.Represents r) (hentries : ∀ u ∈ r.entries, Typed u) (console : Console) : (start buf saved history console).Editing .empty where
  stored := CString.storedIn_empty
  length := rfl
  typed := typed_empty
  saved := nofun
  history := ⟨r.reset, hr.reset, hentries⟩

variable {buf saved}

theorem shows_start {history : History} (hedit : (start buf saved history k).Editing .empty)
    (hat : k.AtColumn promptColumns) (hwide : promptColumns < k.columns) :
    (start buf saved history k).Shows := by
  refine (hedit.shows_iff rfl hwide).mpr ?_
  change k.AtColumn (promptColumns % k.columns)
  rwa [Nat.mod_eq_of_lt hwide]

/-- The line is edited on a console that has room for the prompt and one more character. -/
def Inv (s : Readline) : Prop := (∃ t, s.Editing t) ∧ promptColumns < s.console.columns

theorem Inv.key (h : s.Inv) (c : BitVec 8) : (s.key c).Inv := by
  obtain ⟨⟨t, hedit⟩, hwide⟩ := h
  obtain ⟨u, hedit', hcolumns⟩ := hedit.exists_key c
  exact ⟨⟨u, hedit'⟩, by rwa [hcolumns]⟩

theorem Inv.shows_run_iff (h : s.Inv) (hshows : s.Shows) (keys : List (BitVec 8)) :
    (∀ pre, pre <+: keys → (s.run pre).Shows) ↔
      ∀ pre c, pre ++ [c] <+: keys → (s.run pre).StaysInRow c := by
  have hinv : ∀ (s : Readline) (c : BitVec 8), s.Inv → (s.key c).Inv := fun _ c h => h.key c
  have hstep : ∀ (s : Readline) (c : BitVec 8), s.Inv → s.Shows →
      ((s.key c).Shows ↔ s.StaysInRow c) :=
    fun s c ⟨⟨t, ht⟩, hw⟩ hgood => ht.shows_key_iff hw hgood c
  exact Prefix.forall_prefix_iff hinv hstep h hshows keys

/-- The history after lines of `shell_readline` have been entered and recalled. -/
theorem exists_typed_history (h₀ : History) {events : List HistoryEvent}
    (htyped : ∀ t, HistoryEvent.add (some t) ∈ events → Typed t) :
    ∃ r : Recall CString historyMaxEntries, (h₀.historyInit.run events).Represents r ∧
      ∀ u ∈ r.entries, Typed u := by
  have hfits : ∀ e ∈ events, e.Fits := by
    rintro e he t rfl
    exact Nat.le_of_lt_succ (htyped t he).1
  obtain ⟨r, hr, hkept⟩ := History.represents_run h₀ hfits
  refine ⟨r, hr, fun u hu => ?_⟩
  rw [hkept] at hu
  obtain ⟨e, he, hentered⟩ := List.mem_filterMap.mp (Recall.mem_of_mem_kept hu)
  cases e with
  | add line =>
      cases line with
      | none => cases hentered
      | some t =>
          rw [HistoryEvent.entered] at hentered
          split at hentered
          · cases hentered
          · obtain rfl := Option.some_inj.mp hentered
            exact htyped t he
  | prev => cases hentered
  | next => cases hentered
  | resetNav => cases hentered

variable (h₀ : History) (buf saved)

/-- **The cursor stands where the line ends.** After a prompt printed from column 0 on a console with room
for the prompt and one more character, whatever lines were entered before: the cursor is where it would
be had prompt and line been printed afresh after every key, exactly when no key erases across the start
of a row. -/
theorem shows_always_iff (hstart : k.cursorX = 0) (hwide : 88 ≤ k.fbWidth.toNat)
    {events : List HistoryEvent} (htyped : ∀ t, HistoryEvent.add (some t) ∈ events → Typed t)
    (keys : List (BitVec 8)) :
    (∀ pre, pre <+: keys →
      ((start buf saved (h₀.historyInit.run events) (shellPrompt k)).run pre).Shows) ↔
    ∀ pre c, pre ++ [c] <+: keys →
      ((start buf saved (h₀.historyInit.run events) (shellPrompt k)).run pre).StaysInRow c := by
  obtain ⟨r, hr, hentries⟩ := exists_typed_history h₀ htyped
  have hedit := editing_start buf saved hr hentries (shellPrompt k)
  have hcolumns : promptColumns < k.columns := by
    rw [Console.columns, promptColumns]
    omega
  have hroom : promptColumns < (shellPrompt k).columns := by rwa [columns_shellPrompt]
  have hprompt : (shellPrompt k).AtColumn promptColumns := atColumn_shellPrompt hstart hcolumns
  have hinv : (start buf saved (h₀.historyInit.run events) (shellPrompt k)).Inv :=
    ⟨⟨_, hedit⟩, hroom⟩
  exact hinv.shows_run_iff (shows_start hedit hprompt hroom) keys

def emptyHistory : History := ⟨fun _ _ => 0, 0, 0, -1⟩

def screen : Console := ⟨640, 480, 0, 0, colorWhite, []⟩

/-- Going back to the one line in the history. -/
theorem shows_recalled :
    ((start (fun _ => 0) (fun _ => 0) (emptyHistory.historyInit.run
      [.add (some ⟨[97], by decide⟩)]) (shellPrompt screen)).run [keyUp]).Shows := by
  refine (shows_always_iff (k := screen) (fun _ => 0) (fun _ => 0) emptyHistory rfl (by decide)
    (fun t ht => ?_) [keyUp]).mpr (Prefix.forall_steps_cons.mpr ⟨fun _ => ?_, fun pre c hpre => ?_⟩)
    _ List.prefix_rfl
  · obtain rfl : t = ⟨[97], by decide⟩ := by simpa using ht
    exact ⟨by decide, by decide⟩
  · exact ⟨fun _ => by decide +kernel, fun hback => absurd hback (by decide)⟩
  · exact absurd (List.prefix_nil.mp hpre) (List.append_ne_nil_of_right_ne_nil _ (by simp))

def fullRow : Readline :=
  (start (fun _ => 0) (fun _ => 0) (emptyHistory.historyInit.run []) (shellPrompt screen)).run
    (List.replicate 70 (ascii 'a') ++ [ascii '\x08'])

/-- On a screen of 640 pixels a row has 80 columns, and 70 characters after the prompt fill it. The
backspace that takes back the last of them leaves the cursor at the start of the next row. -/
theorem not_shows_fullRow : screen.cursorX = 0 ∧ 88 ≤ screen.fbWidth.toNat ∧
    fullRow.returned = false ∧ fullRow.len = 69 ∧ fullRow.console.cursorX = 0 ∧
    fullRow.afresh.cursorX = 632 ∧ ¬ fullRow.Shows := by
  have hcursor : fullRow.console.cursorX = 0 := by decide +kernel
  have hafresh : fullRow.afresh.cursorX = 632 := by decide +kernel
  have hwait : fullRow.returned = false := by decide +kernel
  refine ⟨rfl, by decide, hwait, by decide +kernel, hcursor, hafresh, fun hshows => ?_⟩
  have hsame := hshows hwait
  rw [hcursor, hafresh] at hsame
  exact absurd hsame (by decide)

end Readline

end SimpleOs
