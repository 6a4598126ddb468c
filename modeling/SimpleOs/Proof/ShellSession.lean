import SimpleOs.Proof.EchoCommand
import SimpleOs.Shell.Run
import SimpleOs.Shell.Session

/-!
# The shell and its sessions

The arrays of the shell follow the session that its keys make: what is edited, what is printed, what is
executed and what the history keeps are the same.
-/

namespace SimpleOs

open ByteMemory Traced Words

variable {c : BitVec 8} {t u : CString} {k : Console} {d : Draft CString historyMaxEntries}

theorem edited_arrow (hc : IsArrow c) : edited d c = d.browse (Readline.move c) := if_pos hc

theorem edited_backspace : edited d (ascii '\x08') = d.edit d.line.dropLast := rfl

theorem edited_printable (hc : Printable c) : edited d c =
    d.edit (if d.line.length < shellMaxLine - 1 then d.line.snoc c hc.ne_zero else d.line) := by
  have hedit : IsEdit c := Or.inl hc
  rw [edited, if_neg hedit.not_arrow, if_neg (hc.ne_ascii (by decide)), dif_pos hc]

theorem edited_ignored (harrow : ¬ IsArrow c) (hedit : ¬ IsEdit c) : edited d c = d := by
  obtain ⟨hprint, hback⟩ := not_or.mp hedit
  rw [edited, if_neg harrow, if_neg hback, dif_neg hprint]

theorem entries_edited : (edited d c).history.entries = d.history.entries := by
  by_cases harrow : IsArrow c
  · rw [edited_arrow harrow, Draft.browse, Readline.move]
    split
    · rfl
    · rfl
  · rw [edited, if_neg harrow]
    split_ifs <;> rfl

theorem echoed_arrow (hc : IsArrow c) :
    echoed d c = List.replicate d.line.length (ascii '\x08') ++ (edited d c).line.bytes := if_pos hc

theorem echoed_changed (hc : ¬ IsArrow c) (hline : (edited d c).line.length ≠ d.line.length) :
    echoed d c = [c] := by
  have hne : (edited d c).line ≠ d.line := fun heq => hline (congrArg CString.length heq)
  rw [echoed, if_neg hc, if_neg hne]

theorem echoed_same (hc : ¬ IsArrow c) (hline : (edited d c).line = d.line) : echoed d c = [] := by
  rw [echoed, if_neg hc, if_pos hline]

namespace Readline

variable {s : Readline}

/-- The next key is awaited, with the line of `d` and the console `k`. -/
structure Reads (s : Readline) (d : Draft CString historyMaxEntries) (k : Console) : Prop where
  holds : s.Holds d
  awaits : s.Awaits d.line k

theorem Holds.reads (h : s.Holds d) (hawaits : s.Awaits u k) (hline : d.line = u) : s.Reads d k :=
  ⟨h, hline ▸ hawaits⟩

theorem Holds.line_eq (h : s.Holds d) (hawaits : s.Awaits u k) : d.line = u := by
  rw [← h.text_eq, hawaits.editing.text_eq]

theorem len_key (hwait : s.returned = false) (hc : Printable c) (hroom : s.len < shellMaxLine - 1) :
    (s.key c).len = s.len + 1 := by
  have hedit : IsEdit c := Or.inl hc
  rw [key, if_neg (by rw [hwait]; decide), if_neg (show ¬ (c = keyUp ∨ c = keyDown) from hedit.not_arrow),
    if_neg hedit.ne_newline, if_neg (hc.ne_ascii (by decide)),
    if_pos (show 32 ≤ c.toNat ∧ c.toNat < 127 from hc), if_pos hroom]

theorem consolePrint_backspaces (k : Console) (n : Nat) (str : Text) :
    k.consolePrint (List.replicate n (ascii '\x08') ++ str) =
      ((Console.consolePutchar · (ascii '\x08'))^[n] k).consolePrint str := by
  induction n generalizing k with
  | zero => rfl
  | succ n ih => exact ih (k.consolePutchar (ascii '\x08'))

/-- What an edit leaves is the line that `shell_readline` awaits the next key with. -/
theorem Holds.edited (h : s.Holds d) (hwait : s.returned = false) (hc : IsEdit c)
    (hawaits : (s.key c).Awaits u k) : (s.key c).Holds (d.edit u) := by
  obtain ⟨t, ht, -⟩ := h.edit hwait hc
  have hline : t = u := ht.line_eq hawaits
  rwa [hline] at ht

theorem Reads.key (h : s.Reads d k) (hnewline : c ≠ ascii '\n') :
    (s.key c).Reads (edited d c) (k.consolePrint (echoed d c)) := by
  obtain ⟨hholds, hedit, hwait, rfl⟩ := h
  have hlen := hholds.length
  obtain ⟨u, harrow, -, hafter⟩ | ⟨hc, -⟩ | ⟨rfl, hpos, hafter⟩ | ⟨hc, hroom, hafter⟩ |
    ⟨hup, hdown, hzero, hafter⟩ := hedit.key_cases hwait c
  · have hmoved := (hholds.arrow hwait harrow).1
    have hline := hmoved.line_eq hafter
    rw [echoed_arrow harrow, edited_arrow harrow, consolePrint_backspaces, hlen, hline]
    exact hmoved.reads hafter hline
  · exact absurd hc hnewline
  · have hback : IsEdit (ascii '\x08') := Or.inr rfl
    have hshorter : (d.edit d.line.dropLast).line.length ≠ d.line.length := by
      rw [Draft.edit, CString.length_dropLast]
      omega
    rw [echoed_changed hback.not_arrow hshorter]
    exact (hholds.edited hwait hback hafter).reads hafter rfl
  · have hprint : IsEdit c := Or.inl hc
    have hnext : SimpleOs.edited d c = d.edit (d.line.snoc c hc.ne_zero) := by
      rw [edited_printable hc, if_pos (hlen.symm ▸ hroom)]
    have hlonger : (SimpleOs.edited d c).line.length ≠ d.line.length := by
      rw [hnext, Draft.edit, CString.length_snoc]
      omega
    rw [echoed_changed hprint.not_arrow hlonger, hnext]
    exact (hholds.edited hwait hprint hafter).reads hafter rfl
  · have harrow : ¬ IsArrow c := not_or.mpr ⟨hup, hdown⟩
    suffices hsame : (SimpleOs.edited d c).line = d.line ∧ (s.key c).Holds (SimpleOs.edited d c) by
      rw [echoed_same harrow hsame.1]
      exact hsame.2.reads hafter hsame.1
    by_cases hprint : Printable c
    · have hfull : ¬ d.line.length < shellMaxLine - 1 := by
        intro hroom
        have hmore := len_key hwait hprint (hlen ▸ hroom)
        have hsame := hafter.editing.length
        omega
      rw [edited_printable hprint, if_neg hfull]
      exact ⟨rfl, hholds.edited hwait (Or.inl hprint) hafter⟩
    by_cases hback : c = ascii '\x08'
    · have hempty : d.line.dropLast = d.line := by
        have hnil := List.length_eq_zero_iff.mp (hlen.trans (hzero hback))
        exact CString.ext (by rw [CString.dropLast]; dsimp only; rw [hnil, List.dropLast_nil])
      have hholds := hholds.edited hwait (Or.inr hback) hafter
      subst hback
      rw [edited_backspace, hempty]
      exact ⟨rfl, hholds⟩
    · have hignored : ¬ IsEdit c := not_or.mpr ⟨hprint, hback⟩
      rw [edited_ignored harrow hignored, key_ignored hwait harrow hignored hnewline]
      exact ⟨rfl, hholds⟩

end Readline

variable {m line : ByteMemory} {n p a : Nat} {l w : Text} {e : Executed} {us : List CString}

theorem commandNamed_cons (name : Text) (entry : String × Command) (entries : List (String × Command)) :
    (((entry :: entries).find? fun entry => name = entry.1.toList.map ascii).map Prod.snd).getD .unknown =
      if name = entry.1.toList.map ascii then entry.2
      else ((entries.find? fun entry => name = entry.1.toList.map ascii).map Prod.snd).getD .unknown := by
  rw [List.find?_cons]
  by_cases hname : name = entry.1.toList.map ascii
  · rw [if_pos hname, decide_eq_true hname]
    rfl
  · rw [if_neg hname, decide_eq_false hname]

theorem commandOf_eq (h : m.StringAt p w) : (commandOf fun i => m (p + i)) = commandNamed w := by
  have hcompare : ∀ (b : Text) (yes no : Command), 0 ∉ b →
      (if strEqual (fun i => m (p + i)) b then yes else no) = if w = b then yes else no := by
    intro b yes no hb
    rw [strEqual_eq h.nonzero hb fun i hi => h.getD hi]
    exact if_congr decide_eq_true_iff rfl rfl
  rw [commandOf, commandNamed, commandNames]
  iterate 10 rw [hcompare _ _ _ (by decide), commandNamed_cons]
  rfl

theorem map_bytes_wordsOf (t : CString) : (wordsOf t).map CString.bytes = words isSpace t.bytes := by
  rw [wordsOf, List.map_pmap, List.pmap_eq_map, List.map_id']

theorem WordAt.ofArray_eq (h : WordAt line 0 l u.bytes a) (hn : l.length < n) :
    CString.ofArray (fun i => line (a + i)) n = u := by
  have hstored : u.StoredIn fun i => line (a + i) := fun i hi => h.string.getD hi
  have hstop := h.stop
  exact hstored.ofArray_eq (by rw [CString.length]; omega)

theorem arguments_eq (h : List.Forall₂ (fun a (u : CString) => WordAt e.line 0 l u.bytes a) e.argv us)
    (hn : l.length < n) : ShellWorld.arguments e n = us := by
  obtain ⟨line, argv, command⟩ := e
  change argv.map (fun p => CString.ofArray (fun i => line (p + i)) n) = us
  replace h : List.Forall₂ (fun a (u : CString) => WordAt line 0 l u.bytes a) argv us := h
  induction h with
  | nil => rfl
  | cons hword _ ih => rw [List.map_cons, ih, hword.ofArray_eq hn]

/-- A command does what its words say, wherever they stand in the line. -/
theorem perform_eq (w : ShellWorld)
    (hargv : List.Forall₂ (fun a (u : CString) => WordAt e.line 0 l u.bytes a) e.argv us)
    (hcommand : e.command = e.argv.head?.map fun p => commandOf fun i => e.line (p + i))
    (hn : l.length < n) (hlen : l.length < 2 ^ 64) : w.perform n e = w.respond n us := by
  have harguments := arguments_eq hargv hn
  obtain ⟨line, argv, command⟩ := e
  cases hargv with
  | nil =>
      obtain rfl : command = none := hcommand
      rfl
  | @cons a u argv us hname hrest =>
      obtain rfl : command = some (commandNamed u.bytes) :=
        hcommand.trans (congrArg some (commandOf_eq hname.string))
      have hecho : (cmdEcho line n (a :: argv)).value =
          some ([ascii ' '].intercalate (us.map CString.bytes) ++ [ascii '\n']) := by
        rw [cmdEcho, List.tail_cons, value_bind,
          (echoArgs_returns (List.forall₂_map_right_iff.mpr hrest) hn hlen).value]
        rfl
      rw [ShellWorld.perform, ShellWorld.respond, harguments]
      dsimp only
      cases commandNamed u.bytes with
      | echo =>
          dsimp only
          rw [hecho]
          rfl
      | _ => rfl

variable {w : ShellWorld} {history : History} {r : Recall CString historyMaxEntries}

theorem Console.run_append (k : Console) (calls calls' : List ConsoleCall) :
    k.run (calls ++ calls') = (k.run calls).run calls' := List.foldl_append

theorem StringAt.of_storedIn (h : t.StoredIn m) : m.StringAt 0 t.bytes := by
  refine ⟨holds_of_getD fun i hi => ?_, t.nonzero⟩
  rw [List.length_append, List.length_singleton] at hi
  rw [Nat.zero_add, h i (Nat.le_of_lt_succ hi), CString.byte]
  obtain hlt | rfl := Nat.lt_or_eq_of_le (Nat.le_of_lt_succ hi)
  · rw [List.getD_append _ _ _ _ hlt]
  · rw [List.getD_append_right _ _ _ _ le_rfl, Nat.sub_self, List.getD_eq_default _ _ le_rfl]
    rfl

namespace Readline

variable {s : Readline}

theorem key_newline (hwait : s.returned = false) : s.key (ascii '\n') =
    { s with
      console := s.console.consolePutchar (ascii '\n')
      buf := Function.update s.buf s.len 0
      returned := true } := by
  rw [key, if_neg (by rw [hwait]; decide), if_neg (by decide), if_pos rfl]

theorem Reads.typed (h : s.Reads d k) : Typed d.line ∧ ∀ u ∈ d.history.entries, Typed u := by
  obtain ⟨r, hr, hentries⟩ := h.awaits.editing.history
  rw [← h.holds.history.lines_eq, hr.lines_eq]
  exact ⟨h.awaits.editing.typed, hentries⟩

theorem reads_prompt (w : ShellWorld) (line : ByteMemory) (hr : history.Represents r)
    (hentries : ∀ u ∈ r.entries, Typed u) :
    (Shell.prompt w line history k).Reads (.start .empty r.reset) (k.run promptCalls) where
  holds := holds_start line w.stack hr _
  awaits := ⟨editing_start line w.stack hr hentries _, rfl, rfl⟩

end Readline

/-- What is executed is the line: its words are the arguments, the first of them names the command. -/
structure Executes (e : Executed) (t : CString) : Prop where
  argv : List.Forall₂ (fun a (u : CString) => e.line.StringAt a u.bytes) e.argv
    ((wordsOf t).take shellMaxArgs)
  command : e.command = (wordsOf t).head?.map fun u => commandNamed u.bytes

/-- On a console that was `k`, the shell is where the session is. -/
structure Shell.Follows (k : Console) (s : Shell) (t : Session) : Prop where
  console : s.readline.console = k.run t.calls
  halted : s.halted = t.halted
  executed : List.Forall₂ Executes s.executed t.entered
  history : s.readline.history.lines = Recall.kept historyMaxEntries t.entered
  reads : t.halted = false → s.readline.Reads t.draft (k.run t.calls)

namespace Shell

/-- The line that is entered is executed. -/
theorem exists_executed (h : t.StoredIn m) (w : ShellWorld) (hn : t.length < n)
    (hlen : t.length < 2 ^ 64) :
    ∃ e, (shellExecute m n).value = some e ∧ Executes e t ∧
      w.perform n e = w.respond n ((wordsOf t).take shellMaxArgs) := by
  obtain ⟨e, hreturns, hargv, hcommand⟩ := shellExecute_returns (StringAt.of_storedIn h) hn hlen
  rw [← map_bytes_wordsOf, ← List.map_take, List.forall₂_map_right_iff] at hargv
  refine ⟨e, hreturns.value, ⟨hargv.imp fun _ _ hword => hword.string, ?_⟩,
    perform_eq w hargv hcommand hn hlen⟩
  have hhead : (wordsOf t).head? = ((wordsOf t).take shellMaxArgs).head? := by
    rw [List.head?_take, if_neg (by decide)]
  rw [hcommand, hhead]
  generalize (wordsOf t).take shellMaxArgs = us at hargv
  generalize e.argv = argv at hargv
  cases hargv with
  | nil => rfl
  | cons hname _ => exact congrArg some (commandOf_eq hname.string)

variable {s : Shell} {t : Session}

theorem Follows.enter (h : s.Follows k t) (hread : t.halted = false) (hn : 127 < n) (w : ShellWorld) :
    Option.Rel (Follows k) (s.finish w n (s.readline.key (ascii '\n'))) (t.enter w n) := by
  have hreads := h.reads hread
  obtain ⟨hline, hentries⟩ := hreads.typed
  have hshort : t.draft.line.length ≤ 127 := Nat.le_of_lt_succ hline.1
  have hholds := hreads.holds.newline hreads.awaits.waiting
  have hconsole : (s.readline.key (ascii '\n')).console = k.run (t.calls ++ [.putchar (ascii '\n')]) := by
    rw [Readline.key_newline hreads.awaits.waiting, Console.run_append, ← h.console]
    rfl
  have hkept := h.history
  rw [hreads.holds.history.lines_eq] at hkept
  have hstring := StringAt.of_storedIn hholds.stored
  have hfirst : (s.readline.key (ascii '\n')).buf 0 = 0 ↔ t.draft.line = .empty := by
    rw [hstring.zero_iff, CString.ext_iff]
    rfl
  rw [Shell.finish, Session.enter]
  by_cases hempty : t.draft.line = .empty
  · rw [if_pos (hfirst.mpr hempty)]
    dsimp only
    rw [if_pos hempty, hconsole]
    have hprompt := Readline.reads_prompt w (s.readline.key (ascii '\n')).buf
      (k := k.run (t.calls ++ [.putchar (ascii '\n')])) hholds.history hentries
    rw [← Console.run_append] at hprompt
    exact .some ⟨hprompt.awaits.console, h.halted.trans hread, h.executed,
      hprompt.holds.history.lines_eq.trans hkept, fun _ => hprompt⟩
  rw [if_neg (mt hfirst.mp hempty)]
  dsimp only
  rw [if_neg hempty, hholds.text_eq]
  obtain ⟨e, hvalue, hexecutes, hperform⟩ :=
    exists_executed hholds.stored w (by omega : t.draft.line.length < n) (by omega)
  have hadded : (t.draft.history.add t.draft.line).entries =
      Recall.kept historyMaxEntries (t.entered ++ [t.draft.line]) := Recall.entries_add (by decide) hkept
  have hexecuted := List.rel_append h.executed (List.Forall₂.cons hexecutes .nil)
  have hfirst : t.draft.line.byte 0 ≠ 0 := by
    rw [← hholds.stored 0 (Nat.zero_le _)]
    exact mt hfirst.mp hempty
  have hhistory := hholds.history.add hline.1 hfirst
  have htyped : ∀ u ∈ (t.draft.history.add t.draft.line).entries, Typed u := fun u hu =>
    (Recall.mem_add hu).elim (hentries u) fun heq => heq ▸ hline
  rw [hvalue, hconsole]
  change Option.Rel _ (w.perform n e >>= _) _
  rw [hperform]
  cases w.respond n ((wordsOf t.draft.line).take shellMaxArgs) with
  | none => exact .none
  | some effect =>
      cases hreturns : effect.returns with
      | true =>
          have hprompt := Readline.reads_prompt w e.line
            (k := k.run (t.calls ++ [.putchar (ascii '\n')] ++ effect.calls)) hhistory htyped
          rw [← Console.run_append, Console.run_append _ _ effect.calls] at hprompt
          simp only [Option.bind_eq_bind, Option.bind_some, hreturns, if_true]
          exact .some ⟨hprompt.awaits.console, rfl, hexecuted, hprompt.holds.history.lines_eq.trans hadded,
            fun _ => hprompt⟩
      | false =>
          simp only [Option.bind_eq_bind, Option.bind_some, hreturns]
          exact .some ⟨(Console.run_append _ _ _).symm, rfl, hexecuted, hhistory.lines_eq.trans hadded,
            fun hread => absurd hread.symm Bool.false_ne_true⟩

theorem Follows.step (hn : 127 < n) (s : Shell) (t : Session) (key : ShellWorld × BitVec 8)
    (h : s.Follows k t) : Option.Rel (Follows k) (s.step n key) (t.step n key) := by
  rw [Shell.step, Session.step, h.halted]
  by_cases hread : t.halted = true
  · rw [if_pos hread, if_pos hread]
    exact .some h
  have hwait : t.halted = false := Bool.eq_false_iff.mpr hread
  have hreads := h.reads hwait
  rw [if_neg hread, if_neg hread]
  dsimp only
  by_cases hnewline : key.2 = ascii '\n'
  · have hreturned : (s.readline.key (ascii '\n')).returned = true := by
      rw [Readline.key_newline hreads.awaits.waiting]
    rw [hnewline, if_pos hreturned, if_pos rfl]
    exact h.enter hwait hn key.1
  · have hnext := hreads.key hnewline
    have hsame : k.run (t.calls ++ [.print (echoed t.draft key.2)]) =
        (k.run t.calls).consolePrint (echoed t.draft key.2) := Console.run_append _ _ _
    rw [← hsame] at hnext
    have hreturned : ¬ (s.readline.key key.2).returned = true := by
      rw [hnext.awaits.waiting]
      exact Bool.false_ne_true
    rw [if_neg hreturned, if_neg hnewline]
    refine .some ⟨hnext.awaits.console, rfl, h.executed, ?_, fun _ => hnext⟩
    rw [← h.history, hreads.holds.history.lines_eq, ← entries_edited]
    exact hnext.holds.history.lines_eq

theorem follows_init (w : ShellWorld) (history : History) (k : Console) :
    (Shell.init w history k).Follows k (Session.init shellPrintBanner) := by
  have hprompt := Readline.reads_prompt w w.stack (k := k.run shellPrintBanner)
    (History.represents_historyInit history) fun u hu => absurd hu List.not_mem_nil
  rw [← Console.run_append] at hprompt
  exact ⟨hprompt.awaits.console, rfl, .nil, rfl, fun _ => hprompt⟩

theorem follows_run (w : ShellWorld) (history : History) (k : Console) (hn : 127 < n)
    (keys : List (ShellWorld × BitVec 8)) :
    Option.Rel (Follows k) ((Shell.init w history k).run n keys)
      ((Session.init shellPrintBanner).run n keys) :=
  Prefix.rel_foldlM (Follows.step hn) (follows_init w history k) keys

theorem Follows.text_eq (h : s.Follows k t) (hread : t.halted = false) :
    s.readline.text = t.draft.line := (h.reads hread).holds.text_eq

/-- **The shell does what the lines say.** Its loops are given the turns that the longest line takes, and
the rest of the kernel may be different with every key. Then the shell comes to the end of the keys exactly
if the session does; and it has printed what the session prints, executed the lines that were entered, kept
the last 16 of them, and holds the line that is being edited. -/
theorem shell_is_session (w : ShellWorld) (history : History) (k : Console) (hn : 127 < n)
    (keys : List (ShellWorld × BitVec 8)) :
    ((Shell.init w history k).run n keys = none ↔ (Session.init shellPrintBanner).run n keys = none) ∧
    ∀ s t, (Shell.init w history k).run n keys = some s →
      (Session.init shellPrintBanner).run n keys = some t →
      s.halted = t.halted ∧ s.readline.console = k.run t.calls ∧
      List.Forall₂ Executes s.executed t.entered ∧
      s.readline.history.lines = Recall.kept historyMaxEntries t.entered ∧
      (t.halted = false → s.readline.text = t.draft.line) := by
  have hrel := follows_run w history k hn keys
  refine ⟨Prefix.rel_none_iff hrel, fun s t hs ht => ?_⟩
  have h := Prefix.rel_of_some hrel hs ht
  exact ⟨h.halted, h.console, h.executed, h.history, h.text_eq⟩

def world : ShellWorld where
  stack := .zero
  timerTicks := 0
  pmm := ⟨fun _ => 0, 0, 0⟩
  heap := ⟨.zero, 0, 0, 0⟩
  processes := fun _ => .zero
  observed := ⟨fun _ => .zero, fun _ => .zero⟩

def helpKeys : List (ShellWorld × BitVec 8) := ("help\n".toList.map ascii).map (world, ·)

theorem shell_is_session_helpKeys :
    ((Shell.init world Readline.emptyHistory Readline.screen).run 128 helpKeys = none ↔
      (Session.init shellPrintBanner).run 128 helpKeys = none) ∧
    ∀ s t, (Shell.init world Readline.emptyHistory Readline.screen).run 128 helpKeys = some s →
      (Session.init shellPrintBanner).run 128 helpKeys = some t →
      s.halted = t.halted ∧ s.readline.console = Readline.screen.run t.calls ∧
      List.Forall₂ Executes s.executed t.entered ∧
      s.readline.history.lines = Recall.kept historyMaxEntries t.entered ∧
      (t.halted = false → s.readline.text = t.draft.line) :=
  shell_is_session world Readline.emptyHistory Readline.screen (by decide) helpKeys

end Shell

end SimpleOs
