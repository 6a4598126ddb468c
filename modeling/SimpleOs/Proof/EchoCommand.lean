import SimpleOs.Proof.HistoryList
import SimpleOs.Proof.Tokenizing

/-!
# The command `echo`

`cmd_echo` prints its arguments with single spaces between them. There are at most seven: what the
tokeniser has no room for is not printed.
-/

namespace SimpleOs

open ByteMemory Traced Words

variable {m line : ByteMemory} {p n : Nat} {l printed : Text} {argv : List Nat} {ws : List Text}

def echoName : Text := "echo".toList.map ascii

/-- Executing the line calls `cmd_echo`, which prints `printed`. -/
def EchoPrints (m : ByteMemory) (n : Nat) (printed : Text) : Prop :=
  ∃ e, (shellExecute m n).value = some e ∧ e.command = some .echo ∧
    (cmdEcho e.line n e.argv).value = some printed

theorem commandOf_echo (h : m.StringAt p echoName) : (commandOf fun i => m (p + i)) = .echo := by
  have hcompare : ∀ b : Text, 0 ∉ b → strEqual (fun i => m (p + i)) b = decide (echoName = b) :=
    fun b hb => strEqual_eq h.nonzero hb fun i hi => h.getD hi
  rw [commandOf, hcompare _ (by decide), if_neg (by decide), hcompare _ (by decide),
    if_neg (by decide), hcompare _ (by decide), if_pos (by decide)]

theorem echoArgs_returns (h : List.Forall₂ (fun a w => WordAt line 0 l w a) argv ws)
    (hn : l.length < n) (hlen : l.length < 2 ^ 64) :
    (echoArgs line n argv).Returns (some ([ascii ' '].intercalate ws)) (InLine 0 l.length) := by
  have hload : ∀ {a w}, WordAt line 0 l w a →
      (loadString ShellBuffer.line line a n).Returns (some w) (InLine 0 l.length) := by
    intro a w hword
    have hstop := hword.stop
    exact returns_loadString hword.string (by omega) (by omega)
      fun i hi => inLine_load (Nat.zero_le _) (by omega)
  induction h with
  | nil =>
      rw [echoArgs]
      exact .pure _
  | cons hfirst htail ih =>
      cases htail with
      | nil =>
          rw [echoArgs, List.intercalate_singleton]
          exact hload hfirst
      | cons hsecond htail =>
          rw [List.intercalate_cons_cons, List.append_assoc]
          exact (hload hfirst).bind (ih.bind (.pure _))

/-- The words that are printed, whatever the line is. -/
theorem echoPrints_iff (h : m.StringAt 0 l) (hn : l.length < n) (hlen : l.length < 2 ^ 64)
    (hecho : words isSpace l = echoName :: ws) :
    EchoPrints m n printed ↔ printed = [ascii ' '].intercalate (ws.take 7) ++ [ascii '\n'] := by
  obtain ⟨e, hreturns, hargv, hcommand⟩ := shellExecute_returns h hn hlen
  rw [hecho, shellMaxArgs, List.take_succ_cons] at hargv
  obtain ⟨line, argv, command⟩ := e
  cases hargv with
  | @cons a _ argv _ hname hrest =>
      have hprinted : (cmdEcho line n (a :: argv)).value =
          some ([ascii ' '].intercalate (ws.take 7) ++ [ascii '\n']) := by
        rw [cmdEcho, List.tail_cons, value_bind, (echoArgs_returns hrest hn hlen).value]
        rfl
      have hcalled : command = some .echo :=
        hcommand.trans (congrArg some (commandOf_echo hname.string))
      constructor
      · rintro ⟨e', he', -, hout⟩
        rw [hreturns.value] at he'
        obtain rfl := Option.some.inj he'
        rw [hprinted] at hout
        exact (Option.some.inj hout).symm
      · rintro rfl
        exact ⟨_, hreturns.value, hcalled, hprinted⟩

/-- **`echo` prints all of its text** exactly if the line has no more than eight words. -/
theorem echo_printsAll_iff (h : m.StringAt 0 l) (hlen : l.length ≤ 127) (hn : l.length < n)
    (hecho : (words isSpace l).head? = some echoName) :
    EchoPrints m n ([ascii ' '].intercalate (words isSpace l).tail ++ [ascii '\n']) ↔
      (words isSpace l).length ≤ 8 := by
  obtain ⟨ws, hws⟩ := List.head?_eq_some_iff.mp hecho
  rw [echoPrints_iff h hn (by omega) hws, hws, List.tail_cons, List.length_cons]
  constructor
  · intro heq
    by_contra hmore
    have hne : ∀ w ∈ ws, w ≠ [] := fun w hw =>
      ne_nil_of_mem_words (p := isSpace) (l := l) (hws ▸ List.mem_cons_of_mem echoName hw)
    have hlt := length_intercalate_take_lt (s := ascii ' ') (show 7 < ws.length by omega) hne
    rw [← List.append_cancel_right heq] at hlt
    exact lt_irrefl _ hlt
  · intro hle
    rw [List.take_of_length_le (by omega)]

def twoWords : Text := "echo a".toList.map ascii

theorem echo_printsAll_iff_twoWords : EchoPrints (ofList twoWords) 128
    ([ascii ' '].intercalate (words isSpace twoWords).tail ++ [ascii '\n']) :=
  (echo_printsAll_iff (stringAt_ofList (by decide)) (by decide) (by decide) (by decide)).mpr (by decide)

def nineWords : Text := "echo 1 2 3 4 5 6 7 8".toList.map ascii

/-- The eighth number is not printed. -/
theorem not_echo_printsAll_nineWords :
    (words isSpace nineWords).head? = some echoName ∧
    EchoPrints (ofList nineWords) 128 ("1 2 3 4 5 6 7\n".toList.map ascii) ∧
    ¬ EchoPrints (ofList nineWords) 128
      ([ascii ' '].intercalate (words isSpace nineWords).tail ++ [ascii '\n']) := by
  have hstring : (ofList nineWords).StringAt 0 nineWords := stringAt_ofList (by decide)
  have hwords : words isSpace nineWords = echoName :: (words isSpace nineWords).tail := by decide
  refine ⟨by decide, ?_, ?_⟩
  · rw [echoPrints_iff hstring (by decide) (by decide) hwords]
    decide
  · rw [echoPrints_iff hstring (by decide) (by decide) hwords]
    decide

end SimpleOs
