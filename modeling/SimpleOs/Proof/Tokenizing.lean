import SimpleOs.Lib.Words
import SimpleOs.Shell.Execute

/-!
# Splitting a line into arguments

The loop of `shell_execute` cuts the line into its words: it puts a NUL behind every word that it takes
and records where the word starts. It takes words while `argv` has room, so that a line of more than
eight words loses the others.
-/

namespace SimpleOs

open ByteMemory Traced Words

variable {m m' : ByteMemory} {p n : Nat} {l gap w rest : Text} {argv : List Nat}

/-- Inside the string of `len` bytes at `p`, or at its terminator. -/
def InLine (p len : Nat) (a : Access ShellBuffer) : Prop :=
  p ≤ a.offset ∧ a.offset + a.size ≤ p + len + 1

/-- The word `w` of the line `l` at `p` stands at `a`. -/
structure WordAt (m : ByteMemory) (p : Nat) (l w : Text) (a : Nat) : Prop where
  string : m.StringAt a w
  start : p ≤ a
  stop : a + w.length ≤ p + l.length

theorem InLine.mono {p' len len' : Nat} (hle : p ≤ p') (hend : p' + len' ≤ p + len)
    (a : Access ShellBuffer) (h : InLine p' len' a) : InLine p len a := by
  obtain ⟨hstart, hstop⟩ := h
  exact ⟨hle.trans hstart, hstop.trans (Nat.succ_le_succ hend)⟩

theorem inLine_load {x len : Nat} (hle : p ≤ x) (hend : x ≤ p + len) :
    InLine p len ⟨.load, .line, x, 1⟩ := ⟨hle, Nat.succ_le_succ hend⟩

/-- Both loops stop at the terminator, whatever else they look for. -/
theorem skip_returns {P : BitVec 8 → Bool} (h : m.StringAt p (w ++ rest))
    (hw : ∀ c ∈ w, P c = true) (hrest : ∀ c ∈ rest.head?, P c = false)
    (hn : (w ++ rest).length < n) (hp : p + (w ++ rest).length < 2 ^ 64) :
    (scanWhile (fun c => c ≠ 0 && P c) .line m p n).Returns (some (p + w.length))
      (InLine p (w ++ rest).length) := by
  rw [List.length_append] at hn hp ⊢
  refine returns_scanWhile_string h (fun c hc => ?_) (fun c hc => ?_) rfl (by omega) (by omega)
    fun i hi => inLine_load (by omega) (by omega)
  · have hne : c ≠ 0 := fun hzero => h.nonzero (hzero ▸ List.mem_append_left rest hc)
    rw [hw c hc, Bool.and_true]
    exact decide_eq_true hne
  · rw [hrest c hc, Bool.and_false]

theorem skipWord_returns (h : m.StringAt p (w ++ rest)) (hw : ∀ c ∈ w, isSpace c = false)
    (hrest : ∀ c ∈ rest.head?, isSpace c = true) (hn : (w ++ rest).length < n)
    (hp : p + (w ++ rest).length < 2 ^ 64) :
    (scanWhile (fun c => c ≠ 0 && !isSpace c) .line m p n).Returns (some (p + w.length))
      (InLine p (w ++ rest).length) := by
  refine skip_returns h (fun c hc => ?_) (fun c hc => ?_) hn hp
  · rw [hw c hc, Bool.not_false]
  · rw [hrest c hc, Bool.not_true]

/-- There is no word in a line of separators. -/
theorem tokenize_gap (h : m.StringAt p l) (hl : ∀ c ∈ l, isSpace c = true) (hn : l.length < n)
    (hp : p + l.length < 2 ^ 64) (room : Nat) :
    (tokenize m p n room).Returns (some (m, [])) (InLine p l.length) := by
  have hload : InLine p l.length ⟨.load, .line, p, 1⟩ := inLine_load le_rfl (Nat.le_add_right _ _)
  cases room with
  | zero =>
      rw [tokenize]
      exact Returns.load_bind hload (.pure _)
  | succ room =>
      have hline : m.StringAt p (l ++ []) := by rwa [List.append_nil]
      have hskip := skip_returns (n := n) hline hl (by simp)
        (by rwa [List.append_nil]) (by rwa [List.append_nil])
      rw [List.append_nil] at hskip
      have hend : m.StringAt (p + l.length) [] := hline.append_right
      rw [tokenize]
      refine Returns.load_bind hload ?_
      by_cases hfirst : m.field p 8 = 0
      · rw [if_pos hfirst]
        exact .pure _
      rw [if_neg hfirst]
      refine hskip.bind (Returns.load_bind (inLine_load (Nat.le_add_right _ _) le_rfl) ?_)
      rw [field_byte hp, if_pos (hend.zero_iff.mpr rfl)]
      exact .pure _

/-- A turn takes the first word, and ends it where it is not the end of the line. -/
theorem tokenize_word (room : Nat) (h : m.StringAt p (gap ++ (w ++ rest)))
    (hgap : ∀ c ∈ gap, isSpace c = true) (hne : w ≠ []) (hw : ∀ c ∈ w, isSpace c = false)
    (hrest : ∀ c ∈ rest.head?, isSpace c = true)
    (hn : (gap ++ (w ++ rest)).length < n) (hp : p + (gap ++ (w ++ rest)).length < 2 ^ 64)
    (hnext : (if rest ≠ [] then
          tokenize (Function.update m (p + gap.length + w.length) 0) (p + gap.length + w.length + 1) n room
        else tokenize m (p + gap.length + w.length) n room).Returns (some (m', argv))
      (InLine p (gap ++ (w ++ rest)).length)) :
    (tokenize m p n (room + 1)).Returns (some (m', (p + gap.length) :: argv))
      (InLine p (gap ++ (w ++ rest)).length) := by
  have hword := h.append_right
  have hend := hword.append_right
  have hlen : (gap ++ (w ++ rest)).length = gap.length + (w.length + rest.length) := by
    rw [List.length_append, List.length_append]
  have hhead : ∀ c ∈ (w ++ rest).head?, isSpace c = false := by
    intro c hc
    rw [List.head?_append_of_ne_nil _ hne] at hc
    exact hw c (List.mem_of_mem_head? hc)
  have hskip := skip_returns h hgap hhead hn hp
  have htake := skipWord_returns (n := n) hword hw hrest (by rw [List.length_append]; omega)
    (by rw [List.length_append]; omega)
  rw [hlen] at hskip hn hp hnext ⊢
  rw [List.length_append] at htake
  have hfirst : m.field p 8 ≠ 0 := by
    rw [field_byte (by omega), Ne, h.zero_iff]
    simp [hne]
  have hstart : m.field (p + gap.length) 8 ≠ 0 := by
    rw [field_byte (by omega), Ne, hword.zero_iff]
    simp [hne]
  rw [tokenize]
  refine Returns.load_bind (inLine_load le_rfl (by omega)) ?_
  rw [if_neg hfirst]
  refine hskip.bind (Returns.load_bind (inLine_load (by omega) (by omega)) ?_)
  rw [if_neg hstart]
  refine (htake.mono (InLine.mono (by omega) (by omega))).bind
    (Returns.load_bind (inLine_load (by omega) (by omega)) ?_)
  rw [field_byte (by omega)]
  split at hnext
  · rename_i hmore
    have hpos := List.length_pos_of_ne_nil hmore
    rw [if_pos (mt hend.zero_iff.mp hmore)]
    refine Returns.store_bind ⟨by dsimp only; omega, by dsimp only; omega⟩ ?_
    rw [put_byte (by omega)]
    exact hnext.bind (.pure _)
  · rename_i hnone
    rw [if_neg fun hzero => hzero (hend.zero_iff.mpr (not_not.mp hnone))]
    exact hnext.bind (.pure _)

theorem WordAt.mono {a p' : Nat} {l' : Text} (h : WordAt m p' l' w a) (hle : p ≤ p')
    (hend : p' + l'.length ≤ p + l.length) : WordAt m p l w a :=
  ⟨h.string, hle.trans h.start, h.stop.trans hend⟩

/-- A word that has been ended stands in the line, whatever is done behind it. -/
theorem wordAt_ended (h : m.StringAt p (gap ++ (w ++ rest)))
    (hframe : ∀ x < p + gap.length + w.length + 1,
      m' x = Function.update m (p + gap.length + w.length) 0 x) :
    WordAt m' p (gap ++ (w ++ rest)) w (p + gap.length) := by
  obtain ⟨hholds, hzero⟩ := h.append_right
  rw [List.append_assoc, holds_append] at hholds
  rw [List.mem_append, not_or] at hzero
  have hended : StringAt (Function.update m (p + gap.length + w.length) 0) (p + gap.length) w :=
    ⟨hholds.1.snoc, hzero.1⟩
  refine ⟨hended.congr fun x _ hle => hframe x (Nat.lt_succ_of_le hle), Nat.le_add_right _ _, ?_⟩
  rw [List.length_append, List.length_append]
  omega

theorem tokenize_returns (h : m.StringAt p l) (hn : l.length < n) (hp : p + l.length < 2 ^ 64)
    (room : Nat) : ∃ m' argv,
      (tokenize m p n room).Returns (some (m', argv)) (InLine p l.length) ∧
      List.Forall₂ (fun a w => WordAt m' p l w a) argv ((words isSpace l).take room) ∧
      ∀ x < p, m' x = m x := by
  induction room generalizing m p l with
  | zero =>
      refine ⟨m, [], ?_, .nil, fun _ _ => rfl⟩
      rw [tokenize]
      exact Returns.load_bind (inLine_load le_rfl (Nat.le_add_right _ _)) (.pure _)
  | succ room ih =>
      obtain ⟨hgap, hwords⟩ | ⟨gap, w, rest, rfl, hgap, hne, hw, hrest⟩ := words_cases isSpace l
      · rw [hwords]
        exact ⟨m, [], tokenize_gap h hgap hn hp (room + 1), .nil, fun _ _ => rfl⟩
      have hend := h.append_right.append_right
      have hlen : (gap ++ (w ++ rest)).length = gap.length + (w.length + rest.length) := by
        rw [List.length_append, List.length_append]
      obtain ⟨rfl, hwords⟩ | ⟨s, tail, rfl, hs, hwords⟩ := hrest
      · -- The last word ends with the line.
        have hnone := tokenize_gap (n := n) hend (fun c hc => absurd hc List.not_mem_nil)
          (by simp only [hlen, List.length_nil] at hn ⊢; omega)
          (by simp only [hlen, List.length_nil] at hp ⊢; omega) room
        have hturn := tokenize_word room h hgap hne hw (by simp) hn hp (by
          rw [if_neg (not_not.mpr rfl)]
          exact hnone.mono (InLine.mono (by omega) (by simp only [hlen, List.length_nil]; omega)))
        have hword : WordAt m p (gap ++ (w ++ [])) w (p + gap.length) := by
          refine wordAt_ended h fun x hx => ?_
          by_cases hq : x = p + gap.length + w.length
          · rw [hq, Function.update_self, hend.zero_iff.mpr rfl]
          · rw [Function.update_of_ne hq]
        rw [hwords]
        exact ⟨m, _, hturn, .cons hword (by rw [List.take_nil]; exact .nil), fun _ _ => rfl⟩
      · -- A NUL is put behind the word, and the loop goes on behind that.
        have htail : StringAt (Function.update m (p + gap.length + w.length) 0)
            (p + gap.length + w.length + 1) tail := by
          have hbehind : m.StringAt (p + gap.length + w.length + 1) tail :=
            StringAt.append_right (l := [s]) hend
          exact hbehind.congr fun x hle _ => Function.update_of_ne (by omega) _ _
        rw [List.length_cons] at hlen
        obtain ⟨m', argv, hloop, hargv, hframe⟩ :=
          ih htail (by omega) (by omega)
        have hsep : ∀ c ∈ (s :: tail).head?, isSpace c = true := by
          intro c hc
          obtain rfl := Option.some.inj hc
          exact hs
        have hturn := tokenize_word room h hgap hne hw hsep hn hp (by
          rw [if_pos (List.cons_ne_nil s tail)]
          exact hloop.mono (InLine.mono (by omega) (by omega)))
        rw [hwords, List.take_succ_cons]
        refine ⟨m', _, hturn, .cons (wordAt_ended h hframe) (hargv.imp fun a w' hword => ?_), ?_⟩
        · exact hword.mono (by omega) (by omega)
        · intro x hx
          rw [hframe x (by omega), Function.update_of_ne (by omega)]

theorem shellExecute_returns (h : m.StringAt 0 l) (hn : l.length < n) (hlen : l.length < 2 ^ 64) :
    ∃ e, (shellExecute m n).Returns (some e) (InLine 0 l.length) ∧
      List.Forall₂ (fun a w => WordAt e.line 0 l w a) e.argv ((words isSpace l).take shellMaxArgs) ∧
      e.command = e.argv.head?.map fun p => commandOf fun i => e.line (p + i) := by
  obtain ⟨line, argv, hloop, hargv, -⟩ :=
    tokenize_returns h hn (by rwa [Nat.zero_add]) shellMaxArgs
  cases argv with
  | nil =>
      refine ⟨⟨line, [], none⟩, ?_, hargv, rfl⟩
      rw [shellExecute]
      exact hloop.bind (.pure _)
  | cons p argv =>
      refine ⟨⟨line, p :: argv, some (commandOf fun i => line (p + i))⟩, ?_, hargv, rfl⟩
      rw [shellExecute]
      exact hloop.bind (.pure _)

/-- **Tokenising is word splitting.** There are as many arguments as words, up to eight, and each argument
is the word of its number. -/
theorem shellExecute_splits (h : m.StringAt 0 l) (hn : l.length < n) (hlen : l.length < 2 ^ 64) :
    ∃ e, (shellExecute m n).Returns (some e) (InLine 0 l.length) ∧
      e.argv.length = min 8 (words isSpace l).length ∧
      ∀ i a : Nat, e.argv[i]? = some a →
        ∃ w, (words isSpace l)[i]? = some w ∧ WordAt e.line 0 l w a := by
  obtain ⟨e, hreturns, hargv, -⟩ := shellExecute_returns h hn hlen
  refine ⟨e, hreturns, ?_, fun i a ha => ?_⟩
  · rw [hargv.length_eq, List.length_take]
    rfl
  · obtain ⟨hi, rfl⟩ := List.getElem?_eq_some_iff.mp ha
    have hi' := hargv.length_eq ▸ hi
    rw [List.length_take] at hi'
    have hword := hargv.get hi (hargv.length_eq ▸ hi)
    refine ⟨_, List.getElem?_eq_getElem (lt_min_iff.mp hi').2, ?_⟩
    rwa [List.get_eq_getElem, List.get_eq_getElem, List.getElem_take] at hword

def psLine : Text := " ps\tx".toList.map ascii

theorem shellExecute_splits_psLine :
    ∃ e, (shellExecute (ofList psLine) 128).Returns (some e) (InLine 0 psLine.length) ∧
      e.argv.length = min 8 (words isSpace psLine).length ∧
      ∀ i a : Nat, e.argv[i]? = some a →
        ∃ w, (words isSpace psLine)[i]? = some w ∧ WordAt e.line 0 psLine w a :=
  shellExecute_splits (stringAt_ofList (by decide)) (by decide) (by decide)

end SimpleOs
