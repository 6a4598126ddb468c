import SimpleOs.Proof.NumberPrinting
import SimpleOs.Shell.Execute

/-!
# The command `hexdump`

A dump is complete where it ends: one row for each 16 bytes, each byte as memory held it when it was
read. It ends unless the offset, which moves on by 16 past the last row, wraps around to 0 before it
reaches the length.
-/

namespace SimpleOs

open ByteMemory Traced

variable {addr len offset : BitVec 64} {b : BitVec 8} {i n turns : Nat} {printed out out' : Text}
  {bytes bytes' row : List (BitVec 8)} {rows : List (List (BitVec 8))} {argv : List CString}

def byteText (b : BitVec 8) : Text :=
  [hexChar ((b >>> 4) &&& 0xF#8).toNat, hexChar (b &&& 0xF#8).toNat, ascii ' ']

def rowText (addr : BitVec 64) (row : List (BitVec 8)) : Text :=
  (hexText addr).bytes ++ ": ".toList.map ascii ++ row.flatMap byteText ++ [ascii '\n']

def rowsText (addr : BitVec 64) : List (List (BitVec 8)) → Text
  | [] => []
  | row :: rows => rowText addr row ++ rowsText (addr + 16#64) rows

namespace Observed

variable {o : Observed}

/-- Each byte is what memory held at its address, the first one at `addr`, when some beginning of `out`
had been printed. -/
def Reads (o : Observed) (out : Text) : BitVec 64 → List (BitVec 8) → Prop
  | _, [] => True
  | addr, b :: bytes =>
      (∃ pre, pre <+: out ∧ b = o.memory pre addr.toNat) ∧ Reads o out (addr + 1#64) bytes

/-- `out` is a dump of the `len` bytes at `addr`. -/
def Dumps (o : Observed) (addr len : BitVec 64) (out : Text) : Prop :=
  ∃ rows : List (List (BitVec 8)), out = rowsText addr rows ∧
    rows.length = (len.toNat + 15) / 16 ∧ rows.flatten.length = len.toNat ∧
    o.Reads out addr rows.flatten

theorem Reads.mono (h : o.Reads out addr bytes) (hout : out <+: out') : o.Reads out' addr bytes := by
  induction bytes generalizing addr with
  | nil => trivial
  | cons b bytes ih =>
      obtain ⟨⟨pre, hpre, hb⟩, htail⟩ := h
      exact ⟨⟨pre, hpre.trans hout, hb⟩, ih htail⟩

theorem Reads.append (h : o.Reads out addr bytes)
    (h' : o.Reads out (addr + BitVec.ofNat 64 bytes.length) bytes') :
    o.Reads out addr (bytes ++ bytes') := by
  induction bytes generalizing addr with
  | nil => rwa [List.length_nil, BitVec.add_zero] at h'
  | cons b bytes ih =>
      refine ⟨h.1, ih h.2 ?_⟩
      rwa [List.length_cons, Nat.add_comm, BitVec.ofNat_add, ← BitVec.add_assoc] at h'

theorem toNat_add_ofNat (h : offset.toNat + i < 2 ^ 64) :
    (offset + BitVec.ofNat 64 i).toNat = offset.toNat + i := by
  rw [BitVec.toNat_add, BitVec.toNat_ofNat, Nat.add_mod_mod, Nat.mod_eq_of_lt h]

/-- The inner loop prints the bytes that are left, up to as many as it has turns. -/
theorem exists_dumpBytes (o : Observed) (addr len offset : BitVec 64) (i n : Nat) (printed : Text)
    (h : offset.toNat + i + n ≤ 2 ^ 64) :
    ∃ row : List (BitVec 8), row.length = min n (len.toNat - (offset.toNat + i)) ∧
      o.dumpBytes addr len offset i printed n = printed ++ row.flatMap byteText ∧
      o.Reads (printed ++ row.flatMap byteText) (addr + (offset + BitVec.ofNat 64 i)) row := by
  induction n generalizing i printed with
  | zero => exact ⟨[], (Nat.zero_min _).symm, (List.append_nil printed).symm, trivial⟩
  | succ n ih =>
      have hindex : (offset + BitVec.ofNat 64 i).toNat = offset.toNat + i :=
        toNat_add_ofNat (by omega)
      rw [dumpBytes]
      by_cases hlt : offset + BitVec.ofNat 64 i < len
      · rw [if_pos hlt]
        rw [BitVec.lt_def, hindex] at hlt
        dsimp only
        generalize hb : o.memory printed (addr + (offset + BitVec.ofNat 64 i)).toNat = b
        obtain ⟨row, hlen, htext, hreads⟩ := ih (i + 1) (printed ++ byteText b) (by omega)
        refine ⟨b :: row, ?_, ?_, ⟨printed, List.prefix_append _ _, hb.symm⟩, ?_⟩
        · rw [List.length_cons, hlen]
          omega
        · rw [List.flatMap_cons, ← List.append_assoc, ← htext, byteText, List.append_assoc]
          rfl
        · rw [List.flatMap_cons, ← List.append_assoc]
          rwa [BitVec.ofNat_add, ← BitVec.add_assoc offset, ← BitVec.add_assoc addr] at hreads
      · rw [if_neg hlt]
        rw [BitVec.lt_def, hindex] at hlt
        refine ⟨[], ?_, (List.append_nil printed).symm, trivial⟩
        rw [List.length_nil]
        omega

theorem dumpRows_succ (h : offset < len) : o.dumpRows addr len offset printed (turns + 1) =
    o.dumpRows addr len (offset + 16#64)
      (o.dumpBytes addr len offset 0 (printed ++ (hexText (addr + offset)).bytes ++ ": ".toList.map ascii) 16 ++
        [ascii '\n']) turns := by
  rw [dumpRows, if_pos h, (printHex_returns (o.stack printed) (addr + offset)).value]
  rfl

/-- From an offset that does not wrap, the outer loop ends after the last row. -/
theorem exists_dumpRows (o : Observed) (addr offset : BitVec 64) (printed : Text)
    (hmax : len.toNat ≤ 2 ^ 64 - 16) (hturns : (len.toNat - offset.toNat + 15) / 16 < turns) :
    ∃ rows : List (List (BitVec 8)),
      o.dumpRows addr len offset printed turns = some (printed ++ rowsText (addr + offset) rows) ∧
      rows.length = (len.toNat - offset.toNat + 15) / 16 ∧
      rows.flatten.length = len.toNat - offset.toNat ∧
      o.Reads (printed ++ rowsText (addr + offset) rows) (addr + offset) rows.flatten := by
  induction turns generalizing offset printed with
  | zero => exact absurd hturns (Nat.not_lt_zero _)
  | succ turns ih =>
      by_cases hlt : offset < len
      · have hle := BitVec.lt_def.mp hlt
        have hnext : (offset + 16#64).toNat = offset.toNat + 16 :=
          toNat_add_ofNat (i := 16) (by omega)
        obtain ⟨row, hrow, htext, hreads⟩ := exists_dumpBytes o addr len offset 0 16
          (printed ++ (hexText (addr + offset)).bytes ++ ": ".toList.map ascii) (by omega)
        obtain ⟨rows, hrows, hcount, hlen, hrest⟩ := ih (offset + 16#64)
          (printed ++ rowText (addr + offset) row) (by rw [hnext]; omega)
        have hafter : printed ++ rowText (addr + offset) row ++ rowsText (addr + (offset + 16#64)) rows =
            printed ++ rowsText (addr + offset) (row :: rows) := by
          rw [rowsText, ← List.append_assoc, BitVec.add_assoc]
        rw [hnext] at hcount hlen
        rw [hafter] at hrows hrest
        refine ⟨row :: rows, ?_, ?_, ?_, ?_⟩
        · rw [dumpRows_succ hlt, htext, ← hrows, rowText]
          simp only [List.append_assoc]
        · rw [List.length_cons, hcount]
          omega
        · rw [List.flatten_cons, List.length_append, hrow, hlen]
          omega
        · rw [BitVec.add_zero] at hreads
          rw [List.flatten_cons]
          refine (hreads.mono ?_).append ?_
          · rw [rowsText, rowText]
            simp only [List.append_assoc, List.prefix_append_right_inj, List.prefix_append]
          · by_cases hfull : row.length = 16
            · rwa [hfull, BitVec.add_assoc]
            · rw [List.eq_nil_of_length_eq_zero (l := rows.flatten) (by omega)]
              trivial
      · rw [dumpRows, if_neg hlt]
        rw [BitVec.lt_def] at hlt
        refine ⟨[], by rw [rowsText, List.append_nil], ?_, ?_, trivial⟩
        · rw [List.length_nil]
          omega
        · rw [List.flatten_nil, List.length_nil]
          omega

/-- Past the last multiple of 16 the offset starts again at 0. -/
theorem dumpRows_eq_none (hlen : 2 ^ 64 - 16 < len.toNat) (hoffset : 16 ∣ offset.toNat)
    (turns : Nat) (printed : Text) : o.dumpRows addr len offset printed turns = none := by
  induction turns generalizing offset printed with
  | zero => rfl
  | succ turns ih =>
      have hbound := offset.isLt
      have hlt : offset < len := by
        rw [BitVec.lt_def]
        omega
      have hnext : 16 ∣ (offset + 16#64).toNat := by
        rw [BitVec.toNat_add]
        exact (Nat.dvd_mod_iff (by decide)).mpr (Nat.dvd_add hoffset (by decide))
      rw [dumpRows_succ hlt, ih hnext]

theorem cmdHexdump_eq (hargc : 3 ≤ argv.length) (haddr : parseUint argv[1]? = (addr, true))
    (hlen : parseUint argv[2]? = (len, true)) (hpos : 1 ≤ len.toNat) (turns : Nat) :
    o.cmdHexdump argv turns = o.dumpRows addr len 0#64 [] turns := by
  have hne : len ≠ 0#64 := by
    rintro rfl
    exact absurd hpos (by decide)
  rw [cmdHexdump, if_neg (by omega), haddr, hlen]
  dsimp only
  rw [if_neg (by simp [hne])]

/-- **`hexdump` terminates and is complete** exactly for lengths up to `2 ^ 64 - 16`. -/
theorem cmdHexdump_dumps_iff (o : Observed) (hargc : 3 ≤ argv.length)
    (haddr : parseUint argv[1]? = (addr, true)) (hlen : parseUint argv[2]? = (len, true))
    (hpos : 1 ≤ len.toNat) :
    (∃ turns out, o.cmdHexdump argv turns = some out ∧ o.Dumps addr len out) ↔
      len.toNat ≤ 2 ^ 64 - 16 := by
  constructor
  · rintro ⟨turns, out, hout, -⟩
    by_contra hmore
    rw [cmdHexdump_eq hargc haddr hlen hpos,
      dumpRows_eq_none (Nat.lt_of_not_le hmore) (show 16 ∣ (0#64).toNat by decide)] at hout
    cases hout
  · intro hmax
    obtain ⟨rows, hrows, hcount, hbytes, hreads⟩ :=
      exists_dumpRows o addr 0#64 [] hmax (Nat.lt_succ_self _)
    rw [List.nil_append, BitVec.add_zero] at hrows hreads
    exact ⟨_, _, (cmdHexdump_eq hargc haddr hlen hpos _).trans hrows, rows, rfl, hcount, hbytes, hreads⟩

def blank : Observed := ⟨fun _ => .zero, fun _ => .zero⟩

def hexdumpArgs (len : CString) : List CString :=
  [⟨"hexdump".toList.map ascii, by decide⟩, ⟨"0".toList.map ascii, by decide⟩, len]

def oneRow : CString := ⟨"16".toList.map ascii, by decide⟩

theorem cmdHexdump_dumps_oneRow :
    ∃ turns out, blank.cmdHexdump (hexdumpArgs oneRow) turns = some out ∧ blank.Dumps 0 16 out :=
  (cmdHexdump_dumps_iff blank (by decide) (by decide) (by decide) (by decide)).mpr (by decide)

def maxLength : CString := ⟨"0xFFFFFFFFFFFFFFFF".toList.map ascii, by decide⟩

/-- The dump of all of memory but its last byte starts again and again. -/
theorem not_dumps_maxLength :
    parseUint (hexdumpArgs maxLength)[1]? = (0, true) ∧
    parseUint (hexdumpArgs maxLength)[2]? = (0xFFFFFFFFFFFFFFFF, true) ∧
    ¬ ∃ turns out, blank.cmdHexdump (hexdumpArgs maxLength) turns = some out ∧
      blank.Dumps 0 0xFFFFFFFFFFFFFFFF out := by
  have haddr : parseUint (hexdumpArgs maxLength)[1]? = (0, true) := by decide
  have hlen : parseUint (hexdumpArgs maxLength)[2]? = (0xFFFFFFFFFFFFFFFF, true) := by decide
  refine ⟨haddr, hlen, ?_⟩
  rintro ⟨turns, out, hout, -⟩
  rw [cmdHexdump_eq (by decide) haddr hlen (by decide), dumpRows_eq_none (by decide) (by decide)] at hout
  cases hout

end Observed

end SimpleOs
