import SimpleOs.Proof.NumberParsing

/-!
# Printing of numbers

`print_dec`, `print_hex` and `int_to_str` write the digits of a number in three ways: into the end of an
array, into all of it, and in reverse. In each case what is printed is the numeral of the number, which
`parse_uint` reads back.
-/

namespace SimpleOs

open ByteMemory Traced Numeral

variable {base d i k n p : Nat} {c : BitVec 8} {l l' : Text} {ds : List Nat} {num : BitVec 64}
  {m tmp buf : ByteMemory}

def digitChars (ds : List Nat) : Text := ds.map hexChar

def Fits (size : Nat) (a : Access TextBuffer) : Prop := a.offset + a.size ≤ size

/-- The first digit is not 0, unless it is the only one. -/
def NoLeadingZero (l : Text) : Prop := l.head? = some (ascii '0') → l = [ascii '0']

theorem hexChar_ne_zero (hd : d < 16) : hexChar d ≠ 0 := by
  revert d
  decide

theorem lastDigit_eq (num : BitVec 64) : lastDigit num = hexChar (num.toNat % 10) := by
  have htable : ∀ d < 10, BitVec.ofNat 8 (48 + d) = hexChar d := by decide
  have hmod : (num % 10#64).toNat = num.toNat % 10 := BitVec.toNat_umod
  rw [← htable _ (Nat.mod_lt _ (by decide))]
  apply BitVec.eq_of_toNat_eq
  rw [lastDigit, BitVec.toNat_setWidth, BitVec.toNat_add, hmod, BitVec.toNat_ofNat]
  exact Nat.mod_mod_of_dvd _ (by decide)

theorem gt_zero_iff : num > 0#64 ↔ num.toNat ≠ 0 := by
  rw [gt_iff_lt, BitVec.lt_def, ← Nat.pos_iff_ne_zero]
  rfl

theorem toNat_div_ten (num : BitVec 64) : (num / 10#64).toNat = num.toNat / 10 :=
  BitVec.toNat_udiv

theorem length_decimal_le (num : BitVec 64) : (digits 10 num.toNat).length ≤ 20 :=
  length_digits_le (by decide) (num.isLt.trans (by decide))

theorem isDigit_hexChar (hbase : base = 10 ∨ base = 16) (hd : d < base) :
    IsDigit base (hexChar d) d := by
  obtain rfl | rfl := hbase <;> revert d <;> decide

theorem isDigit_digitChars (hbase : base = 10 ∨ base = 16) (hds : ∀ d ∈ ds, d < base) :
    List.Forall₂ (IsDigit base) (digitChars ds) ds :=
  List.forall₂_map_left_iff.mpr
    (List.forall₂_same.mpr fun d hd => isDigit_hexChar hbase (hds d hd))

theorem zero_notMem_digitChars (hds : ∀ d ∈ ds, d < 16) : 0 ∉ digitChars ds := by
  intro hzero
  obtain ⟨d, hd, heq⟩ := List.mem_map.mp hzero
  exact hexChar_ne_zero (hds d hd) heq

theorem noLeadingZero_numeral (hbase : 1 < base) (hle : base ≤ 16) (n : Nat) :
    NoLeadingZero (digitChars (numeral base n)) := by
  intro hhead
  have hinj : ∀ d < 16, hexChar d = ascii '0' → d = 0 := by decide
  rw [digitChars, List.head?_map, Option.map_eq_some_iff] at hhead
  obtain ⟨d, hd, heq⟩ := hhead
  have hlt := lt_of_mem_numeral hbase (List.mem_of_mem_head? hd)
  obtain rfl := hinj d (by omega) heq
  rw [head?_numeral hd]
  rfl

theorem decDigits_returns (h : m.StringAt p l) (hlen : (digits 10 num.toNat).length ≤ p)
    (hp : p ≤ 20) : ∃ m', (decDigits num p m).Returns (m', p - (digits 10 num.toNat).length) (Fits 21) ∧
      m'.StringAt (p - (digits 10 num.toNat).length) (digitChars (digits 10 num.toNat) ++ l) := by
  induction hn : num.toNat using Nat.strong_induction_on generalizing num p m l with
  | _ n ih =>
      rw [hn] at hlen
      rw [decDigits]
      by_cases hzero : n = 0
      · subst hzero
        rw [if_neg fun hpos => gt_zero_iff.mp hpos hn]
        exact ⟨m, .pure _, h⟩
      have hpos : num > 0#64 := gt_zero_iff.mpr (hn ▸ hzero)
      have hdiv : (num / 10#64).toNat = n / 10 := hn ▸ toNat_div_ten num
      rw [digits_succ (by decide) hzero, List.length_append, List.length_singleton] at hlen ⊢
      have hsub : wsub p 1 = p - 1 := wsub_of_le (by omega) (by omega)
      have hchar : lastDigit num = hexChar (n % 10) := by rw [lastDigit_eq, hn]
      have hne : hexChar (n % 10) ≠ 0 := hexChar_ne_zero (by omega)
      have hstring : StringAt (Function.update m (p - 1) (hexChar (n % 10))) (p - 1)
          (hexChar (n % 10) :: l) := by
        refine StringAt.cons ?_ hne
        rwa [Nat.sub_add_cancel (by omega)]
      have hroom : (digits 10 (num / 10#64).toNat).length ≤ p - 1 := by
        rw [hdiv]
        omega
      obtain ⟨m', hreturns, hm'⟩ :=
        ih (n / 10) (Nat.div_lt_self (by omega) (by decide)) hstring hroom (by omega) hdiv
      have hindex : p - ((digits 10 (n / 10)).length + 1) = p - 1 - (digits 10 (n / 10)).length := by
        omega
      rw [hindex, if_pos hpos, hsub, hchar, digitChars, List.map_append, List.append_assoc]
      refine ⟨m', ?_, hm'⟩
      refine Returns.store_bind (show p - 1 + 1 ≤ 21 by omega) ?_
      rwa [put_byte (by omega)]

theorem printDec_returns (stack : ByteMemory) (num : BitVec 64) :
    (printDec stack num).Returns (some (digitChars (numeral 10 num.toNat))) (Fits 21) := by
  rw [printDec]
  refine Returns.store_bind (show 20 + 1 ≤ 21 by decide) ?_
  rw [put_byte (by decide), numeral]
  by_cases hzero : num = 0#64
  · subst hzero
    exact .pure _
  have hne : num.toNat ≠ 0 := fun h => hzero (BitVec.eq_of_toNat_eq h)
  have hlen := length_decimal_le num
  have hend : StringAt (Function.update stack 20 0) 20 [] :=
    ⟨⟨Function.update_self _ _ _, trivial⟩, List.not_mem_nil⟩
  obtain ⟨m, hloop, hm⟩ := decDigits_returns hend hlen le_rfl
  rw [List.append_nil] at hm
  rw [if_neg hzero, if_neg hne]
  refine hloop.bind (returns_loadString hm ?_ ?_ fun i hi => ?_)
  · rw [digitChars, List.length_map]
    omega
  · rw [digitChars, List.length_map]
    omega
  · rw [digitChars, List.length_map] at hi
    exact show 20 - (digits 10 num.toNat).length + i + 1 ≤ 21 by omega

theorem hexDigits_returns (h : m.StringAt i l) (hnum : num.toNat < 16 ^ i) (hi : i ≤ 16) :
    ∃ m', (hexDigits m num i).Returns m' (Fits 17) ∧
      m'.StringAt 0 (digitChars (padded 16 i num.toNat) ++ l) := by
  induction i generalizing num m l with
  | zero =>
      rw [Nat.lt_one_iff.mp hnum, padded_zero]
      exact ⟨m, .pure m, h⟩
  | succ i ih =>
      have hlast : (num &&& 0xF#64).toNat = num.toNat % 16 :=
        Nat.and_two_pow_sub_one_eq_mod num.toNat 4
      have hrest : (num >>> 4).toNat = num.toNat / 16 := by
        rw [BitVec.toNat_ushiftRight, Nat.shiftRight_eq_div_pow]
      have hlt : (num >>> 4).toNat < 16 ^ i := by
        rw [hrest]
        exact Nat.div_lt_of_lt_mul (by rwa [pow_succ'] at hnum)
      obtain ⟨m', hloop, hm'⟩ :=
        ih (h.cons (hexChar_ne_zero (Nat.mod_lt num.toNat (by decide)))) hlt (by omega)
      rw [hrest] at hm'
      rw [padded_succ (by decide), digitChars, List.map_append, List.append_assoc]
      refine ⟨m', ?_, hm'⟩
      rw [hexDigits, hlast]
      refine Returns.store_bind (show i + 1 ≤ 17 by omega) ?_
      rwa [put_byte (by omega)]

theorem skipZeros_returns (h : m.StringAt p (List.replicate k (ascii '0') ++ l)) (hl : l ≠ [])
    (hlead : NoLeadingZero l) (hk : k < n) (hend : p + k + l.length ≤ 16) :
    (skipZeros m p n).Returns (some (p + k)) (Fits 17) := by
  have hpos := List.length_pos_of_ne_nil hl
  induction n generalizing k p with
  | zero => exact absurd hk (Nat.not_lt_zero k)
  | succ n ih =>
      have hfits : Fits 17 ⟨.load, .buf, p, 1⟩ := show p + 1 ≤ 17 by omega
      have hnext : Fits 17 ⟨.load, .buf, p + 1, 1⟩ := show p + 1 + 1 ≤ 17 by omega
      rw [skipZeros]
      refine Returns.load_bind hfits ?_
      rw [field_byte (by omega)]
      cases k with
      | zero =>
          rw [List.replicate_zero, List.nil_append] at h
          by_cases hzero : l = [ascii '0']
          · subst hzero
            rw [h.holds.1, if_pos rfl]
            refine Returns.load_bind hnext ?_
            rw [field_byte (by omega), h.holds.2.1, if_neg (fun hne => hne rfl)]
            exact .pure _
          · obtain ⟨c, tail, rfl⟩ := List.exists_cons_of_ne_nil hl
            have hc : c ≠ ascii '0' := fun hc => hzero (hlead (by rw [List.head?_cons, hc]))
            rw [h.holds.1, if_neg hc]
            exact .pure _
      | succ k =>
          rw [List.replicate_succ, List.cons_append] at h
          have htail : m.StringAt (p + 1) (List.replicate k (ascii '0') ++ l) :=
            StringAt.append_right (l := [ascii '0']) h
          have hmore : m (p + 1) ≠ 0 := by
            have hread := htail.getD (Nat.zero_le _)
            rw [Nat.add_zero] at hread
            intro hnul
            rw [hnul] at hread
            refine htail.nonzero ?_
            rw [hread, List.getD_eq_getElem _ _ (by rw [List.length_append]; omega)]
            exact List.getElem_mem _
          rw [h.holds.1, if_pos rfl]
          refine Returns.load_bind hnext ?_
          rw [field_byte (by omega), if_pos hmore, Nat.add_comm k, ← Nat.add_assoc]
          exact ih htail (by omega) (by omega)

theorem printHex_returns (stack : ByteMemory) (num : BitVec 64) :
    (printHex stack num).Returns
      (some ("0x".toList.map ascii ++ digitChars (numeral 16 num.toNat))) (Fits 17) := by
  have hend : StringAt (Function.update stack 16 0) 16 [] :=
    ⟨⟨Function.update_self _ _ _, trivial⟩, List.not_mem_nil⟩
  obtain ⟨m, hloop, hm⟩ := hexDigits_returns hend (num.isLt.trans_eq (by decide)) le_rfl
  have hlen : (numeral 16 num.toNat).length ≤ 16 :=
    length_numeral_le (by decide) (by decide) (num.isLt.trans_eq (by decide))
  have hzero : hexChar 0 = ascii '0' := rfl
  rw [List.append_nil, padded_eq, digitChars, List.map_append, List.map_replicate, hzero] at hm
  have hne : (numeral 16 num.toNat).map hexChar ≠ [] := by
    rw [Ne, List.map_eq_nil_iff]
    exact numeral_ne_nil 16 _
  have hlead : NoLeadingZero ((numeral 16 num.toNat).map hexChar) :=
    noLeadingZero_numeral (by decide) le_rfl _
  have hskip := skipZeros_returns (n := 17) hm hne hlead (by omega) (by
    rw [List.length_map]
    omega)
  have htext := hm.append_right
  rw [List.length_replicate] at htext
  rw [printHex]
  refine Returns.store_bind (show 16 + 1 ≤ 17 by decide) ?_
  rw [put_byte (by decide)]
  refine hloop.bind (hskip.bind (Returns.bind (returns_loadString htext ?_ ?_ fun i hi => ?_) ?_))
  · rw [List.length_map]
    omega
  · rw [List.length_map]
    omega
  · rw [List.length_map] at hi
    exact show 0 + (15 + 1 - (numeral 16 num.toNat).length) + i + 1 ≤ 17 by omega
  · exact .pure _

theorem fillTmp_returns (h : tmp.Holds 0 l) (hlen : l.length + (digits 10 num.toNat).length ≤ 20) :
    ∃ tmp', (fillTmp num l.length tmp).Returns
        (tmp', l.length + (digits 10 num.toNat).length) (Fits 21) ∧
      tmp'.Holds 0 (l ++ (digitChars (digits 10 num.toNat)).reverse) := by
  induction hn : num.toNat using Nat.strong_induction_on generalizing num tmp l with
  | _ n ih =>
      rw [hn] at hlen
      rw [fillTmp]
      by_cases hzero : n = 0
      · subst hzero
        rw [if_neg fun hpos => gt_zero_iff.mp hpos hn]
        refine ⟨tmp, .pure _, ?_⟩
        rwa [show digits 10 0 = [] from rfl, digitChars, List.map_nil, List.reverse_nil,
          List.append_nil]
      have hpos : num > 0#64 := gt_zero_iff.mpr (hn ▸ hzero)
      have hdiv : (num / 10#64).toNat = n / 10 := hn ▸ toNat_div_ten num
      rw [digits_succ (by decide) hzero, List.length_append, List.length_singleton] at hlen ⊢
      have hchar : lastDigit num = hexChar (n % 10) := by rw [lastDigit_eq, hn]
      have hholds := h.snoc (c := hexChar (n % 10))
      rw [Nat.zero_add] at hholds
      have hroom : (l ++ [hexChar (n % 10)]).length + (digits 10 (num / 10#64).toNat).length ≤ 20 := by
        rw [hdiv, List.length_append, List.length_singleton]
        omega
      obtain ⟨tmp', hloop, htmp'⟩ :=
        ih (n / 10) (Nat.div_lt_self (by omega) (by decide)) hholds hroom hdiv
      rw [List.length_append, List.length_singleton] at hloop
      rw [if_pos hpos, hchar, digitChars, List.map_append, List.reverse_append]
      rw [List.append_assoc] at htmp'
      refine ⟨tmp', ?_, htmp'⟩
      refine Returns.store_bind (show l.length + 1 ≤ 21 by omega) ?_
      rw [put_byte (by omega), Nat.add_comm (digits 10 (n / 10)).length, ← Nat.add_assoc]
      exact hloop

/-- The characters are copied from the last one on. -/
theorem copyBack_returns (h : tmp.Holds 0 l) (hbuf : buf.Holds 0 l')
    (hlen : l'.length + l.length ≤ 20) :
    ∃ buf', (copyBack tmp l.length l'.length buf).Returns (buf', l'.length + l.length) (Fits 21) ∧
      buf'.Holds 0 (l' ++ l.reverse) := by
  induction l using List.reverseRecOn generalizing l' buf with
  | nil =>
      refine ⟨buf, .pure _, ?_⟩
      rwa [List.reverse_nil, List.append_nil]
  | append_singleton l c ih =>
      obtain ⟨hl, hc⟩ := holds_append.mp h
      rw [List.length_append, List.length_singleton] at hlen ⊢
      have hholds := hbuf.snoc (c := c)
      rw [Nat.zero_add] at hholds
      obtain ⟨buf', hloop, hbuf'⟩ := ih hl hholds (by
        rw [List.length_append, List.length_singleton]
        omega)
      rw [List.length_append, List.length_singleton] at hloop
      rw [List.append_assoc] at hbuf'
      rw [List.reverse_append]
      refine ⟨buf', ?_, hbuf'⟩
      rw [copyBack]
      refine Returns.load_bind (show l.length + 1 ≤ 21 by omega) ?_
      rw [field_byte (by omega), show tmp l.length = c by rw [← hc.1, Nat.zero_add]]
      refine Returns.store_bind (show l'.length + 1 ≤ 21 by omega) ?_
      rw [put_byte (by omega), Nat.add_comm l.length, ← Nat.add_assoc]
      exact hloop

theorem intToStr_returns (tmp buf : ByteMemory) (num : BitVec 64) :
    ∃ buf', (intToStr tmp buf num).Returns buf' (Fits 21) ∧
      buf'.StringAt 0 (digitChars (numeral 10 num.toNat)) := by
  have hnonzero : 0 ∉ digitChars (numeral 10 num.toNat) :=
    zero_notMem_digitChars fun d hd => (lt_of_mem_numeral (by decide) hd).trans (by decide)
  rw [intToStr]
  by_cases hzero : num = 0#64
  · subst hzero
    have hend : (store TextBuffer.out (buf.put 0 (ascii '0')) 1 0#8).Returns
        (Function.update (Function.update buf 0 (ascii '0')) 1 0#8) (Fits 21) := by
      refine ⟨?_, (within_store _ _ _ _).mpr (show 1 + 1 ≤ 21 by decide)⟩
      rw [value_store, put_byte (by decide), put_byte (by decide)]
    rw [if_pos rfl]
    exact ⟨_, Returns.store_bind (show 0 + 1 ≤ 21 by decide) hend, ⟨rfl, rfl, trivial⟩, hnonzero⟩
  have hne : num.toNat ≠ 0 := fun h => hzero (BitVec.eq_of_toNat_eq h)
  rw [numeral, if_neg hne] at hnonzero ⊢
  rw [if_neg hzero]
  have hlen := length_decimal_le num
  have hchars : (digitChars (digits 10 num.toNat)).length = (digits 10 num.toNat).length :=
    List.length_map _
  have htmp : tmp.Holds 0 [] := trivial
  have hbuf : buf.Holds 0 [] := trivial
  obtain ⟨tmp', hfill, htmp'⟩ := fillTmp_returns htmp (by rwa [List.length_nil, Nat.zero_add])
  rw [List.nil_append] at htmp'
  rw [List.length_nil, Nat.zero_add] at hfill
  obtain ⟨buf', hcopy, hbuf'⟩ := copyBack_returns htmp' hbuf (by
    rw [List.length_reverse, List.length_nil]
    omega)
  rw [List.reverse_reverse, List.nil_append] at hbuf'
  rw [List.length_reverse, List.length_nil, Nat.zero_add, hchars] at hcopy
  have hholds := hbuf'.snoc (c := 0)
  rw [Nat.zero_add, hchars] at hholds
  have hend : (store TextBuffer.out buf' (digits 10 num.toNat).length 0#8).Returns
      (Function.update buf' (digits 10 num.toNat).length 0#8) (Fits 21) := by
    refine ⟨?_, (within_store _ _ _ _).mpr (show (digits 10 num.toNat).length + 1 ≤ 21 by omega)⟩
    rw [value_store, put_byte (by omega)]
  exact ⟨_, hfill.bind (hcopy.bind hend), hholds, hnonzero⟩

def decText (num : BitVec 64) : CString where
  bytes := digitChars (numeral 10 num.toNat)
  nonzero := zero_notMem_digitChars fun _ hd => (lt_of_mem_numeral (by decide) hd).trans (by decide)

def hexText (num : BitVec 64) : CString where
  bytes := "0x".toList.map ascii ++ digitChars (numeral 16 num.toNat)
  nonzero := by
    rw [List.mem_append, not_or]
    exact ⟨by decide, zero_notMem_digitChars fun _ hd => lt_of_mem_numeral (by decide) hd⟩

theorem digitChars_numeral_ne_nil (base n : Nat) : digitChars (numeral base n) ≠ [] := by
  rw [digitChars, Ne, List.map_eq_nil_iff]
  exact numeral_ne_nil base n

theorem parseUint_decText (num : BitVec 64) : parseUint (some (decText num)) = (num, true) := by
  have hdenotes : Denotes (decText num).bytes (value 10 (numeral 10 num.toNat)) :=
    .decimal (digitChars_numeral_ne_nil 10 _)
      (isDigit_digitChars (Or.inl rfl) fun _ hd => lt_of_mem_numeral (by decide) hd)
  rw [parseUint_of_denotes hdenotes, value_numeral, BitVec.ofNat_toNat, BitVec.setWidth_eq]

theorem parseUint_hexText (num : BitVec 64) : parseUint (some (hexText num)) = (num, true) := by
  have hdenotes : Denotes (hexText num).bytes (value 16 (numeral 16 num.toNat)) :=
    .hex (Or.inl rfl) (digitChars_numeral_ne_nil 16 _)
      (isDigit_digitChars (Or.inr rfl) fun _ hd => lt_of_mem_numeral (by decide) hd)
  rw [parseUint_of_denotes hdenotes, value_numeral, BitVec.ofNat_toNat, BitVec.setWidth_eq]

/-- What the three functions make of a number, whatever their arrays held before. -/
theorem printed_numbers (num : BitVec 64) (stack tmp buf : ByteMemory) :
    ∃ (dec hex : CString) (digits : Text) (written : ByteMemory),
      (printDec stack num).Returns (some dec.bytes) (Fits 21) ∧
      (printHex stack num).Returns (some hex.bytes) (Fits 17) ∧
      hex.bytes = "0x".toList.map ascii ++ digits ∧
      parseUint (some dec) = (num, true) ∧
      parseUint (some hex) = (num, true) ∧
      NoLeadingZero dec.bytes ∧
      NoLeadingZero digits ∧
      (intToStr tmp buf num).Returns written (Fits 21) ∧
      written.StringAt 0 dec.bytes := by
  obtain ⟨written, hreturns, hstring⟩ := intToStr_returns tmp buf num
  exact ⟨decText num, hexText num, digitChars (numeral 16 num.toNat), written,
    printDec_returns stack num, printHex_returns stack num, rfl, parseUint_decText num,
    parseUint_hexText num, noLeadingZero_numeral (by decide) (by decide) _,
    noLeadingZero_numeral (by decide) le_rfl _, hreturns, hstring⟩

end SimpleOs
