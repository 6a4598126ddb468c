import SimpleOs.Drivers.Virtqueue

/-!
# Who owns a descriptor

At every moment each descriptor is in exactly one of five places: the free list, the part of the
available ring that the device has not read, the hands of the device, the entry of the used ring it is
about to count, or the part of the used ring that the driver has not read. Every step moves one
descriptor from one place to the next. So no ring ever holds more entries than it has slots, no slot is
written before it is read, and the 16-bit indices are never a whole turn apart.
-/

namespace SimpleOs

open Virtqueue

variable {vq : Virtqueue} {size : BitVec 16} {k n : Nat} {s : VirtqSystem} {desc : Nat → VirtqDesc}
  {head : BitVec 16} {d m : Nat}

theorem length_freeFrom : (freeFrom desc head m).length = m := by
  induction m generalizing head with
  | zero => rfl
  | succ m ih => rw [freeFrom, List.length_cons, ih]

theorem freeFrom_update (hd : d ∉ freeFrom desc head m) (entry : VirtqDesc) :
    freeFrom (Function.update desc d entry) head m = freeFrom desc head m := by
  induction m generalizing head with
  | zero => rfl
  | succ m ih =>
      obtain ⟨hne, hrest⟩ := List.ne_and_not_mem_of_not_mem_cons hd
      rw [freeFrom, freeFrom, Function.update_of_ne (Ne.symm hne), ih hrest]

theorem freeList_cons (hfree : vq.numFree ≠ 0) : vq.freeList =
    vq.freeHead.toNat :: freeFrom vq.desc (vq.desc vq.freeHead.toNat).next (vq.numFree - 1).toNat := by
  have hpos : vq.numFree.toNat ≠ 0 := fun h => hfree (BitVec.eq_of_toNat_eq h)
  have hsub : (vq.numFree - 1).toNat + 1 = vq.numFree.toNat := by
    rw [BitVec.toNat_sub_of_le]
    · exact Nat.sub_add_cancel (Nat.one_le_iff_ne_zero.mpr hpos)
    · exact Nat.one_le_iff_ne_zero.mpr hpos
  rw [freeList, ← hsub, freeFrom]

theorem freeFrom_virtqInit (mem : Virtqueue) {i : Nat} (hi : i + m ≤ size.toNat) :
    freeFrom (virtqInit mem size).desc (BitVec.ofNat 16 i) m = List.range' i m := by
  induction m generalizing i with
  | zero => rfl
  | succ m ih =>
      have hlt := size.isLt
      have hhead : (BitVec.ofNat 16 i).toNat = i := by
        rw [BitVec.toNat_ofNat]
        exact Nat.mod_eq_of_lt (by omega)
      rw [freeFrom, List.range'_succ, hhead]
      cases m with
      -- the last `next` is not followed
      | zero => rfl
      | succ m =>
          have hnext : ((virtqInit mem size).desc i).next = BitVec.ofNat 16 (i + 1) := by
            simp only [virtqInit, if_pos (show i < size.toNat - 1 by omega)]
          rw [hnext, ih (by omega)]

theorem freeList_virtqInit (mem : Virtqueue) :
    (virtqInit mem size).freeList = List.range size.toNat := by
  rw [List.range_eq_range']
  exact freeFrom_virtqInit mem (Nat.zero_add _).le

namespace VirtqSystem

variable {F L published : Nat} {unread pending : List Nat}

/-- `F` entries of the available ring have been read, `published` more are counted in `avail->idx`, and
`unread` lists those and the one that is being added; `L` completions have been collected, and
`pending` lists those that have been counted since. -/
structure Owned (k F published L : Nat) (unread pending : List Nat) (s : VirtqSystem) : Prop where
  size : s.queue.size.toNat = 2 ^ k
  places : (s.queue.freeList ++ (unread ++ (s.fetched ++ (pending ++ s.completing.toList)))).Perm
    (List.range (2 ^ k))
  length_unread : unread.length = published + if s.driver = .adding then 1 else 0
  availIdx : s.queue.availIdx = BitVec.ofNat 16 (F + published)
  lastAvailIdx : s.lastAvailIdx = BitVec.ofNat 16 F
  usedIdx : s.queue.usedIdx = BitVec.ofNat 16 (L + pending.length)
  lastUsedIdx : s.queue.lastUsedIdx = BitVec.ofNat 16 L
  availRing : Ring.contents (fun i => (s.queue.availRing i).toNat) (2 ^ k) F unread.length = unread
  usedRing : Ring.contents (fun i => (s.queue.usedRing i).id.toNat) (2 ^ k) L
    (pending ++ s.completing.toList).length = pending ++ s.completing.toList
  getting : s.driver = .getting → pending ≠ []
  inFlight : s.inFlight.Perm (unread ++ (s.fetched ++ s.completing.toList))
  completed : s.completed = s.collected ++ pending
  availUnread : Ring.Marks s.availUnread (2 ^ k) F unread.length
  usedUnread : Ring.Marks s.usedUnread (2 ^ k) L (pending ++ s.completing.toList).length
  overwritten : s.overwritten = false

/-- Nothing has been handed to the device. -/
theorem Owned.start (mem : Virtqueue) (hsize : size.toNat = 2 ^ k) :
    (start (virtqInit mem size)).Owned k 0 0 0 [] [] where
  size := hsize
  places := by
    rw [← hsize, ← freeList_virtqInit mem]
    exact List.Perm.of_eq (List.append_nil _)
  length_unread := rfl
  availIdx := rfl
  lastAvailIdx := rfl
  usedIdx := rfl
  lastUsedIdx := rfl
  availRing := rfl
  usedRing := rfl
  getting := fun h => by cases h
  inFlight := List.Perm.nil
  completed := rfl
  availUnread := fun i => iff_of_false Bool.false_ne_true fun ⟨_, hj, _⟩ => absurd hj (Nat.not_lt_zero _)
  usedUnread := fun i => iff_of_false Bool.false_ne_true fun ⟨_, hj, _⟩ => absurd hj (Nat.not_lt_zero _)
  overwritten := rfl

theorem Owned.total (h : s.Owned k F published L unread pending) :
    s.queue.numFree.toNat + (unread.length + (s.fetched.length +
      (pending ++ s.completing.toList).length)) = 2 ^ k := by
  have hlength := h.places.length_eq
  rwa [List.length_append, List.length_append, List.length_append, List.length_range, freeList,
    length_freeFrom] at hlength

theorem Owned.size_lt (h : s.Owned k F published L unread pending) : 2 ^ k < 2 ^ 16 :=
  h.size ▸ s.queue.size.isLt

theorem Owned.slot (h : s.Owned k F published L unread pending) (i : Nat) :
    s.queue.slot (BitVec.ofNat 16 i) = i % 2 ^ k := Ring.counter_slot h.size i

theorem Owned.nodup (h : s.Owned k F published L unread pending) :
    (s.queue.freeList ++ (unread ++ (s.fetched ++ (pending ++ s.completing.toList)))).Nodup :=
  h.places.nodup_iff.mpr List.nodup_range

theorem Owned.lt (h : s.Owned k F published L unread pending) (hd : d ∈ s.queue.freeList ++
    (unread ++ (s.fetched ++ (pending ++ s.completing.toList)))) : d < 2 ^ k :=
  List.mem_range.mp (h.places.mem_iff.mp hd)

/-- An element goes from one list to the end of the next. -/
theorem perm_move {a : Nat} {first second rest : List Nat} :
    (first ++ (second ++ [a] ++ rest)).Perm (a :: first ++ (second ++ rest)) := by
  rw [List.append_assoc second, List.singleton_append, ← List.append_assoc, List.cons_append,
    ← List.append_assoc]
  exact List.perm_middle

/-- An element goes from the last list to the head of the first. -/
theorem perm_return {a : Nat} {first second third rest : List Nat} :
    (a :: first ++ (second ++ (third ++ rest))).Perm
      (first ++ (second ++ (third ++ (a :: rest)))) := by
  have hmiddle := (@List.perm_middle Nat a (first ++ second ++ third) rest).symm
  simpa only [List.append_assoc, List.cons_append] using hmiddle

theorem step_add (hidle : s.driver = .idle) (hfree : s.queue.numFree ≠ 0) (addr : BitVec 64)
    (len : BitVec 32) (flags : BitVec 16) : s.step (.add addr len flags) =
      { s with
        queue :=
          { s.queue with
            freeHead := (s.queue.desc s.queue.freeHead.toNat).next
            numFree := s.queue.numFree - 1
            desc := Function.update s.queue.desc s.queue.freeHead.toNat ⟨addr, len, flags, 0⟩
            availRing := Function.update s.queue.availRing (s.queue.slot s.queue.availIdx)
              s.queue.freeHead }
        driver := .adding
        inFlight := s.inFlight ++ [s.queue.freeHead.toNat]
        availUnread := Function.update s.availUnread (s.queue.slot s.queue.availIdx) true
        overwritten := s.overwritten || s.availUnread (s.queue.slot s.queue.availIdx) } := by
  simp only [step, if_pos hidle, addEntry, if_neg hfree]

theorem freeList_step_add (hidle : s.driver = .idle) (hfree : s.queue.numFree ≠ 0)
    (hnodup : s.queue.freeList.Nodup) (addr : BitVec 64) (len : BitVec 32) (flags : BitVec 16) :
    (s.step (.add addr len flags)).queue.freeList = s.queue.freeList.tail := by
  rw [freeList_cons hfree] at hnodup ⊢
  rw [step_add hidle hfree]
  exact freeFrom_update (List.nodup_cons.mp hnodup).1 _

theorem Owned.add (h : s.Owned k F published L unread pending) (hidle : s.driver = .idle)
    (addr : BitVec 64) (len : BitVec 32) (flags : BitVec 16) :
    ∃ unread', (s.step (.add addr len flags)).Owned k F published L unread' pending := by
  by_cases hfree : s.queue.numFree = 0
  · refine ⟨unread, ?_⟩
    simpa only [step, if_pos hidle, addEntry, if_pos hfree] using h
  · refine ⟨unread ++ [s.queue.freeHead.toNat], ?_⟩
    have hlength : unread.length = published := by
      have hunread := h.length_unread
      rwa [hidle, if_neg (by decide), Nat.add_zero] at hunread
    have hslot : s.queue.slot s.queue.availIdx = (F + unread.length) % 2 ^ k := by
      rw [h.availIdx, h.slot, hlength]
    have hroom : unread.length < 2 ^ k := by
      have htotal := h.total
      have hpos : s.queue.numFree.toNat ≠ 0 := fun heq => hfree (BitVec.eq_of_toNat_eq heq)
      omega
    have hlist := freeList_step_add hidle hfree (List.nodup_append.mp h.nodup).1 addr len flags
    rw [step_add hidle hfree, freeList_cons hfree, List.tail_cons] at hlist
    rw [step_add hidle hfree]
    exact
      { size := h.size
        places := by
          have hplaces := h.places
          rw [freeList_cons hfree] at hplaces
          rw [hlist]
          exact perm_move.trans hplaces
        length_unread := by
          rw [List.length_append, List.length_singleton, hlength]
          rfl
        availIdx := h.availIdx
        lastAvailIdx := h.lastAvailIdx
        usedIdx := h.usedIdx
        lastUsedIdx := h.lastUsedIdx
        availRing := by
          have hring : (fun i => (Function.update s.queue.availRing
              (s.queue.slot s.queue.availIdx) s.queue.freeHead i).toNat) = Function.update
                (fun i => (s.queue.availRing i).toNat) ((F + unread.length) % 2 ^ k)
                  s.queue.freeHead.toNat := by
            rw [hslot]
            exact funext fun i => Function.apply_update (fun _ => BitVec.toNat) ..
          rw [hring, List.length_append, List.length_singleton, Ring.contents_push hroom,
            h.availRing]
        usedRing := h.usedRing
        getting := fun hgetting => by cases hgetting
        inFlight := by
          rw [List.append_assoc, List.singleton_append]
          exact (List.perm_append_singleton _ _).trans
            ((h.inFlight.cons _).trans List.perm_middle.symm)
        completed := h.completed
        availUnread := by
          rw [hslot, List.length_append, List.length_singleton]
          exact h.availUnread.push
        usedUnread := h.usedUnread
        overwritten := by
          rw [h.overwritten, hslot, h.availUnread.next hroom, Bool.or_false] }

theorem Owned.publish (h : s.Owned k F published L unread pending) (hadding : s.driver = .adding) :
    (s.step .publish).Owned k F (published + 1) L unread pending := by
  rw [step, if_pos hadding]
  exact
    { h with
      length_unread := by
        have hunread := h.length_unread
        rwa [hadding, if_pos rfl] at hunread
      availIdx := by
        change s.queue.availIdx + 1 = _
        rw [h.availIdx, ← Nat.add_assoc, BitVec.ofNat_add (F + published) 1]
        rfl
      getting := fun hgetting => by cases hgetting }

theorem Owned.hasUsed_iff (h : s.Owned k F published L unread pending) :
    s.queue.hasUsed = true ↔ pending ≠ [] := by
  have htotal := h.total
  have hlt := h.size_lt
  rw [List.length_append] at htotal
  rw [hasUsed, decide_eq_true_iff, h.lastUsedIdx, h.usedIdx, Ne,
    Ring.counter_eq_iff (by omega), List.length_eq_zero_iff]

theorem Owned.test (h : s.Owned k F published L unread pending)
    (htest : s.driver = .idle ∧ s.queue.hasUsed = true) :
    (s.step .test).Owned k F published L unread pending := by
  rw [step, if_pos htest]
  exact
    { h with
      length_unread := by
        have hunread := h.length_unread
        rwa [htest.1] at hunread
      getting := fun _ => h.hasUsed_iff.mp htest.2 }

/-- The entry that the driver reads next is the oldest completion it has not been given. -/
theorem Owned.takeUsed_id (h : s.Owned k F published L unread (d :: pending)) :
    s.queue.takeUsed.1.toNat = d := by
  have hused := h.usedRing
  rw [List.cons_append, List.length_cons, Ring.contents_cons_counter, List.cons.injEq] at hused
  change (s.queue.usedRing (s.queue.slot s.queue.lastUsedIdx)).id.toNat = d
  rw [h.lastUsedIdx, h.slot]
  exact hused.1

/-- The descriptor goes to the head of the free list. -/
theorem Owned.freeList_takeUsed (h : s.Owned k F published L unread (d :: pending)) :
    s.queue.takeUsed.2.2.freeList = d :: s.queue.freeList := by
  have hid := h.takeUsed_id
  have hsize := h.size_lt
  have hlt : d < 2 ^ 16 := Nat.lt_trans (h.lt (by simp)) hsize
  have hhead : (s.queue.takeUsed.1.setWidth 16).toNat = d := by
    rw [BitVec.toNat_setWidth, hid]
    exact Nat.mod_eq_of_lt hlt
  have htotal := h.total
  have hfresh : d ∉ s.queue.freeList := by
    have hdisjoint := (List.nodup_append.mp h.nodup).2.2
    intro hmem
    exact hdisjoint d hmem d (by simp) rfl
  have hcount : (s.queue.numFree + 1).toNat = s.queue.numFree.toNat + 1 := by
    have hpos : 0 < (d :: pending ++ s.completing.toList).length := Nat.succ_pos _
    rw [BitVec.toNat_add]
    exact Nat.mod_eq_of_lt (show s.queue.numFree.toNat + 1 < 2 ^ 16 by omega)
  change freeFrom (Function.update s.queue.desc s.queue.takeUsed.1.toNat
    { s.queue.desc s.queue.takeUsed.1.toNat with next := s.queue.freeHead })
      (s.queue.takeUsed.1.setWidth 16) (s.queue.numFree + 1).toNat = _
  rw [hcount, freeFrom, hhead, hid, Function.update_self, freeFrom_update hfresh, freeList]

theorem Owned.take (h : s.Owned k F published L unread (d :: pending))
    (hgetting : s.driver = .getting) :
    (s.step .take).Owned k F published (L + 1) unread pending := by
  have hid := h.takeUsed_id
  have hslot : s.queue.slot s.queue.lastUsedIdx = L % 2 ^ k := by
    rw [h.lastUsedIdx, h.slot]
  have hlength : (pending ++ s.completing.toList).length + 1 =
      (d :: pending ++ s.completing.toList).length := rfl
  have htotal := h.total
  have hroom : (pending ++ s.completing.toList).length < 2 ^ k := by omega
  have hlist := h.freeList_takeUsed
  have hused := h.usedRing
  rw [List.cons_append, List.length_cons, Ring.contents_cons_counter, List.cons.injEq] at hused
  rw [step, if_pos hgetting]
  exact
    { size := h.size
      places := by
        rw [hlist]
        exact perm_return.trans h.places
      length_unread := by
        have hunread := h.length_unread
        rwa [hgetting] at hunread
      availIdx := h.availIdx
      lastAvailIdx := h.lastAvailIdx
      usedIdx := by
        change s.queue.usedIdx = _
        rw [h.usedIdx, List.length_cons, Nat.add_right_comm, Nat.add_assoc]
      lastUsedIdx := by
        change s.queue.lastUsedIdx + 1 = _
        rw [h.lastUsedIdx, BitVec.ofNat_add]
        rfl
      availRing := h.availRing
      usedRing := hused.2
      getting := fun hgetting => by cases hgetting
      inFlight := h.inFlight
      completed := by
        change s.completed = s.collected ++ [s.queue.takeUsed.1.toNat] ++ pending
        rw [hid, h.completed, List.append_assoc, List.singleton_append]
      availUnread := h.availUnread
      usedUnread := by
        rw [hslot]
        exact h.usedUnread.pop hroom
      overwritten := h.overwritten }

theorem Owned.fetch_iff (h : s.Owned k F published L unread pending) :
    s.lastAvailIdx ≠ s.queue.availIdx ↔ published ≠ 0 := by
  have htotal := h.total
  have hlt := h.size_lt
  have hunread := h.length_unread
  rw [h.lastAvailIdx, h.availIdx, Ne, Ring.counter_eq_iff (by omega)]

theorem Owned.fetch (h : s.Owned k F (published + 1) L (d :: unread) pending) :
    (s.step .fetch).Owned k (F + 1) published L unread pending := by
  have hslot : s.queue.slot s.lastAvailIdx = F % 2 ^ k := by
    rw [h.lastAvailIdx, h.slot]
  have hring := h.availRing
  rw [List.length_cons, Ring.contents_cons_counter, List.cons.injEq] at hring
  have htotal := h.total
  rw [List.length_cons] at htotal
  have hroom : unread.length < 2 ^ k := by omega
  rw [step, if_pos (h.fetch_iff.mpr (Nat.succ_ne_zero _)), hslot, hring.1]
  exact
    { size := h.size
      places := (perm_move.append_left _).trans h.places
      length_unread := by
        have hunread := h.length_unread
        rw [List.length_cons] at hunread
        change unread.length = published + if s.driver = .adding then 1 else 0
        omega
      availIdx := by
        change s.queue.availIdx = _
        rw [h.availIdx, Nat.add_right_comm, Nat.add_assoc]
      lastAvailIdx := by
        change s.lastAvailIdx + 1 = _
        rw [h.lastAvailIdx, BitVec.ofNat_add]
        rfl
      usedIdx := h.usedIdx
      lastUsedIdx := h.lastUsedIdx
      availRing := hring.2
      usedRing := h.usedRing
      getting := h.getting
      inFlight := h.inFlight.trans perm_move.symm
      completed := h.completed
      availUnread := h.availUnread.pop hroom
      usedUnread := h.usedUnread
      overwritten := h.overwritten }

theorem Owned.complete (h : s.Owned k F published L unread pending) {i : Nat}
    (hnone : s.completing = none) (hd : s.fetched[i]? = some d) (len : BitVec 32) :
    (s.step (.complete i len)).Owned k F published L unread pending := by
  obtain ⟨hi, hget⟩ := List.getElem?_eq_some_iff.mp hd
  have herase : (d :: s.fetched.eraseIdx i).Perm s.fetched :=
    hget ▸ List.getElem_cons_eraseIdx_perm hi
  have hlast : pending ++ s.completing.toList = pending := by
    rw [hnone]
    exact List.append_nil _
  have hplaces := h.places
  have hused := h.usedRing
  have hmarks := h.usedUnread
  have hinFlight := h.inFlight
  have htotal := h.total
  rw [hlast] at hplaces hused hmarks htotal
  rw [hnone] at hinFlight
  have hslot : s.queue.slot s.queue.usedIdx = (L + pending.length) % 2 ^ k := by
    rw [h.usedIdx, h.slot]
  have hroom : pending.length < 2 ^ k := by omega
  have hid : (BitVec.ofNat 32 d).toNat = d := by
    have hlt : d < 2 ^ k := h.lt (by simp [List.mem_of_getElem? hd])
    have hsize := h.size_lt
    rw [BitVec.toNat_ofNat]
    exact Nat.mod_eq_of_lt (by omega)
  have hring : (fun j => (Function.update s.queue.usedRing ((L + pending.length) % 2 ^ k)
      ⟨BitVec.ofNat 32 d, len⟩ j).id.toNat) = Function.update (fun j => (s.queue.usedRing j).id.toNat)
        ((L + pending.length) % 2 ^ k) d := by
    funext j
    rw [Function.apply_update (fun _ (e : VirtqUsedElem) => e.id.toNat), hid]
  simp only [step, hnone, hd, hslot]
  exact
    { size := h.size
      places := by
        have hmoved : (s.fetched.eraseIdx i ++ (pending ++ [d])).Perm (s.fetched ++ pending) := by
          rw [← List.append_assoc]
          exact (List.perm_append_singleton d _).trans (herase.append_right pending)
        exact ((hmoved.append_left _).append_left _).trans hplaces
      length_unread := h.length_unread
      availIdx := h.availIdx
      lastAvailIdx := h.lastAvailIdx
      usedIdx := h.usedIdx
      lastUsedIdx := h.lastUsedIdx
      availRing := h.availRing
      usedRing := by
        change Ring.contents _ _ _ (pending ++ [d]).length = pending ++ [d]
        rw [hring, List.length_append, List.length_singleton, Ring.contents_push hroom, hused]
      getting := h.getting
      inFlight := by
        refine hinFlight.trans (List.Perm.append_left _ ?_)
        rw [Option.toList_none, List.append_nil]
        exact herase.symm.trans (List.perm_append_singleton d _).symm
      completed := h.completed
      availUnread := h.availUnread
      usedUnread := by
        rw [List.length_append]
        exact hmarks.push
      overwritten := by
        rw [h.overwritten, hmarks.next hroom, Bool.or_false] }

theorem Owned.count (h : s.Owned k F published L unread pending) (hd : s.completing = some d) :
    (s.step .count).Owned k F published L unread (pending ++ [d]) := by
  have hlast : pending ++ s.completing.toList = pending ++ [d] := by
    rw [hd]
    rfl
  have hplaces := h.places
  have hused := h.usedRing
  have hmarks := h.usedUnread
  have hinFlight := h.inFlight
  rw [hlast] at hplaces hused hmarks
  rw [hd] at hinFlight
  simp only [step, hd]
  exact
    { size := h.size
      places := by
        change (s.queue.freeList ++ (unread ++ (s.fetched ++ (pending ++ [d] ++ [])))).Perm _
        rwa [List.append_nil]
      length_unread := h.length_unread
      availIdx := h.availIdx
      lastAvailIdx := h.lastAvailIdx
      usedIdx := by
        change s.queue.usedIdx + 1 = _
        rw [h.usedIdx, List.length_append, List.length_singleton, ← Nat.add_assoc,
          BitVec.ofNat_add (L + pending.length)]
        rfl
      lastUsedIdx := h.lastUsedIdx
      availRing := h.availRing
      usedRing := by
        simpa only [Option.toList_none, List.append_nil] using hused
      getting := fun _ => List.append_ne_nil_of_right_ne_nil pending (List.cons_ne_nil d [])
      inFlight := by
        change (s.inFlight.erase d).Perm (unread ++ (s.fetched ++ []))
        have hlast : s.inFlight.Perm (d :: (unread ++ s.fetched)) := by
          refine hinFlight.trans ?_
          rw [Option.toList_some, ← List.append_assoc]
          exact List.perm_append_singleton d _
        have herase := hlast.erase d
        rwa [List.erase_cons_head, ← List.append_nil s.fetched] at herase
      completed := by
        rw [h.completed, List.append_assoc]
      availUnread := h.availUnread
      usedUnread := by
        simpa only [Option.toList_none, List.append_nil] using hmarks
      overwritten := h.overwritten }

theorem Owned.nodup_inFlight (h : s.Owned k F published L unread pending) : s.inFlight.Nodup := by
  rw [h.inFlight.nodup_iff]
  have hnodup := (List.nodup_append.mp h.nodup).2.1
  exact hnodup.sublist ((List.Sublist.append_left (List.sublist_append_right _ _) _).append_left _)

theorem Owned.step (h : s.Owned k F published L unread pending) (event : VirtqEvent) :
    ∃ F published L unread pending, (s.step event).Owned k F published L unread pending := by
  have hsame : ∀ {s'}, s' = s →
      ∃ F published L unread pending, s'.Owned k F published L unread pending := by
    rintro _ rfl
    exact ⟨F, published, L, unread, pending, h⟩
  cases event with
  | add addr len flags =>
      by_cases hidle : s.driver = .idle
      · obtain ⟨unread', h'⟩ := h.add hidle addr len flags
        exact ⟨F, published, L, unread', pending, h'⟩
      · exact hsame (if_neg hidle)
  | publish =>
      by_cases hadding : s.driver = .adding
      · exact ⟨F, published + 1, L, unread, pending, h.publish hadding⟩
      · exact hsame (if_neg hadding)
  | test =>
      by_cases htest : s.driver = .idle ∧ s.queue.hasUsed = true
      · exact ⟨F, published, L, unread, pending, h.test htest⟩
      · exact hsame (if_neg htest)
  | take =>
      by_cases hgetting : s.driver = .getting
      · obtain ⟨d, rest, rfl⟩ := List.exists_cons_of_ne_nil (h.getting hgetting)
        exact ⟨F, published, L + 1, unread, rest, h.take hgetting⟩
      · exact hsame (if_neg hgetting)
  | fetch =>
      by_cases hfetch : s.lastAvailIdx ≠ s.queue.availIdx
      · have hlength := h.length_unread
        obtain ⟨published, rfl⟩ := Nat.exists_eq_succ_of_ne_zero (h.fetch_iff.mp hfetch)
        have hne : unread ≠ [] := List.ne_nil_of_length_pos (by omega)
        obtain ⟨d, rest, rfl⟩ := List.exists_cons_of_ne_nil hne
        exact ⟨F + 1, published, L, rest, pending, h.fetch⟩
      · exact hsame (if_neg hfetch)
  | complete i len =>
      cases hcompleting : s.completing with
      | none =>
          cases hd : s.fetched[i]? with
          | none => exact hsame (by simp only [VirtqSystem.step, hcompleting, hd])
          | some d => exact ⟨F, published, L, unread, pending, h.complete hcompleting hd len⟩
      | some d => exact hsame (by simp only [VirtqSystem.step, hcompleting])
  | count =>
      cases hd : s.completing with
      | none => exact hsame (by simp only [VirtqSystem.step, hd])
      | some d => exact ⟨F, published, L, unread, pending ++ [d], h.count hd⟩

theorem Owned.run (h : s.Owned k F published L unread pending) (events : List VirtqEvent) :
    ∃ F published L unread pending, (s.run events).Owned k F published L unread pending := by
  induction events generalizing s F published L unread pending with
  | nil => exact ⟨F, published, L, unread, pending, h⟩
  | cons event events ih =>
      obtain ⟨_, _, _, _, _, h'⟩ := h.step event
      exact ih h'

/-- The completions that the driver has not been given. -/
def uncollected (s : VirtqSystem) : List Nat := s.completed.drop s.collected.length

/-- What the driver and the device rely on. -/
structure Sound (s : VirtqSystem) : Prop where
  nodup_freeList : s.queue.freeList.Nodup
  mem_freeList_iff : ∀ d, d ∈ s.queue.freeList ↔
    d < s.queue.size.toNat ∧ d ∉ s.inFlight ∧ d ∉ s.uncollected
  add_fresh : ∀ addr len flags head queue,
    s.queue.addEntry addr len flags = (some head, queue) → head.toNat ∉ s.inFlight
  overwritten : s.overwritten = false
  collected : s.completed = s.collected ++ s.uncollected
  hasUsed_iff : s.queue.hasUsed = true ↔ s.uncollected ≠ []
  takeUsed : ∀ d rest, s.uncollected = d :: rest → s.queue.takeUsed.1.toNat = d

theorem Owned.uncollected_eq (h : s.Owned k F published L unread pending) :
    s.uncollected = pending := by
  rw [uncollected, h.completed, List.drop_left]

theorem Owned.mem_freeList_iff (h : s.Owned k F published L unread pending) :
    d ∈ s.queue.freeList ↔ d < 2 ^ k ∧ d ∉ s.inFlight ∧ d ∉ pending := by
  have hrest : d ∈ unread ++ (s.fetched ++ (pending ++ s.completing.toList)) ↔
      d ∈ s.inFlight ∨ d ∈ pending := by
    rw [h.inFlight.mem_iff]
    simp only [List.mem_append]
    tauto
  have hall : d ∈ s.queue.freeList ∨ d ∈ s.inFlight ∨ d ∈ pending ↔ d < 2 ^ k := by
    rw [← hrest, ← List.mem_append, h.places.mem_iff, List.mem_range]
  constructor
  · intro hd
    have hnot : d ∉ unread ++ (s.fetched ++ (pending ++ s.completing.toList)) := fun hmem =>
      (List.nodup_append.mp h.nodup).2.2 d hd d hmem rfl
    rw [hrest, not_or] at hnot
    exact ⟨hall.mp (.inl hd), hnot⟩
  · rintro ⟨hlt, hinFlight, hpending⟩
    rcases hall.mpr hlt with hfree | hmem | hmem
    · exact hfree
    · exact absurd hmem hinFlight
    · exact absurd hmem hpending

theorem addEntry_mem_freeList {addr : BitVec 64} {len : BitVec 32} {flags : BitVec 16}
    {queue : Virtqueue} (hadd : vq.addEntry addr len flags = (some head, queue)) :
    head.toNat ∈ vq.freeList := by
  unfold addEntry at hadd
  split at hadd
  next => cases hadd
  next hfree =>
    obtain rfl := Option.some_inj.mp (congrArg Prod.fst hadd)
    rw [freeList_cons hfree]
    exact List.mem_cons_self

theorem Owned.sound (h : s.Owned k F published L unread pending) : s.Sound := by
  have huncollected := h.uncollected_eq
  refine ⟨(List.nodup_append.mp h.nodup).1, ?_, ?_, h.overwritten, ?_, ?_, ?_⟩
  · intro d
    rw [h.mem_freeList_iff, h.size, huncollected]
  · intro addr len flags head queue hadd
    exact (h.mem_freeList_iff.mp (addEntry_mem_freeList hadd)).2.1
  · rw [huncollected, h.completed]
  · rw [huncollected, h.hasUsed_iff]
  · intro d rest hrest
    rw [huncollected] at hrest
    subst hrest
    exact h.takeUsed_id

/-- **Descriptor ownership.** For every queue of a power of two descriptors, whatever its memory held,
and every interleaving of the driver and the device. -/
theorem virtq_sound (mem : Virtqueue) (hsize : size.toNat = 2 ^ k) (events : List VirtqEvent) :
    ((VirtqSystem.start (virtqInit mem size)).run events).Sound := by
  obtain ⟨_, _, _, _, _, h⟩ := (Owned.start mem hsize).run events
  exact h.sound

/-- Memory in which the `next` that `virtq_init` leaves alone leads outside the table. -/
def sampleMemory : Virtqueue where
  size := 0
  desc _ := ⟨0, 0, 0, 0xFFFF⟩
  availFlags := 0
  availIdx := 0
  availRing _ := 0
  usedFlags := 0
  usedIdx := 0
  usedRing _ := ⟨0, 0⟩
  freeHead := 0
  numFree := 0
  lastUsedIdx := 0

theorem virtq_sound_two : ((VirtqSystem.start (virtqInit sampleMemory 2)).run
    [.add 0x1000 64 0, .publish, .add 0x2000 64 0, .fetch, .publish, .fetch, .complete 1 64,
      .count, .test, .take]).Sound :=
  virtq_sound (k := 1) sampleMemory rfl _

end VirtqSystem

end SimpleOs
