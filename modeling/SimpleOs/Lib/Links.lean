import Mathlib

/-!
# Doubly linked lists threaded through their nodes

Every node has a next and a previous link; a list is a pointer to its first node. `Sound` is about the
links alone: they are mutually inverse and do not run in circles, whoever points to them. It is what
unlinking a node, or inserting one that is in no list, preserves.

`Traverses` lists the nodes met from a pointer on. Under `Sound` it exists, is unique and has no node
twice, so nothing about a whole list has to be assumed or carried along.
-/

structure Links (α : Type) where
  next : α → Option α
  prev : α → Option α

namespace Links

variable {α : Type}

structure Sound (L : Links α) : Prop where
  inverse : ∀ a b, L.next a = some b ↔ L.prev b = some a
  acyclic : ∃ rank : α → Nat, ∀ a b, L.next a = some b → rank a < rank b

structure Isolated (L : Links α) (p : α) : Prop where
  next : L.next p = none
  prev : L.prev p = none

/-- The nodes met from `o` on are those of the list, in order. -/
def Traverses (L : Links α) : Option α → List α → Prop
  | o, [] => o = none
  | o, a :: l => o = some a ∧ Traverses L (L.next a) l

variable {L : Links α} {a b p q : α} {o : Option α} {l l' : List α}

theorem Sound.irrefl (h : L.Sound) : L.next a ≠ some a := by
  obtain ⟨rank, hrank⟩ := h.acyclic
  intro heq
  exact lt_irrefl _ (hrank a a heq)

theorem Sound.next_isolated (h : L.Sound) (hp : L.Isolated p) : L.next a ≠ some p := by
  rw [ne_eq, h.inverse, hp.prev]
  simp

theorem Sound.exists_traverses [Finite α] (h : L.Sound) (o : Option α) :
    ∃ l, L.Traverses o l := by
  obtain ⟨rank, hrank⟩ := h.acyclic
  have := Fintype.ofFinite α
  -- induction on the distance to the highest rank
  have hfrom : ∀ k a, Finset.univ.sup rank - rank a ≤ k → ∃ l, L.Traverses (some a) l := by
    intro k
    induction k with
    | zero =>
        intro a hk
        cases hnext : L.next a with
        | none => exact ⟨[a], rfl, hnext⟩
        | some b =>
            have hlt := hrank a b hnext
            have hle : rank b ≤ Finset.univ.sup rank := Finset.le_sup (Finset.mem_univ b)
            omega
    | succ k ih =>
        intro a hk
        cases hnext : L.next a with
        | none => exact ⟨[a], rfl, hnext⟩
        | some b =>
            have hlt := hrank a b hnext
            have hle : rank b ≤ Finset.univ.sup rank := Finset.le_sup (Finset.mem_univ b)
            obtain ⟨l, hl⟩ := ih b (by omega)
            refine ⟨a :: l, rfl, ?_⟩
            rwa [hnext]
  cases o with
  | none => exact ⟨[], rfl⟩
  | some a => exact hfrom _ a le_rfl

theorem traverses_unique (h : L.Traverses o l) (h' : L.Traverses o l') : l = l' := by
  induction l generalizing o l' with
  | nil =>
      cases l' with
      | nil => rfl
      | cons b l' => cases h.symm.trans h'.1
  | cons a l ih =>
      cases l' with
      | nil => cases h.1.symm.trans h'
      | cons b l' =>
          obtain rfl : a = b := Option.some_inj.mp (h.1.symm.trans h'.1)
          rw [ih h.2 h'.2]

theorem Traverses.forall {P : α → Prop} (h : L.Traverses o l) (hhead : ∀ a, o = some a → P a)
    (hnext : ∀ a b, P a → L.next a = some b → P b) : ∀ a ∈ l, P a := by
  induction l generalizing o with
  | nil => simp
  | cons b l ih =>
      have hb := hhead b h.1
      intro a ha
      rw [List.mem_cons] at ha
      obtain rfl | ha := ha
      · exact hb
      · exact ih h.2 (fun c hc => hnext b c hb hc) a ha

theorem Traverses.pairwise {rank : α → Nat} (hrank : ∀ a b, L.next a = some b → rank a < rank b)
    (h : L.Traverses o l) : l.Pairwise fun a b => rank a < rank b := by
  induction l generalizing o with
  | nil => exact List.Pairwise.nil
  | cons a l ih =>
      refine List.Pairwise.cons ?_ (ih h.2)
      exact h.2.forall (hrank a) fun b c hb hc => hb.trans (hrank b c hc)

theorem Traverses.nodup (hs : L.Sound) (h : L.Traverses o l) : l.Nodup := by
  obtain ⟨rank, hrank⟩ := hs.acyclic
  exact (h.pairwise hrank).imp fun hlt heq => by
    rw [heq] at hlt
    exact lt_irrefl _ hlt

theorem Traverses.mem_of_next (h : L.Traverses o l) (ha : a ∈ l) (hnext : L.next a = some b) :
    b ∈ l := by
  induction l generalizing o with
  | nil => simp at ha
  | cons c l ih =>
      rw [List.mem_cons] at ha
      obtain rfl | ha := ha
      · cases l with
        | nil => cases hnext.symm.trans h.2
        | cons d l =>
            obtain rfl : b = d := Option.some_inj.mp (hnext.symm.trans h.2.1)
            simp
      · exact List.mem_cons_of_mem _ (ih h.2 ha)

theorem Traverses.ne_none (h : L.Traverses o l) (ha : a ∈ l) : o ≠ none := by
  cases l with
  | nil => simp at ha
  | cons b l =>
      rw [h.1]
      simp

theorem Traverses.eq_or_next (h : L.Traverses o l) (ha : a ∈ l) :
    o = some a ∨ ∃ b ∈ l, L.next b = some a := by
  induction l generalizing o with
  | nil => simp at ha
  | cons c l ih =>
      rw [List.mem_cons] at ha
      obtain rfl | ha := ha
      · exact .inl h.1
      · obtain hnext | ⟨b, hb, hnext⟩ := ih h.2 ha
        · exact .inr ⟨c, List.mem_cons_self, hnext⟩
        · exact .inr ⟨b, List.mem_cons_of_mem _ hb, hnext⟩

theorem Traverses.head_mem (h : L.Traverses (some a) l) : a ∈ l := by
  cases l with
  | nil => cases h
  | cons b l =>
      obtain rfl : a = b := Option.some_inj.mp h.1
      simp

theorem Sound.exists_start [Finite α] (h : L.Sound) (p : α) :
    ∃ q l, L.prev q = none ∧ L.Traverses (some q) l ∧ p ∈ l := by
  obtain ⟨rank, hrank⟩ := h.acyclic
  have hstart : ∀ k a, rank a ≤ k → ∃ q l, L.prev q = none ∧ L.Traverses (some q) l ∧ a ∈ l := by
    intro k
    induction k with
    | zero =>
        intro a hk
        cases hprev : L.prev a with
        | none =>
            obtain ⟨l, hl⟩ := h.exists_traverses (some a)
            exact ⟨a, l, hprev, hl, hl.head_mem⟩
        | some b =>
            have hlt := hrank b a ((h.inverse b a).mpr hprev)
            omega
    | succ k ih =>
        intro a hk
        cases hprev : L.prev a with
        | none =>
            obtain ⟨l, hl⟩ := h.exists_traverses (some a)
            exact ⟨a, l, hprev, hl, hl.head_mem⟩
        | some b =>
            have hnext := (h.inverse b a).mpr hprev
            have hlt := hrank b a hnext
            obtain ⟨q, l, hq, hl, hb⟩ := ih b (by omega)
            exact ⟨q, l, hq, hl, hl.mem_of_next hb hnext⟩
  exact hstart (rank p) p le_rfl

/-- The property of a whole list is decided where the list starts: if every node that links on has
`P` when its successor has, then a node with `P` starts from a node with `P`. -/
theorem Sound.start_of [Finite α] (h : L.Sound) {P : α → Prop} (hp : P p)
    (hback : ∀ a b, L.next a = some b → P b → P a) :
    ∃ q l, L.prev q = none ∧ P q ∧ L.Traverses (some q) l ∧ p ∈ l := by
  obtain ⟨q, l, hq, hl, hmem⟩ := h.exists_start p
  refine ⟨q, l, hq, ?_, hl, hmem⟩
  have hall : ∀ o l, L.Traverses o l → p ∈ l → ∀ a, o = some a → P a := by
    intro o l
    induction l generalizing o with
    | nil => simp
    | cons b l ih =>
        intro htrav hmem a ha
        obtain rfl : b = a := Option.some_inj.mp (htrav.1.symm.trans ha)
        rw [List.mem_cons] at hmem
        obtain rfl | hmem := hmem
        · exact hp
        · cases hnext : L.next b with
          | none =>
              have hnil := htrav.2
              rw [hnext] at hnil
              cases l with
              | nil => simp at hmem
              | cons c l => cases hnil.1
          | some c => exact hback b c hnext (ih _ htrav.2 hmem c hnext)
  exact hall _ l hl hmem q rfl

variable [DecidableEq α]

/-- Take `p` out of its list: its neighbours are linked to each other. -/
def unlink (L : Links α) (p : α) : Links α where
  next a := if a = p then none else if L.next a = some p then L.next p else L.next a
  prev b := if b = p then none else if L.prev b = some p then L.prev p else L.prev b

def insertAfter (L : Links α) (q p : α) : Links α where
  next a := if a = q then some p else if a = p then L.next q else L.next a
  prev b := if b = p then some q else if L.next q = some b then some p else L.prev b

def insertFront (L : Links α) (o : Option α) (p : α) : Links α where
  next a := if a = p then o else L.next a
  prev b := if o = some b then some p else L.prev b

theorem Sound.unlink_eq (h : L.Sound) (p : α) : L.unlink p =
    ⟨Function.update ((L.prev p).elim L.next fun a => Function.update L.next a (L.next p)) p none,
      Function.update ((L.next p).elim L.prev fun b => Function.update L.prev b (L.prev p)) p none⟩ := by
  have hinv := h.inverse
  simp only [Links.unlink, mk.injEq]
  refine ⟨funext fun a => ?_, funext fun b => ?_⟩
  · have hinto := hinv a p
    cases hprev : L.prev p with
    | none =>
        simp only [Option.elim, Function.update_apply]
        grind
    | some c =>
        simp only [Option.elim, Function.update_apply]
        grind
  · have hfrom := hinv p b
    cases hnext : L.next p with
    | none =>
        simp only [Option.elim, Function.update_apply]
        grind
    | some c =>
        simp only [Option.elim, Function.update_apply]
        grind

theorem Sound.unlink (h : L.Sound) (p : α) : (L.unlink p).Sound := by
  have hinv := h.inverse
  have hirr : ∀ c, L.next c ≠ some c := fun c => h.irrefl
  refine ⟨fun a b => ?_, ?_⟩
  · simp only [Links.unlink]
    grind
  · obtain ⟨rank, hrank⟩ := h.acyclic
    refine ⟨rank, fun a b hab => ?_⟩
    simp only [Links.unlink] at hab
    grind

theorem insertAfter_last (hp : L.Isolated p) (hq : L.next q = none) : L.insertAfter q p =
    ⟨Function.update L.next q (some p), Function.update L.prev p (some q)⟩ := by
  have hnext := hp.next
  simp only [Links.insertAfter, mk.injEq, hq]
  refine ⟨funext fun a => ?_, funext fun b => ?_⟩
  · simp only [Function.update_apply]
    grind
  · simp [Function.update_apply]

theorem Sound.insertAfter_eq (h : L.Sound) (hp : L.Isolated p) (q : α) : L.insertAfter q p =
    ⟨Function.update (Function.update L.next p (L.next q)) q (some p),
      (L.next q).elim (Function.update L.prev p (some q)) fun b =>
        Function.update (Function.update L.prev p (some q)) b (some p)⟩ := by
  have hinto := h.next_isolated (a := q) hp
  simp only [Links.insertAfter, mk.injEq]
  refine ⟨funext fun a => ?_, funext fun b => ?_⟩
  · simp only [Function.update_apply]
  · cases hnext : L.next q with
    | none => simp [Function.update_apply]
    | some c =>
        simp only [Option.elim, Function.update_apply]
        grind

theorem insertFront_eq (hp : L.Isolated p) (o : Option α) : L.insertFront o p =
    ⟨Function.update L.next p o,
      o.elim L.prev fun b => Function.update (Function.update L.prev p none) b (some p)⟩ := by
  have hprev := hp.prev
  simp only [Links.insertFront, mk.injEq]
  refine ⟨funext fun a => ?_, funext fun b => ?_⟩
  · simp only [Function.update_apply]
  · cases o with
    | none => simp
    | some c =>
        simp only [Option.elim, Function.update_apply]
        grind

theorem Sound.insertAfter (h : L.Sound) (hp : L.Isolated p) (hne : p ≠ q) :
    (L.insertAfter q p).Sound := by
  have hinv := h.inverse
  obtain ⟨hnext, hprev⟩ := hp
  refine ⟨fun a b => ?_, ?_⟩
  · simp only [Links.insertAfter]
    grind
  · obtain ⟨rank, hrank⟩ := h.acyclic
    -- double the ranks to make room for `p`
    refine ⟨fun a => if a = p then 2 * rank q + 1 else 2 * rank a, fun a b hab => ?_⟩
    simp only [Links.insertAfter] at hab
    grind

theorem Sound.insertFront (h : L.Sound) (hp : L.Isolated p) (ho : ∀ a, o = some a → L.prev a = none)
    (hne : o ≠ some p) : (L.insertFront o p).Sound := by
  have hinv := h.inverse
  obtain ⟨hnext, hprev⟩ := hp
  refine ⟨fun a b => ?_, ?_⟩
  · simp only [Links.insertFront]
    grind
  · obtain ⟨rank, hrank⟩ := h.acyclic
    refine ⟨fun a => if a = p then 0 else rank a + 1, fun a b hab => ?_⟩
    simp only [Links.insertFront] at hab
    grind

omit [DecidableEq α] in
theorem Traverses.congr {L' : Links α} (h : L.Traverses o l)
    (hsame : ∀ a ∈ l, L'.next a = L.next a) : L'.Traverses o l := by
  induction l generalizing o with
  | nil => exact h
  | cons a l ih =>
      refine ⟨h.1, ?_⟩
      rw [hsame a (by simp)]
      exact ih h.2 fun b hb => hsame b (List.mem_cons_of_mem _ hb)

theorem Traverses.insertAfter {l₁ l₂ : List α} (h : L.Traverses o (l₁ ++ q :: l₂))
    (hnodup : (l₁ ++ q :: l₂).Nodup) (hp : p ∉ l₁ ++ q :: l₂) :
    (L.insertAfter q p).Traverses o (l₁ ++ q :: p :: l₂) := by
  induction l₁ generalizing o with
  | nil =>
      obtain ⟨hq, -⟩ := List.nodup_cons.mp hnodup
      simp only [List.nil_append, List.mem_cons, not_or] at hp
      refine ⟨h.1, by simp [Links.insertAfter], ?_⟩
      have hnext : (L.insertAfter q p).next p = L.next q := by simp [Links.insertAfter, hp.1]
      rw [hnext]
      refine h.2.congr fun a ha => ?_
      have haq : a ≠ q := fun heq => hq (heq ▸ ha)
      have hap : a ≠ p := fun heq => hp.2 (heq ▸ ha)
      simp [Links.insertAfter, haq, hap]
  | cons a l₁ ih =>
      rw [List.cons_append, List.nodup_cons] at hnodup
      rw [List.cons_append, List.mem_cons, not_or] at hp
      have haq : a ≠ q := fun heq => hnodup.1 (by simp [heq])
      have hnext : (L.insertAfter q p).next a = L.next a := by
        simp [Links.insertAfter, haq, Ne.symm hp.1]
      refine ⟨h.1, ?_⟩
      rw [hnext]
      exact ih h.2 hnodup.2 hp.2

omit [DecidableEq α] in
theorem Traverses.eq_append_last (h : L.Traverses o l) (hq : q ∈ l) (hlast : L.next q = none) :
    ∃ l', l = l' ++ [q] := by
  induction l generalizing o with
  | nil => simp at hq
  | cons a l ih =>
      rw [List.mem_cons] at hq
      obtain rfl | hq := hq
      · cases l with
        | nil => exact ⟨[], rfl⟩
        | cons b l => cases hlast.symm.trans h.2.1
      · obtain ⟨l', rfl⟩ := ih h.2 hq
        exact ⟨a :: l', rfl⟩

/-- A node put behind the last one is the last one. -/
theorem Traverses.append_last (hs : L.Sound) (h : L.Traverses o l) (hq : q ∈ l)
    (hlast : L.next q = none) (hp : p ∉ l) : (L.insertAfter q p).Traverses o (l ++ [p]) := by
  obtain ⟨l', rfl⟩ := h.eq_append_last hq hlast
  have hinsert : (L.insertAfter q p).Traverses o (l' ++ [q, p]) :=
    h.insertAfter (h.nodup hs) hp
  rwa [List.append_assoc]

theorem Traverses.insertFront (h : L.Traverses o l) (hp : p ∉ l) :
    (L.insertFront o p).Traverses (some p) (p :: l) := by
  refine ⟨rfl, ?_⟩
  have hnext : (L.insertFront o p).next p = o := by simp [Links.insertFront]
  rw [hnext]
  refine h.congr fun a ha => ?_
  have hap : a ≠ p := fun heq => hp (heq ▸ ha)
  simp [Links.insertFront, hap]

/-- Taking a node out of another list. -/
theorem Traverses.unlink_other (h : L.Traverses o l) (hp : p ∉ l) : (L.unlink p).Traverses o l := by
  refine h.congr fun a ha => ?_
  have hap : a ≠ p := fun heq => hp (heq ▸ ha)
  have hinto : L.next a ≠ some p := fun hnext => hp (h.mem_of_next ha hnext)
  simp [Links.unlink, hap, hinto]

theorem Traverses.unlink_head (hs : L.Sound) (h : L.Traverses o (p :: l)) :
    (L.unlink p).Traverses (L.next p) l :=
  h.2.unlink_other (List.nodup_cons.mp (h.nodup hs)).1

end Links
