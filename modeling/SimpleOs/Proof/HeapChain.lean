import SimpleOs.Proof.HeapFields

/-!
# Block lists in memory

The abstract heap is a list of blocks, each a payload size and a free flag. `Chain` says that memory
holds their headers end to end with both links right, so the list determines every header and the
geometry of the heap is arithmetic on sizes.
-/

namespace SimpleOs

structure Block where
  size : Nat
  free : Bool
deriving Repr, DecidableEq

def endOf (a : Nat) : List Block → Nat
  | [] => a
  | b :: bs => endOf (a + 32 + b.size) bs

def headers (a : Nat) : List Block → List Nat
  | [] => []
  | b :: bs => a :: headers (a + 32 + b.size) bs

def lastHeader (prev a : Nat) : List Block → Nat
  | [] => prev
  | b :: bs => lastHeader a (a + 32 + b.size) bs

/-- The four header fields of a block at `a`; any flag but 0 counts as free. -/
structure Header (m : ByteMemory) (a : Nat) (b : Block) (next prev : Nat) : Prop where
  size : getField m a .size = b.size
  free : getField m a .free ≠ 0 ↔ b.free = true
  next : getField m a .next = next
  prev : getField m a .prev = prev

/-- The headers of `bs` stand end to end from `a`, each linked to its neighbours; the first links
back to `prev` and the last on to `after`. -/
def Chain (m : ByteMemory) : Nat → Nat → List Block → Nat → Prop
  | _, _, [], _ => True
  | prev, a, b :: bs, after =>
      Header m a b (if bs = [] then after else a + 32 + b.size) prev ∧
        Chain m a (a + 32 + b.size) bs after

variable {m m' : ByteMemory} {a x prev q after : Nat} {b c : Block} {bs l₁ l₂ : List Block}

theorem le_endOf (a : Nat) (bs : List Block) : a ≤ endOf a bs := by
  induction bs generalizing a with
  | nil => exact le_rfl
  | cons b bs ih =>
      have htail := ih (a + 32 + b.size)
      rw [endOf]
      omega

@[simp]
theorem endOf_append (a : Nat) (l₁ l₂ : List Block) :
    endOf a (l₁ ++ l₂) = endOf (endOf a l₁) l₂ := by
  induction l₁ generalizing a with
  | nil => rfl
  | cons b l₁ ih => exact ih _

@[simp]
theorem endOf_cons (a : Nat) (b : Block) (bs : List Block) :
    endOf a (b :: bs) = endOf (a + 32 + b.size) bs := rfl

@[simp]
theorem endOf_nil (a : Nat) : endOf a [] = a := rfl

theorem headers_append (a : Nat) (l₁ l₂ : List Block) :
    headers a (l₁ ++ l₂) = headers a l₁ ++ headers (endOf a l₁) l₂ := by
  induction l₁ generalizing a with
  | nil => rfl
  | cons b l₁ ih => rw [List.cons_append, headers, headers, ih, List.cons_append, endOf]

theorem mem_headers_bounds (h : x ∈ headers a bs) : a ≤ x ∧ x + 32 ≤ endOf a bs := by
  induction bs generalizing a with
  | nil => exact absurd h (by simp [headers])
  | cons b bs ih =>
      have hend := le_endOf (a + 32 + b.size) bs
      rw [headers, List.mem_cons] at h
      rw [endOf]
      obtain rfl | h := h
      · omega
      · obtain ⟨hle, hend⟩ := ih h
        omega

theorem eq_or_le_of_mem_headers (h : x ∈ headers a bs) : x = a ∨ a + 32 ≤ x := by
  cases bs with
  | nil => exact absurd h (by simp [headers])
  | cons b bs =>
      rw [headers, List.mem_cons] at h
      refine h.imp_right fun htail => ?_
      have hbounds := mem_headers_bounds htail
      omega

theorem chain_append :
    Chain m prev a (l₁ ++ l₂) after ↔
      Chain m prev a l₁ (if l₂ = [] then after else endOf a l₁) ∧
        Chain m (lastHeader prev a l₁) (endOf a l₁) l₂ after := by
  induction l₁ generalizing prev a with
  | nil => simp [Chain, lastHeader]
  | cons c l₁ ih =>
      have hnext : (if l₁ ++ l₂ = [] then after else a + 32 + c.size) =
          if l₁ = [] then (if l₂ = [] then after else endOf a (c :: l₁)) else a + 32 + c.size := by
        cases l₁ with
        | nil => rfl
        | cons d l₁ => rfl
      rw [List.cons_append, Chain, Chain, ih, hnext, and_assoc]
      rfl

theorem Chain.header (h : Chain m prev a (l₁ ++ b :: l₂) 0) :
    Header m (endOf a l₁) b (if l₂ = [] then 0 else endOf a l₁ + 32 + b.size)
      (lastHeader prev a l₁) :=
  (chain_append.mp h).2.1

theorem Chain.neighbour (h : Chain m prev a (l₁ ++ b :: c :: l₂) 0) :
    Header m (endOf a l₁ + 32 + b.size) c
      (if l₂ = [] then 0 else endOf a l₁ + 32 + b.size + 32 + c.size) (endOf a l₁) :=
  (chain_append.mp h).2.2.1

theorem Chain.next_prev (h : Chain m prev a (l₁ ++ b :: c :: l₂) 0) :
    getField m (endOf a l₁ + 32 + b.size) .prev = endOf a l₁ :=
  h.neighbour.prev

theorem Chain.congr (h : Chain m prev a bs after)
    (hsame : ∀ x ∈ headers a bs, ∀ f, getField m' x f = getField m x f) :
    Chain m' prev a bs after := by
  induction bs generalizing prev a with
  | nil => trivial
  | cons b bs ih =>
      obtain ⟨hheader, htail⟩ := h
      have hhead := hsame a (List.mem_cons_self ..)
      refine ⟨⟨?_, ?_, ?_, ?_⟩, ih htail fun x hx => hsame x (List.mem_cons_of_mem _ hx)⟩
      · rw [hhead, hheader.size]
      · rw [hhead]
        exact hheader.free
      · rw [hhead, hheader.next]
      · rw [hhead, hheader.prev]

theorem Chain.relink (h : Chain m prev a bs after)
    (hsame : ∀ x ∈ headers a bs, ∀ f, x ≠ a ∨ f ≠ .prev → getField m' x f = getField m x f)
    (hprev : bs ≠ [] → getField m' a .prev = q) : Chain m' q a bs after := by
  cases bs with
  | nil => trivial
  | cons b bs =>
      obtain ⟨hheader, htail⟩ := h
      have hhead : ∀ f, f ≠ .prev → getField m' a f = getField m a f := fun f hf =>
        hsame a (List.mem_cons_self ..) f (Or.inr hf)
      refine ⟨⟨?_, ?_, ?_, hprev (by simp)⟩, htail.congr fun x hx f => ?_⟩
      · rw [hhead _ (by decide), hheader.size]
      · rw [hhead _ (by decide)]
        exact hheader.free
      · rw [hhead _ (by decide), hheader.next]
      · have hbounds := mem_headers_bounds hx
        exact hsame x (List.mem_cons_of_mem _ hx) f (Or.inl (by omega))

/-- Replacing some blocks of a chain by others that end at the same address `e`: the headers before
them stay, the new ones are linked, and after `e` only the first back link changes. -/
theorem Chain.edit (mid mid' : List Block) {e : Nat} (h : Chain m prev a (l₁ ++ (mid ++ l₂)) 0)
    (hmid : mid ≠ []) (hmid' : mid' ≠ []) (he : endOf (endOf a l₁) mid = e)
    (he' : endOf (endOf a l₁) mid' = e)
    (hbefore : ∀ x f, x + 32 ≤ endOf a l₁ → getField m' x f = getField m x f)
    (hnew : Chain m' (lastHeader prev a l₁) (endOf a l₁) mid' (if l₂ = [] then 0 else e))
    (hafter : ∀ x f, x = e ∧ f ≠ .prev ∨ e + 32 ≤ x → x + 32 ≤ endOf e l₂ →
      getField m' x f = getField m x f)
    (hprev : l₂ ≠ [] → getField m' e .prev =
      lastHeader (lastHeader prev a l₁) (endOf a l₁) mid') :
    Chain m' prev a (l₁ ++ (mid' ++ l₂)) 0 := by
  rw [chain_append, if_neg (by simp [hmid])] at h
  obtain ⟨hfirst, hrest⟩ := h
  rw [chain_append, he] at hrest
  rw [chain_append, if_neg (by simp [hmid']), chain_append, he']
  refine ⟨hfirst.congr fun x hx f => hbefore x f (mem_headers_bounds hx).2, hnew,
    hrest.2.relink (fun x hx f hcase => hafter x f ?_ (mem_headers_bounds hx).2) hprev⟩
  obtain rfl | hlt := eq_or_le_of_mem_headers hx
  · exact Or.inl ⟨rfl, hcase.resolve_left fun hne => hne rfl⟩
  · exact Or.inr hlt

/-- Memory determines where the blocks of a chain stand: another chain from the same address visits
the same header. -/
theorem Chain.visits {prev' : Nat} (h : Chain m prev a (l₁ ++ b :: l₂) after)
    (h' : Chain m prev' a bs 0) (hne : bs ≠ []) :
    ∃ l c rest, bs = l ++ c :: rest ∧ endOf a l = endOf a l₁ := by
  induction l₁ generalizing prev prev' a bs with
  | nil =>
      obtain ⟨c, rest, rfl⟩ := List.exists_cons_of_ne_nil hne
      exact ⟨[], c, rest, rfl, rfl⟩
  | cons d l₁ ih =>
      obtain ⟨c, rest, rfl⟩ := List.exists_cons_of_ne_nil hne
      obtain ⟨hheader, htail⟩ := h
      obtain ⟨hheader', htail'⟩ := h'
      have hsize : c.size = d.size := hheader'.size.symm.trans hheader.size
      have hrest : rest ≠ [] := by
        intro hnil
        have hnext := hheader'.next.symm.trans hheader.next
        rw [if_pos hnil, if_neg (by simp)] at hnext
        omega
      rw [hsize] at htail'
      obtain ⟨l, e, rest', rfl, hend⟩ := ih htail htail' hrest
      exact ⟨c :: l, e, rest', rfl, by rw [endOf, endOf, hsize, hend]⟩

end SimpleOs
