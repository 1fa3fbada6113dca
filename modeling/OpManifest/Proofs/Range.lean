import Mathlib.Data.List.Forall2
import OpManifest.Text.Slice

/-!
# Places and ranges of a text

A number of bytes is a place if a character begins or the text ends behind so
many bytes.  Between any two places there is a part of the text
(`exists_slice?`).

Ranges that lie one behind the other leave gaps, and what is between the two
outermost places is either in a range or in a gap (`mem_gaps`).
-/

namespace OpManifest.Text

/-! ## Places -/

/-- So many bytes stand before a character or the end of the text. -/
def IsPlace (text : List Char) (place : Nat) : Prop :=
  ∃ front back, text = front ++ back ∧ byteCount front = place

/-- The character that begins at a place. -/
def HasAt (text : List Char) (place : Nat) (c : Char) : Prop :=
  ∃ front back, text = front ++ c :: back ∧ byteCount front = place

section

variable {text part : List Char} {place start stop : Nat} {c : Char}

theorem isPlace_zero : IsPlace text 0 := ⟨[], text, rfl, rfl⟩

theorem isPlace_byteCount : IsPlace text (byteCount text) :=
  ⟨text, [], (List.append_nil text).symm, rfl⟩

theorem HasAt.isPlace (h : HasAt text place c) : IsPlace text place := by
  obtain ⟨front, back, htext, hplace⟩ := h
  exact ⟨front, c :: back, htext, hplace⟩

theorem HasAt.isPlace_add (h : HasAt text place c) : IsPlace text (place + c.utf8Size) := by
  obtain ⟨front, back, htext, hplace⟩ := h
  refine ⟨front ++ [c], back, by simpa using htext, ?_⟩
  rw [byteCount_append, hplace]
  rfl

theorem eq_nil_of_byteCount (h : byteCount part = 0) : part = [] := by
  cases part with
  | nil => rfl
  | cons c cs =>
    have := c.utf8Size_pos
    rw [byteCount_cons] at h
    omega

/-- The size of a string is that of its characters. -/
theorem utf8ByteSize_ofList (cs : List Char) :
    (String.ofList cs).utf8ByteSize = byteCount cs := by
  induction cs with
  | nil => rfl
  | cons c cs ih =>
    rw [← List.singleton_append, String.ofList_append, String.utf8ByteSize_append, ih,
      byteCount_append, ← String.singleton_eq_ofList, String.utf8ByteSize_singleton]
    rfl

/-- Between two places there is a part of the text. -/
theorem exists_slice? (hstart : IsPlace text start) (hstop : IsPlace text stop)
    (hle : start ≤ stop) : ∃ part, slice? text start stop = some part := by
  obtain ⟨front, behind, hfront, hstart⟩ := hstart
  obtain ⟨upTo, back, hback, hstop⟩ := hstop
  have hprefix : front <+: upTo := by
    have hfront : front <+: text := ⟨behind, hfront.symm⟩
    have hupTo : upTo <+: text := ⟨back, hback.symm⟩
    rcases List.prefix_or_prefix_of_prefix hfront hupTo with h | ⟨between, hbetween⟩
    · exact h
    · -- The other way round they are the same, for nothing fits between them.
      have hcount := congrArg byteCount hbetween
      rw [byteCount_append] at hcount
      have hnil : between = [] := eq_nil_of_byteCount (by omega)
      rw [hnil, List.append_nil] at hbetween
      exact hbetween ▸ List.prefix_rfl
  obtain ⟨part, hpart⟩ := hprefix
  refine ⟨part, slice?_eq_some.2 ⟨front, back, ?_, hstart, ?_⟩⟩
  · rw [hback, ← hpart, List.append_assoc]
  · rw [← hstart, ← hstop, ← hpart, byteCount_append]

theorem le_of_slice? (h : slice? text start stop = some part) : start ≤ stop := by
  obtain ⟨front, back, -, -, hstop⟩ := slice?_eq_some.1 h
  omega

/-- A character stands at a place if it is the part of its size from there. -/
theorem hasAt_iff : HasAt text place c ↔ slice? text place (place + c.utf8Size) = some [c] := by
  rw [slice?_eq_some]
  constructor
  · rintro ⟨front, back, htext, hplace⟩
    exact ⟨front, back, htext, hplace, rfl⟩
  · rintro ⟨front, back, htext, hplace, -⟩
    exact ⟨front, back, htext, hplace⟩

instance (text : List Char) (place : Nat) (c : Char) : Decidable (HasAt text place c) :=
  decidable_of_iff _ hasAt_iff.symm

/-- A part that begins with a character has it at its start. -/
theorem HasAt.of_slice? (h : slice? text start stop = some (c :: part)) :
    HasAt text start c ∧ start < stop := by
  obtain ⟨front, back, htext, hstart, hstop⟩ := slice?_eq_some.1 h
  have := c.utf8Size_pos
  rw [byteCount_cons] at hstop
  exact ⟨⟨front, part ++ back, htext, hstart⟩, by omega⟩

/-- The part from a character on begins with it. -/
theorem HasAt.exists_slice? (h : HasAt text start c) (hstop : IsPlace text stop)
    (hlt : start < stop) : ∃ part, slice? text start stop = some (c :: part) := by
  obtain ⟨part, hpart⟩ := Text.exists_slice? h.isPlace hstop (Nat.le_of_lt hlt)
  obtain ⟨front, back, htext, hstart⟩ := h
  obtain ⟨front', back', htext', hstart', hsize⟩ := slice?_eq_some.1 hpart
  have hfront : front = front' ∧ c :: back = part ++ back' := by
    have hsplit := splitBytes?_eq_some.2 ⟨htext, hstart⟩
    have hsplit' := splitBytes?_eq_some.2 ⟨htext', hstart'⟩
    exact Prod.mk.inj (Option.some.inj (hsplit.symm.trans hsplit'))
  cases part with
  | nil =>
    rw [byteCount_nil] at hsize
    omega
  | cons d part =>
    obtain ⟨rfl, -⟩ := List.cons.inj hfront.2
    exact ⟨part, hpart⟩

end

/-! ## Ranges in order -/

/-- The ranges lie one behind the other between two places. -/
def InOrder : Nat → Nat → List (Nat × Nat) → Prop
  | start, stop, [] => start ≤ stop
  | start, stop, (a, b) :: ranges => start ≤ a ∧ a ≤ b ∧ InOrder b stop ranges

instance decidableInOrder : ∀ (start stop : Nat) (ranges : List (Nat × Nat)),
    Decidable (InOrder start stop ranges)
  | start, stop, [] => inferInstanceAs (Decidable (start ≤ stop))
  | start, stop, (a, b) :: ranges =>
    have := decidableInOrder b stop ranges
    inferInstanceAs (Decidable (start ≤ a ∧ a ≤ b ∧ InOrder b stop ranges))

section

variable {start stop a b : Nat} {ranges others : List (Nat × Nat)}

theorem InOrder.le (h : InOrder start stop ranges) : start ≤ stop := by
  induction ranges generalizing start with
  | nil => exact h
  | cons range ranges ih =>
    obtain ⟨hstart, hrange, hrest⟩ := h
    have := ih hrest
    omega

theorem InOrder.mono (h : InOrder a b ranges) (hstart : start ≤ a) (hstop : b ≤ stop) :
    InOrder start stop ranges := by
  induction ranges generalizing start a with
  | nil =>
    have := h.le
    unfold InOrder
    omega
  | cons range ranges ih =>
    obtain ⟨ha, hrange, hrest⟩ := h
    exact ⟨by omega, hrange, ih hrest (Nat.le_refl _)⟩

/-- Ranges in order can be split between any two of them. -/
theorem inOrder_append : InOrder start stop (ranges ++ others) ↔
    ∃ between, InOrder start between ranges ∧ InOrder between stop others := by
  induction ranges generalizing start with
  | nil =>
    constructor
    · intro h
      exact ⟨start, Nat.le_refl _, h⟩
    · rintro ⟨between, hbetween, h⟩
      exact h.mono hbetween (Nat.le_refl _)
  | cons range ranges ih =>
    simp only [List.cons_append, InOrder, ih]
    constructor
    · rintro ⟨hstart, hrange, between, h, hothers⟩
      exact ⟨between, ⟨hstart, hrange, h⟩, hothers⟩
    · rintro ⟨between, ⟨hstart, hrange, h⟩, hothers⟩
      exact ⟨hstart, hrange, between, h, hothers⟩

theorem inOrder_singleton : InOrder start stop [(a, b)] ↔ start ≤ a ∧ a ≤ b ∧ b ≤ stop := Iff.rfl

theorem InOrder.sublist (h : InOrder start stop ranges) (hsub : others.Sublist ranges) :
    InOrder start stop others := by
  induction hsub generalizing start with
  | slnil => exact h
  | cons range hsub ih =>
    obtain ⟨hstart, hrange, hrest⟩ := h
    exact (ih hrest).mono (by omega) (Nat.le_refl _)
  | cons_cons range hsub ih =>
    obtain ⟨hstart, hrange, hrest⟩ := h
    exact ⟨hstart, hrange, ih hrest⟩

theorem InOrder.of_mem (h : InOrder start stop ranges) (hmem : (a, b) ∈ ranges) :
    start ≤ a ∧ a ≤ b ∧ b ≤ stop := by
  obtain ⟨before, behind, rfl⟩ := List.append_of_mem hmem
  obtain ⟨between, hbefore, ha, hab, hbehind⟩ := inOrder_append.1 h
  have := hbefore.le
  have := hbehind.le
  omega

theorem InOrder.pairwise {α : Type} {range : α → Nat × Nat} {xs : List α}
    (h : InOrder start stop (xs.map range)) :
    xs.Pairwise fun x y => (range x).2 ≤ (range y).1 := by
  induction xs generalizing start with
  | nil => exact .nil
  | cons x xs ih =>
    obtain ⟨-, -, hrest⟩ := h
    exact List.pairwise_cons.2
      ⟨fun y hy => (hrest.of_mem (List.mem_map_of_mem hy)).1, ih hrest⟩

/-- Two things whose ranges are in order are the same, or one is before the
other. -/
theorem InOrder.apart {α : Type} {range : α → Nat × Nat} {xs : List α} {x y : α}
    (h : InOrder start stop (xs.map range)) (hx : x ∈ xs) (hy : y ∈ xs) :
    x = y ∨ (range x).2 ≤ (range y).1 ∨ (range y).2 ≤ (range x).1 := by
  induction xs generalizing start with
  | nil => cases hx
  | cons z xs ih =>
    obtain ⟨-, -, hrest⟩ := h
    rcases List.mem_cons.1 hx with rfl | hx' <;> rcases List.mem_cons.1 hy with rfl | hy'
    · exact .inl rfl
    · exact .inr (.inl (hrest.of_mem (List.mem_map_of_mem hy')).1)
    · exact .inr (.inr (hrest.of_mem (List.mem_map_of_mem hx')).1)
    · exact ih hrest hx' hy'

end

/-! ## Gaps -/

/-- What ranges in order leave free between two places. -/
def gaps : Nat → Nat → List (Nat × Nat) → List (Nat × Nat)
  | start, stop, [] => [(start, stop)]
  | start, stop, (a, b) :: ranges => (start, a) :: gaps b stop ranges

section

variable {start stop place : Nat} {ranges : List (Nat × Nat)}

theorem inOrder_gaps (h : InOrder start stop ranges) :
    InOrder start stop (gaps start stop ranges) := by
  induction ranges generalizing start with
  | nil => exact inOrder_singleton.2 ⟨Nat.le_refl _, h, Nat.le_refl _⟩
  | cons range ranges ih =>
    obtain ⟨hstart, hrange, hrest⟩ := h
    exact ⟨Nat.le_refl _, hstart, (ih hrest).mono hrange (Nat.le_refl _)⟩

/-- A place is in a gap exactly if it is in no range. -/
theorem mem_gaps (h : InOrder start stop ranges) (hstart : start ≤ place) (hstop : place < stop) :
    (∃ gap ∈ gaps start stop ranges, gap.1 ≤ place ∧ place < gap.2) ↔
      ∀ range ∈ ranges, ¬(range.1 ≤ place ∧ place < range.2) := by
  induction ranges generalizing start with
  | nil => simp [gaps, hstart, hstop]
  | cons range ranges ih =>
    obtain ⟨a, b⟩ := range
    obtain ⟨ha, hab, hrest⟩ := h
    simp only [gaps, List.exists_mem_cons_iff, List.forall_mem_cons]
    by_cases hbefore : place < b
    · -- All later gaps and ranges begin behind the place.
      have hgaps : ¬∃ gap ∈ gaps b stop ranges, gap.1 ≤ place ∧ place < gap.2 := by
        rintro ⟨gap, hgap, hle, -⟩
        have := ((inOrder_gaps hrest).of_mem hgap).1
        omega
      have hranges : ∀ range ∈ ranges, ¬(range.1 ≤ place ∧ place < range.2) := by
        rintro range hmem ⟨hle, -⟩
        have := (hrest.of_mem hmem).1
        omega
      have hhere : start ≤ place ∧ place < a ↔ ¬(a ≤ place ∧ place < b) := by omega
      rw [or_iff_left hgaps, and_iff_left hranges]
      exact hhere
    · rw [ih hrest (by omega)]
      have hgap : ¬(start ≤ place ∧ place < a) := by omega
      have hrange : ¬(a ≤ place ∧ place < b) := by omega
      simp only [hgap, hrange, false_or, not_false_eq_true, true_and]

end

/-! ## The text in ranges -/

/-- The parts of the text between the two places of each range. -/
def PartsAt (text : List Char) (ranges : List (Nat × Nat)) (parts : List (List Char)) : Prop :=
  List.Forall₂ (fun range part => slice? text range.1 range.2 = some part) ranges parts

section

variable {text : List Char} {start stop : Nat} {ranges : List (Nat × Nat)}

/-- Gaps between places have a text. -/
theorem exists_partsAt_gaps (hstart : IsPlace text start) (hstop : IsPlace text stop)
    (horder : InOrder start stop ranges)
    (hplaces : ∀ range ∈ ranges, IsPlace text range.1 ∧ IsPlace text range.2) :
    ∃ parts, PartsAt text (gaps start stop ranges) parts := by
  induction ranges generalizing start with
  | nil =>
    obtain ⟨part, hpart⟩ := exists_slice? hstart hstop horder
    exact ⟨[part], .cons hpart .nil⟩
  | cons range ranges ih =>
    obtain ⟨a, b⟩ := range
    obtain ⟨⟨ha, hb⟩, hplaces⟩ := List.forall_mem_cons.1 hplaces
    obtain ⟨hle, -, horder⟩ := horder
    obtain ⟨part, hpart⟩ := exists_slice? hstart ha hle
    obtain ⟨parts, hparts⟩ := ih hb horder hplaces
    exact ⟨part :: parts, .cons hpart hparts⟩

/-- If the gaps have a text, the ranges lie between the two outermost places. -/
theorem inOrder_of_partsAt {parts : List (List Char)}
    (hranges : ∀ range ∈ ranges, range.1 ≤ range.2)
    (hparts : PartsAt text (gaps start stop ranges) parts) : InOrder start stop ranges := by
  induction ranges generalizing start parts with
  | nil =>
    obtain ⟨part, _, hpart, -, -⟩ := List.forall₂_cons_left_iff.1 hparts
    exact le_of_slice? hpart
  | cons range ranges ih =>
    obtain ⟨hrange, hranges⟩ := List.forall_mem_cons.1 hranges
    obtain ⟨part, _, hpart, hrest, -⟩ := List.forall₂_cons_left_iff.1 hparts
    exact ⟨le_of_slice? hpart, hrange, ih hranges hrest⟩

end

end OpManifest.Text
