import OpManifest.Text.Split

/-!
# Pieces of text

Cutting a text at a separator and putting the pieces together again are inverse
to each other (`intercalate_split`, `split_intercalate`), and a text that is cut
at one separator is cut there whatever stands on both sides
(`split_append_separator`).
-/

namespace OpManifest

namespace Text

theorem split_eq_splitOn (separator : Char) (text : List Char) :
    split separator text = text.splitOn separator := by
  induction text with
  | nil => rfl
  | cons c rest ih =>
    rw [List.splitOn_cons_eq_if_modifyHead, split, ih]
    obtain ⟨piece, pieces, hpieces⟩ :=
      List.exists_cons_of_ne_nil (List.splitOn_ne_nil separator rest)
    by_cases hc : c = separator
    · simp [hc]
    · simp [hc, hpieces]

theorem exists_cons_split (separator : Char) (text : List Char) :
    ∃ piece rest, split separator text = piece :: rest := by
  rw [split_eq_splitOn]
  exact List.exists_cons_of_ne_nil (List.splitOn_ne_nil separator text)

theorem split_append_separator (separator : Char) (a b : List Char) :
    split separator (a ++ separator :: b) = split separator a ++ split separator b := by
  simp only [split_eq_splitOn, List.splitOn_append_cons_self]

theorem split_of_not_mem {separator : Char} {text : List Char} (h : separator ∉ text) :
    split separator text = [text] := by
  rw [split_eq_splitOn, List.splitOn_eq_singleton h]

theorem split_intercalate {separator : Char} {pieces : List (List Char)}
    (hne : pieces ≠ []) (h : ∀ piece ∈ pieces, separator ∉ piece) :
    split separator ([separator].intercalate pieces) = pieces := by
  rw [split_eq_splitOn, List.splitOn_intercalate separator h hne]

theorem intercalate_split (separator : Char) (text : List Char) :
    [separator].intercalate (split separator text) = text := by
  rw [split_eq_splitOn, List.intercalate_splitOn]

/-- No piece contains the separator. -/
theorem not_mem_of_mem_split {separator : Char} {text piece : List Char}
    (h : piece ∈ split separator text) : separator ∉ piece := by
  induction text generalizing piece with
  | nil => simp_all [split]
  | cons c rest ih =>
    rw [split_eq_splitOn, List.splitOn_cons_eq_if_modifyHead, ← split_eq_splitOn] at h
    obtain ⟨first, others, hsplit⟩ := exists_cons_split separator rest
    simp only [hsplit, List.mem_cons, forall_eq_or_imp] at h ih
    by_cases hc : c = separator
    · simp only [hc, beq_self_eq_true, ↓reduceIte, List.mem_cons] at h
      rcases h with rfl | rfl | h
      · simp
      · exact ih.1
      · exact ih.2 _ h
    · simp only [beq_iff_eq, hc, ↓reduceIte, List.modifyHead_cons, List.mem_cons] at h
      rcases h with rfl | h
      · simp only [List.mem_cons, not_or]
        exact ⟨fun h => hc h.symm, ih.1⟩
      · exact ih.2 _ h

/-- The pieces hold the characters of the text, but for the separators. -/
theorem mem_split_iff {separator c : Char} {text : List Char} (hc : c ≠ separator) :
    (∃ piece ∈ split separator text, c ∈ piece) ↔ c ∈ text := by
  induction text with
  | nil => simp [split]
  | cons d rest ih =>
    rw [split_eq_splitOn, List.splitOn_cons_eq_if_modifyHead, ← split_eq_splitOn]
    obtain ⟨first, others, hsplit⟩ := exists_cons_split separator rest
    rw [List.mem_cons, ← ih, hsplit]
    by_cases hd : d = separator
    · simp [hd, hc]
    · simp [hd, or_assoc]

/-- Pieces behind other pieces: each of the first ones is followed by a
separator. -/
theorem intercalate_append {separator : Char} (first : List (List Char))
    {second : List (List Char)} (hne : second ≠ []) :
    [separator].intercalate (first ++ second) =
      first.flatMap (· ++ [separator]) ++ [separator].intercalate second := by
  induction first with
  | nil => simp
  | cons piece others ih =>
    rw [List.cons_append, List.intercalate_cons_of_ne_nil (by simp [hne]), ih]
    simp

/-- A text without the separator lengthens the last piece of what it stands behind. -/
theorem exists_split_append {separator : Char} (text : List Char) {tail : List Char}
    (h : separator ∉ tail) :
    ∃ front last, split separator (text ++ tail) = front ++ [last ++ tail] := by
  have hne : split separator text ≠ [] := by
    rw [split_eq_splitOn]
    exact List.splitOn_ne_nil separator text
  obtain ⟨front, last, hpieces⟩ := (List.eq_nil_or_concat _).resolve_left hne
  rw [List.concat_eq_append] at hpieces
  have hnot : ∀ piece ∈ front ++ [last ++ tail], separator ∉ piece := by
    intro piece hpiece
    obtain hmem | hmem := List.mem_append.1 hpiece
    · exact not_mem_of_mem_split (hpieces ▸ List.mem_append_left _ hmem)
    · obtain rfl := List.mem_singleton.1 hmem
      have hlast : separator ∉ last :=
        not_mem_of_mem_split (hpieces ▸ List.mem_append_right _ (List.mem_singleton_self _))
      simp [hlast, h]
  have htext : text ++ tail = [separator].intercalate (front ++ [last ++ tail]) := by
    rw [← intercalate_split separator text, hpieces, intercalate_append front (by simp),
      intercalate_append front (by simp)]
    simp
  exact ⟨front, last, by rw [htext, split_intercalate (by simp) hnot]⟩

/-- Pieces that are each followed by a separator. -/
theorem flatMap_append_separator {separator : Char} {pieces : List (List Char)}
    (hne : pieces ≠ []) :
    pieces.flatMap (· ++ [separator]) = [separator].intercalate pieces ++ [separator] := by
  induction pieces with
  | nil => exact absurd rfl hne
  | cons piece others ih =>
    cases others with
    | nil => simp
    | cons second others =>
      rw [List.flatMap_cons, ih (by simp), List.intercalate_cons_cons]
      simp

end Text

end OpManifest
