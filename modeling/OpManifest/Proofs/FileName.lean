import Mathlib.Data.List.TakeWhile
import OpManifest.Proofs.Component

/-!
# File names

A file name is a stem, or a stem, a dot and an extension (`splitExtension_cases`).
In the text of a path nothing but slashes and dots stands behind its file name
(`exists_pieces_of_fileName?`), so this one name leads from the parent to where the
path leads (`moves_of_fileName?`).
-/

namespace OpManifest.Path

/-! ## Extensions -/

/-- Behind the last dot of a name stands its extension, if something stands before
the dot. -/
theorem splitExtension_append {stem extension : String} (h : '.' ∉ extension.toList) :
    splitExtension (stem ++ "." ++ extension) =
      if stem ++ "." ++ extension = ".." ∨ stem = "" then (stem ++ "." ++ extension, none)
      else (stem, some extension) := by
  have hreversed : (stem ++ "." ++ extension).toList.reverse =
      extension.toList.reverse ++ '.' :: stem.toList.reverse := by
    simp
  have hplain : ∀ c ∈ extension.toList.reverse, decide (c ≠ '.') = true := by
    intro c hc
    have hne : c ≠ '.' := by
      rintro rfl
      exact h (List.mem_reverse.1 hc)
    simpa using hne
  have hdrop : (stem ++ "." ++ extension).toList.reverse.dropWhile (· ≠ '.') =
      '.' :: stem.toList.reverse := by
    rw [hreversed, List.dropWhile_append_of_pos hplain, List.dropWhile_cons_of_neg (by simp)]
  have htake : (stem ++ "." ++ extension).toList.reverse.takeWhile (· ≠ '.') =
      extension.toList.reverse := by
    rw [hreversed, List.takeWhile_append_of_pos hplain, List.takeWhile_cons_of_neg (by simp),
      List.append_nil]
  unfold splitExtension
  by_cases hup : stem ++ "." ++ extension = ".."
  · rw [if_pos hup, if_pos (.inl hup)]
  · simp only [if_neg hup, hdrop, htake]
    by_cases hstem : stem = ""
    · simp [hstem]
    · simp [hup, hstem]

theorem splitExtension_of_not_mem {name : String} (h : '.' ∉ name.toList) :
    splitExtension name = (name, none) := by
  have hdrop : name.toList.reverse.dropWhile (· ≠ '.') = [] := by
    rw [List.dropWhile_eq_nil_iff]
    intro c hc
    have hne : c ≠ '.' := by
      rintro rfl
      exact h (List.mem_reverse.1 hc)
    simpa using hne
  unfold splitExtension
  simp only [hdrop, ite_self]

/-- A name holds no dot, or there is a last one in it. -/
theorem exists_lastDot (name : String) :
    '.' ∉ name.toList ∨
      ∃ stem extension, name = stem ++ "." ++ extension ∧ '.' ∉ extension.toList := by
  by_cases hdot : '.' ∈ name.toList
  · obtain ⟨back, front, hreverse, hback⟩ :=
      List.eq_append_cons_of_mem (List.mem_reverse.2 hdot)
    refine .inr ⟨.ofList front.reverse, .ofList back.reverse, ?_, by simpa using hback⟩
    rw [← String.toList_inj, ← List.reverse_inj, hreverse]
    simp
  · exact .inl hdot

/-- What is left of a name without its extension begins the name. -/
theorem splitExtension_cases (name : String) :
    splitExtension name = (name, none) ∨
      ∃ stem extension, splitExtension name = (stem, some extension) ∧
        name = stem ++ "." ++ extension ∧ '.' ∉ extension.toList ∧ stem ≠ "" := by
  obtain hnone | ⟨stem, extension, rfl, hextension⟩ := exists_lastDot name
  · exact .inl (splitExtension_of_not_mem hnone)
  · rw [splitExtension_append hextension]
    split
    · exact .inl rfl
    · rename_i h
      exact .inr ⟨stem, extension, rfl, rfl, hextension, (not_or.1 h).2⟩

theorem exists_stem_append (name : String) :
    ∃ rest, name.toList = (splitExtension name).1.toList ++ rest := by
  obtain hsplit | ⟨stem, extension, hsplit, rfl, -, -⟩ := splitExtension_cases name
  · exact ⟨[], by simp [hsplit]⟩
  · exact ⟨'.' :: extension.toList, by simp [hsplit]⟩

/-! ## Where the file name stands -/

theorem getLast?_segments {p : Path} {name : String} (h : p.fileName? = some name) :
    ∃ s, p.segments.getLast? = some s ∧ s.name = name := by
  unfold fileName? at h
  split at h
  · rename_i s hlast
    split_ifs at h
    exact ⟨s, hlast, Option.some.inj h⟩
  · cases h

/-- The file name is one of the pieces between slashes, and the pieces behind it are
empty or dots. -/
theorem exists_pieces_of_fileName? {p : Path} {name : String} (h : p.fileName? = some name) :
    ∃ front back, Text.split '/' p.text.toList = front ++ name.toList :: back ∧
      back.filter counts = [] ∧
      p.segments.getLast? = some ⟨name, width front, width front + name.toList.length⟩ := by
  obtain ⟨s, hlast, hname⟩ := getLast?_segments h
  have hsegs : (segs 0 (Text.split '/' p.text.toList)).getLast? = some s := hlast
  obtain ⟨front, piece, back, hpieces, -, hs, hback, -⟩ := exists_last hsegs
  have hpiece : piece = name.toList := by rw [← hname, hs, String.toList_ofList]
  refine ⟨front, back, by rw [hpieces, hpiece], hback, ?_⟩
  rw [hlast, hs, hpiece, String.ofList_toList, Nat.zero_add]

theorem toList_of_split {p : Path} {front back : List (List Char)} {name : String}
    (h : Text.split '/' p.text.toList = front ++ name.toList :: back) :
    ∃ tail, p.text.toList = front.flatMap (· ++ ['/']) ++ (name.toList ++ tail) := by
  obtain ⟨tail, htail⟩ := exists_tail (by simp : [name.toList] ≠ []) back
  refine ⟨tail, ?_⟩
  rw [← Text.intercalate_split '/' p.text.toList, h, Text.intercalate_append front (by simp)]
  simpa using htail

/-- A path moves to its parent first and then to its file name. -/
theorem moves_of_fileName? {p parent : Path} {name : String} (hparent : p.parent? = some parent)
    (h : p.fileName? = some name) : p.moves = parent.moves ++ [name] := by
  obtain ⟨s, hlast, rfl⟩ := getLast?_segments h
  obtain ⟨front, hsegments⟩ := List.getLast?_eq_some_iff.1 hlast
  have hdot : s.name ≠ "." := (isName_of_fileName? h).2.2.1
  rw [← filter_name_segments, (moves_of_parent? hparent).1, hsegments, List.dropLast_concat,
    List.map_append, List.filter_append]
  simp [hdot]

end OpManifest.Path
