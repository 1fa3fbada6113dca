import OpManifest.Proofs.GraphQL.Block
import OpManifest.Proofs.GraphQL.Quoted

/-!
# Printed strings

A string is printed between quotes or as a block, and is cut into one token
either way (`lexes_string`).  It is read back if it has nothing to lose there
(`readBackText_iff`).
-/

namespace OpManifest.GraphQL

open Text (isBlank lines split)
open Printer (blockLine quotedChar isBlock isPlain)
open BlockString (dropBytes withoutBlankEnds)

/-! ## Blocks that are read back -/

/-- The text has nothing to lose in a block: its first and its last line are not
blank, its other blank lines are empty, no line ends with a carriage return, and
some line begins with a character that is no blank. -/
structure KeptBlock (text : List Char) : Prop where
  first : ∀ piece ∈ (split '\n' text).head?, piece.all isBlank = false
  last : ∀ piece ∈ (split '\n' text).getLast?, piece.all isBlank = false
  blank : ∀ piece ∈ split '\n' text, piece.all isBlank = true → piece = []
  ending : ∀ piece ∈ split '\n' text, piece.getLast? ≠ some '\r'
  flush : ∃ piece ∈ split '\n' text, piece.head?.any (!isBlank ·) = true

instance : DecidablePred KeptBlock := fun _ =>
  decidable_of_iff' (_ ∧ _ ∧ _ ∧ _ ∧ _)
    ⟨fun h => ⟨h.first, h.last, h.blank, h.ending, h.flush⟩,
      fun ⟨first, last, blank, ending, flush⟩ => ⟨first, last, blank, ending, flush⟩⟩

theorem withoutBlankEnds_eq_self {ls : List (List Char)}
    (hfirst : ∀ line ∈ ls.head?, line.all isBlank = false)
    (hlast : ∀ line ∈ ls.getLast?, line.all isBlank = false) : withoutBlankEnds ls = ls := by
  let blank (line : List Char) : Bool := line.all isBlank
  have hbegin : ls.dropWhile blank = ls := by
    cases ls with
    | nil => rfl
    | cons line others =>
      have hline : line.all isBlank = false := hfirst line rfl
      rw [List.dropWhile_cons, if_neg]
      simpa [blank] using hline
  have hend : ls.rdropWhile blank = ls := by
    refine List.rdropWhile_eq_self_iff.2 fun hne => ?_
    have hline := hlast _ (List.getLast_mem_getLast? hne)
    simp [blank, hline]
  show (ls.dropWhile blank).rdropWhile blank = ls
  rw [hbegin, hend]

theorem first_withoutBlankEnds {ls : List (List Char)} {line : List Char}
    (h : line ∈ (withoutBlankEnds ls).head?) : line.all isBlank = false := by
  let blank (line : List Char) : Bool := line.all isBlank
  obtain ⟨others, hothers⟩ : ∃ others, (ls.dropWhile blank).rdropWhile blank = line :: others :=
    List.head?_eq_some_iff.1 h
  obtain ⟨more, hmore⟩ := List.rdropWhile_prefix blank (ls.dropWhile blank)
  rw [hothers] at hmore
  have hhead := List.head?_dropWhile_not blank ls
  rw [← hmore] at hhead
  exact hhead

theorem last_withoutBlankEnds {ls : List (List Char)} {line : List Char}
    (h : line ∈ (withoutBlankEnds ls).getLast?) : line.all isBlank = false := by
  let blank (line : List Char) : Bool := line.all isBlank
  have hlast : line ∈ ((ls.dropWhile blank).rdropWhile blank).getLast? := h
  obtain ⟨hne, hline⟩ := List.mem_getLast?_eq_getLast hlast
  have hnot := List.rdropWhile_last_not blank (ls.dropWhile blank) hne
  rw [← hline] at hnot
  simpa [blank] using hnot

theorem dropBytes_sublist (size : Nat) (line : List Char) : (dropBytes size line).Sublist line := by
  fun_induction dropBytes size line with
  | case1 => exact List.Sublist.refl _
  | case2 => exact List.Sublist.refl _
  | case3 _ _ _ _ ih => exact ih.cons _

theorem readBackLine_sublist (size : Nat) (line : List Char) :
    (readBackLine size line).Sublist line := by
  unfold readBackLine
  split
  · exact List.nil_sublist line
  · exact dropBytes_sublist size line

/-- Only a line without a carriage return at its end can be read back. -/
theorem eq_of_sublist_withoutReturn {line raw : List Char} {size : Nat}
    (hraw : raw.Sublist (withoutReturn line)) (h : readBackLine size raw = line) :
    line.getLast? ≠ some '\r' ∧ readBackLine size line = line := by
  have hlength : line.length ≤ raw.length := by
    rw [← h]
    exact (readBackLine_sublist size raw).length_le
  have hending : line.getLast? ≠ some '\r' := by
    intro hreturn
    have hshort := hraw.length_le
    rw [withoutReturn, if_pos hreturn, List.length_dropLast] at hshort
    have hnil : line = [] := List.length_eq_zero_iff.1 (by omega)
    rw [hnil] at hreturn
    cases hreturn
  rw [withoutReturn, if_neg hending] at hraw
  obtain rfl := hraw.eq_of_length_le hlength
  exact ⟨hending, h⟩

theorem not_isBlank_of_indent {c : Char} {line : List Char}
    (h : BlockString.indent (c :: line) = 0) : isBlank c = false := by
  cases hblank : isBlank c with
  | false => rfl
  | true =>
    rw [BlockString.indent, List.takeWhile_cons_of_pos hblank, ← List.singleton_append,
      String.ofList_append, String.utf8ByteSize_append] at h
    have hempty : String.ofList [c] = "" := String.utf8ByteSize_eq_zero_iff.1 (by omega)
    simp at hempty

/-- A text without carriage returns at the ends of its lines has its pieces as
lines. -/
theorem lines_of_kept {text last : List Char} {pieces : List (List Char)}
    (hsplit : split '\n' text = pieces ++ [last]) (hlast : last ≠ [])
    (hending : ∀ piece ∈ split '\n' text, piece.getLast? ≠ some '\r') :
    (lines text).map withoutReturn = split '\n' text := by
  have hreturn : ∀ piece ∈ split '\n' text, withoutReturn piece = piece := fun piece hpiece =>
    if_neg (hending piece hpiece)
  have hpieces : pieces.map withoutReturn = pieces :=
    (List.map_congr_left fun piece hpiece => hreturn piece (by simp [hsplit, hpiece])).trans
      (List.map_id' _)
  rw [lines_of_split hsplit, if_neg hlast, hpieces, ← hsplit]
  exact (List.map_congr_left hreturn).trans (List.map_id' _)

theorem KeptBlock.readBackBlock_eq {text : List Char} (h : KeptBlock text) :
    readBackBlock text = text := by
  obtain ⟨pieces, last, hsplit⟩ := split_eq_concat text
  have hlastne : last ≠ [] := by
    rintro rfl
    have hblank := h.last [] (by simp [hsplit])
    cases hblank
  have hlines := lines_of_kept hsplit hlastne h.ending
  have hmargin : margin (split '\n' text) = 0 := by
    obtain ⟨piece, hpiece, hflush⟩ := h.flush
    obtain ⟨c, hc, hshown⟩ := (Option.any_eq_true _ _).1 hflush
    obtain ⟨others, rfl⟩ := List.head?_eq_some_iff.1 hc
    replace hshown : isBlank c = false := by simpa using hshown
    have hzero : BlockString.indent (c :: others) = 0 := by
      rw [BlockString.indent, List.takeWhile_cons_of_neg (by simp [hshown])]
      rfl
    have hleast : (((split '\n' text).filter fun line => !line.all isBlank).map
        BlockString.indent).min? = some 0 := by
      refine List.min?_eq_some_iff.2 ⟨?_, fun other _ => Nat.zero_le other⟩
      rw [← hzero]
      exact List.mem_map_of_mem (List.mem_filter.2 ⟨hpiece, by simp [hshown]⟩)
    rw [margin, hleast]
    rfl
  have hback : (split '\n' text).map (readBackLine 0) = split '\n' text := by
    refine (List.map_congr_left fun piece hpiece => ?_).trans (List.map_id' _)
    unfold readBackLine
    split
    · exact (h.blank piece hpiece ‹_›).symm
    · exact dropBytes_zero piece
  simp only [readBackBlock, hlines, hmargin, hback]
  rw [withoutBlankEnds_eq_self h.first h.last, Text.intercalate_split]

/-- If the lines keep their shared indent, then there is none. -/
theorem exists_flush {ls : List (List Char)} {line : List Char} (hline : line ∈ ls)
    (hshown : line.all isBlank = false)
    (hkept : ∀ line ∈ ls, readBackLine (margin ls) line = line) :
    ∃ piece ∈ ls, piece.head?.any (!isBlank ·) = true := by
  have hmem : line ∈ ls.filter fun line => !line.all isBlank :=
    List.mem_filter.2 ⟨hline, by simp [hshown]⟩
  cases hmin : ((ls.filter fun line => !line.all isBlank).map BlockString.indent).min? with
  | none =>
    rw [List.map_eq_nil_iff.1 (List.min?_eq_none_iff.1 hmin)] at hmem
    cases hmem
  | some least =>
    obtain ⟨hin, -⟩ := List.min?_eq_some_iff.1 hmin
    obtain ⟨piece, hpiece, hindent⟩ := List.mem_map.1 hin
    obtain ⟨hpiece, hblank⟩ := List.mem_filter.1 hpiece
    have hback := hkept piece hpiece
    rw [margin, hmin, Option.getD_some, readBackLine, if_neg (by simpa using hblank)] at hback
    cases piece with
    | nil => cases hblank
    | cons c others =>
      have hzero : least = 0 := by
        apply Nat.eq_zero_of_not_pos
        intro hpos
        have hshort := (dropBytes_sublist (least - c.utf8Size) others).length_le
        rw [← dropBytes_cons hpos, hback, List.length_cons] at hshort
        omega
      have hflush := not_isBlank_of_indent (hindent.trans hzero)
      exact ⟨_, hpiece, by simp [hflush]⟩

theorem keptBlock_of_readBackBlock {text : List Char} (hfeed : '\n' ∈ text)
    (h : readBackBlock text = text) : KeptBlock text := by
  obtain ⟨pieces, last, hsplit⟩ := split_eq_concat text
  unfold readBackBlock at h
  simp only at h
  generalize hls : (lines text).map withoutReturn = ls at h
  generalize hback : withoutBlankEnds (ls.map (readBackLine (margin ls))) = back at h
  have hne : back ≠ [] := by
    rintro rfl
    rw [← h] at hfeed
    simp at hfeed
  have hsub : back.Sublist (ls.map (readBackLine (margin ls))) := by
    rw [← hback]
    exact withoutBlankEnds_sublist _
  -- the lines that are read back are the pieces of the text
  have hpieces : split '\n' text = back := by
    have hnofeed : ∀ line ∈ back, '\n' ∉ line := by
      intro line hline hin
      obtain ⟨raw, hraw, rfl⟩ := List.mem_map.1 (hsub.subset hline)
      obtain ⟨written, hwritten, rfl⟩ := List.mem_map.1 (hls ▸ hraw)
      exact not_mem_of_mem_lines hwritten
        ((withoutReturn_sublist written).subset ((readBackLine_sublist _ _).subset hin))
    rw [← h, Text.split_intercalate hne hnofeed]
  have hlength := hsub.length_le
  rw [← hpieces, hsplit, List.length_map, ← hls, List.length_map, lines_of_split hsplit] at hlength
  -- so no line was dropped
  have hlastne : last ≠ [] := by
    rintro rfl
    simp only [↓reduceIte, List.append_nil, List.length_map, List.length_append,
      List.length_singleton] at hlength
    omega
  have hlines : ls = (pieces.map withoutReturn ++ [last]).map withoutReturn := by
    rw [← hls, lines_of_split hsplit, if_neg hlastne]
  have hall : pieces ++ [last] = ls.map (readBackLine (margin ls)) := by
    rw [← hsplit, hpieces]
    refine hsub.eq_of_length_le ?_
    rw [← hpieces, hsplit, hlines]
    simp
  -- and none was changed
  have hkept : ∀ piece ∈ split '\n' text,
      piece.getLast? ≠ some '\r' ∧ readBackLine (margin ls) piece = piece := by
    generalize margin ls = size at hall
    rw [hlines, List.map_append, List.map_append, List.map_map, List.map_map] at hall
    obtain ⟨hfirst, hlast⟩ := List.append_inj' hall (by simp)
    intro piece hpiece
    rcases List.mem_append.1 (hsplit ▸ hpiece) with hin | hin
    · have hsame := List.map_inj_left.1 ((List.map_id' pieces).trans hfirst) piece hin
      exact eq_of_sublist_withoutReturn (withoutReturn_sublist _) hsame.symm
    · obtain rfl := List.mem_singleton.1 hin
      exact eq_of_sublist_withoutReturn (List.Sublist.refl _) (List.singleton_inj.1 hlast).symm
  have hfirst : ∀ piece ∈ (split '\n' text).head?, piece.all isBlank = false := by
    rw [hpieces, ← hback]
    exact fun piece => first_withoutBlankEnds
  have hlast : ∀ piece ∈ (split '\n' text).getLast?, piece.all isBlank = false := by
    rw [hpieces, ← hback]
    exact fun piece => last_withoutBlankEnds
  refine ⟨hfirst, hlast, fun piece hpiece hblank => ?_,
    fun piece hpiece => (hkept piece hpiece).1, ?_⟩
  · rw [← (hkept piece hpiece).2, readBackLine, if_pos hblank]
  · have hsame : ls = split '\n' text := by
      rw [← hls, lines_of_kept hsplit hlastne fun piece hpiece => (hkept piece hpiece).1]
    have hlastshown := hlast last (by simp [hsplit])
    rw [← hsame] at hkept ⊢
    exact exists_flush (by simp [hsame, hsplit]) hlastshown fun line hline => (hkept line hline).2

/-- A text with line feeds is read back from a block if it has nothing to lose. -/
theorem readBackBlock_iff {text : List Char} (hfeed : '\n' ∈ text) :
    readBackBlock text = text ↔ KeptBlock text :=
  ⟨keptBlock_of_readBackBlock hfeed, KeptBlock.readBackBlock_eq⟩

/-! ## Strings -/

/-- The text that is read back from a printed string. -/
def readBackText (text : List Char) : List Char :=
  if isBlock text then readBackBlock text else text.flatMap readBackChar

/-- The text has nothing to lose in print. -/
def KeptText (text : List Char) : Prop :=
  if isBlock text then KeptBlock text else ∀ c ∈ text, KeptChar c

instance : DecidablePred KeptText := fun text =>
  inferInstanceAs (Decidable (if isBlock text then KeptBlock text else ∀ c ∈ text, KeptChar c))

/-- A string is read back if it has nothing to lose in print. -/
theorem readBackText_iff (text : List Char) : readBackText text = text ↔ KeptText text := by
  unfold readBackText KeptText
  split
  · rename_i hblock
    refine readBackBlock_iff ?_
    simpa using (Bool.and_eq_true_iff.1 hblock).1
  · exact flatMap_readBackChar_iff text

theorem scan_block (indent : Nat) (text rest : List Char) :
    Token.scan ('"' :: '"' :: '"' :: (['\n'] ++ (lines text).flatMap (blockLine indent) ++
      List.replicate indent ' ' ++ '"' :: '"' :: '"' :: rest)) =
        some (.string (.ofList (readBackBlock text)), rest) := by
  rw [Token.scan, scanBlock_rawBlock]
  simp only [Option.bind_eq_bind, Option.bind_some, ofRaw_rawBlock]
  rfl

/-- A printed string is one token. -/
theorem lexes_string (indent : Nat) (text : String) :
    Lexes Boundary (Printer.string indent text)
      (some [.string (.ofList (readBackText text.toList))]) := by
  intro rest hrest
  have hquote : Lexemes.isIgnored '"' = false ∧ '"' ≠ '#' := by decide
  unfold Printer.string readBackText
  split
  · have htext : ("\"\"\"\n" ++ String.ofList ((lines text.toList).flatMap (blockLine indent)) ++
        Printer.blanks indent ++ "\"\"\"").toList ++ rest =
          '"' :: '"' :: '"' :: (['\n'] ++ (lines text.toList).flatMap (blockLine indent) ++
            List.replicate indent ' ' ++ '"' :: '"' :: '"' :: rest) := by
      simp [Printer.blanks]
    rw [htext, tokens?_token hquote.1 hquote.2 (scan_block indent text.toList rest)]
    cases tokens? rest <;> rfl
  · have htext : ("\"" ++ String.ofList (text.toList.flatMap quotedChar) ++ "\"").toList ++ rest =
        '"' :: (text.toList.flatMap quotedChar ++ '"' :: rest) := by
      simp
    rw [htext, tokens?_token hquote.1 hquote.2 (scan_quoted text.toList hrest)]
    cases tokens? rest <;> rfl

end OpManifest.GraphQL
