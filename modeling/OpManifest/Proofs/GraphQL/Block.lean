import Mathlib.Data.List.DropRight
import OpManifest.GraphQL.Printer
import OpManifest.Proofs.GraphQL.Lexing
import OpManifest.Proofs.Split

/-!
# Printed block strings

Which string a printed block is cut into.  The indent of the line it is printed
on does not matter, but blanks do: the lines lose a carriage return at their
ends and the indent that they share, and blank lines are emptied, or dropped at
both ends of the text (`ofRaw_rawBlock`).
-/

namespace OpManifest.GraphQL

open Text (isBlank lines split)
open Printer (blockLine deeper escapeTriple)
open BlockString (dropBytes unindent withoutBlankEnds)

/-! ## The characters of a block -/

/-- A character is read as itself if it neither begins three quotes nor escapes
them. -/
theorem scanBlock_cons {c : Char} {rest : List Char}
    (hquotes : ∀ tail, c :: rest ≠ '"' :: '"' :: '"' :: tail)
    (hescape : c = '\\' → ∀ tail, rest ≠ '"' :: '"' :: '"' :: tail) :
    Token.scanBlock (c :: rest) =
      (Token.scanBlock rest).map fun found => (c :: found.1, found.2) := by
  rw [Token.scanBlock.eq_def]
  split
  · rename_i heq
    obtain ⟨hc, htail⟩ := List.cons.inj heq
    exact absurd htail (hescape hc _)
  · rename_i heq
    exact absurd heq (hquotes _)
  · rename_i heq
    obtain ⟨rfl, rfl⟩ := List.cons.inj heq
    cases Token.scanBlock rest <;> rfl
  · simp_all

theorem scanBlock_blanks {cs : List Char} (hcs : ∀ c ∈ cs, isBlank c = true) (rest : List Char) :
    Token.scanBlock (cs ++ rest) =
      (Token.scanBlock rest).map fun found => (cs ++ found.1, found.2) := by
  induction cs with
  | nil => simp
  | cons c cs ih =>
    have hblank := hcs c List.mem_cons_self
    have hother (d : Char) (hd : isBlank d = false) : c ≠ d := by
      rintro rfl
      rw [hblank] at hd
      cases hd
    have hquotes (tail : List Char) : c :: (cs ++ rest) ≠ '"' :: '"' :: '"' :: tail := fun h =>
      hother '"' (by decide) (List.cons.inj h).1
    rw [List.cons_append, scanBlock_cons hquotes fun h => absurd h (hother '\\' (by decide)),
      ih fun d hd => hcs d (List.mem_cons_of_mem c hd)]
    cases Token.scanBlock rest <;> rfl

/-- An escaped line begins with a quote only if the line does. -/
theorem exists_of_escapeTriple {line rest tail : List Char} (hrest : rest.head? ≠ some '"')
    (h : escapeTriple line ++ rest = '"' :: tail) :
    ∃ others, line = '"' :: others ∧ tail = escapeTriple others ++ rest := by
  unfold escapeTriple at h
  split at h
  · cases h
  · rename_i c others _
    rw [List.cons_append] at h
    obtain ⟨rfl, rfl⟩ := List.cons.inj h
    exact ⟨others, rfl, rfl⟩
  · rw [List.nil_append] at h
    simp [h] at hrest

/-- An escaped line never begins with three quotes. -/
theorem escapeTriple_ne {line rest : List Char} (hrest : rest.head? ≠ some '"')
    (tail : List Char) : escapeTriple line ++ rest ≠ '"' :: '"' :: '"' :: tail := by
  intro h
  obtain ⟨second, rfl, hsecond⟩ := exists_of_escapeTriple hrest h
  obtain ⟨third, rfl, hthird⟩ := exists_of_escapeTriple hrest hsecond.symm
  obtain ⟨others, rfl, -⟩ := exists_of_escapeTriple hrest hthird.symm
  rw [escapeTriple, List.cons_append] at h
  exact absurd (List.cons.inj h).1 (by decide)

/-- An escaped line is read as the line. -/
theorem scanBlock_escapeTriple (line : List Char) {rest : List Char}
    (hrest : rest.head? ≠ some '"') :
    Token.scanBlock (escapeTriple line ++ rest) =
      (Token.scanBlock rest).map fun found => (line ++ found.1, found.2) := by
  fun_induction escapeTriple line with
  | case1 others ih =>
    show Token.scanBlock ('\\' :: '"' :: '"' :: '"' :: (escapeTriple others ++ rest)) = _
    rw [Token.scanBlock, ih]
    cases Token.scanBlock rest <;> rfl
  | case2 c others hnot ih =>
    have hquotes (tail : List Char) :
        c :: (escapeTriple others ++ rest) ≠ '"' :: '"' :: '"' :: tail := by
      intro h
      obtain ⟨hc, hothers⟩ := List.cons.inj h
      obtain ⟨second, rfl, hsecond⟩ := exists_of_escapeTriple hrest hothers
      obtain ⟨third, rfl, -⟩ := exists_of_escapeTriple hrest hsecond.symm
      exact hnot third hc rfl
    rw [List.cons_append, scanBlock_cons hquotes fun _ => escapeTriple_ne hrest, ih]
    cases Token.scanBlock rest <;> rfl
  | case3 => simp

/-! ## The raw content of a block -/

/-- A line of a block without its line feed. -/
def rawLine (indent : Nat) (line : List Char) : List Char :=
  if line.all isBlank then [] else List.replicate (deeper indent) ' ' ++ line

/-- What stands between the quotes of a printed block. -/
def rawBlock (indent : Nat) (text : List Char) : List Char :=
  ['\n'] ++ (lines text).flatMap (fun line => rawLine indent line ++ ['\n']) ++
    List.replicate indent ' '

theorem isBlank_of_mem_replicate {n : Nat} {c : Char} (h : c ∈ List.replicate n ' ') :
    isBlank c = true := by
  rw [(List.mem_replicate.1 h).2]
  decide

theorem scanBlock_blockLine (indent : Nat) (line rest : List Char) :
    Token.scanBlock (blockLine indent line ++ rest) =
      (Token.scanBlock rest).map fun found =>
        (rawLine indent line ++ ['\n'] ++ found.1, found.2) := by
  have hfeed (rest : List Char) : Token.scanBlock (['\n'] ++ rest) =
      (Token.scanBlock rest).map fun found => (['\n'] ++ found.1, found.2) :=
    scanBlock_blanks (List.all_eq_true.1 (by decide)) rest
  unfold blockLine rawLine
  split
  · exact hfeed rest
  · rw [List.append_assoc, List.append_assoc, scanBlock_blanks fun c => isBlank_of_mem_replicate,
      scanBlock_escapeTriple line (by simp), hfeed]
    cases Token.scanBlock rest <;> simp

theorem scanBlock_rawBlock (indent : Nat) (text rest : List Char) :
    Token.scanBlock (['\n'] ++ (lines text).flatMap (blockLine indent) ++
      List.replicate indent ' ' ++ '"' :: '"' :: '"' :: rest) =
        some (rawBlock indent text, rest) := by
  have hend : Token.scanBlock (List.replicate indent ' ' ++ '"' :: '"' :: '"' :: rest) =
      some (List.replicate indent ' ', rest) := by
    rw [scanBlock_blanks fun c => isBlank_of_mem_replicate, Token.scanBlock]
    simp
  have hlines (ls : List (List Char)) :
      Token.scanBlock (ls.flatMap (blockLine indent) ++
        (List.replicate indent ' ' ++ '"' :: '"' :: '"' :: rest)) =
        some (ls.flatMap (fun line => rawLine indent line ++ ['\n']) ++ List.replicate indent ' ',
          rest) := by
    induction ls with
    | nil => exact hend
    | cons line ls ih =>
      rw [List.flatMap_cons, List.append_assoc, scanBlock_blockLine, ih]
      simp
  rw [List.append_assoc, List.append_assoc, scanBlock_blanks (List.all_eq_true.1 (by decide)),
    hlines, rawBlock]
  simp

/-! ## Lines -/

/-- The line without a carriage return at its end. -/
def withoutReturn (line : List Char) : List Char :=
  if line.getLast? = some '\r' then line.dropLast else line

theorem lines_of_split {text last : List Char} {pieces : List (List Char)}
    (h : split '\n' text = pieces ++ [last]) :
    lines text = pieces.map withoutReturn ++ if last = [] then [] else [last] := by
  unfold lines
  simp only [h, List.dropLast_concat, List.getLast?_concat]
  cases last with
  | nil =>
    rw [if_pos rfl, List.append_nil]
    rfl
  | cons c cs =>
    rw [if_neg (by simp)]
    rfl

theorem split_eq_concat (text : List Char) : ∃ pieces last, split '\n' text = pieces ++ [last] := by
  have hne : split '\n' text ≠ [] := by
    rw [Text.split_eq_splitOn]
    exact List.splitOn_ne_nil _ _
  exact ⟨_, _, (List.dropLast_append_getLast hne).symm⟩

theorem withoutReturn_sublist (line : List Char) : (withoutReturn line).Sublist line := by
  unfold withoutReturn
  split
  · exact List.dropLast_sublist line
  · exact List.Sublist.refl line

/-- No line holds a line feed. -/
theorem not_mem_of_mem_lines {text line : List Char} (h : line ∈ lines text) : '\n' ∉ line := by
  obtain ⟨pieces, last, hsplit⟩ := split_eq_concat text
  have hpieces (piece : List Char) (hin : piece ∈ pieces ++ [last]) : '\n' ∉ piece :=
    Text.not_mem_of_mem_split (hsplit ▸ hin)
  rw [lines_of_split hsplit] at h
  rcases List.mem_append.1 h with hended | hunended
  · obtain ⟨piece, hin, rfl⟩ := List.mem_map.1 hended
    exact fun hfeed => hpieces piece (by simp [hin]) ((withoutReturn_sublist piece).subset hfeed)
  · split at hunended
    · cases hunended
    · rw [List.mem_singleton.1 hunended]
      exact hpieces last (by simp)

/-- A carriage return is a blank itself, so it does not matter to whether its
line is blank. -/
@[simp]
theorem all_withoutReturn (line : List Char) :
    (withoutReturn line).all isBlank = line.all isBlank := by
  unfold withoutReturn
  split
  · rename_i hlast
    obtain ⟨others, rfl⟩ := List.getLast?_eq_some_iff.1 hlast
    have hreturn : isBlank '\r' = true := by decide
    simp [hreturn]
  · rfl

theorem withoutReturn_rawLine (indent : Nat) (line : List Char) :
    withoutReturn (rawLine indent line) = rawLine indent (withoutReturn line) := by
  unfold rawLine
  rw [all_withoutReturn]
  split
  · rfl
  · rename_i hblank
    have hne : line ≠ [] := by
      rintro rfl
      exact hblank rfl
    have hlast : (List.replicate (deeper indent) ' ' ++ line).getLast? = line.getLast? := by
      rw [List.getLast?_append]
      cases hcase : line.getLast? with
      | none => exact absurd (List.getLast?_eq_none_iff.1 hcase) hne
      | some c => rfl
    unfold withoutReturn
    rw [hlast, List.dropLast_append_of_ne_nil hne]
    split <;> rfl

/-! ## The margin -/

/-- The indent that the lines share, but for blank ones. -/
def margin (ls : List (List Char)) : Nat :=
  ((ls.filter fun line => !line.all isBlank).map BlockString.indent).min?.getD 0

theorem utf8ByteSize_replicate (n : Nat) (line : List Char) :
    (String.ofList (List.replicate n ' ' ++ line)).utf8ByteSize =
      n + (String.ofList line).utf8ByteSize := by
  have hblank : (String.ofList [' ']).utf8ByteSize = 1 := by decide
  induction n with
  | zero => simp
  | succ n ih =>
    rw [List.replicate_succ, List.cons_append, ← List.singleton_append, String.ofList_append,
      String.utf8ByteSize_append, ih, hblank]
    omega

theorem indent_replicate (n : Nat) (line : List Char) :
    BlockString.indent (List.replicate n ' ' ++ line) = n + BlockString.indent line := by
  unfold BlockString.indent
  rw [List.takeWhile_append_of_pos fun c => isBlank_of_mem_replicate, utf8ByteSize_replicate]

theorem indent_le (line : List Char) :
    BlockString.indent line ≤ (String.ofList line).utf8ByteSize := by
  have hsplit : line.takeWhile isBlank ++ line.dropWhile isBlank = line :=
    List.takeWhile_append_dropWhile
  rw [BlockString.indent, ← congrArg (fun l => (String.ofList l).utf8ByteSize) hsplit,
    String.ofList_append, String.utf8ByteSize_append]
  exact Nat.le_add_right _ _

theorem dropBytes_zero (line : List Char) : dropBytes 0 line = line := by
  rw [dropBytes]

theorem dropBytes_cons {size : Nat} (hsize : 0 < size) (c : Char) (line : List Char) :
    dropBytes size (c :: line) = dropBytes (size - c.utf8Size) line := by
  cases size with
  | zero => cases hsize
  | succ size => rw [dropBytes]; exact Nat.succ_ne_zero size

theorem dropBytes_replicate (n size : Nat) (line : List Char) :
    dropBytes (n + size) (List.replicate n ' ' ++ line) = dropBytes size line := by
  have hblank : ' '.utf8Size = 1 := by decide
  induction n with
  | zero => simp
  | succ n ih =>
    have hsize : n + 1 + size - ' '.utf8Size = n + size := by omega
    rw [List.replicate_succ, List.cons_append, dropBytes_cons (by omega), hsize, ih]

/-! ## Blank ends -/

theorem withoutBlankEnds_cons {line : List Char} (h : line.all isBlank = true)
    (ls : List (List Char)) : withoutBlankEnds (line :: ls) = withoutBlankEnds ls := by
  have hdrop : (line :: ls).dropWhile (·.all isBlank) = ls.dropWhile (·.all isBlank) := by
    rw [List.dropWhile_cons, if_pos h]
  rw [withoutBlankEnds, hdrop, ← withoutBlankEnds]

theorem withoutBlankEnds_concat {line : List Char} (h : line.all isBlank = true)
    (ls : List (List Char)) : withoutBlankEnds (ls ++ [line]) = withoutBlankEnds ls := by
  show ((ls ++ [line]).dropWhile (·.all isBlank)).rdropWhile (·.all isBlank) =
    (ls.dropWhile (·.all isBlank)).rdropWhile (·.all isBlank)
  rw [List.dropWhile_append]
  split
  · rename_i hnone
    rw [List.isEmpty_iff.1 hnone, List.dropWhile_cons, if_pos h, List.dropWhile_nil]
  · exact List.rdropWhile_concat_pos _ _ _ h

theorem withoutBlankEnds_eq_nil {ls : List (List Char)} (h : ∀ line ∈ ls, line.all isBlank = true) :
    withoutBlankEnds ls = [] := by
  rw [withoutBlankEnds, List.dropWhile_eq_nil_iff.2 h]
  rfl

theorem withoutBlankEnds_sublist (ls : List (List Char)) : (withoutBlankEnds ls).Sublist ls := by
  let blank (line : List Char) : Bool := line.all isBlank
  have hend : ((ls.dropWhile blank).rdropWhile blank).Sublist (ls.dropWhile blank) :=
    (List.rdropWhile_prefix blank _).sublist
  exact hend.trans (List.dropWhile_sublist blank)

/-! ## What a block is read back as -/

/-- A line as it is read back below a margin. -/
def readBackLine (size : Nat) (line : List Char) : List Char :=
  if line.all isBlank then [] else dropBytes size line

/-- The text that is read back from a block. -/
def readBackBlock (text : List Char) : List Char :=
  let ls := (lines text).map withoutReturn
  ['\n'].intercalate (withoutBlankEnds (ls.map (readBackLine (margin ls))))

@[simp]
theorem all_rawLine (indent : Nat) (line : List Char) :
    (rawLine indent line).all isBlank = line.all isBlank := by
  unfold rawLine
  split
  · rename_i hblank
    rw [hblank]
    rfl
  · have hindent : (List.replicate (deeper indent) ' ').all isBlank = true :=
      List.all_eq_true.2 fun c => isBlank_of_mem_replicate
    rw [List.all_append, hindent, Bool.true_and]

theorem indent_rawLine {indent : Nat} {line : List Char} (h : line.all isBlank = false) :
    BlockString.indent (rawLine indent line) = deeper indent + BlockString.indent line := by
  rw [rawLine, if_neg (by simp [h]), indent_replicate]

/-- The indent of the printed lines is not read back. -/
theorem unindent_rawLine {indent size : Nat} {line : List Char}
    (hsize : line.all isBlank = false → size ≤ BlockString.indent line) :
    unindent (deeper indent + size) (rawLine indent line) = readBackLine size line := by
  unfold unindent rawLine readBackLine
  split
  · have hshort : (String.ofList []).utf8ByteSize < deeper indent + size := by
      show 0 < indent + 2 + size
      omega
    rw [if_pos hshort]
  · rename_i hblank
    have hle := hsize (by simpa using hblank)
    have hbytes := indent_le line
    rw [utf8ByteSize_replicate, if_neg (by omega), dropBytes_replicate]

theorem split_rawBlock (indent : Nat) (text : List Char) :
    split '\n' (rawBlock indent text) =
      ([] :: (lines text).map (rawLine indent)) ++ [List.replicate indent ' '] := by
  have hraw : rawBlock indent text = ['\n'].intercalate
      (([] :: (lines text).map (rawLine indent)) ++ [List.replicate indent ' ']) := by
    rw [Text.intercalate_append _ (by simp), List.intercalate_singleton, rawBlock,
      List.flatMap_cons, List.flatMap_map]
    rfl
  rw [hraw, Text.split_intercalate (by simp)]
  intro piece hpiece
  have hblank (n : Nat) : '\n' ∉ List.replicate n ' ' := fun h =>
    absurd (List.mem_replicate.1 h).2 (by decide)
  rcases List.mem_append.1 hpiece with hline | hend
  · rcases List.mem_cons.1 hline with rfl | hline
    · simp
    · obtain ⟨line, hin, rfl⟩ := List.mem_map.1 hline
      unfold rawLine
      split
      · simp
      · exact List.not_mem_append (hblank _) (not_mem_of_mem_lines hin)
  · rw [List.mem_singleton.1 hend]
    exact hblank indent

/-- The lines that are not blank share the indent they are printed with. -/
theorem min?_indent_rawLine (indent : Nat) (ls : List (List Char)) :
    (((ls.map (rawLine indent)).filter fun line => !line.all isBlank).map BlockString.indent).min? =
      (((ls.filter fun line => !line.all isBlank).map BlockString.indent).min?).map
        (deeper indent + ·) := by
  have hindents : ((ls.map (rawLine indent)).filter fun line => !line.all isBlank).map
      BlockString.indent =
        ((ls.filter fun line => !line.all isBlank).map BlockString.indent).map
          (deeper indent + ·) := by
    rw [List.filter_map, List.map_map, List.map_map]
    simp only [Function.comp_def, all_rawLine]
    refine List.map_congr_left fun line hline => indent_rawLine ?_
    simpa using (List.mem_filter.1 hline).2
  rw [hindents]
  generalize (ls.filter fun line => !line.all isBlank).map BlockString.indent = indents
  cases hmin : indents.min? with
  | none => simp [List.min?_eq_none_iff.1 hmin]
  | some least =>
    obtain ⟨hmem, hle⟩ := List.min?_eq_some_iff.1 hmin
    refine List.min?_eq_some_iff.2 ⟨List.mem_map_of_mem hmem, fun other hother => ?_⟩
    obtain ⟨indent', hin, rfl⟩ := List.mem_map.1 hother
    exact Nat.add_le_add_left (hle indent' hin) _

/-- What is read from the raw content of a printed block. -/
theorem ofRaw_rawBlock (indent : Nat) (text : List Char) :
    BlockString.ofRaw (rawBlock indent text) = readBackBlock text := by
  generalize hls : (lines text).map withoutReturn = ls
  -- the closing quotes may have blanks before them, which are a line of their own
  obtain ⟨tail, htail, hlines⟩ : ∃ tail : List (List Char),
      (tail = [] ∨ 0 < indent ∧ tail = [List.replicate indent ' ']) ∧
      lines (rawBlock indent text) = [] :: (ls.map (rawLine indent) ++ tail) := by
    refine ⟨if List.replicate indent ' ' = [] then [] else [List.replicate indent ' '], ?_, ?_⟩
    · split
      · exact .inl rfl
      · exact .inr ⟨by simp_all; omega, rfl⟩
    · rw [lines_of_split (split_rawBlock indent text), List.map_cons, List.cons_append, ← hls]
      simp only [List.map_map, Function.comp_def, withoutReturn_rawLine]
      rfl
  have htailblank : ∀ line ∈ tail, line.all isBlank = true := by
    rcases htail with rfl | ⟨-, rfl⟩
    · simp
    · intro line hline
      rw [List.mem_singleton.1 hline]
      exact List.all_eq_true.2 fun c => isBlank_of_mem_replicate
  have hfilter : ((ls.map (rawLine indent) ++ tail).filter fun line => !line.all isBlank) =
      (ls.map (rawLine indent)).filter fun line => !line.all isBlank := by
    have hnone : tail.filter (fun line => !line.all isBlank) = [] := by
      simpa using htailblank
    rw [List.filter_append, hnone, List.append_nil]
  have hends (g : List Char → List Char) (ls' : List (List Char)) (hg : tail.map g = tail) :
      withoutBlankEnds ([] :: (ls' ++ tail.map g)) = withoutBlankEnds ls' := by
    rw [withoutBlankEnds_cons rfl, hg]
    rcases htail with rfl | ⟨-, rfl⟩
    · rw [List.append_nil]
    · exact withoutBlankEnds_concat (htailblank _ (by simp)) ls'
  unfold BlockString.ofRaw readBackBlock
  simp only [hlines, hls, hfilter, min?_indent_rawLine, margin]
  congr 1
  cases hmin : ((ls.filter fun line => !line.all isBlank).map BlockString.indent).min? with
  | none =>
    have hblank : ∀ line ∈ ls, line.all isBlank = true := by
      have hnil := List.map_eq_nil_iff.1 (List.min?_eq_none_iff.1 hmin)
      simpa using List.filter_eq_nil_iff.1 hnil
    rw [withoutBlankEnds_eq_nil, withoutBlankEnds_eq_nil]
    · intro line hline
      obtain ⟨raw, hin, rfl⟩ := List.mem_map.1 hline
      rw [readBackLine, if_pos (hblank raw hin)]
      rfl
    · intro line hline
      rcases List.mem_cons.1 hline with rfl | hline
      · rfl
      · rcases List.mem_append.1 hline with hin | hin
        · obtain ⟨raw, hraw, rfl⟩ := List.mem_map.1 hin
          rw [all_rawLine]
          exact hblank raw hraw
        · exact htailblank line hin
  | some least =>
    obtain ⟨-, hleast⟩ := List.min?_eq_some_iff.1 hmin
    have htailkept : tail.map (unindent (deeper indent + least)) = tail := by
      rcases htail with rfl | ⟨-, rfl⟩
      · rfl
      · have hbytes := utf8ByteSize_replicate indent []
        rw [List.append_nil] at hbytes
        rw [List.map_singleton, unindent, hbytes, if_pos]
        show indent + 0 < indent + 2 + least
        omega
    have hmap : (ls.map (rawLine indent)).map (unindent (deeper indent + least)) =
        ls.map (readBackLine least) := by
      rw [List.map_map]
      refine List.map_congr_left fun line hline => unindent_rawLine fun hblank => ?_
      exact hleast _ (List.mem_map_of_mem (List.mem_filter.2 ⟨hline, by simp [hblank]⟩))
    simp only [Option.map_some, List.map_append, hmap, Option.getD_some]
    exact hends _ _ htailkept

end OpManifest.GraphQL
