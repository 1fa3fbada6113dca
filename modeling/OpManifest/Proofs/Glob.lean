import OpManifest.Glob

/-!
# What a glob selects

A glob selects a path if the bytes of the path are in the language of the
expression that the pattern stands for (`selects_iff`).  A pattern without
stars, question marks, brackets, braces and backslashes stands for itself: it
selects its own spelling and nothing else (`ofPattern_literal`).
-/

namespace OpManifest.Glob

/-! ## Bytes of a text -/

theorem toList_loop_eq_drop (bytes : ByteArray) (i : Nat) (front : List UInt8) :
    ByteArray.toList.loop bytes i front = front.reverse ++ bytes.data.toList.drop i := by
  have hsize : bytes.data.toList.length = bytes.size := rfl
  fun_induction ByteArray.toList.loop bytes i front with
  | case1 i front hi ih =>
    have hdrop : bytes.data.toList.drop i = bytes.get! i :: bytes.data.toList.drop (i + 1) := by
      rw [List.drop_eq_getElem_cons (hsize ▸ hi)]
      exact congrArg (· :: _) (getElem!_pos bytes.data i hi).symm
    rw [ih, hdrop, List.reverse_cons, List.append_assoc, List.singleton_append]
  | case2 i front hi =>
    rw [List.drop_eq_nil_of_le (by omega), List.append_nil]

theorem byteArray_toList (bytes : ByteArray) : bytes.toList = bytes.data.toList :=
  toList_loop_eq_drop bytes 0 []

/-- The bytes of a text are those of its characters, one after the other. -/
theorem toUTF8_toList (text : String) :
    text.toUTF8.toList = text.toList.flatMap bytesOf := by
  rw [byteArray_toList, String.toUTF8_eq_toByteArray, ← String.utf8Encode_toList, List.utf8Encode,
    List.toList_data_toByteArray]
  rfl

theorem toUTF8_toList_inj {one two : String} :
    one.toUTF8.toList = two.toUTF8.toList ↔ one = two := by
  constructor
  · intro h
    rw [byteArray_toList, byteArray_toList] at h
    exact String.toByteArray_inj.1 (ByteArray.ext (Array.toList_inj.1 h))
  · rintro rfl
    rfl

/-- A glob selects what is in the language of its expression. -/
theorem selects_iff (glob : Glob) (path : String) :
    glob.selects path = true ↔ Regular.Language glob.expression path.toUTF8.toList :=
  Regular.accepts_iff

/-! ## Languages -/

namespace Regular

theorem language_empty {text : List UInt8} : Language .empty text ↔ text = [] := by
  constructor
  · rintro ⟨⟩
    rfl
  · rintro rfl
    exact .empty

theorem language_byte {set : ByteSet} {text : List UInt8} :
    Language (.byte set) text ↔ ∃ b, text = [b] ∧ set.contains b = true := by
  constructor
  · intro h
    cases h with
    | byte hset => exact ⟨_, rfl, hset⟩
  · rintro ⟨b, rfl, hset⟩
    exact .byte hset

theorem language_append {r s : Regular} {text : List UInt8} :
    Language (.append r s) text ↔ ∃ u v, text = u ++ v ∧ Language r u ∧ Language s v := by
  constructor
  · intro h
    cases h with
    | append hr hs => exact ⟨_, _, rfl, hr, hs⟩
  · rintro ⟨u, v, rfl, hr, hs⟩
    exact .append hr hs

theorem language_either {r s : Regular} {text : List UInt8} :
    Language (.either r s) text ↔ Language r text ∨ Language s text := by
  constructor
  · intro h
    cases h with
    | left h => exact .inl h
    | right h => exact .inr h
  · rintro (h | h)
    · exact .left h
    · exact .right h

theorem language_star_byte {set : ByteSet} {text : List UInt8} :
    Language (.star (.byte set)) text ↔ ∀ b ∈ text, set.contains b = true := by
  constructor
  · intro h
    generalize hr : Regular.star (.byte set) = r at h
    induction h with
    | empty | byte _ | append _ _ | left _ | right _ => cases hr
    | done => simp
    | more hb _ _ ih =>
      cases hr
      obtain ⟨b, rfl, hset⟩ := language_byte.1 hb
      simpa [hset] using ih rfl
  · intro h
    induction text with
    | nil => exact .done
    | cons b text ih =>
      have hb := language_byte.2 ⟨b, rfl, h b (by simp)⟩
      exact .more hb (ih fun d hd => h d (by simp [hd]))

end Regular

theorem contains_single {a b : UInt8} : (ByteSet.single a).contains b = true ↔ b = a := by
  simp only [ByteSet.single, ByteSet.contains, List.any_cons, List.any_nil, Bool.or_false,
    bne_iff_ne, ne_eq, Bool.not_eq_false, Bool.and_eq_true, decide_eq_true_eq]
  constructor
  · rintro ⟨h, h'⟩
    exact UInt8.le_antisymm h' h
  · rintro rfl
    exact ⟨UInt8.le_refl b, UInt8.le_refl b⟩

theorem contains_all (b : UInt8) : ByteSet.all.contains b = true := rfl

theorem contains_allBut {a b : UInt8} : (ByteSet.allBut a).contains b = true ↔ b ≠ a := by
  have hsame : (ByteSet.allBut a).contains b = !(ByteSet.single a).contains b := by
    simp [ByteSet.allBut, ByteSet.single, ByteSet.contains]
  rw [hsame, Bool.not_eq_true', ← Bool.not_eq_true, contains_single]

theorem language_exactly {bytes text : List UInt8} :
    Regular.Language (exactly bytes) text ↔ text = bytes := by
  induction bytes generalizing text with
  | nil => exact Regular.language_empty
  | cons b bytes ih =>
    have hcons : exactly (b :: bytes) = .append (.byte (.single b)) (exactly bytes) := rfl
    rw [hcons, Regular.language_append]
    constructor
    · rintro ⟨u, v, rfl, hu, hv⟩
      obtain ⟨c, rfl, hc⟩ := Regular.language_byte.1 hu
      rw [contains_single.1 hc, ih.1 hv]
      rfl
    · rintro rfl
      exact ⟨[b], bytes, rfl, Regular.language_byte.2 ⟨b, rfl, contains_single.2 rfl⟩, ih.2 rfl⟩

/-! ## Literal patterns -/

/-- The character stands for itself wherever it is in a pattern, except in a
class. -/
def isLiteral (c : Char) : Bool := c ∉ ['?', '*', '[', ']', '\\', '{', '}', ',']

theorem language_literals (chars : List Char) {text : List UInt8} :
    Regular.Language ((piecesRegular? (chars.map .literal)).getD .empty) text ↔
      text = chars.flatMap bytesOf := by
  induction chars generalizing text with
  | nil => exact Regular.language_empty
  | cons c chars ih =>
    cases hrest : piecesRegular? (chars.map Piece.literal) with
    | none =>
      rw [hrest] at ih
      have hnil : chars.flatMap bytesOf = [] := (ih.1 .empty).symm
      simp [piecesRegular?, Piece.regular?, hrest, hnil, language_exactly]
    | some rest =>
      rw [hrest] at ih
      simp only [List.map_cons, piecesRegular?, Piece.regular?, hrest, Option.getD_some,
        Regular.language_append, language_exactly, List.flatMap_cons] at ih ⊢
      constructor
      · rintro ⟨u, v, rfl, rfl, hv⟩
        rw [ih.1 hv]
      · rintro rfl
        exact ⟨_, _, rfl, rfl, ih.2 rfl⟩

theorem foldlM_read_literal {chars : List Char} (h : ∀ c ∈ chars, isLiteral c = true)
    (previous : Option Char) (pieces : List Piece) :
    ∃ last, chars.foldlM Progress.read ⟨.plain, previous, pieces, []⟩ =
      Except.ok ⟨.plain, last, (chars.map .literal).reverse ++ pieces, []⟩ := by
  induction chars generalizing previous pieces with
  | nil => exact ⟨previous, rfl⟩
  | cons c chars ih =>
    have hread : Progress.read ⟨.plain, previous, pieces, []⟩ c =
        .ok ⟨.plain, some c, .literal c :: pieces, []⟩ := by
      have hc := h c (by simp)
      simp only [isLiteral, List.mem_cons, List.not_mem_nil, or_false, not_or,
        decide_eq_true_eq] at hc
      have hplain : Progress.readPlain ⟨.plain, previous, pieces, []⟩ c =
          .ok ⟨.plain, previous, .literal c :: pieces, []⟩ := by
        unfold Progress.readPlain
        split <;> simp_all [Progress.push]
      simp only [Progress.read, hplain]
      rfl
    obtain ⟨last, hlast⟩ := ih (fun d hd => h d (by simp [hd])) (some c) (.literal c :: pieces)
    refine ⟨last, ?_⟩
    rw [List.foldlM_cons, hread, List.map_cons, List.reverse_cons, List.append_assoc,
      List.singleton_append]
    exact hlast

/-- A pattern of literal characters selects its own spelling and no other
path. -/
theorem ofPattern_literal {pattern : String} (h : pattern.toList.all isLiteral = true) :
    ∃ glob, ofPattern pattern = .ok glob ∧ ∀ path, glob.selects path = true ↔ path = pattern := by
  obtain ⟨last, hlast⟩ := foldlM_read_literal (List.all_eq_true.1 h) none []
  have hpieces : piecesOf pattern = .ok (pattern.toList.map .literal) := by
    unfold piecesOf
    rw [Progress.start, hlast]
    simp [Progress.finish, bind, Except.bind, pure, Except.pure]
  refine ⟨⟨pattern, regularOf (pattern.toList.map .literal)⟩, ?_, fun path => ?_⟩
  · rw [ofPattern, hpieces]
  · have hregular : regularOf (pattern.toList.map .literal) =
        (piecesRegular? (pattern.toList.map .literal)).getD .empty := by
      unfold regularOf
      split
      · rename_i heq
        cases hlist : pattern.toList <;> simp [hlist] at heq
      · rfl
    rw [selects_iff, hregular, language_literals, ← toUTF8_toList, toUTF8_toList_inj]

end OpManifest.Glob
