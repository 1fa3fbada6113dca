import OpManifest.Project.Config
import OpManifest.Proofs.FileName
import OpManifest.Proofs.Glob
import OpManifest.Proofs.Spelling
import OpManifest.Script.Language

/-!
# The files that are sources by default

The default pattern and the languages of scripts are two lists of extensions that have
to agree.  A glob looks at the bytes of a spelling and a language at the last component
of a path, so the two are compared in three steps.

* In the bytes of a text an ASCII character is found only where it stands in the text
  (`exists_cut`), so a text begins and ends with the characters that its bytes begin
  and end with.
* The default pattern asks for bytes at the two ends only, and lets everything else
  pass between them (`language_default`, `exists_defaultGlob`).
* A text with these ends spells a path below the directory of sources whose file name
  has the extension (`IsNormal.of_toList`, `IsNormal.exists_toList`).

`default_selects_iff` is the result.  It is about spellings that end with the file
name: a slash behind it is no component, but the glob sees it
(`not_default_selects_before_slash`).
-/

namespace OpManifest

namespace Glob

/-! ## ASCII characters in bytes -/

theorem bytesOf_of_ascii {c : Char} (h : c.toNat < 128) : bytesOf c = [.ofNat c.toNat] := by
  have hcode : c.val.toNat ≤ 127 := Nat.le_of_lt_succ h
  unfold bytesOf String.utf8EncodeChar
  exact if_pos hcode

/-- All bytes of a character beyond ASCII are beyond ASCII. -/
theorem toNat_eq_of_mem_bytesOf {d : Char} {b : UInt8} (h : b ∈ bytesOf d) (hb : b.toNat < 128) :
    b.toNat = d.toNat := by
  have hcode : d.val.toNat = d.toNat := rfl
  have hbyte (n : Nat) : (UInt8.ofNat n).toNat = n % 256 := UInt8.toNat_ofNat'
  unfold bytesOf String.utf8EncodeChar at h
  rw [hcode] at h
  generalize d.toNat = code at h
  dsimp only at h
  split_ifs at h
  all_goals
    simp only [List.mem_cons, List.not_mem_nil, or_false] at h
  · subst h
    rw [hbyte]
    omega
  all_goals
    exfalso
    rcases h with rfl | rfl | rfl | rfl
  all_goals
    rw [hbyte] at hb
    omega

/-- The byte of an ASCII character is found in the bytes of no other one. -/
theorem eq_of_mem_bytesOf {c d : Char} (hc : c.toNat < 128)
    (h : UInt8.ofNat c.toNat ∈ bytesOf d) : d = c := by
  have hbyte : (UInt8.ofNat c.toNat).toNat = c.toNat := by
    rw [UInt8.toNat_ofNat']
    omega
  have hsame := toNat_eq_of_mem_bytesOf h (hbyte.trans_lt hc)
  exact Char.toNat_inj.1 (hsame.symm.trans hbyte)

/-- Where the byte of an ASCII character stands in the bytes of a text, the text is
cut by this character. -/
theorem exists_cut {c : Char} (hc : c.toNat < 128) {chars : List Char} {u v : List UInt8}
    (h : chars.flatMap bytesOf = u ++ .ofNat c.toNat :: v) :
    ∃ front back, chars = front ++ c :: back ∧ back.flatMap bytesOf = v := by
  induction chars generalizing u with
  | nil => simp at h
  | cons d chars ih =>
    rw [List.flatMap_cons, List.append_eq_append_iff] at h
    obtain ⟨rest, -, hrest⟩ | ⟨rest, hd, hrest⟩ := h
    · obtain ⟨front, back, rfl, hback⟩ := ih hrest
      exact ⟨d :: front, back, rfl, hback⟩
    · cases rest with
      | nil =>
        obtain ⟨front, back, rfl, hback⟩ := ih (u := []) hrest.symm
        exact ⟨d :: front, back, rfl, hback⟩
      | cons b rest =>
        obtain ⟨rfl, hv⟩ := List.cons.inj hrest
        obtain rfl := eq_of_mem_bytesOf hc (hd ▸ List.mem_append_right _ (List.mem_cons_self ..))
        rw [bytesOf_of_ascii hc, List.singleton_eq_append_iff] at hd
        obtain ⟨-, hrest⟩ | ⟨-, hrest⟩ := hd
        · obtain rfl := (List.cons.inj hrest).2
          exact ⟨[], chars, rfl, hv.symm⟩
        · cases hrest

/-- All characters of the text are ASCII. -/
def isAscii (text : List Char) : Bool := text.all fun c => c.toNat < 128

theorem isAscii_cons {c : Char} {word : List Char} :
    isAscii (c :: word) = true ↔ c.toNat < 128 ∧ isAscii word = true := by
  simp [isAscii]

/-- A text whose bytes begin with those of ASCII characters begins with these. -/
theorem exists_back_of_ascii {word : List Char} (hword : isAscii word = true)
    {chars : List Char} {v : List UInt8} (h : chars.flatMap bytesOf = word.flatMap bytesOf ++ v) :
    ∃ back, chars = word ++ back ∧ back.flatMap bytesOf = v := by
  induction word generalizing chars with
  | nil => exact ⟨chars, rfl, h⟩
  | cons c word ih =>
    obtain ⟨hc, hothers⟩ := isAscii_cons.1 hword
    cases chars with
    | nil => simp [bytesOf_of_ascii hc] at h
    | cons d chars =>
      rw [List.flatMap_cons, List.flatMap_cons, bytesOf_of_ascii hc] at h
      have hmem : UInt8.ofNat c.toNat ∈ bytesOf d := by
        obtain ⟨b, bs, hbytes⟩ := List.exists_cons_of_ne_nil (String.utf8EncodeChar_ne_nil (c := d))
        have hcons : bytesOf d = b :: bs := hbytes
        rw [hcons] at h ⊢
        rw [← (List.cons.inj h).1]
        exact List.mem_cons_self ..
      obtain rfl := eq_of_mem_bytesOf hc hmem
      rw [bytesOf_of_ascii hc, List.append_assoc] at h
      obtain ⟨back, rfl, hback⟩ := ih hothers (List.append_cancel_left h)
      exact ⟨back, rfl, hback⟩

/-- A text whose bytes end with those of ASCII characters ends with these. -/
theorem exists_front_of_ascii {c : Char} {word : List Char} (hword : isAscii (c :: word) = true)
    {chars : List Char} {u : List UInt8}
    (h : chars.flatMap bytesOf = u ++ (c :: word).flatMap bytesOf) :
    ∃ front, chars = front ++ c :: word := by
  obtain ⟨hc, hothers⟩ := isAscii_cons.1 hword
  rw [List.flatMap_cons, bytesOf_of_ascii hc, List.singleton_append] at h
  obtain ⟨front, back, rfl, hback⟩ := exists_cut hc h
  obtain ⟨rest, rfl, hrest⟩ :=
    exists_back_of_ascii hothers (hback.trans (List.append_nil _).symm)
  cases rest with
  | nil => exact ⟨front, by simp⟩
  | cons d rest =>
    rw [List.flatMap_cons, List.append_eq_nil_iff] at hrest
    exact absurd hrest.1 String.utf8EncodeChar_ne_nil

/-! ## Languages -/

theorem language_slash {text : List UInt8} :
    Regular.Language slash text ↔ text = ['/'.toNat.toUInt8] := by
  simp only [slash, Regular.language_byte, contains_single, exists_eq_right]

theorem language_anything (text : List UInt8) : Regular.Language anything text :=
  Regular.language_star_byte.2 fun b _ => contains_all b

theorem language_inComponent {text : List UInt8} :
    Regular.Language (.star inComponent) text ↔ '/'.toNat.toUInt8 ∉ text := by
  simp only [inComponent, Regular.language_star_byte, contains_allBut]
  exact ⟨fun h hmem => h _ hmem rfl, fun h b hb heq => h (heq ▸ hb)⟩

/-- Two stars between slashes and a star behind them go over every text that begins
with a slash. -/
theorem language_below {text : List UInt8} :
    (∃ u v, text = u ++ v ∧
      Regular.Language (.either slash (.append slash (.append anything slash))) u ∧
      Regular.Language (.star inComponent) v) ↔ ∃ rest, text = '/'.toNat.toUInt8 :: rest := by
  simp only [Regular.language_either, Regular.language_append, language_slash,
    language_inComponent]
  constructor
  · rintro ⟨_, v, rfl, rfl | ⟨_, u, rfl, rfl, -⟩, -⟩
    · exact ⟨v, rfl⟩
    · exact ⟨u ++ v, rfl⟩
  · rintro ⟨rest, rfl⟩
    by_cases hslash : '/'.toNat.toUInt8 ∈ rest
    · -- the stars between the slashes go as far as the last slash
      obtain ⟨back, front, hreverse, hback⟩ :=
        List.eq_append_cons_of_mem (List.mem_reverse.2 hslash)
      have hrest : rest = front.reverse ++ '/'.toNat.toUInt8 :: back.reverse := by
        rw [← List.reverse_inj, hreverse]
        simp
      exact ⟨'/'.toNat.toUInt8 :: (front.reverse ++ ['/'.toNat.toUInt8]), back.reverse,
        by simp [hrest], .inr ⟨_, _, rfl, rfl, _, _, rfl, language_anything _, rfl⟩,
        by simpa using hback⟩
    · exact ⟨_, rest, rfl, .inl rfl, hslash⟩

end Glob

/-! ## The default pattern -/

/-- The extensions of the files that have a language. -/
def Script.Language.extensions : List String :=
  ["ts", "tsx", "js", "jsx", "mts", "cts", "mjs", "cjs"]

theorem Script.Language.isSome_ofExtension? {extension : String} :
    (ofExtension? extension).isSome = true ↔ extension ∈ extensions := by
  unfold ofExtension? extensions
  split <;> simp_all

namespace Glob

theorem exists_regular_literals {chars : List Char} (h : chars ≠ []) :
    ∃ r, piecesRegular? (chars.map .literal) = some r ∧
      ∀ text, Regular.Language r text ↔ text = chars.flatMap bytesOf := by
  have hlanguage (text : List UInt8) :
      Regular.Language ((piecesRegular? (chars.map .literal)).getD .empty) text ↔
        text = chars.flatMap bytesOf := language_literals chars
  obtain ⟨c, chars, rfl⟩ := List.exists_cons_of_ne_nil h
  cases hregular : piecesRegular? ((c :: chars).map .literal) with
  | none =>
    rw [List.map_cons, piecesRegular?] at hregular
    split at hregular <;> simp_all [Piece.regular?]
  | some r =>
    rw [hregular] at hlanguage
    exact ⟨r, rfl, hlanguage⟩

/-- Literal characters before other pieces stand for themselves. -/
theorem exists_regular_literals_append (chars : List Char) {pieces : List Piece} {r : Regular}
    (h : piecesRegular? pieces = some r) :
    ∃ s, piecesRegular? (chars.map .literal ++ pieces) = some s ∧
      ∀ text, Regular.Language s text ↔
        ∃ v, text = chars.flatMap bytesOf ++ v ∧ Regular.Language r v := by
  induction chars with
  | nil => exact ⟨r, h, fun text => by simp⟩
  | cons c chars ih =>
    obtain ⟨s, hs, hlanguage⟩ := ih
    refine ⟨.append (exactly (bytesOf c)) s, ?_, fun text => ?_⟩
    · rw [List.map_cons, List.cons_append, piecesRegular?, hs, Piece.regular?]
    · simp only [Regular.language_append, language_exactly, hlanguage, List.flatMap_cons,
        List.append_assoc]
      constructor
      · rintro ⟨_, _, rfl, rfl, v, rfl, hv⟩
        exact ⟨v, rfl, hv⟩
      · rintro ⟨v, rfl, hv⟩
        exact ⟨_, _, rfl, rfl, v, rfl, hv⟩

/-- A group of words stands for each of them. -/
theorem exists_regular_words {words : List (List Char)} (hne : words ≠ []) (h : [] ∉ words) :
    ∃ r, branchesRegular? (words.map fun word => word.map .literal) = some r ∧
      ∀ text, Regular.Language r text ↔ ∃ word ∈ words, text = word.flatMap bytesOf := by
  induction words with
  | nil => exact absurd rfl hne
  | cons word words ih =>
    obtain ⟨hword, hwords⟩ : [] ≠ word ∧ [] ∉ words := by simpa using h
    obtain ⟨first, hfirst, hlanguage⟩ := exists_regular_literals hword.symm
    by_cases hmore : words = []
    · subst hmore
      refine ⟨first, ?_, fun text => by simp [hlanguage]⟩
      rw [List.map_cons, List.map_nil, branchesRegular?, hfirst, branchesRegular?]
    · obtain ⟨second, hsecond, hothers⟩ := ih hmore hwords
      refine ⟨.either first second, ?_, fun text => ?_⟩
      · rw [List.map_cons, branchesRegular?, hfirst, hsecond]
      · simp [Regular.language_either, hlanguage, hothers]

/-- The pieces of the default pattern. -/
def defaultPieces : List Piece :=
  ['s', 'r', 'c'].map .literal ++ [.anyBetween, .many, .literal '.',
    .group ((Script.Language.extensions.map String.toList).map fun word => word.map .literal)]

theorem piecesOf_default (title : String) :
    piecesOf (ProjectConfig.named title).sources = .ok defaultPieces := by
  cbv

/-- The default pattern asks for the bytes at both ends only. -/
theorem language_default {text : List UInt8} :
    Regular.Language (regularOf defaultPieces) text ↔
      ∃ middle, ∃ extension ∈ Script.Language.extensions,
        text = ['s', 'r', 'c', '/'].flatMap bytesOf ++
          (middle ++ ('.' :: extension.toList).flatMap bytesOf) := by
  have hne : Script.Language.extensions.map String.toList ≠ [] := by decide
  obtain ⟨group, hgroup, hwords⟩ := exists_regular_words hne (by decide)
  have hrest : piecesRegular? [.anyBetween, .many, .literal '.',
      .group ((Script.Language.extensions.map String.toList).map fun word => word.map .literal)] =
      some (.append (.either slash (.append slash (.append anything slash)))
        (.append (.star inComponent) (.append (exactly (bytesOf '.')) group))) := by
    simp only [piecesRegular?, Piece.regular?, hgroup]
  obtain ⟨whole, hwhole, hlanguage⟩ := exists_regular_literals_append ['s', 'r', 'c'] hrest
  have hregular : regularOf defaultPieces = whole := by
    show (piecesRegular? defaultPieces).getD .empty = whole
    rw [defaultPieces, hwhole, Option.getD_some]
  have hslash : bytesOf '/' = ['/'.toNat.toUInt8] := bytesOf_of_ascii (by decide)
  rw [hregular, hlanguage]
  constructor
  · rintro ⟨_, rfl, h⟩
    obtain ⟨u, _, rfl, hu, h⟩ := Regular.language_append.1 h
    obtain ⟨v, _, rfl, hv, h⟩ := Regular.language_append.1 h
    obtain ⟨_, _, rfl, hdot, h⟩ := Regular.language_append.1 h
    obtain ⟨middle, hmiddle⟩ := language_below.1 ⟨u, v, rfl, hu, hv⟩
    obtain ⟨word, hword, rfl⟩ := (hwords _).1 h
    obtain ⟨extension, hextension, rfl⟩ := List.mem_map.1 hword
    refine ⟨middle, extension, hextension, ?_⟩
    rw [language_exactly.1 hdot, ← List.append_assoc u, hmiddle]
    simp [hslash]
  · rintro ⟨middle, extension, hextension, rfl⟩
    obtain ⟨u, v, hmiddle, hu, hv⟩ := language_below.2 ⟨middle, rfl⟩
    refine ⟨u ++ (v ++ (bytesOf '.' ++ extension.toList.flatMap bytesOf)), ?_, ?_⟩
    · rw [← List.append_assoc u, ← hmiddle]
      simp [hslash]
    · have hword := (hwords _).2 ⟨_, List.mem_map_of_mem hextension, rfl⟩
      exact .append hu (.append hv (.append (language_exactly.2 rfl) hword))

theorem isAscii_of_mem_extensions {extension : String}
    (h : extension ∈ Script.Language.extensions) :
    isAscii ('.' :: extension.toList) = true := by
  revert extension
  decide

/-- The default pattern selects what begins with the directory of sources and ends
with one of the extensions. -/
theorem exists_defaultGlob (title : String) :
    ∃ glob, ofPattern (ProjectConfig.named title).sources = .ok glob ∧
      ∀ path, glob.selects path = true ↔ ∃ middle, ∃ extension ∈ Script.Language.extensions,
        path.toList = ['s', 'r', 'c', '/'] ++ (middle ++ '.' :: extension.toList) := by
  refine ⟨_, by rw [ofPattern, piecesOf_default], fun path => ?_⟩
  rw [selects_iff, language_default, toUTF8_toList]
  constructor
  · rintro ⟨bytes, extension, hextension, h⟩
    obtain ⟨back, hback, hbytes⟩ := exists_back_of_ascii (by decide) h
    obtain ⟨middle, rfl⟩ := exists_front_of_ascii (isAscii_of_mem_extensions hextension) hbytes
    exact ⟨middle, extension, hextension, hback⟩
  · rintro ⟨middle, extension, hextension, h⟩
    refine ⟨middle.flatMap bytesOf, extension, hextension, ?_⟩
    rw [h, List.flatMap_append, List.flatMap_append]

end Glob

namespace Path

/-! ## Below the directory of sources -/

/-- The text of the path ends with its file name: no slash and no dot stands behind
it. -/
def EndsWithFileName (p : Path) : Prop :=
  ∃ name, p.fileName? = some name ∧ name.toList <:+ p.text.toList

theorem eq_nil_of_suffix {name : String} (hname : IsName name) {text : List Char}
    {front back : List (List Char)} (hsplit : Text.split '/' text = front ++ name.toList :: back)
    (hback : back.filter counts = []) (h : name.toList <:+ text) : back = [] := by
  by_contra hne
  obtain ⟨middle, last, rfl⟩ := (List.eq_nil_or_concat' back).resolve_left hne
  have htail : '/' :: last <:+ text := by
    refine ⟨['/'].intercalate (front ++ name.toList :: middle), ?_⟩
    have hpieces : Text.split '/' text = (front ++ name.toList :: middle) ++ [last] := by
      rw [hsplit]
      simp
    rw [← Text.intercalate_split '/' text, hpieces,
      Text.intercalate_append _ (by simp : [last] ≠ []), Text.flatMap_append_separator (by simp)]
    simp
  have hcounts : counts last = false := by
    simpa using List.filter_eq_nil_iff.1 hback last (by simp)
  have hlast : last = [] ∨ last = ['.'] := by
    by_contra h
    obtain ⟨hempty, hdot⟩ := not_or.1 h
    simp [counts, hempty, hdot] at hcounts
  obtain hsuffix | hsuffix := List.suffix_or_suffix_of_suffix h htail
  · obtain heq | hsuffix := List.suffix_cons_iff.1 hsuffix
    · exact hname.2.1 (heq ▸ List.mem_cons_self ..)
    · obtain rfl | rfl := hlast
      · exact hname.1 (by simpa using hsuffix)
      · obtain heq | hsuffix := List.suffix_cons_iff.1 hsuffix
        · exact hname.2.2.1 (String.toList_inj.1 heq)
        · exact hname.1 (by simpa using hsuffix)
  · exact hname.2.1 (hsuffix.subset (List.mem_cons_self ..))

theorem eq_of_ofName {text name : String} (h : Component.ofName text = .name name) :
    text = name := by
  unfold Component.ofName at h
  split_ifs at h
  exact Component.name.inj h

/-- All components of the path are names. -/
def IsNormal (p : Path) : Prop := ∀ c ∈ p.components, ∃ name, c = .name name

theorem IsNormal.isAbsolute {p : Path} (h : p.IsNormal) : p.isAbsolute = false := by
  by_contra habsolute
  obtain ⟨name, hname⟩ := h .root (by
    rw [components_of_isAbsolute (by simpa using habsolute)]
    exact List.mem_cons_self ..)
  cases hname

theorem IsNormal.components {p : Path} (h : p.IsNormal) :
    p.components = p.moves.map Component.ofName := by
  refine components_of_relative h.isAbsolute fun hhere => ?_
  obtain ⟨name, hname⟩ := h .here hhere
  cases hname

theorem plain_of_mem_extensions {extension : String}
    (h : extension ∈ Script.Language.extensions) :
    '/' ∉ '.' :: extension.toList ∧ '.' ∉ extension.toList ∧ extension ≠ "" := by
  revert extension
  decide

/-- The last piece of a text that ends with an extension is the file name. -/
theorem fileName?_of_split {p : Path} (h : p.IsNormal) {front : List (List Char)}
    {stem extension : String} (hextension : extension ∈ Script.Language.extensions)
    (hsplit : Text.split '/' p.text.toList = front ++ [(stem ++ "." ++ extension).toList]) :
    p.components = ((front.filter counts).map String.ofList).map Component.ofName ++
        [.name (stem ++ "." ++ extension)] ∧
      p.fileName? = some (stem ++ "." ++ extension) := by
  obtain ⟨-, -, hne⟩ := plain_of_mem_extensions hextension
  have hcounts : counts (stem ++ "." ++ extension).toList = true := by
    have hdot : (stem ++ "." ++ extension).toList ≠ ['.'] := by
      intro heq
      have hlength := congrArg List.length heq
      have hpositive : extension.length ≠ 0 := by simpa using hne
      simp only [String.length_toList, String.length_append, List.length_singleton] at hlength
      have hone : ".".length = 1 := rfl
      omega
    simpa [counts] using hdot
  have hcomponents : p.components = ((front.filter counts).map String.ofList).map
      Component.ofName ++ [Component.ofName (stem ++ "." ++ extension)] := by
    rw [h.components, moves_of_split hsplit, List.filter_append, List.filter_cons_of_pos hcounts]
    simp only [List.filter_nil, List.map_append, List.map_cons, List.map_nil, String.ofList_toList]
  obtain ⟨name, hname⟩ := h (Component.ofName (stem ++ "." ++ extension)) (by
    rw [hcomponents]
    exact List.mem_append_right _ (List.mem_singleton_self _))
  obtain rfl := eq_of_ofName hname
  rw [hname] at hcomponents
  refine ⟨hcomponents, ?_⟩
  rw [fileName?_eq, hcomponents, List.getLast?_concat]
  rfl

/-- The first piece of a path with several pieces counts if all components are
names. -/
theorem IsNormal.counts_of_split {p : Path} (h : p.IsNormal) {first : List Char}
    {others : List (List Char)} (hsplit : Text.split '/' p.text.toList = first :: others)
    (hmore : others ≠ []) : counts first = true := by
  have hempty : first ≠ [] := by
    rintro rfl
    have htext : p.text.toList = '/' :: ['/'].intercalate others := by
      rw [← Text.intercalate_split '/' p.text.toList, hsplit,
        List.intercalate_cons_of_ne_nil hmore]
      rfl
    have habsolute := h.isAbsolute
    simp [Path.isAbsolute, htext] at habsolute
  have hdot : first ≠ ['.'] := by
    intro hdot
    obtain ⟨name, hname⟩ := h .here (by
      rw [components_of_split h.isAbsolute hsplit, if_pos hdot]
      exact List.mem_append_left _ (List.mem_singleton_self _))
    cases hname
  simp [counts, hempty, hdot]

/-- A path whose text begins with the directory of sources and ends with an extension
is that of a file below this directory. -/
theorem IsNormal.of_toList {p : Path} (h : p.IsNormal) {middle : List Char} {extension : String}
    (hextension : extension ∈ Script.Language.extensions)
    (hbare : p.fileName? ≠ some ("." ++ extension))
    (htext : p.text.toList = ['s', 'r', 'c', '/'] ++ (middle ++ '.' :: extension.toList)) :
    2 ≤ p.components.length ∧ p.components.head? = some (.name "src") ∧
      (Script.Language.ofPath? p).isSome = true ∧ p.EndsWithFileName := by
  obtain ⟨hslash, hdot, -⟩ := plain_of_mem_extensions hextension
  obtain ⟨front, last, hrest⟩ := Text.exists_split_append middle hslash
  have hname : last ++ '.' :: extension.toList =
      (String.ofList last ++ "." ++ extension).toList := by
    simp
  have hsplit : Text.split '/' p.text.toList =
      (['s', 'r', 'c'] :: front) ++ [(String.ofList last ++ "." ++ extension).toList] := by
    have hcut : p.text.toList = ['s', 'r', 'c'] ++ '/' :: (middle ++ '.' :: extension.toList) :=
      htext
    rw [hcut, Text.split_append_separator, hrest, hname]
    rfl
  obtain ⟨hcomponents, hfile⟩ := fileName?_of_split h hextension hsplit
  have hsource : Component.ofName (String.ofList ['s', 'r', 'c']) = .name "src" := by decide
  have hfirst : counts ['s', 'r', 'c'] = true := by decide
  rw [List.filter_cons_of_pos hfirst, List.map_cons, List.map_cons, hsource] at hcomponents
  have hstem : String.ofList last ≠ "" := by
    intro hempty
    rw [hempty] at hfile
    exact hbare (by simpa using hfile)
  have hkept : ¬(String.ofList last ++ "." ++ extension = ".." ∨ String.ofList last = "") := by
    rintro (hup | hempty)
    · exact (isName_of_fileName? hfile).2.2.2 hup
    · exact hstem hempty
  refine ⟨?_, ?_, ?_, ?_⟩
  · rw [hcomponents]
    simp
  · rw [hcomponents]
    rfl
  · rw [Script.Language.ofPath?, extension?, hfile, Option.bind_some, splitExtension_append hdot,
      if_neg hkept]
    exact Script.Language.isSome_ofExtension?.2 hextension
  · refine ⟨_, hfile, ['/'].intercalate (['s', 'r', 'c'] :: front) ++ ['/'], ?_⟩
    rw [← Text.intercalate_split '/' p.text.toList, hsplit,
      Text.intercalate_append (_ :: _) (List.cons_ne_nil _ _),
      Text.flatMap_append_separator (List.cons_ne_nil _ _), List.intercalate_singleton]

/-- The text of a path to a file below the directory of sources begins with this
directory and ends with the extension, if it ends with the file name. -/
theorem IsNormal.exists_toList {p : Path} (h : p.IsNormal) (hlength : 2 ≤ p.components.length)
    (hhead : p.components.head? = some (.name "src"))
    (hlanguage : (Script.Language.ofPath? p).isSome = true) (hends : p.EndsWithFileName) :
    ∃ middle, ∃ extension ∈ Script.Language.extensions,
      p.text.toList = ['s', 'r', 'c', '/'] ++ (middle ++ '.' :: extension.toList) := by
  obtain ⟨name, hname, hsuffix⟩ := hends
  have hplain := isName_of_fileName? hname
  obtain ⟨front, back, hsplit, hback, -⟩ := exists_pieces_of_fileName? hname
  obtain rfl := eq_nil_of_suffix hplain hsplit hback hsuffix
  rw [Script.Language.ofPath?, extension?, hname, Option.bind_some] at hlanguage
  obtain hnone | ⟨stem, extension, hstem, rfl, -, -⟩ := splitExtension_cases name
  · simp [hnone] at hlanguage
  rw [hstem] at hlanguage
  have hextension := Script.Language.isSome_ofExtension?.1 hlanguage
  obtain ⟨hcomponents, -⟩ := fileName?_of_split h hextension hsplit
  rw [hcomponents] at hlength hhead
  cases front with
  | nil => simp at hlength
  | cons first front =>
    have hfirst : counts first = true := h.counts_of_split hsplit (by simp)
    rw [List.filter_cons_of_pos hfirst, List.map_cons, List.map_cons, List.cons_append,
      List.head?_cons, Option.some.injEq] at hhead
    have hsource : first = ['s', 'r', 'c'] := by
      rw [← String.toList_ofList (l := first), eq_of_ofName hhead]
      rfl
    refine ⟨front.flatMap (· ++ ['/']) ++ stem.toList, extension, hextension, ?_⟩
    rw [← Text.intercalate_split '/' p.text.toList, hsplit, hsource,
      Text.intercalate_append (_ :: _) (List.cons_ne_nil _ _)]
    simp

/-- **The default pattern and the languages agree.**  Of the paths that have names as
components only, and no file name that is just the dot and the extension of a language,
the default pattern selects those below the directory of sources that have a language,
if they are spelled up to their file name. -/
theorem default_selects_iff (title : String) :
    ∃ glob, Glob.ofPattern (ProjectConfig.named title).sources = .ok glob ∧
      ∀ p : Path, p.IsNormal →
        (∀ extension ∈ Script.Language.extensions, p.fileName? ≠ some ("." ++ extension)) →
        (glob.selects p.text = true ↔
          2 ≤ p.components.length ∧ p.components.head? = some (.name "src") ∧
            (Script.Language.ofPath? p).isSome = true ∧ p.EndsWithFileName) := by
  obtain ⟨glob, hglob, hselects⟩ := Glob.exists_defaultGlob title
  refine ⟨glob, hglob, fun p hnormal hbare => ?_⟩
  rw [hselects]
  constructor
  · rintro ⟨middle, extension, hextension, htext⟩
    exact hnormal.of_toList hextension (hbare extension hextension) htext
  · rintro ⟨hlength, hhead, hlanguage, hends⟩
    exact hnormal.exists_toList hlength hhead hlanguage hends

theorem isNormal_of_components {p : Path} {names : List String}
    (h : p.components = names.map .name) : p.IsNormal := by
  intro c hc
  rw [h] at hc
  obtain ⟨name, -, rfl⟩ := List.mem_map.1 hc
  exact ⟨name, rfl⟩

/-- A test file among the sources is selected, and a script elsewhere is not. -/
theorem default_selects_testFile :
    ∃ glob, Glob.ofPattern (ProjectConfig.named "Shop").sources = .ok glob ∧
      glob.selects "src/lib//a.test.ts" = true ∧ glob.selects "scripts/seed.ts" = false := by
  obtain ⟨glob, hglob, hselects⟩ := default_selects_iff "Shop"
  have htest : components ⟨"src/lib//a.test.ts"⟩ = ["src", "lib", "a.test.ts"].map .name := by
    decide +kernel
  have hscript : components ⟨"scripts/seed.ts"⟩ = ["scripts", "seed.ts"].map .name := by
    decide +kernel
  refine ⟨glob, hglob, ?_, ?_⟩
  · refine (hselects ⟨"src/lib//a.test.ts"⟩ (isNormal_of_components htest)
      (by decide +kernel)).2 ⟨?_, ?_, by decide +kernel, "a.test.ts", by decide +kernel,
        by decide +kernel⟩
    · rw [htest]
      decide
    · rw [htest]
      rfl
  · rw [Bool.eq_false_iff]
    intro hselected
    obtain ⟨-, hhead, -⟩ := (hselects ⟨"scripts/seed.ts"⟩ (isNormal_of_components hscript)
      (by decide +kernel)).1 hselected
    rw [hscript] at hhead
    exact absurd hhead (by decide)

/-- A slash behind the file name is no component, but it keeps the default pattern
from selecting the path. -/
theorem not_default_selects_before_slash :
    ¬∀ (title : String) (glob : Glob) (p : Path),
      Glob.ofPattern (ProjectConfig.named title).sources = .ok glob → p.IsNormal →
      (∀ extension ∈ Script.Language.extensions, p.fileName? ≠ some ("." ++ extension)) →
      (glob.selects p.text = true ↔
        2 ≤ p.components.length ∧ p.components.head? = some (.name "src") ∧
          (Script.Language.ofPath? p).isSome = true) := by
  intro hall
  obtain ⟨glob, hglob, hselects⟩ := Glob.exists_defaultGlob "Shop"
  have hcomponents : components ⟨"src/a.ts/"⟩ = ["src", "a.ts"].map .name := by decide +kernel
  have hselected := (hall "Shop" glob ⟨"src/a.ts/"⟩ hglob (isNormal_of_components hcomponents)
    (by decide +kernel)).2 (by rw [hcomponents]; decide +kernel)
  obtain ⟨middle, extension, hextension, htext⟩ := (hselects "src/a.ts/").1 hselected
  have hlast : "src/a.ts/".toList.getLast? = some '/' := by decide
  rw [htext, ← List.append_assoc, List.getLast?_append_of_ne_nil _ (List.cons_ne_nil _ _)] at hlast
  exact (plain_of_mem_extensions hextension).1 (List.mem_of_getLast? hlast)

end Path

end OpManifest
