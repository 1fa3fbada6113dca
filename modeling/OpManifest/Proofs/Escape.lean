import Mathlib.Data.List.Forall2
import Mathlib.Data.List.TakeWhile
import OpManifest.Proofs.Hexadecimal
import OpManifest.Script.Escape

/-!
# What escapes stand for

The content of a literal is a sequence of characters, each in one of its
spellings (`Spells`), and of line continuations, which stand for nothing
(`Written`).  It is decoded piece by piece, in whatever mix the spellings stand
(`unescape_spelled`).

An escape with a code that spells no character should stay as it is written.
There are five ways in which it does not (`Misread`), and in all others it does
(`unescape_malformed`).
-/

namespace OpManifest.Script

open Text (HexDigit HexNumeral hexDigits)

/-! ## Spellings -/

/-- The letters and the digit that stand for a control character after a
backslash. -/
def controlLetters : List (Char × Char) :=
  [('n', '\n'), ('t', '\t'), ('r', '\r'), ('b', '\x08'), ('f', '\x0c'), ('v', '\x0b'),
    ('0', '\x00')]

/-- The letters that a code follows, with the number of its digits. -/
def codeLetters : List (Char × Nat) := [('x', 2), ('u', 4)]

/-- The text spells the character. -/
inductive Spells : List Char → Char → Prop where
  | plain {c : Char} (h : c ≠ '\\') : Spells [c] c
  | control {letter c : Char} (h : (letter, c) ∈ controlLetters) : Spells ['\\', letter] c
  | escaped {c : Char} (hcontrol : c ∉ controlLetters.map Prod.fst)
    (h : c ∉ ['x', 'u', '\n', '\r']) : Spells ['\\', c] c
  | code {letter : Char} {width : Nat} {digits : List Char} {c : Char}
    (hletter : (letter, width) ∈ codeLetters) (hlength : digits.length = width)
    (h : HexNumeral digits c.toNat) : Spells ('\\' :: letter :: digits) c
  | group {digits : List Char} {c : Char} (h : HexNumeral digits c.toNat) :
    Spells ('\\' :: 'u' :: '{' :: (digits ++ ['}'])) c

/-- The text is written for the value: spellings of its characters, and line
continuations. -/
inductive Written : List Char → List Char → Prop where
  | nil : Written [] []
  | spelled {spelling : List Char} {c : Char} {rest value : List Char} (h : Spells spelling c)
    (hrest : Written rest value) : Written (spelling ++ rest) (c :: value)
  | lineFeed {rest value : List Char} (hrest : Written rest value) :
    Written ('\\' :: '\n' :: rest) value
  | returnFeed {rest value : List Char} (hrest : Written rest value) :
    Written ('\\' :: '\r' :: '\n' :: rest) value
  | bareReturn {rest value : List Char} (hnext : rest.head? ≠ some '\n')
    (hrest : Written rest value) : Written ('\\' :: '\r' :: rest) value

/-! ## One piece at a time -/

/-- The number that the digits are read as: a plus sign may stand before them. -/
inductive ReadAs : List Char → Nat → Prop where
  | unsigned {digits : List Char} {code : Nat} (h : HexNumeral digits code) : ReadAs digits code
  | signed {digits : List Char} {code : Nat} (h : HexNumeral digits code) :
    ReadAs ('+' :: digits) code

theorem not_mem_of_hexNumeral {digits : List Char} {code : Nat} (h : HexNumeral digits code) :
    ∀ c ∈ ['+', '{', '}', '\\'], c ∉ digits := by
  intro c hc hmem
  obtain ⟨value, hvalue⟩ := h.hexDigit_of_mem hmem
  have hnone : Text.hexValue? c = none := by
    simp only [List.mem_cons, List.not_mem_nil, or_false] at hc
    rcases hc with rfl | rfl | rfl | rfl <;> rfl
  rw [← Text.hexValue?_eq_some, hnone] at hvalue
  cases hvalue

theorem not_mem_of_readAs {digits : List Char} {code : Nat} (h : ReadAs digits code) :
    ∀ c ∈ ['{', '}', '\\'], c ∉ digits := by
  intro c hc
  cases h with
  | unsigned h => exact not_mem_of_hexNumeral h c (List.mem_cons_of_mem _ hc)
  | signed h =>
    have hplus : '+' ∉ ['{', '}', '\\'] := by decide
    rw [List.mem_cons, not_or]
    exact ⟨fun heq => hplus (heq ▸ hc), not_mem_of_hexNumeral h c (List.mem_cons_of_mem _ hc)⟩

theorem ReadAs.ne_nil {digits : List Char} {code : Nat} (h : ReadAs digits code) : digits ≠ [] := by
  cases h with
  | unsigned h => exact h.ne_nil
  | signed => exact List.cons_ne_nil _ _

theorem charOfDigits?_eq_some {digits : List Char} {c : Char} :
    charOfDigits? digits = some c ↔ ReadAs digits c.toNat := by
  have hread (unsigned : List Char) :
      ((Text.hexNumber? unsigned).bind Text.charOfCode?) = some c ↔
        HexNumeral unsigned c.toNat := by
    simp only [Option.bind_eq_some_iff, Text.hexNumber?_eq_some, Text.charOfCode?_eq_some,
      exists_eq_right']
  unfold charOfDigits?
  split
  · rename_i unsigned
    refine (hread unsigned).trans ⟨.signed, fun h => ?_⟩
    cases h with
    | unsigned h => exact absurd List.mem_cons_self (not_mem_of_hexNumeral h '+' (by simp))
    | signed h => exact h
  · rename_i hsign
    refine (hread digits).trans ⟨.unsigned, fun h => ?_⟩
    cases h with
    | unsigned h => exact h
    | signed h => exact absurd rfl (hsign _)

/-- What an escape with a code becomes: the character, or the escape as it is
written between its opening and its end. -/
def decoded (opening digits ending : List Char) : List Char :=
  match charOfDigits? digits with
  | some c => [c]
  | none => opening ++ digits ++ ending

theorem decoded_of_readAs {opening digits ending : List Char} {c : Char}
    (h : ReadAs digits c.toNat) : decoded opening digits ending = [c] := by
  rw [decoded, charOfDigits?_eq_some.2 h]

theorem decoded_of_not {opening digits ending : List Char}
    (h : ∀ c : Char, ¬ReadAs digits c.toNat) :
    decoded opening digits ending = opening ++ digits ++ ending := by
  have hnone : charOfDigits? digits = none := by
    rw [Option.eq_none_iff_forall_ne_some]
    exact fun c hc => h c (charOfDigits?_eq_some.1 hc)
  rw [decoded, hnone]

section

-- The equations are made here once, so that the proofs below do not wait for each other.
attribute [local simp] unescape

theorem unescape_cons {c : Char} (h : c ≠ '\\') (rest : List Char) :
    unescape (c :: rest) = c :: unescape rest := by
  simp [h]

theorem unescape_backslash {c : Char} (h : c ∉ ['x', 'u', '\n', '\r']) (rest : List Char) :
    unescape ('\\' :: c :: rest) = (controlEscape c).getD c :: unescape rest := by
  simp only [List.mem_cons, List.not_mem_nil, or_false, not_or] at h
  simp [h]

end

theorem unescape_control {letter c : Char} (h : (letter, c) ∈ controlLetters) (rest : List Char) :
    unescape ('\\' :: letter :: rest) = c :: unescape rest := by
  have hall : ∀ pair ∈ controlLetters, pair.1 ∉ ['x', 'u', '\n', '\r'] ∧
      controlEscape pair.1 = some pair.2 := by decide
  obtain ⟨hletter, hcontrol⟩ := hall (letter, c) h
  rw [unescape_backslash hletter, hcontrol, Option.getD_some]

theorem unescape_escaped {c : Char} (hcontrol : c ∉ controlLetters.map Prod.fst)
    (h : c ∉ ['x', 'u', '\n', '\r']) (rest : List Char) :
    unescape ('\\' :: c :: rest) = c :: unescape rest := by
  have hnone : controlEscape c = none := by
    simp only [controlLetters, List.map_cons, List.map_nil, List.mem_cons, List.not_mem_nil,
      or_false, not_or] at hcontrol
    rw [controlEscape] <;> simp [hcontrol]
  rw [unescape_backslash h, hnone, Option.getD_none]

theorem unescape_return {rest : List Char} (h : rest.head? ≠ some '\n') :
    unescape ('\\' :: '\r' :: rest) = unescape rest := by
  rw [unescape]
  rintro tail rfl
  exact h rfl

/-- A letter with a code of a fixed number of digits takes as many characters, or
what is left. -/
theorem unescape_code {letter : Char} {width : Nat} (hletter : (letter, width) ∈ codeLetters)
    {rest : List Char} (hgroup : letter = 'u' → rest.head? ≠ some '{') :
    unescape ('\\' :: letter :: rest) =
      decoded ['\\', letter] (rest.take width) [] ++ unescape (rest.drop width) := by
  simp only [codeLetters, List.mem_cons, Prod.mk.injEq, List.not_mem_nil, or_false] at hletter
  rcases hletter with ⟨rfl, rfl⟩ | ⟨rfl, rfl⟩
  · rw [unescape, decoded]
    cases charOfDigits? (rest.take 2) <;> simp
  · rw [unescape, decoded]
    · cases charOfDigits? (rest.take 4) <;> simp
    · rintro group rfl
      exact hgroup rfl rfl

/-- A group takes all up to its closing brace, or what is left. -/
theorem unescape_group (rest : List Char) :
    unescape ('\\' :: 'u' :: '{' :: rest) =
      decoded ['\\', 'u', '{'] (rest.takeWhile (· ≠ '}')) ['}'] ++
        unescape ((rest.dropWhile (· ≠ '}')).drop 1) := by
  rw [unescape, decoded]
  cases charOfDigits? (rest.takeWhile (· ≠ '}')) <;> rfl

theorem forall_ne_brace {group : List Char} (h : '}' ∉ group) :
    ∀ c ∈ group, decide (c ≠ '}') = true :=
  fun _ hc => decide_eq_true fun heq => h (heq ▸ hc)

theorem takeWhile_group {group : List Char} (h : '}' ∉ group) (rest : List Char) :
    (group ++ '}' :: rest).takeWhile (· ≠ '}') = group ∧
      (group ++ '}' :: rest).dropWhile (· ≠ '}') = '}' :: rest := by
  rw [List.takeWhile_append_of_pos (forall_ne_brace h),
    List.dropWhile_append_of_pos (forall_ne_brace h)]
  simp

/-- Digits that are as many as the letter takes, or that the text ends with, are
read. -/
theorem unescape_code_of_readAs {letter : Char} {width : Nat}
    (hletter : (letter, width) ∈ codeLetters) {digits rest : List Char} {c : Char}
    (hlength : digits.length = width ∨ digits.length < width ∧ rest = [])
    (h : ReadAs digits c.toNat) :
    unescape ('\\' :: letter :: (digits ++ rest)) = c :: unescape rest := by
  have hgroup : letter = 'u' → (digits ++ rest).head? ≠ some '{' := by
    rintro - hhead
    rw [List.head?_append_of_ne_nil _ h.ne_nil] at hhead
    exact not_mem_of_readAs h '{' (by simp) (List.mem_of_head? hhead)
  have htaken : (digits ++ rest).take width = digits ∧ (digits ++ rest).drop width = rest := by
    rcases hlength with hlength | ⟨hlength, rfl⟩
    · exact ⟨List.take_left' hlength, List.drop_left' hlength⟩
    · have hle := Nat.le_of_lt hlength
      rw [List.append_nil]
      exact ⟨List.take_of_length_le hle, List.drop_of_length_le hle⟩
  rw [unescape_code hletter hgroup, htaken.1, htaken.2, decoded_of_readAs h]
  rfl

/-- A spelling is decoded on its own, whatever comes after it. -/
theorem unescape_append_of_spells {spelling : List Char} {c : Char} (h : Spells spelling c)
    (rest : List Char) : unescape (spelling ++ rest) = c :: unescape rest := by
  cases h with
  | plain h => exact unescape_cons h rest
  | control h => exact unescape_control h rest
  | escaped hcontrol h => exact unescape_escaped hcontrol h rest
  | code hletter hlength h =>
    exact unescape_code_of_readAs hletter (.inl hlength) (.unsigned h)
  | @group digits _ h =>
    have hclosed := takeWhile_group (not_mem_of_hexNumeral h '}' (by simp)) rest
    simp only [List.cons_append, List.append_assoc, List.nil_append]
    rw [unescape_group, hclosed.1, hclosed.2, decoded_of_readAs (.unsigned h)]
    rfl

/-- Text without a backslash is decoded to itself, and what follows it on its own. -/
theorem unescape_append {front : List Char} (h : '\\' ∉ front) (text : List Char) :
    unescape (front ++ text) = front ++ unescape text := by
  induction front with
  | nil => rfl
  | cons c front ih =>
    rw [List.mem_cons, not_or] at h
    rw [List.cons_append, unescape_cons (Ne.symm h.1), ih h.2, List.cons_append]

theorem unescape_eq_self {text : List Char} (h : '\\' ∉ text) : unescape text = text := by
  have happend := unescape_append h []
  rwa [List.append_nil, unescape, List.append_nil] at happend

/-! ## Sequences of pieces -/

theorem unescape_of_written {text value : List Char} (h : Written text value) :
    unescape text = value := by
  induction h with
  | nil => rw [unescape]
  | spelled h _ ih => rw [unescape_append_of_spells h, ih]
  | lineFeed _ ih | returnFeed _ ih => rw [unescape, ih]
  | bareReturn hnext _ ih => rw [unescape_return hnext, ih]

theorem written_flatten {spellings : List (List Char)} {value : List Char}
    (h : List.Forall₂ Spells spellings value) : Written spellings.flatten value := by
  induction h with
  | nil => exact .nil
  | cons hfirst _ ih => exact .spelled hfirst ih

theorem exists_numeral (c : Char) {width : Nat} (hwidth : 0 < width) (h : c.toNat < 16 ^ width) :
    ∃ digits, digits.length = width ∧ HexNumeral digits c.toNat :=
  ⟨hexDigits width c.toNat, Text.length_hexDigits width c.toNat,
    Text.hexNumeral_hexDigits hwidth h⟩

/-- Every character but the backslash spells itself, and the backslash spells
itself after another one. -/
theorem exists_spells (c : Char) : ∃ spelling, Spells spelling c := by
  by_cases h : c = '\\'
  · subst h
    exact ⟨_, .escaped (by decide) (by decide)⟩
  · exact ⟨_, .plain h⟩

/-- **Decoding.**  What is written for a value is decoded to it.  Every string can be
written in every mix of spellings of its characters: each character has a code with
as many digits as wanted.  Text without a backslash stands for itself. -/
theorem unescape_spelled :
    (∀ text value, Written text value → unescape text = value) ∧
      (∀ spellings value, List.Forall₂ Spells spellings value →
        unescape spellings.flatten = value) ∧
      (∀ value, ∃ spellings, List.Forall₂ Spells spellings value) ∧
      (∀ (c : Char) (letter : Char) (width : Nat), (letter, width) ∈ codeLetters →
        c.toNat < 16 ^ width → ∃ digits, Spells ('\\' :: letter :: digits) c) ∧
      (∀ (c : Char) (width : Nat), 0 < width → c.toNat < 16 ^ width →
        ∃ digits, digits.length = width ∧ Spells ('\\' :: 'u' :: '{' :: (digits ++ ['}'])) c) ∧
      ∀ text, '\\' ∉ text → unescape text = text := by
  refine ⟨fun text value => unescape_of_written, fun spellings value h =>
    unescape_of_written (written_flatten h), fun value => ?_, fun c letter width hletter h => ?_,
    fun c width hwidth h => ?_, fun text => unescape_eq_self⟩
  · induction value with
    | nil => exact ⟨[], .nil⟩
    | cons c value ih =>
      obtain ⟨spelling, hspelling⟩ := exists_spells c
      obtain ⟨spellings, hspellings⟩ := ih
      exact ⟨spelling :: spellings, .cons hspelling hspellings⟩
  · have hwidth : ∀ pair ∈ codeLetters, 0 < pair.2 := by decide
    obtain ⟨digits, hlength, hdigits⟩ := exists_numeral c (hwidth (letter, width) hletter) h
    exact ⟨digits, .code hletter hlength hdigits⟩
  · obtain ⟨digits, hlength, hdigits⟩ := exists_numeral c hwidth h
    exact ⟨digits, hlength, .group hdigits⟩

/-- A text in which spellings of every kind and line continuations of every kind stand
side by side. -/
theorem unescape_spelled_caption :
    Written "\\x43\\u0061\\\nf\\u\x7b00e9\x7d\\\r\\n\\`Z\\\r\n".toList "Caf\u00e9\n`Z".toList ∧
      unescape "\\x43\\u0061\\\nf\\u\x7b00e9\x7d\\\r\\n\\`Z\\\r\n".toList =
        "Caf\u00e9\n`Z".toList := by
  have hnumerals : HexNumeral ['4', '3'] 'C'.toNat ∧ HexNumeral ['0', '0', '6', '1'] 'a'.toNat ∧
      HexNumeral ['0', '0', 'e', '9'] '\u00e9'.toNat := by
    simp only [← Text.hexNumber?_eq_some]
    decide
  obtain ⟨hbyte, hunit, hgroup⟩ := hnumerals
  have hwritten : Written "\\x43\\u0061\\\nf\\u\x7b00e9\x7d\\\r\\n\\`Z\\\r\n".toList
      "Caf\u00e9\n`Z".toList := by
    refine .spelled (.code (by decide) rfl hbyte) (.spelled (.code (by decide) rfl hunit) ?_)
    refine .lineFeed (.spelled (.plain (by decide)) (.spelled (.group hgroup) ?_))
    refine .bareReturn (by decide) (.spelled (.control (by decide)) ?_)
    refine .spelled (.escaped (by decide) (by decide)) (.spelled (.plain (by decide)) ?_)
    exact .returnFeed .nil
  exact ⟨hwritten, unescape_spelled.1 _ _ hwritten⟩

/-! ## Escapes that spell nothing -/

/-- The letter of an escape with a code, and what is written after it: no more
backslashes, and neither the digits of a character nor a group of them. -/
structure Malformed (letter : Char) (width : Nat) (rest : List Char) : Prop where
  isCode : (letter, width) ∈ codeLetters
  single : '\\' ∉ rest
  noDigits : ∀ (digits : List Char) (c : Char), digits <+: rest → digits.length = width →
    ¬HexNumeral digits c.toNat
  noGroup : letter = 'u' → ∀ (digits : List Char) (c : Char), '{' :: (digits ++ ['}']) <+: rest →
    ¬HexNumeral digits c.toNat

/-- The escape is not kept as it is written. -/
inductive Misread : List Char → List Char → Prop where
  /-- The text ends before there are enough digits. -/
  | short {letter : Char} {width : Nat} {digits : List Char} {c : Char}
    (hletter : (letter, width) ∈ codeLetters) (hlength : digits.length < width)
    (h : HexNumeral digits c.toNat) : Misread ('\\' :: letter :: digits) [c]
  /-- A plus sign stands in the place of the first digit. -/
  | signed {letter : Char} {width : Nat} {digits rest : List Char} {c : Char}
    (hletter : (letter, width) ∈ codeLetters)
    (hlength : digits.length + 1 = width ∨ digits.length + 1 < width ∧ rest = [])
    (h : HexNumeral digits c.toNat) :
    Misread ('\\' :: letter :: '+' :: (digits ++ rest)) (c :: rest)
  /-- A plus sign stands before the digits of a group. -/
  | signedGroup {digits rest : List Char} {c : Char} (h : HexNumeral digits c.toNat) :
    Misread ('\\' :: 'u' :: '{' :: '+' :: (digits ++ '}' :: rest)) (c :: rest)
  /-- The group is not closed, and its digits are read. -/
  | openGroup {group : List Char} {c : Char} (h : ReadAs group c.toNat) :
    Misread ('\\' :: 'u' :: '{' :: group) [c]
  /-- The group is not closed, and a brace is added to it. -/
  | closedGroup {group : List Char} (hopen : '}' ∉ group) (h : ∀ c : Char, ¬ReadAs group c.toNat) :
    Misread ('\\' :: 'u' :: '{' :: group) ('\\' :: 'u' :: '{' :: (group ++ ['}']))

theorem Misread.length_ne {text read : List Char} (h : Misread text read) :
    read.length ≠ text.length := by
  cases h <;> simp <;> omega

theorem unescape_openGroup {group : List Char} (h : '}' ∉ group) :
    unescape ('\\' :: 'u' :: '{' :: group) = decoded ['\\', 'u', '{'] group ['}'] := by
  rw [unescape_group, List.takeWhile_eq_self_iff.2 (forall_ne_brace h),
    List.dropWhile_eq_nil_iff.2 (forall_ne_brace h), List.drop_nil, unescape, List.append_nil]

theorem unescape_of_misread {text read : List Char} (h : Misread text read)
    (hsingle : '\\' ∉ text.tail) : unescape text = read := by
  cases h with
  | @short letter width digits c hletter hlength h =>
    have hread : unescape ('\\' :: letter :: (digits ++ [])) = c :: unescape [] :=
      unescape_code_of_readAs hletter (.inr ⟨hlength, rfl⟩) (.unsigned h)
    rwa [List.append_nil, unescape] at hread
  | @signed letter width digits rest c hletter hlength h =>
    have hrest : '\\' ∉ rest := fun hmem => hsingle (by simp [hmem])
    have hread : unescape ('\\' :: letter :: ('+' :: digits ++ rest)) = c :: unescape rest :=
      unescape_code_of_readAs hletter hlength (.signed h)
    rwa [unescape_eq_self hrest] at hread
  | @signedGroup digits rest c h =>
    have hrest : '\\' ∉ rest := fun hmem => hsingle (by simp [hmem])
    have hsigned := ReadAs.signed h
    have hclosed := takeWhile_group (not_mem_of_readAs hsigned '}' (by simp)) rest
    rw [List.cons_append] at hclosed
    rw [unescape_group, hclosed.1, hclosed.2, decoded_of_readAs hsigned, List.drop_succ_cons,
      List.drop_zero, unescape_eq_self hrest]
    rfl
  | openGroup h =>
    rw [unescape_openGroup (not_mem_of_readAs h '}' (by simp)), decoded_of_readAs h]
  | closedGroup hopen h =>
    rw [unescape_openGroup hopen, decoded_of_not h]
    rfl

/-- A group that spells no character is kept, or it is misread. -/
theorem kept_or_misread_group {group : List Char} (hsingle : '\\' ∉ group)
    (hnone : ∀ (digits : List Char) (c : Char), '{' :: (digits ++ ['}']) <+: '{' :: group →
      ¬HexNumeral digits c.toNat) :
    unescape ('\\' :: 'u' :: '{' :: group) = '\\' :: 'u' :: '{' :: group ∨
      ∃ read, Misread ('\\' :: 'u' :: '{' :: group) read := by
  by_cases hclosed : '}' ∈ group
  · obtain ⟨digits, rest, rfl, hnot⟩ := List.eq_append_cons_of_mem hclosed
    by_cases hread : ∃ c : Char, ReadAs digits c.toNat
    · obtain ⟨c, hread⟩ := hread
      cases hread with
      | unsigned h => exact absurd h (hnone digits c ⟨rest, by simp⟩)
      | signed h => exact .inr ⟨_, .signedGroup h⟩
    · have hrest : '\\' ∉ rest := fun hmem => hsingle (by simp [hmem])
      have htaken := takeWhile_group hnot rest
      rw [unescape_group, htaken.1, htaken.2, decoded_of_not (not_exists.1 hread),
        List.drop_succ_cons, List.drop_zero, unescape_eq_self hrest]
      exact .inl (by simp)
  · by_cases hread : ∃ c : Char, ReadAs group c.toNat
    · obtain ⟨c, hread⟩ := hread
      exact .inr ⟨_, .openGroup hread⟩
    · exact .inr ⟨_, .closedGroup hclosed (not_exists.1 hread)⟩

/-- A code that spells no character is kept, or it is misread. -/
theorem kept_or_misread_code {letter : Char} {width : Nat} {rest : List Char}
    (h : Malformed letter width rest) (hgroup : letter = 'u' → rest.head? ≠ some '{') :
    unescape ('\\' :: letter :: rest) = '\\' :: letter :: rest ∨
      ∃ read, Misread ('\\' :: letter :: rest) read := by
  by_cases hread : ∃ c : Char, ReadAs (rest.take width) c.toNat
  · obtain ⟨c, hread⟩ := hread
    have hsplit := List.take_append_drop width rest
    have hnone := h.noDigits (rest.take width) c (List.take_prefix width rest)
    have hlength : (rest.take width).length = width ∨
        (rest.take width).length < width ∧ rest.drop width = [] := by
      rcases Nat.lt_or_ge rest.length width with hlt | hge
      · have hle := Nat.le_of_lt hlt
        exact .inr ⟨by rwa [List.take_of_length_le hle], List.drop_of_length_le hle⟩
      · exact .inl (List.length_take_of_le hge)
    -- only the two parts that the text is split into matter from here on
    generalize rest.take width = taken at *
    generalize rest.drop width = left at *
    rw [← hsplit]
    cases hread with
    | unsigned hdigits =>
      rcases hlength with hlength | ⟨hlength, rfl⟩
      · exact absurd hdigits (hnone hlength)
      · rw [List.append_nil]
        exact .inr ⟨_, .short h.isCode hlength hdigits⟩
    | signed hdigits => exact .inr ⟨_, .signed h.isCode hlength hdigits⟩
  · have hleft : '\\' ∉ rest.drop width := fun hmem => h.single (List.mem_of_mem_drop hmem)
    rw [unescape_code h.isCode hgroup, decoded_of_not (not_exists.1 hread), unescape_eq_self hleft]
    exact .inl (by simp)

theorem kept_or_misread {letter : Char} {width : Nat} {rest : List Char}
    (h : Malformed letter width rest) :
    unescape ('\\' :: letter :: rest) = '\\' :: letter :: rest ∨
      ∃ read, Misread ('\\' :: letter :: rest) read := by
  by_cases hgroup : letter = 'u' ∧ rest.head? = some '{'
  · obtain ⟨rfl, hhead⟩ := hgroup
    obtain ⟨group, rfl⟩ := List.head?_eq_some_iff.1 hhead
    exact kept_or_misread_group (fun hmem => h.single (List.mem_cons_of_mem _ hmem)) (h.noGroup rfl)
  · exact kept_or_misread_code h (not_and.1 hgroup)

/-- **Malformed escapes.**  After text without a backslash, an escape that spells no
character is kept as it is written unless it is misread, and then it becomes what it
is misread as. -/
theorem unescape_malformed {front rest : List Char} {letter : Char} {width : Nat}
    (hfront : '\\' ∉ front) (h : Malformed letter width rest) :
    (unescape (front ++ '\\' :: letter :: rest) = front ++ '\\' :: letter :: rest ↔
        ∀ read, ¬Misread ('\\' :: letter :: rest) read) ∧
      ∀ read, Misread ('\\' :: letter :: rest) read →
        unescape (front ++ '\\' :: letter :: rest) = front ++ read := by
  have hletter : ∀ pair ∈ codeLetters, '\\' ≠ pair.1 := by decide
  have hsingle : '\\' ∉ letter :: rest := by
    rw [List.mem_cons, not_or]
    exact ⟨hletter (letter, width) h.isCode, h.single⟩
  rw [unescape_append hfront, List.append_cancel_left_eq]
  refine ⟨⟨fun hkept read hread => ?_, fun hnone => ?_⟩, fun read hread => ?_⟩
  · rw [unescape_of_misread hread hsingle] at hkept
    exact hread.length_ne (congrArg List.length hkept)
  · rcases kept_or_misread h with hkept | ⟨read, hread⟩
    · exact hkept
    · exact absurd hread (hnone read)
  · rw [unescape_of_misread hread hsingle]

/-- Of two escapes with two digits in place of four, the one that the text ends with is
misread, and the one that other characters follow is kept. -/
theorem unescape_malformed_tooShort :
    Malformed 'u' 4 ['1', '2'] ∧ unescape ['Z', '\\', 'u', '1', '2'] = ['Z', '\x12'] ∧
      Malformed 'u' 4 ['1', '2', '?', '?'] ∧
      unescape ['Z', '\\', 'u', '1', '2', '?', '?'] = ['Z', '\\', 'u', '1', '2', '?', '?'] := by
  have hfront : '\\' ∉ ['Z'] := by decide
  have hlast : Malformed 'u' 4 ['1', '2'] := by
    refine ⟨by decide, by decide, fun digits c hprefix hlength => ?_, fun _ digits c hprefix => ?_⟩
    · exact absurd (hlength ▸ hprefix.length_le) (by decide)
    · exact absurd (List.cons_prefix_cons.1 hprefix).1 (by decide)
  have hfollowed : Malformed 'u' 4 ['1', '2', '?', '?'] := by
    refine ⟨by decide, by decide, fun digits c hprefix hlength => ?_, fun _ digits c hprefix => ?_⟩
    · obtain rfl := hprefix.eq_of_length hlength
      rw [← Text.hexNumber?_eq_some]
      exact fun h => nomatch h
    · exact absurd (List.cons_prefix_cons.1 hprefix).1 (by decide)
  have hmisread : Misread ['\\', 'u', '1', '2'] ['\x12'] :=
    .short hlast.isCode (by decide) (Text.hexNumber?_eq_some.1 (by decide))
  have hkept : ∀ read, ¬Misread ['\\', 'u', '1', '2', '?', '?'] read := by
    rintro read (⟨hletter, hlength, -⟩ | _ | _ | _ | _)
    have hwidth : ∀ pair ∈ codeLetters, pair.2 ≤ 4 := by decide
    exact absurd (Nat.lt_of_lt_of_le hlength (hwidth _ hletter)) (by decide)
  exact ⟨hlast, (unescape_malformed hfront hlast).2 _ hmisread, hfollowed,
    (unescape_malformed hfront hfollowed).1.2 hkept⟩

end OpManifest.Script
