import OpManifest.GraphQL.Document
import OpManifest.Proofs.Decimal
import OpManifest.Proofs.GraphQL.Lexing

/-!
# Printed numbers

Which token a printed number is cut into.  A whole number of 64 bits is read back.
A double precision number is printed without an exponent, and without a point if
it is whole: so it is read back exactly if it is finite and not whole
(`readNumber_text_iff`).
-/

namespace OpManifest.GraphQL

open Decimal (Binary64 Fraction)
open Text (digitsValue)

/-! ## Tokens of numbers -/

/-- A number begins with a sign or a digit. -/
def IsNumberStart (c : Char) : Prop := c = '-' ∨ c.isDigit = true

theorem IsNumberStart.not_mem {c : Char} (h : IsNumberStart c) (others : List Char)
    (hothers : others.all (fun other => other ≠ '-' && !other.isDigit) = true) : c ∉ others := by
  intro hmem
  have hother := List.all_eq_true.1 hothers c hmem
  obtain ⟨hsign, hdigit⟩ : c ≠ '-' ∧ c.isDigit = false := by simpa using hother
  rcases h with hc | hc
  · exact hsign hc
  · rw [hdigit] at hc
    cases hc

theorem IsNumberStart.isIgnored {c : Char} (h : IsNumberStart c) : Lexemes.isIgnored c = false := by
  have hnot := h.not_mem " \t\n\r,\uFEFF".toList (by decide)
  simpa [Lexemes.isIgnored] using hnot

theorem isNameStart_of_isDigit {c : Char} (h : c.isDigit = true) : Token.isNameStart c = false := by
  have hcode := Char.isDigit_iff_toNat.1 h
  have hscore : c ≠ '_' := by
    rintro rfl
    exact absurd h (by decide)
  show (decide (c.val ≥ 'A'.val ∧ c.val ≤ 'Z'.val) ||
    decide (c.val ≥ 'a'.val) && decide (c.val ≤ 'z'.val) || decide (c = '_')) = false
  simp only [hscore, decide_false, Bool.or_false, Bool.or_eq_false_iff, Bool.and_eq_false_iff,
    decide_eq_false_iff_not, UInt32.le_iff_toNat_le, ge_iff_le]
  have hvalue : c.val.toNat = c.toNat := rfl
  have hzero : '0'.toNat = 48 := rfl
  have hnine : '9'.toNat = 57 := rfl
  have hupper : 'A'.val.toNat = 65 := rfl
  have hlower : 'a'.val.toNat = 97 := rfl
  omega

theorem scan_number {c : Char} (hc : IsNumberStart c) (rest : List Char) :
    Token.scan (c :: rest) =
      (Token.readNumber (c :: rest.takeWhile (!Token.endsNumber ·))).map
        (·, rest.dropWhile (!Token.endsNumber ·)) := by
  have hmark : Token.isPunctuator c = false := by
    simpa [Token.isPunctuator] using hc.not_mem "!$:=@|&()[]{}".toList (by decide)
  have hname : Token.isNameStart c = false := by
    rcases hc with rfl | hdigit
    · decide
    · exact isNameStart_of_isDigit hdigit
  have hstart : (c = '-' || c.isDigit) = true := by simpa [IsNumberStart] using hc
  have hdot : c ≠ '.' := by
    rintro rfl
    exact absurd hstart (by decide)
  have hquote : c ≠ '"' := by
    rintro rfl
    exact absurd hstart (by decide)
  unfold Token.scan
  split
  · simp_all
  · simp_all
  · simp_all
  · rename_i other tail _ _ _ heq
    obtain ⟨rfl, rfl⟩ := List.cons.inj heq
    simp only [hmark, hname, hstart, Bool.false_eq_true, ↓reduceIte]
    cases Token.readNumber (c :: rest.takeWhile (!Token.endsNumber ·)) <;> rfl
  · simp_all

/-- A text that begins like a number and goes on to its end is read as one. -/
theorem lexes_number {text : String} {c : Char} {cs : List Char} (htext : text.toList = c :: cs)
    (hc : IsNumberStart c) (hcs : ∀ d ∈ cs, Token.endsNumber d = false) :
    Lexes Boundary text ((Token.readNumber text.toList).map ([·])) := by
  intro rest hrest
  have hcomment : c ≠ '#' := by
    simpa using hc.not_mem ['#'] (by decide)
  have hgoes : cs.all (!Token.endsNumber ·) = true := by simpa using hcs
  obtain ⟨htake, hdrop⟩ := takeWhile_dropWhile_append rest hgoes fun d hd => by
    simp [hrest d hd]
  have hscan := scan_number hc (cs ++ rest)
  rw [htake, hdrop] at hscan
  rw [htext, List.cons_append]
  cases hread : Token.readNumber (c :: cs) with
  | none =>
    rw [hread] at hscan
    rw [tokens?_none hc.isIgnored hcomment hscan]
    rfl
  | some token =>
    rw [hread] at hscan
    rw [tokens?_token hc.isIgnored hcomment hscan]
    cases tokens? rest <;> rfl

theorem isWhole_toDigits (n : Nat) : Token.isWhole (Nat.toDigits 10 n) = true := by
  have hdigits : (Nat.toDigits 10 n).all Char.isDigit = true :=
    List.all_eq_true.2 fun c hc => Text.isDigit_of_mem_toDigits hc
  rcases Nat.eq_zero_or_pos n with rfl | hpos
  · decide
  · have hhead := Text.head?_toDigits hpos
    unfold Token.isWhole
    split
    · exact absurd ‹_› Nat.toDigits_ne_nil
    · rfl
    · rename_i heq
      simp [heq] at hhead
    · exact hdigits

/-- The decimal text of a whole number. -/
theorem toList_toString (n : Int) :
    (toString n).toList = (if n < 0 then ['-'] else []) ++ Nat.toDigits 10 n.natAbs := by
  show n.repr.toList = _
  rw [Int.repr_eq_if]
  split
  · rw [if_neg (by omega), Nat.toList_repr, List.nil_append]
    congr 1
    omega
  · rw [if_pos (by omega), String.toList_append, Nat.toList_repr]
    congr 2
    omega

theorem endsNumber_of_isDigit {c : Char} (h : c.isDigit = true) : Token.endsNumber c = false := by
  have hnot := IsNumberStart.not_mem (.inr h) " \n\r\t,#!$:=@|&()[]{}".toList (by decide)
  simpa [Token.endsNumber] using hnot

theorem not_float_of_isDigit {c : Char} (h : c.isDigit = true) :
    (c = '.' || Token.isExponentMark c) = false := by
  have hnot := IsNumberStart.not_mem (.inr h) ['.', 'e', 'E'] (by decide)
  simpa [Token.isExponentMark, not_or] using hnot

theorem readInt_toString {n : Int} (hlow : -0x8000000000000000 ≤ n)
    (hhigh : n < 0x8000000000000000) : Token.readInt (toString n).toList = some n := by
  have hsplit :
      Token.splitSign (toString n).toList = (decide (n < 0), Nat.toDigits 10 n.natAbs) := by
    rw [toList_toString]
    by_cases hn : n < 0
    · simp [hn, Token.splitSign]
    · rw [if_neg hn, List.nil_append]
      unfold Token.splitSign
      split
      · rename_i tail heq
        have hsign : '-' ∈ Nat.toDigits 10 n.natAbs := by simp [heq]
        exact absurd (Text.isDigit_of_mem_toDigits hsign) (by decide)
      · simp [hn]
  simp only [Token.readInt, hsplit, isWhole_toDigits, Text.digitsValue_toDigits, decide_eq_true_eq]
  have hvalue : (if n < 0 then -(n.natAbs : Int) else n.natAbs) = n := by
    split <;> omega
  rw [hvalue]
  simp [hlow, hhigh]

/-- A whole number that fits into 64 bits is read back. -/
theorem lexes_int {n : Int} (hlow : -0x8000000000000000 ≤ n) (hhigh : n < 0x8000000000000000) :
    Lexes Boundary (toString n) (some [.int n]) := by
  have hdigits : ∀ c ∈ Nat.toDigits 10 n.natAbs, c.isDigit = true :=
    fun c hc => Text.isDigit_of_mem_toDigits hc
  obtain ⟨c, cs, htext, hc, hcs⟩ : ∃ c cs, (toString n).toList = c :: cs ∧ IsNumberStart c ∧
      ∀ d ∈ cs, d.isDigit = true := by
    rw [toList_toString]
    split
    · exact ⟨'-', _, rfl, .inl rfl, hdigits⟩
    · obtain ⟨c, cs, hcons⟩ :=
        List.exists_cons_of_ne_nil (Nat.toDigits_ne_nil (n := n.natAbs) (b := 10))
      rw [hcons] at hdigits ⊢
      exact ⟨c, cs, rfl, .inr (hdigits c List.mem_cons_self),
        fun d hd => hdigits d (List.mem_cons_of_mem c hd)⟩
  have hread : Token.readNumber (toString n).toList = some (.int n) := by
    have hint := readInt_toString hlow hhigh
    have hfloat : ∀ d ∈ cs, (d = '.' || Token.isExponentMark d) = false :=
      fun d hd => not_float_of_isDigit (hcs d hd)
    rw [htext] at hint ⊢
    rw [Token.readNumber, if_neg, hint]
    · rfl
    · simpa using hfloat
  have hlexes := lexes_number htext hc fun d hd => endsNumber_of_isDigit (hcs d hd)
  rwa [hread] at hlexes

/-! ## Double precision numbers -/

theorem isWhole_of_positional {whole part : List Char} (h : Fraction.Notation whole part) :
    Token.isWhole whole = true := by
  have hall : whole.all Char.isDigit = true :=
    List.all_eq_true.2 fun c hc => h.digits c (List.mem_append_left _ hc)
  unfold Token.isWhole
  split
  · exact absurd rfl h.nonempty
  · rfl
  · rename_i hnot
    exact absurd (List.cons.inj (h.zero rfl)).2 fun hnil => hnot (by rw [hnil])
  · exact hall

theorem splitSign_of_positional (negative : Bool) {whole part : List Char}
    (h : Fraction.Notation whole part) (rest : List Char) :
    Token.splitSign ((if negative then ['-'] else []) ++ whole ++ rest) =
      (negative, whole ++ rest) := by
  cases negative with
  | true => rfl
  | false =>
    obtain ⟨c, cs, hwhole⟩ := List.exists_cons_of_ne_nil h.nonempty
    have hdigit := h.digits c (by simp [hwhole])
    have hsign : c ≠ '-' := by
      rintro rfl
      exact absurd hdigit (by decide)
    simp only [hwhole, Bool.false_eq_true, ↓reduceIte, List.nil_append, List.cons_append]
    unfold Token.splitSign
    split
    · rename_i heq
      exact absurd (List.cons.inj heq).1 hsign
    · rfl

/-- Digits with a point among them are read as the fraction that they show. -/
theorem readFloat_of_positional (negative : Bool) {whole part : List Char}
    (h : Fraction.Notation whole part) (hpart : part ≠ []) :
    Token.readFloat ((if negative then ['-'] else []) ++ whole ++ '.' :: part) =
      some (.ofFraction ⟨negative, digitsValue (whole ++ part), -(part.length : Int)⟩) := by
  have hnot (c : Char) (hc : c ∈ whole ++ part) : c ≠ '.' ∧ Token.isExponentMark c = false := by
    simpa using not_float_of_isDigit (h.digits c hc)
  have hmark : (whole ++ '.' :: part).all (!Token.isExponentMark ·) = true := by
    apply List.all_eq_true.2
    intro c hc
    rcases List.mem_append.1 hc with hin | hin
    · simp [(hnot c (by simp [hin])).2]
    · rcases List.mem_cons.1 hin with rfl | hin
      · decide
      · simp [(hnot c (by simp [hin])).2]
  have hwhole : whole.all (fun c => decide (c ≠ '.')) = true :=
    List.all_eq_true.2 fun c hc => by simp [(hnot c (by simp [hc])).1]
  have hall : part.all Char.isDigit = true :=
    List.all_eq_true.2 fun c hc => h.digits c (List.mem_append_right _ hc)
  obtain ⟨hmantissa, hexponent⟩ := takeWhile_dropWhile_append [] hmark (by simp)
  obtain ⟨hbefore, hafter⟩ := takeWhile_dropWhile_append ('.' :: part) hwhole (by simp)
  rw [List.append_nil] at hmantissa hexponent
  have hempty : part.isEmpty = false := by simpa using hpart
  unfold Token.readFloat
  simp only [splitSign_of_positional negative h, hmantissa, hexponent, hbefore, hafter, hall,
    hempty, isWhole_of_positional h]
  simp

/-- The text of a finite number: an optional sign, digits, and a point with more
digits if the number is not whole. -/
theorem text_eq {negative : Bool} {mantissa : Nat} {exponent : Int}
    (hnormal : (Binary64.finite negative mantissa exponent).Normal) :
    ∃ sign whole part, (Binary64.finite negative mantissa exponent).text.toList =
        (if sign then ['-'] else []) ++ whole ++ (if part.isEmpty then [] else '.' :: part) ∧
      Fraction.Notation whole part ∧
      (part = [] ↔ (Binary64.finite negative mantissa exponent).IsWhole) ∧
      Binary64.ofFraction ⟨sign, digitsValue (whole ++ part), -(part.length : Int)⟩ =
        .finite negative mantissa exponent := by
  obtain ⟨whole, part, htext, hform, hmagnitude⟩ :=
    (Binary64.shortest negative mantissa exponent).positional_eq
  refine ⟨(Binary64.shortest negative mantissa exponent).negative, whole, part, ?_, hform, ?_, ?_⟩
  · rw [Binary64.text, String.toList_ofList, htext]
  · rw [← Fraction.isWhole_iff_part hform hmagnitude, Binary64.isWhole_shortest_iff hnormal]
  · rw [← Binary64.ofFraction_shortest hnormal]
    refine Binary64.ofFraction_congr rfl ?_
    rw [hmagnitude, Fraction.magnitude]
    simp only [zpow_neg, zpow_natCast]
    rfl

/-- A finite number is read back from its text if it is not whole. -/
theorem readNumber_text_iff {negative : Bool} {mantissa : Nat} {exponent : Int}
    (hnormal : (Binary64.finite negative mantissa exponent).Normal) :
    Token.readNumber (Binary64.finite negative mantissa exponent).text.toList =
        some (.float (.finite negative mantissa exponent)) ↔
      ¬(Binary64.finite negative mantissa exponent).IsWhole := by
  obtain ⟨sign, whole, part, htext, hform, hwhole, hread⟩ := text_eq hnormal
  rw [← hwhole, htext]
  by_cases hpart : part = []
  · -- digits alone are read as an integer, if at all
    have hnone : (((if sign then ['-'] else []) ++ whole ++ []).tail.any
        fun c => c = '.' || Token.isExponentMark c) = false := by
      apply List.any_eq_false.2
      intro c hc
      have hin : c ∈ (if sign then ['-'] else []) ++ whole := by
        simpa using List.mem_of_mem_tail hc
      rcases List.mem_append.1 hin with hsign | hdigit
      · cases sign with
        | false => simp at hsign
        | true =>
          rw [List.mem_singleton.1 hsign]
          decide
      · simp [not_float_of_isDigit (hform.digits c (by simp [hdigit]))]
    subst hpart
    simp only [List.isEmpty_nil, ↓reduceIte, Token.readNumber, hnone, Bool.false_eq_true]
    cases Token.readInt ((if sign then ['-'] else []) ++ whole ++ []) <;> simp
  · have hempty : part.isEmpty = false := by simpa using hpart
    have hsome : (((if sign then ['-'] else []) ++ whole ++ '.' :: part).tail.any
        fun c => c = '.' || Token.isExponentMark c) = true := by
      rw [List.tail_append_of_ne_nil (by simp [hform.nonempty])]
      simp
    simp only [hempty, Bool.false_eq_true, ↓reduceIte, Token.readNumber, hsome,
      readFloat_of_positional sign hform hpart, hread]
    simpa using hpart

/-- The token that a printed double precision number is cut into. -/
def floatToken (number : Binary64) : Option Token :=
  match number with
  | .infinite false | .notANumber => some (.name number.text)
  | _ => Token.readNumber number.text.toList

/-- A printed number is cut into a number or one of two names. -/
theorem floatToken_cases {number : Binary64} {token : Token} (h : floatToken number = some token) :
    (∃ whole, token = .int whole) ∨ (∃ other, token = .float other) ∨
      token = .name "inf" ∨ token = .name "NaN" := by
  unfold floatToken at h
  split at h
  · exact .inr (.inr (.inl (Option.some.inj h).symm))
  · exact .inr (.inr (.inr (Option.some.inj h).symm))
  · unfold Token.readNumber at h
    split at h
    · obtain ⟨other, -, rfl⟩ := Option.map_eq_some_iff.1 h
      exact .inr (.inl ⟨other, rfl⟩)
    · obtain ⟨whole, -, rfl⟩ := Option.map_eq_some_iff.1 h
      exact .inl ⟨whole, rfl⟩

theorem lexes_float (number : Binary64) :
    Lexes Boundary number.text ((floatToken number).map ([·])) := by
  cases number with
  | notANumber => exact lexes_name (by decide)
  | infinite negative =>
    cases negative with
    | false => exact lexes_name (by decide)
    | true =>
      have htext : (Binary64.infinite true).text.toList = '-' :: ['i', 'n', 'f'] := rfl
      have hletters : ['i', 'n', 'f'].all (!Token.endsNumber ·) = true := by decide
      exact lexes_number htext (.inl rfl) (by simpa using hletters)
  | finite negative mantissa exponent =>
    obtain ⟨whole, part, htext, hform, -⟩ :=
      (Binary64.shortest negative mantissa exponent).positional_eq
    have hends : ∀ c ∈ whole ++ (if part.isEmpty then [] else '.' :: part),
        Token.endsNumber c = false := by
      intro c hc
      rcases List.mem_append.1 hc with hin | hin
      · exact endsNumber_of_isDigit (hform.digits c (by simp [hin]))
      · split at hin
        · simp at hin
        · rcases List.mem_cons.1 hin with rfl | hin
          · decide
          · exact endsNumber_of_isDigit (hform.digits c (by simp [hin]))
    have hlist : (Binary64.finite negative mantissa exponent).text.toList = _ :=
      (String.toList_ofList).trans htext
    cases hsign : (Binary64.shortest negative mantissa exponent).negative with
    | true =>
      rw [hsign] at hlist
      exact lexes_number hlist (.inl rfl) hends
    | false =>
      obtain ⟨c, cs, hcons⟩ := List.exists_cons_of_ne_nil hform.nonempty
      rw [hsign, hcons] at hlist
      rw [hcons] at hends
      refine lexes_number hlist (.inr (hform.digits c (by simp [hcons]))) fun d hd => ?_
      exact hends d (List.mem_cons_of_mem c hd)

end OpManifest.GraphQL
