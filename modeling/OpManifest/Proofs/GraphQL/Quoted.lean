import OpManifest.GraphQL.Printer
import OpManifest.Proofs.Digits
import OpManifest.Proofs.GraphQL.Lexing

/-!
# Printed strings between quotes

Which string a text between quotes is cut into.  A character stands for itself,
unless it is printed with its code: the code is printed with decimal digits, but
read with hexadecimal ones (`readBackChar`).  The string is read back if all its
characters are (`flatMap_readBackChar_iff`).
-/

namespace OpManifest.GraphQL

open Text (hexValue? hexNumber? charOfCode?)
open Printer (isPlain quotedChar)

/-! ## Characters between quotes -/

/-- The decimal digits of a code, at least four. -/
def codeDigits (c : Char) : List Char :=
  List.replicate (4 - (Nat.toDigits 10 c.toNat).length) '0' ++ Nat.toDigits 10 c.toNat

/-- The value of digits that are taken for hexadecimal ones. -/
def hexadecimal (digits : List Char) : Nat :=
  digits.foldl (fun value c => value * 16 + (c.toNat - '0'.toNat)) 0

/-- What a printed character is read back as: of the digits of a code the first
four are taken for a hexadecimal code, and the others for themselves. -/
def readBackChar (c : Char) : List Char :=
  if c = '\n' || isPlain c then [c]
  else .ofNat (hexadecimal ((codeDigits c).take 4)) :: (codeDigits c).drop 4

theorem isDigit_of_mem_codeDigits {c d : Char} (h : d ∈ codeDigits c) : d.isDigit = true := by
  rcases List.mem_append.1 h with hin | hin
  · rw [(List.mem_replicate.1 hin).2]
    decide
  · exact Text.isDigit_of_mem_toDigits hin

theorem four_le_length_codeDigits (c : Char) : 4 ≤ (codeDigits c).length := by
  rw [codeDigits, List.length_append, List.length_replicate]
  omega

theorem hexValue?_of_isDigit {c : Char} (h : c.isDigit = true) :
    hexValue? c = some (c.toNat - '0'.toNat) := by
  rw [hexValue?, if_pos h]

/-- Four decimal digits are the code of a character. -/
theorem readCodeUnit_of_isDigit {a b c d : Char} (ha : a.isDigit = true) (hb : b.isDigit = true)
    (hc : c.isDigit = true) (hd : d.isDigit = true) :
    Token.readCodeUnit a b c d = some (.ofNat (hexadecimal [a, b, c, d])) := by
  have hplus : a ≠ '+' := by
    rintro rfl
    exact absurd ha (by decide)
  have hsmall {c : Char} (h : c.isDigit = true) : c.toNat - '0'.toNat ≤ 9 := by
    have hcode := (Char.isDigit_iff_toNat.1 h).2
    have hcodes : '0'.toNat = 48 ∧ '9'.toNat = 57 := ⟨rfl, rfl⟩
    omega
  have hcode : hexadecimal [a, b, c, d] < 0xd800 := by
    have := hsmall ha
    have := hsmall hb
    have := hsmall hc
    have := hsmall hd
    simp only [hexadecimal, List.foldl_cons, List.foldl_nil]
    omega
  have hnumber : hexNumber? [a, b, c, d] = some (hexadecimal [a, b, c, d]) := by
    simp [hexNumber?, hexValue?_of_isDigit, ha, hb, hc, hd, hexadecimal]
  have hvalid : (hexadecimal [a, b, c, d]).isValidChar := .inl hcode
  rw [Token.readCodeUnit, if_neg hplus, hnumber]
  show charOfCode? (hexadecimal [a, b, c, d]) = _
  rw [charOfCode?, dif_pos hvalid, Char.ofNat, dif_pos hvalid]

/-- A character that is no quote, no backslash and no line feed is read as
itself. -/
theorem scanQuoted_cons {c : Char} (hquote : c ≠ '"') (hslash : c ≠ '\\') (hfeed : c ≠ '\n')
    (rest : List Char) :
    Token.scanQuoted (c :: rest) =
      (Token.scanQuoted rest).map fun found => (c :: found.1, found.2) := by
  rw [Token.scanQuoted.eq_def]
  split
  · simp_all
  · simp_all
  · simp_all
  · rename_i heq
    obtain ⟨rfl, rfl⟩ := List.cons.inj heq
    rw [if_neg (by simp [hfeed, hslash])]
    cases Token.scanQuoted rest <;> rfl
  · simp_all

theorem scanQuoted_digits {digits : List Char} (h : ∀ c ∈ digits, c.isDigit = true)
    (rest : List Char) :
    Token.scanQuoted (digits ++ rest) =
      (Token.scanQuoted rest).map fun found => (digits ++ found.1, found.2) := by
  induction digits with
  | nil => simp
  | cons c digits ih =>
    have hc := h c List.mem_cons_self
    have hother (d : Char) (hd : d.isDigit = false) : c ≠ d := by
      rintro rfl
      rw [hc] at hd
      cases hd
    rw [List.cons_append, scanQuoted_cons (hother '"' (by decide)) (hother '\\' (by decide))
      (hother '\n' (by decide)), ih fun d hd => h d (List.mem_cons_of_mem c hd)]
    cases Token.scanQuoted rest <;> rfl

theorem scanQuoted_code {a b c d : Char} (ha : a.isDigit = true) (hb : b.isDigit = true)
    (hc : c.isDigit = true) (hd : d.isDigit = true) (rest : List Char) :
    Token.scanQuoted ('\\' :: 'u' :: a :: b :: c :: d :: rest) =
      (Token.scanQuoted rest).map fun found =>
        (.ofNat (hexadecimal [a, b, c, d]) :: found.1, found.2) := by
  rw [Token.scanQuoted]
  simp only [readCodeUnit_of_isDigit ha hb hc hd, Option.bind_eq_bind, Option.bind_some]
  cases Token.scanQuoted rest <;> rfl

theorem scanQuoted_escape {c escaped : Char} (h : Token.simpleEscape c = some escaped)
    (rest : List Char) :
    Token.scanQuoted ('\\' :: c :: rest) =
      (Token.scanQuoted rest).map fun found => (escaped :: found.1, found.2) := by
  have hcode : c ≠ 'u' := by
    rintro rfl
    have hnone : Token.simpleEscape 'u' = none := by decide
    rw [hnone] at h
    cases h
  rw [Token.scanQuoted.eq_def]
  split
  · simp_all
  · simp_all
  · rename_i heq
    obtain ⟨-, htail⟩ := List.cons.inj heq
    obtain ⟨rfl, rfl⟩ := List.cons.inj htail
    simp only [h, Option.bind_eq_bind, Option.bind_some]
    cases Token.scanQuoted rest <;> rfl
  · rename_i hnot heq
    obtain ⟨rfl, rfl⟩ := List.cons.inj heq
    exact absurd rfl (hnot c rest rfl)
  · simp_all

theorem scanQuoted_quotedChar (c : Char) (rest : List Char) :
    Token.scanQuoted (quotedChar c ++ rest) =
      (Token.scanQuoted rest).map fun found => (readBackChar c ++ found.1, found.2) := by
  unfold quotedChar
  split
  · exact scanQuoted_escape rfl rest
  · exact scanQuoted_escape rfl rest
  · exact scanQuoted_escape rfl rest
  · exact scanQuoted_escape rfl rest
  · exact scanQuoted_escape rfl rest
  · rename_i hreturn hfeed htab hquote hslash
    by_cases hplain : isPlain c = true
    · rw [if_pos hplain, List.singleton_append, scanQuoted_cons hquote hslash hfeed, readBackChar,
        if_pos (by simp [hplain])]
      rfl
    · have hcond : ¬(c = '\n' || isPlain c) = true := by
        simpa [hplain] using hfeed
      rw [if_neg hplain, readBackChar, if_neg hcond]
      have hdigits : ∀ d ∈ codeDigits c, d.isDigit = true := fun d => isDigit_of_mem_codeDigits
      have hlength := four_le_length_codeDigits c
      show Token.scanQuoted (['\\', 'u'] ++ _ ++ _ ++ rest) = _
      rw [List.append_assoc ['\\', 'u'], ← codeDigits]
      show Token.scanQuoted ('\\' :: 'u' :: (codeDigits c ++ rest)) = _
      match hcode : codeDigits c with
      | a :: b :: d :: e :: more =>
        rw [hcode] at hdigits
        have hmore : ∀ other ∈ more, other.isDigit = true := fun other hother =>
          hdigits other (by simp [hother])
        show Token.scanQuoted ('\\' :: 'u' :: a :: b :: d :: e :: (more ++ rest)) = _
        rw [scanQuoted_code (hdigits a (by simp)) (hdigits b (by simp)) (hdigits d (by simp))
          (hdigits e (by simp)), scanQuoted_digits hmore]
        cases Token.scanQuoted rest <;> rfl
      | [] | [_] | [_, _] | [_, _, _] => simp [hcode] at hlength

theorem scanQuoted_text (text rest : List Char) :
    Token.scanQuoted (text.flatMap quotedChar ++ '"' :: rest) =
      some (text.flatMap readBackChar, rest) := by
  induction text with
  | nil => rw [List.flatMap_nil, List.nil_append, Token.scanQuoted, List.flatMap_nil]
  | cons c text ih =>
    rw [List.flatMap_cons, List.append_assoc, scanQuoted_quotedChar, ih]
    rfl

/-- No quoted character begins with a quote. -/
theorem head?_quotedChar (c : Char) : ∃ d cs, quotedChar c = d :: cs ∧ d ≠ '"' := by
  unfold quotedChar
  split
  · exact ⟨_, _, rfl, by decide⟩
  · exact ⟨_, _, rfl, by decide⟩
  · exact ⟨_, _, rfl, by decide⟩
  · exact ⟨_, _, rfl, by decide⟩
  · exact ⟨_, _, rfl, by decide⟩
  · rename_i hquote _
    split
    · exact ⟨_, _, rfl, hquote⟩
    · exact ⟨'\\', _, rfl, by decide⟩

theorem scan_quoted (text : List Char) {rest : List Char} (hrest : Boundary rest) :
    Token.scan ('"' :: (text.flatMap quotedChar ++ '"' :: rest)) =
      some (.string (.ofList (text.flatMap readBackChar)), rest) := by
  have hscan := scanQuoted_text text rest
  generalize hbody : text.flatMap quotedChar ++ '"' :: rest = body at hscan
  have hblock : ∀ tail, body ≠ '"' :: '"' :: tail := by
    rintro tail rfl
    cases text with
    | nil =>
      have hnext : rest = '"' :: tail := (List.cons.inj hbody).2
      have hends := hrest '"' (by simp [hnext])
      exact absurd hends (by decide)
    | cons c text =>
      obtain ⟨d, cs, hc, hd⟩ := head?_quotedChar c
      rw [List.flatMap_cons, hc] at hbody
      exact hd (List.cons.inj hbody).1
  unfold Token.scan
  split
  · simp_all
  · rename_i heq
    exact absurd (List.cons.inj heq).2 (hblock _)
  · rename_i heq
    obtain rfl := (List.cons.inj heq).2
    simp only [hscan]
    rfl
  · rename_i hquote heq
    exact absurd (List.cons.inj heq).1.symm hquote
  · simp_all

/-! ## Characters that are read back -/

/-- The character is read back from between quotes: it is shown as it is, or its
code has one digit. -/
def KeptChar (c : Char) : Prop := c = '\n' ∨ isPlain c = true ∨ c.toNat < 10
  deriving Decidable

theorem readBackChar_ne_nil (c : Char) : readBackChar c ≠ [] := by
  unfold readBackChar
  split <;> simp

theorem readBackChar_iff (c : Char) : readBackChar c = [c] ↔ KeptChar c := by
  unfold readBackChar KeptChar
  by_cases hshown : (c = '\n' || isPlain c) = true
  · rw [if_pos hshown]
    have hor : c = '\n' ∨ isPlain c = true := by simpa using hshown
    exact iff_of_true rfl (hor.imp_right .inl)
  · rw [if_neg hshown]
    obtain ⟨hfeed, hplain⟩ : c ≠ '\n' ∧ isPlain c = false := by simpa using hshown
    have hsmall : c.toNat < 32 ∨ 0xFFFF < c.toNat := by
      simp only [isPlain, Bool.or_eq_false_iff, Bool.and_eq_false_iff, decide_eq_false_iff_not]
        at hplain
      omega
    rcases hsmall with hsmall | hlarge
    · -- a control character: its code has one or two digits
      have hall : ∀ n < 32, hexadecimal ((List.replicate (4 - (Nat.toDigits 10 n).length) '0' ++
          Nat.toDigits 10 n).take 4) = n + 6 * (n / 10) ∧
          (Char.ofNat (n + 6 * (n / 10))).toNat = n + 6 * (n / 10) ∧
          (List.replicate (4 - (Nat.toDigits 10 n).length) '0' ++
            Nat.toDigits 10 n).drop 4 = [] := by
        decide
      obtain ⟨hvalue, hcode, hrest⟩ := hall c.toNat hsmall
      rw [← codeDigits] at hvalue hrest
      rw [hvalue, hrest]
      constructor
      · intro h
        rw [(List.cons.inj h).1] at hcode
        exact .inr (.inr (by omega))
      · rintro (rfl | hshow | hten)
        · exact absurd rfl hfeed
        · rw [hplain] at hshow
          cases hshow
        · rw [show c.toNat / 10 = 0 by omega, Nat.mul_zero, Nat.add_zero, Char.ofNat_toNat]
    · -- a character beyond the first plane: its code has at least five digits
      have hlong : 4 < (codeDigits c).length := by
        have hdigits : 4 < (Nat.toDigits 10 c.toNat).length := by
          apply Nat.lt_of_not_le
          intro hshort
          have := (Nat.length_toDigits_le_iff (b := 10) (by decide) (by decide)).1 hshort
          omega
        rw [codeDigits, List.length_append]
        omega
      constructor
      · intro h
        have hnone : (codeDigits c).drop 4 = [] := (List.cons.inj h).2
        rw [List.drop_eq_nil_iff] at hnone
        omega
      · rintro (rfl | hshow | hten)
        · exact absurd rfl hfeed
        · rw [hplain] at hshow
          cases hshow
        · omega

/-- A string between quotes is read back if all its characters are. -/
theorem flatMap_readBackChar_iff (text : List Char) :
    text.flatMap readBackChar = text ↔ ∀ c ∈ text, KeptChar c := by
  have hlength (text : List Char) : text.length ≤ (text.flatMap readBackChar).length := by
    induction text with
    | nil => simp
    | cons c text ih =>
      have hpos := List.length_pos_iff.2 (readBackChar_ne_nil c)
      rw [List.flatMap_cons, List.length_append, List.length_cons]
      omega
  induction text with
  | nil => simp
  | cons c text ih =>
    rw [List.flatMap_cons, List.forall_mem_cons, ← readBackChar_iff]
    constructor
    · intro h
      obtain ⟨d, more, hback⟩ := List.exists_cons_of_ne_nil (readBackChar_ne_nil c)
      rw [hback, List.cons_append] at h
      obtain ⟨rfl, hrest⟩ := List.cons.inj h
      -- the rest is not longer than it was, so nothing was added
      have hmore : more = [] := by
        have hle := hlength text
        have hsame := congrArg List.length hrest
        rw [List.length_append] at hsame
        exact List.length_eq_zero_iff.1 (by omega)
      rw [hmore] at hback hrest
      exact ⟨hback, ih.1 hrest⟩
    · rintro ⟨hc, hrest⟩
      rw [hc, ih.2 hrest]
      rfl

end OpManifest.GraphQL
