import Mathlib.Algebra.Ring.Nat
import Mathlib.Data.List.Induction
import OpManifest.Text.Digit

/-!
# Hexadecimal numerals

A number is written with hexadecimal digits in lower or upper case, with any
number of zeros before them (`HexNumeral`, `hexDigits`).  It is read from these
numerals and from no other text (`hexNumber?_eq_some`), and a character from its
code (`charOfCode?_eq_some`).
-/

namespace OpManifest.Text

/-- The character is a hexadecimal digit with the value. -/
def HexDigit (c : Char) (value : Nat) : Prop :=
  "0123456789abcdef".toList[value]? = some c ∨ "0123456789ABCDEF".toList[value]? = some c

instance (c : Char) (value : Nat) : Decidable (HexDigit c value) :=
  inferInstanceAs (Decidable (_ ∨ _))

/-- The digits write the number.  There is at least one. -/
inductive HexNumeral : List Char → Nat → Prop where
  | digit {c : Char} {value : Nat} (h : HexDigit c value) : HexNumeral [c] value
  | snoc {digits : List Char} {number : Nat} {c : Char} {value : Nat}
    (hdigits : HexNumeral digits number) (h : HexDigit c value) :
    HexNumeral (digits ++ [c]) (number * 16 + value)

/-! ## Digits -/

theorem hexDigit_of_hexValue? {c : Char} {value : Nat} (h : hexValue? c = some value) :
    HexDigit c value := by
  have hlt : c.toNat < 128 := by
    unfold hexValue? at h
    split at h
    · rename_i hdigit
      simp only [Char.isDigit, Bool.and_eq_true, decide_eq_true_eq,
        UInt32.le_iff_toNat_le] at hdigit
      exact Nat.lt_of_le_of_lt hdigit.2 (by decide)
    · split at h
      · rename_i hlower
        simp only [Bool.and_eq_true, decide_eq_true_eq, Char.le_def,
          UInt32.le_iff_toNat_le] at hlower
        exact Nat.lt_of_le_of_lt hlower.2 (by decide)
      · split at h
        · rename_i hupper
          simp only [Bool.and_eq_true, decide_eq_true_eq, Char.le_def,
            UInt32.le_iff_toNat_le] at hupper
          exact Nat.lt_of_le_of_lt hupper.2 (by decide)
        · cases h
  have hall : ∀ n < 128, ∀ value ∈ hexValue? (Char.ofNat n), HexDigit (Char.ofNat n) value := by
    decide
  have hc := hall c.toNat hlt value
  rw [Char.ofNat_toNat] at hc
  exact hc h

theorem hexValue?_eq_some {c : Char} {value : Nat} :
    hexValue? c = some value ↔ HexDigit c value := by
  refine ⟨hexDigit_of_hexValue?, fun h => ?_⟩
  have hlower : ∀ n < 16, "0123456789abcdef".toList[n]?.bind hexValue? = some n := by decide
  have hupper : ∀ n < 16, "0123456789ABCDEF".toList[n]?.bind hexValue? = some n := by decide
  rcases h with hc | hc
  · have hvalue := hlower value (List.getElem?_eq_some_iff.1 hc).1
    rwa [hc, Option.bind_some] at hvalue
  · have hvalue := hupper value (List.getElem?_eq_some_iff.1 hc).1
    rwa [hc, Option.bind_some] at hvalue

theorem hexDigit_digitChar {value : Nat} (h : value < 16) :
    HexDigit (Nat.digitChar value) value := by
  have hall : ∀ n < 16, HexDigit (Nat.digitChar n) n := by decide
  exact hall value h

/-! ## Numerals -/

theorem HexNumeral.ne_nil {digits : List Char} {number : Nat} (h : HexNumeral digits number) :
    digits ≠ [] := by
  cases h <;> simp

theorem HexNumeral.hexDigit_of_mem {digits : List Char} {number : Nat}
    (h : HexNumeral digits number) {c : Char} (hc : c ∈ digits) : ∃ value, HexDigit c value := by
  induction h with
  | digit h =>
    obtain rfl := List.mem_singleton.1 hc
    exact ⟨_, h⟩
  | snoc _ h ih =>
    rcases List.mem_append.1 hc with hc | hc
    · exact ih hc
    · obtain rfl := List.mem_singleton.1 hc
      exact ⟨_, h⟩

theorem hexNumber?_singleton (c : Char) : hexNumber? [c] = hexValue? c := by
  have hfold : hexNumber? [c] = (0 * 16 + ·) <$> hexValue? c := bind_pure _
  rw [hfold]
  cases hexValue? c <;> simp

/-- One more digit. -/
theorem hexNumber?_concat {digits : List Char} (hne : digits ≠ []) (c : Char) :
    hexNumber? (digits ++ [c]) =
      (hexNumber? digits).bind fun number => (number * 16 + ·) <$> hexValue? c := by
  have hempty : digits.isEmpty = false := List.isEmpty_eq_false_iff.2 hne
  have hlonger : (digits ++ [c]).isEmpty = false := by simp
  simp only [hexNumber?, hempty, hlonger, Bool.false_eq_true, if_false, List.foldlM_append,
    List.foldlM_cons, List.foldlM_nil, bind_pure]
  rfl

/-- A number is read from what writes it. -/
theorem hexNumber?_eq_some {digits : List Char} {number : Nat} :
    hexNumber? digits = some number ↔ HexNumeral digits number := by
  constructor
  · intro h
    induction digits using List.reverseRecOn generalizing number with
    | nil => cases h
    | append_singleton digits c ih =>
      by_cases hne : digits = []
      · subst hne
        rw [List.nil_append, hexNumber?_singleton] at h
        exact .digit (hexValue?_eq_some.1 h)
      · rw [hexNumber?_concat hne] at h
        obtain ⟨front, hfront, h⟩ := Option.bind_eq_some_iff.1 h
        obtain ⟨value, hvalue, rfl⟩ := Option.map_eq_some_iff.1 h
        exact .snoc (ih hfront) (hexValue?_eq_some.1 hvalue)
  · intro h
    induction h with
    | digit h => rw [hexNumber?_singleton, hexValue?_eq_some.2 h]
    | snoc hdigits h ih =>
      rw [hexNumber?_concat hdigits.ne_nil, ih, hexValue?_eq_some.2 h]
      rfl

/-- The last digits of the number, as many as asked for. -/
def hexDigits : Nat → Nat → List Char
  | 0, _ => []
  | width + 1, number => hexDigits width (number / 16) ++ [Nat.digitChar (number % 16)]

theorem length_hexDigits (width number : Nat) : (hexDigits width number).length = width := by
  induction width generalizing number with
  | zero => rfl
  | succ width ih => rw [hexDigits, List.length_append, ih, List.length_singleton]

/-- A number is written with any number of digits that suffices. -/
theorem hexNumeral_hexDigits {width number : Nat} (hwidth : 0 < width) (h : number < 16 ^ width) :
    HexNumeral (hexDigits width number) number := by
  have hdigit (n : Nat) : HexDigit (Nat.digitChar (n % 16)) (n % 16) :=
    hexDigit_digitChar (Nat.mod_lt n (by decide))
  induction width generalizing number with
  | zero => cases hwidth
  | succ width ih =>
    rw [hexDigits]
    by_cases hlast : width = 0
    · subst hlast
      rw [Nat.zero_add, Nat.pow_one] at h
      rw [hexDigits, List.nil_append]
      have hnumber := hdigit number
      rw [Nat.mod_eq_of_lt h] at hnumber ⊢
      exact .digit hnumber
    · have hfront : HexNumeral (hexDigits width (number / 16)) (number / 16) := by
        apply ih (Nat.pos_of_ne_zero hlast)
        rw [Nat.pow_succ] at h
        exact Nat.div_lt_of_lt_mul (Nat.mul_comm _ _ ▸ h)
      have hsnoc := hfront.snoc (hdigit number)
      rwa [Nat.div_add_mod' number 16] at hsnoc

/-! ## Codes -/

/-- A character is named by its code and by no other. -/
theorem charOfCode?_eq_some {code : Nat} {c : Char} :
    charOfCode? code = some c ↔ c.toNat = code := by
  unfold charOfCode?
  constructor
  · intro h
    by_cases hvalid : code.isValidChar
    · rw [dif_pos hvalid] at h
      obtain rfl := Option.some.inj h
      exact UInt32.toNat_ofNatLT
    · rw [dif_neg hvalid] at h
      cases h
  · rintro rfl
    have hvalid : c.toNat.isValidChar := c.valid
    rw [dif_pos hvalid, Option.some.injEq, ← Char.toNat_inj]
    exact UInt32.toNat_ofNatLT

end OpManifest.Text
