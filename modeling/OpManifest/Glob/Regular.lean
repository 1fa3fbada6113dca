/-!
# Regular expressions over bytes

A text is matched by following all the ways at once in which an expression can
go on: `Regular.partials` are the expressions that are left after one byte.
`Regular.accepts_iff` says that this decides membership in the language.
-/

namespace OpManifest.Glob

/-- A set of bytes: the ranges, with both ends included, or all other bytes. -/
structure ByteSet where
  negated : Bool
  ranges : List (UInt8 × UInt8)
  deriving DecidableEq, Repr

namespace ByteSet

/-- The byte is in the set. -/
def contains (s : ByteSet) (b : UInt8) : Bool :=
  (s.ranges.any fun r => r.1 ≤ b && b ≤ r.2) != s.negated

/-- The set of one byte. -/
def single (b : UInt8) : ByteSet := ⟨false, [(b, b)]⟩

/-- All bytes. -/
def all : ByteSet := ⟨true, []⟩

/-- All bytes but one. -/
def allBut (b : UInt8) : ByteSet := ⟨true, [(b, b)]⟩

end ByteSet

/-- A regular expression. -/
inductive Regular where
  | empty
  | byte (set : ByteSet)
  | append (first second : Regular)
  | either (first second : Regular)
  | star (repeated : Regular)
  deriving DecidableEq, Repr

namespace Regular

/-- The language of an expression. -/
inductive Language : Regular → List UInt8 → Prop where
  | empty : Language .empty []
  | byte {set b} (h : set.contains b = true) : Language (.byte set) [b]
  | append {r s u v} (hr : Language r u) (hs : Language s v) : Language (.append r s) (u ++ v)
  | left {r s u} (h : Language r u) : Language (.either r s) u
  | right {r s u} (h : Language s u) : Language (.either r s) u
  | done {r} : Language (.star r) []
  | more {r u v} (hr : Language r u) (hs : Language (.star r) v) : Language (.star r) (u ++ v)

/-- The empty text is in the language. -/
def isNullable : Regular → Bool
  | .empty | .star _ => true
  | .byte _ => false
  | .append r s => r.isNullable && s.isNullable
  | .either r s => r.isNullable || s.isNullable

/-- The first expression and then the second. -/
def before (second : Regular) : Regular → Regular
  | .empty => second
  | first => .append first second

/-- The expressions of which one has to match what follows the byte. -/
def partials (b : UInt8) : Regular → List Regular
  | .empty => []
  | .byte set => if set.contains b then [.empty] else []
  | .append r s =>
    (r.partials b).map (before s) ++ (if r.isNullable then s.partials b else [])
  | .either r s => r.partials b ++ s.partials b
  | .star r => (r.partials b).map (before (.star r))

/-- The expressions that are left of a list of expressions after a byte. -/
def advance (rs : List Regular) (b : UInt8) : List Regular :=
  (rs.flatMap (partials b)).eraseDups

/-- The text is in the language. -/
def accepts (r : Regular) (text : List UInt8) : Bool :=
  (text.foldl advance [r]).any isNullable

/-! ## Correctness -/

theorem isNullable_iff {r : Regular} : r.isNullable = true ↔ Language r [] := by
  induction r with
  | empty => simp [isNullable, Language.empty]
  | byte set =>
    simp only [isNullable, Bool.false_eq_true, false_iff]
    intro h
    cases h
  | append r s ihr ihs =>
    simp only [isNullable, Bool.and_eq_true, ihr, ihs]
    constructor
    · rintro ⟨hr, hs⟩
      exact Language.append hr hs
    · intro h
      generalize hw : ([] : List UInt8) = w at h
      cases h with
      | append hr hs =>
        obtain ⟨rfl, rfl⟩ := List.append_eq_nil_iff.1 hw.symm
        exact ⟨hr, hs⟩
  | either r s ihr ihs =>
    simp only [isNullable, Bool.or_eq_true, ihr, ihs]
    constructor
    · rintro (h | h)
      · exact .left h
      · exact .right h
    · intro h
      cases h with
      | left h => exact .inl h
      | right h => exact .inr h
  | star r _ => simp [isNullable, Language.done]

theorem language_before {r s : Regular} {text : List UInt8} :
    Language (before s r) text ↔ ∃ u v, text = u ++ v ∧ Language r u ∧ Language s v := by
  cases r with
  | empty =>
    constructor
    · exact fun h => ⟨[], text, rfl, .empty, h⟩
    · rintro ⟨u, v, rfl, hu, hv⟩
      cases hu
      exact hv
  | byte _ | append _ _ | either _ _ | star _ =>
    simp only [before]
    constructor
    · intro h
      cases h with
      | append hr hs => exact ⟨_, _, rfl, hr, hs⟩
    · rintro ⟨u, v, rfl, hu, hv⟩
      exact .append hu hv

theorem star_cons {r : Regular} {b : UInt8} {text : List UInt8}
    (h : Language (.star r) (b :: text)) :
    ∃ u v, text = u ++ v ∧ Language r (b :: u) ∧ Language (.star r) v := by
  generalize hs : Regular.star r = s at h
  generalize hw : b :: text = w at h
  induction h with
  | empty | byte _ | append _ _ | left _ | right _ => cases hs
  | done => cases hw
  | @more r' u v hr hv _ ih =>
    cases hs
    cases u with
    | nil => exact ih rfl hw
    | cons c u =>
      cases hw
      exact ⟨u, v, rfl, hr, hv⟩

theorem partials_iff {r : Regular} {b : UInt8} {text : List UInt8} :
    (∃ s ∈ r.partials b, Language s text) ↔ Language r (b :: text) := by
  induction r generalizing text with
  | empty =>
    simp only [partials, List.not_mem_nil, false_and, exists_false, false_iff]
    intro h
    cases h
  | byte set =>
    simp only [partials]
    constructor
    · rintro ⟨s, hs, ht⟩
      split at hs
      · rename_i hset
        simp only [List.mem_singleton] at hs
        subst hs
        cases ht
        exact .byte hset
      · cases hs
    · intro h
      cases h with
      | byte hset => exact ⟨.empty, by simp [hset], .empty⟩
  | append r s ihr ihs =>
    simp only [partials, List.mem_append, List.mem_map]
    constructor
    · rintro ⟨q, (⟨p, hp, rfl⟩ | hq), ht⟩
      · obtain ⟨u, v, rfl, hu, hv⟩ := language_before.1 ht
        exact .append (ihr.1 ⟨p, hp, hu⟩) hv
      · split at hq
        · rename_i hn
          exact .append (isNullable_iff.1 hn) (ihs.1 ⟨q, hq, ht⟩)
        · cases hq
    · intro h
      generalize hw : b :: text = w at h
      cases h with
      | @append _ _ u v hr hs =>
        cases u with
        | nil =>
          simp only [List.nil_append] at hw
          subst hw
          obtain ⟨q, hq, ht⟩ := ihs.2 hs
          exact ⟨q, .inr (by simp [isNullable_iff.2 hr, hq]), ht⟩
        | cons c u =>
          cases hw
          obtain ⟨p, hp, hu⟩ := ihr.2 hr
          exact ⟨_, .inl ⟨p, hp, rfl⟩, language_before.2 ⟨u, v, rfl, hu, hs⟩⟩
  | either r s ihr ihs =>
    simp only [partials, List.mem_append]
    constructor
    · rintro ⟨q, (hq | hq), ht⟩
      · exact .left (ihr.1 ⟨q, hq, ht⟩)
      · exact .right (ihs.1 ⟨q, hq, ht⟩)
    · intro h
      cases h with
      | left h =>
        obtain ⟨q, hq, ht⟩ := ihr.2 h
        exact ⟨q, .inl hq, ht⟩
      | right h =>
        obtain ⟨q, hq, ht⟩ := ihs.2 h
        exact ⟨q, .inr hq, ht⟩
  | star r ih =>
    simp only [partials, List.mem_map]
    constructor
    · rintro ⟨q, ⟨p, hp, rfl⟩, ht⟩
      obtain ⟨u, v, rfl, hu, hv⟩ := language_before.1 ht
      exact Language.more (ih.1 ⟨p, hp, hu⟩) hv
    · intro h
      obtain ⟨u, v, rfl, hu, hv⟩ := star_cons h
      obtain ⟨p, hp, hu⟩ := ih.2 hu
      exact ⟨_, ⟨p, hp, rfl⟩, language_before.2 ⟨u, v, rfl, hu, hv⟩⟩

theorem foldl_advance_iff {rs : List Regular} {text : List UInt8} :
    (text.foldl advance rs).any isNullable = true ↔ ∃ r ∈ rs, Language r text := by
  induction text generalizing rs with
  | nil => simp [isNullable_iff]
  | cons b text ih =>
    rw [List.foldl_cons, ih]
    simp only [advance, List.mem_eraseDups, List.mem_flatMap]
    constructor
    · rintro ⟨q, ⟨r, hr, hq⟩, ht⟩
      exact ⟨r, hr, partials_iff.1 ⟨q, hq, ht⟩⟩
    · rintro ⟨r, hr, ht⟩
      obtain ⟨q, hq, ht⟩ := partials_iff.2 ht
      exact ⟨q, ⟨r, hr, hq⟩, ht⟩

/-- Following all ways at once decides the language. -/
theorem accepts_iff {r : Regular} {text : List UInt8} :
    r.accepts text = true ↔ Language r text := by
  rw [accepts, foldl_advance_iff]
  simp

end Regular

end OpManifest.Glob
