/-!
# Parts of a text by bytes

A place in a text is given by the number of bytes before it.  Not every number
is a place: a character may take several bytes, and nothing begins inside it.
-/

namespace OpManifest.Text

/-- The number of bytes that characters take. -/
def byteCount : List Char → Nat
  | [] => 0
  | c :: cs => c.utf8Size + byteCount cs

/-- Splits a text after a number of bytes, unless that is inside a character or
behind the end. -/
def splitBytes? : Nat → List Char → Option (List Char × List Char)
  | 0, cs => some ([], cs)
  | _ + 1, [] => none
  | size + 1, c :: cs =>
    if c.utf8Size ≤ size + 1 then
      (splitBytes? (size + 1 - c.utf8Size) cs).map fun (front, back) => (c :: front, back)
    else none

/-- The part of a text between two places. -/
def slice? (text : List Char) (start stop : Nat) : Option (List Char) :=
  if start ≤ stop then do
    let (_, behind) ← splitBytes? start text
    let (part, _) ← splitBytes? (stop - start) behind
    return part
  else none

theorem byteCount_append (front back : List Char) :
    byteCount (front ++ back) = byteCount front + byteCount back := by
  induction front with
  | nil => simp [byteCount]
  | cons c front ih => rw [List.cons_append, byteCount, ih, byteCount, Nat.add_assoc]

@[simp]
theorem byteCount_nil : byteCount [] = 0 := rfl

@[simp]
theorem byteCount_cons (c : Char) (cs : List Char) :
    byteCount (c :: cs) = c.utf8Size + byteCount cs := rfl

theorem splitBytes?_eq_some {size : Nat} {cs front back : List Char} :
    splitBytes? size cs = some (front, back) ↔ cs = front ++ back ∧ byteCount front = size := by
  fun_induction splitBytes? size cs generalizing front with
  | case1 cs =>
    constructor
    · rintro ⟨⟩
      exact ⟨rfl, rfl⟩
    · rintro ⟨rfl, hsize⟩
      cases front with
      | nil => rfl
      | cons c front =>
        have := c.utf8Size_pos
        rw [byteCount_cons] at hsize
        omega
  | case2 size =>
    constructor
    · intro h
      cases h
    · rintro ⟨hnil, hsize⟩
      obtain ⟨rfl, -⟩ := List.append_eq_nil_iff.1 hnil.symm
      cases hsize
  | case3 size c cs hfits ih =>
    rw [Option.map_eq_some_iff]
    constructor
    · rintro ⟨⟨rest, behind⟩, hrest, heq⟩
      obtain ⟨rfl, rfl⟩ := Prod.mk.inj heq
      obtain ⟨rfl, hcount⟩ := ih.1 hrest
      refine ⟨rfl, ?_⟩
      rw [byteCount_cons]
      omega
    · rintro ⟨heq, hsize⟩
      cases front with
      | nil => cases hsize
      | cons d front =>
        obtain ⟨rfl, rfl⟩ := List.cons.inj heq
        rw [byteCount_cons] at hsize
        exact ⟨(front, back), ih.2 ⟨rfl, by omega⟩, rfl⟩
  | case4 size c cs hlarge =>
    constructor
    · intro h
      cases h
    · rintro ⟨heq, hsize⟩
      cases front with
      | nil => cases hsize
      | cons d front =>
        obtain ⟨rfl, rfl⟩ := List.cons.inj heq
        rw [byteCount_cons] at hsize
        omega

/-- A part between two places has the rest of the text around it. -/
theorem slice?_eq_some {text part : List Char} {start stop : Nat} :
    slice? text start stop = some part ↔ ∃ front back, text = front ++ (part ++ back) ∧
      byteCount front = start ∧ start + byteCount part = stop := by
  constructor
  · intro h
    unfold slice? at h
    split at h
    · rename_i hle
      obtain ⟨⟨front, behind⟩, hfront, h⟩ := Option.bind_eq_some_iff.1 h
      obtain ⟨⟨found, back⟩, hfound, h⟩ := Option.bind_eq_some_iff.1 h
      obtain rfl := Option.some.inj h
      obtain ⟨rfl, hstart⟩ := splitBytes?_eq_some.1 hfront
      obtain ⟨rfl, hsize⟩ := splitBytes?_eq_some.1 hfound
      exact ⟨front, back, rfl, hstart, by omega⟩
    · cases h
  · rintro ⟨front, back, rfl, rfl, rfl⟩
    have hfront : splitBytes? (byteCount front) (front ++ (part ++ back)) =
        some (front, part ++ back) := splitBytes?_eq_some.2 ⟨rfl, rfl⟩
    have hpart : splitBytes? (byteCount front + byteCount part - byteCount front)
        (part ++ back) = some (part, back) := splitBytes?_eq_some.2 ⟨rfl, by omega⟩
    rw [slice?, if_pos (Nat.le_add_right _ _), hfront]
    simp only [Option.bind_eq_bind, Option.bind_some, hpart]
    rfl

end OpManifest.Text
