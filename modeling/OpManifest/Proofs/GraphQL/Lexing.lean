import Mathlib.Data.Option.NAry
import OpManifest.GraphQL.Lexeme

/-!
# Cutting a text that was put together

A printed text is put together from pieces, and each piece is cut into tokens on
its own: blanks and punctuators whatever follows them, names and numbers if the
text goes on with a character that ends them.  `Lexes` says this of one piece,
and `Lexes.append` of two pieces side by side.  A piece that begins no token
spoils the whole text; its tokens are `none`.
-/

namespace OpManifest.GraphQL

/-! ## One step of the cut -/

namespace Lexemes

variable {p : Position} {c : Char} {rest tail : List Char}

theorem scan_nil : scan p [] = ⟨[], p, true⟩ := by
  rw [scan.eq_def]

theorem scan_ignored (h : isIgnored c = true) : scan p (c :: rest) = scan (p.skip c) rest := by
  rw [scan.eq_def]
  exact if_pos h

theorem scan_last_comment (h : rest.dropWhile (!endsComment ·) = []) :
    scan p ('#' :: rest) = ⟨[], p, true⟩ := by
  have hmark : isIgnored '#' = false := by decide
  rw [scan.eq_def]
  simp only [hmark, Bool.false_eq_true, ↓reduceIte]
  split
  · rfl
  · simp_all

theorem scan_comment (h : rest.dropWhile (!endsComment ·) = c :: tail) :
    scan p ('#' :: rest) = scan p.nextLine tail := by
  have hmark : isIgnored '#' = false := by decide
  rw [scan.eq_def]
  simp only [hmark, Bool.false_eq_true, ↓reduceIte]
  split
  · simp_all
  · simp_all

theorem scan_none (hignored : isIgnored c = false) (hcomment : c ≠ '#')
    (h : Token.scan (c :: rest) = none) : scan p (c :: rest) = ⟨[], p, false⟩ := by
  rw [scan.eq_def]
  simp only [hignored, Bool.false_eq_true, ↓reduceIte, hcomment]
  split
  · rfl
  · simp_all

theorem scan_token {token : Token} (hignored : isIgnored c = false) (hcomment : c ≠ '#')
    (h : Token.scan (c :: rest) = some (token, tail)) : ∃ q,
    scan p (c :: rest) = { scan q tail with lexemes := ⟨token, p⟩ :: (scan q tail).lexemes } := by
  refine ⟨p.advance ((c :: rest).take (rest.length + 1 - tail.length)), ?_⟩
  rw [scan.eq_def]
  simp only [hignored, Bool.false_eq_true, ↓reduceIte, hcomment]
  split
  · simp_all
  · rename_i other end' hother
    obtain ⟨rfl, rfl⟩ : token = other ∧ tail = end' := by simpa [h] using hother
    rfl

/-- To show something of all texts, follow the cut: each text is shown from what
stands after its first token, its first comment or its first blank. -/
theorem scanInduction {motive : List Char → Prop} (nil : motive [])
    (ignored : ∀ c rest, isIgnored c = true → motive rest → motive (c :: rest))
    (lastComment : ∀ rest, rest.dropWhile (!endsComment ·) = [] → motive ('#' :: rest))
    (comment : ∀ rest c tail, rest.dropWhile (!endsComment ·) = c :: tail → motive tail →
      motive ('#' :: rest))
    (stop : ∀ c rest, isIgnored c = false → c ≠ '#' → Token.scan (c :: rest) = none →
      motive (c :: rest))
    (token : ∀ c rest token tail, isIgnored c = false → c ≠ '#' →
      Token.scan (c :: rest) = some (token, tail) → motive tail → motive (c :: rest))
    (cs : List Char) : motive cs := by
  induction hlength : cs.length using Nat.strongRecOn generalizing cs with
  | _ length ih =>
    have hrest {rest : List Char} (hshort : rest.length < cs.length) : motive rest :=
      ih rest.length (hlength ▸ hshort) rest rfl
    cases cs with
    | nil => exact nil
    | cons c rest =>
      cases hignored : isIgnored c with
      | true => exact ignored c rest hignored (hrest (by simp))
      | false =>
        by_cases hcomment : c = '#'
        · subst hcomment
          cases hdrop : rest.dropWhile (!endsComment ·) with
          | nil => exact lastComment rest hdrop
          | cons d tail =>
            have hshort := Token.length_dropWhile_le (!endsComment ·) rest
            rw [hdrop] at hshort
            refine comment rest d tail hdrop (hrest ?_)
            simp only [List.length_cons] at hshort ⊢
            omega
        · cases hscan : Token.scan (c :: rest) with
          | none => exact stop c rest hignored hcomment hscan
          | some found =>
            exact token c rest found.1 found.2 hignored hcomment hscan
              (hrest (Token.scan_length_lt hscan))

/-- The tokens of a text that is complete. -/
def tokens? (source : Lexemes) : Option (List Token) :=
  if source.complete then some (source.lexemes.map (·.token)) else none

end Lexemes

/-! ## Tokens without positions -/

/-- The tokens of a text that is made of tokens to its end. -/
def tokens? (cs : List Char) : Option (List Token) := (Lexemes.scan .start cs).tokens?

/-- Where a text stands does not matter to its tokens. -/
theorem tokens?_scan (p : Position) (cs : List Char) :
    (Lexemes.scan p cs).tokens? = tokens? cs := by
  unfold tokens?
  generalize Position.start = q
  induction cs using Lexemes.scanInduction generalizing p q with
  | nil => rw [Lexemes.scan_nil, Lexemes.scan_nil, Lexemes.tokens?, Lexemes.tokens?]
  | ignored c rest hignored ih =>
    rw [Lexemes.scan_ignored hignored, Lexemes.scan_ignored hignored]
    exact ih _ _
  | lastComment rest hdrop =>
    rw [Lexemes.scan_last_comment hdrop, Lexemes.scan_last_comment hdrop, Lexemes.tokens?,
      Lexemes.tokens?]
  | comment rest c tail hdrop ih =>
    rw [Lexemes.scan_comment hdrop, Lexemes.scan_comment hdrop]
    exact ih _ _
  | stop c rest hignored hcomment hscan =>
    rw [Lexemes.scan_none hignored hcomment hscan, Lexemes.scan_none hignored hcomment hscan,
      Lexemes.tokens?, Lexemes.tokens?]
  | token c rest token tail hignored hcomment hscan ih =>
    obtain ⟨p', hp⟩ := Lexemes.scan_token (p := p) hignored hcomment hscan
    obtain ⟨q', hq⟩ := Lexemes.scan_token (p := q) hignored hcomment hscan
    have htail := ih p' q'
    rw [hp, hq]
    simp only [Lexemes.tokens?, List.map_cons] at htail ⊢
    split at htail <;> split at htail <;> simp_all

theorem tokens?_nil : tokens? [] = some [] := by
  rw [tokens?, Lexemes.scan_nil]
  rfl

theorem tokens?_ignored {c : Char} (h : Lexemes.isIgnored c = true) (rest : List Char) :
    tokens? (c :: rest) = tokens? rest := by
  rw [tokens?, Lexemes.scan_ignored h, tokens?_scan]

theorem tokens?_token {c : Char} {rest tail : List Char} {token : Token}
    (hignored : Lexemes.isIgnored c = false) (hcomment : c ≠ '#')
    (h : Token.scan (c :: rest) = some (token, tail)) :
    tokens? (c :: rest) = (tokens? tail).map (token :: ·) := by
  obtain ⟨p, hp⟩ := Lexemes.scan_token (p := .start) hignored hcomment h
  rw [tokens?, hp, ← tokens?_scan p]
  simp only [Lexemes.tokens?, List.map_cons]
  cases (Lexemes.scan p tail).complete <;> rfl

theorem tokens?_none {c : Char} {rest : List Char} (hignored : Lexemes.isIgnored c = false)
    (hcomment : c ≠ '#') (h : Token.scan (c :: rest) = none) : tokens? (c :: rest) = none := by
  rw [tokens?, Lexemes.scan_none hignored hcomment h]
  rfl

/-! ## Pieces of a text -/

/-- Tokens side by side. -/
def sideBySide (first second : Option (List Token)) : Option (List Token) :=
  Option.map₂ (· ++ ·) first second

@[simp]
theorem sideBySide_some (first second : List Token) :
    sideBySide (some first) (some second) = some (first ++ second) := rfl

@[simp]
theorem sideBySide_nil_left (tokens : Option (List Token)) :
    sideBySide (some []) tokens = tokens := by
  cases tokens <;> rfl

@[simp]
theorem sideBySide_nil_right (tokens : Option (List Token)) :
    sideBySide tokens (some []) = tokens := by
  cases tokens with
  | none => rfl
  | some tokens => simp

@[simp]
theorem sideBySide_none_left (tokens : Option (List Token)) : sideBySide none tokens = none := rfl

@[simp]
theorem sideBySide_none_right (tokens : Option (List Token)) : sideBySide tokens none = none := by
  cases tokens <;> rfl

theorem sideBySide_assoc (a b c : Option (List Token)) :
    sideBySide (sideBySide a b) c = sideBySide a (sideBySide b c) :=
  Option.map₂_assoc List.append_assoc

/-- The text ends here, or a character follows that ends names and numbers. -/
def Boundary (rest : List Char) : Prop := ∀ c ∈ rest.head?, Token.endsNumber c = true

/-- Anything may follow. -/
def Anything (_ : List Char) : Prop := True

/-- Before such a rest, the piece of text has these tokens. -/
def Lexes (before : List Char → Prop) (piece : String) (tokens : Option (List Token)) : Prop :=
  ∀ rest, before rest → tokens? (piece.toList ++ rest) = sideBySide tokens (tokens? rest)

theorem Lexes.tokens?_eq {piece : String} {tokens : Option (List Token)}
    (h : Lexes Boundary piece tokens) : tokens? piece.toList = tokens := by
  have hend := h [] (by simp [Boundary])
  rwa [List.append_nil, tokens?_nil, sideBySide_nil_right] at hend

theorem Lexes.weaken {before : List Char → Prop} {piece : String} {tokens : Option (List Token)}
    (h : Lexes Anything piece tokens) : Lexes before piece tokens :=
  fun rest _ => h rest trivial

/-- Two pieces side by side, of which the second may follow the first. -/
theorem Lexes.append {first second : List Char → Prop} {a b : String}
    {tokens more : Option (List Token)} (ha : Lexes first a tokens) (hb : Lexes second b more)
    (hfollows : ∀ rest, second rest → first (b.toList ++ rest)) :
    Lexes second (a ++ b) (sideBySide tokens more) := by
  intro rest hrest
  rw [String.toList_append, List.append_assoc, ha _ (hfollows rest hrest), hb rest hrest,
    sideBySide_assoc]

/-- After a piece that anything may follow. -/
theorem Lexes.then {before : List Char → Prop} {a b : String} {tokens more : Option (List Token)}
    (ha : Lexes Anything a tokens) (hb : Lexes before b more) :
    Lexes before (a ++ b) (sideBySide tokens more) :=
  ha.append hb fun _ _ => trivial

theorem lexes_empty (before : List Char → Prop) : Lexes before "" (some []) := by
  intro rest _
  simp

/-- The first character of the text ends names and numbers. -/
def Delimits (piece : String) : Prop := ∃ c cs, piece.toList = c :: cs ∧ Token.endsNumber c = true

instance (piece : String) : Decidable (Delimits piece) :=
  match h : piece.toList with
  | [] => .isFalse fun ⟨_, _, hcs, _⟩ => by simp [h] at hcs
  | c :: cs =>
    if hc : Token.endsNumber c = true then .isTrue ⟨c, cs, h, hc⟩
    else .isFalse fun ⟨_, _, hcs, hends⟩ => hc <| by
      rw [h] at hcs
      rwa [(List.cons.inj hcs).1]

theorem Delimits.append {a : String} (h : Delimits a) (b : String) : Delimits (a ++ b) := by
  obtain ⟨c, cs, ha, hc⟩ := h
  exact ⟨c, cs ++ b.toList, by simp [ha], hc⟩

theorem Delimits.boundary {piece : String} (h : Delimits piece) (rest : List Char) :
    Boundary (piece.toList ++ rest) := by
  obtain ⟨c, cs, hpiece, hc⟩ := h
  simp [Boundary, hpiece, hc]

/-- A piece with a delimiter after it. -/
theorem Lexes.until {before : List Char → Prop} {a b : String} {tokens more : Option (List Token)}
    (ha : Lexes Boundary a tokens) (hb : Lexes before b more) (h : Delimits b) :
    Lexes before (a ++ b) (sideBySide tokens more) :=
  ha.append hb fun rest _ => h.boundary rest

/-! ## Marks and names -/

/-- What all these characters have, the one that is found among them has. -/
theorem of_contains {p : Char → Bool} {cs : List Char} {c : Char} (hall : cs.all p = true)
    (h : cs.contains c = true) : p c = true :=
  List.all_eq_true.1 hall c (List.contains_iff_mem.1 h)

/-- The tokens of a text that is made of punctuators and of characters that mean
nothing. -/
def marks (cs : List Char) : List Token :=
  cs.filterMap fun c => if Token.isPunctuator c then some (.punctuator c) else none

theorem scan_punctuator {c : Char} (h : Token.isPunctuator c = true) (rest : List Char) :
    Token.scan (c :: rest) = some (.punctuator c, rest) := by
  have hdot : c ≠ '.' := by
    rintro rfl
    exact absurd h (by decide)
  have hquote : c ≠ '"' := by
    rintro rfl
    exact absurd h (by decide)
  unfold Token.scan
  split <;> simp_all

theorem isIgnored_of_isPunctuator {c : Char} (h : Token.isPunctuator c = true) :
    Lexemes.isIgnored c = false ∧ c ≠ '#' := by
  have hmark := of_contains (p := fun c => !Lexemes.isIgnored c && c ≠ '#') (by decide) h
  simpa using hmark

/-- The text is made of punctuators, which are its tokens, and of characters that
mean nothing. -/
def Punctuates (piece : String) (tokens : List Token) : Prop :=
  piece.toList.all (fun c => Lexemes.isIgnored c || Token.isPunctuator c) = true ∧
    marks piece.toList = tokens
  deriving Decidable

theorem lexes_text {piece : String} {tokens : List Token} (h : Punctuates piece tokens) :
    Lexes Anything piece (some tokens) := by
  obtain ⟨hall, rfl⟩ := h
  intro rest _
  generalize piece.toList = cs at hall
  induction cs with
  | nil => simp [marks]
  | cons c cs ih =>
    obtain ⟨hfirst, hothers⟩ := Bool.and_eq_true_iff.1 hall
    have hrest := ih hothers
    by_cases hc : Token.isPunctuator c = true
    · obtain ⟨hignored, hcomment⟩ := isIgnored_of_isPunctuator hc
      rw [List.cons_append, tokens?_token hignored hcomment (scan_punctuator hc _), hrest]
      cases tokens? rest <;> simp [marks, hc]
    · have hignored := (Bool.or_eq_true_iff.1 hfirst).resolve_right hc
      rw [List.cons_append, tokens?_ignored hignored, hrest]
      simp [marks, hc]

theorem lexes_ellipsis : Lexes Anything "..." (some [.ellipsis]) := by
  intro rest _
  have hscan : Token.scan ('.' :: '.' :: '.' :: rest) = some (.ellipsis, rest) := by
    unfold Token.scan
    rfl
  show tokens? ('.' :: '.' :: '.' :: rest) = _
  rw [tokens?_token (by decide) (by decide) hscan]
  cases tokens? rest <;> rfl

/-- The text is a name. -/
def IsName (text : String) : Prop :=
  ∃ c cs, text.toList = c :: cs ∧ Token.isNameStart c = true ∧ cs.all Token.isNameContinue = true

instance (text : String) : Decidable (IsName text) :=
  match h : text.toList with
  | [] => .isFalse fun ⟨_, _, hcs, _⟩ => by simp [h] at hcs
  | c :: cs =>
    if hc : Token.isNameStart c = true ∧ cs.all Token.isNameContinue = true then
      .isTrue ⟨c, cs, h, hc⟩
    else .isFalse fun ⟨_, _, hcs, hname⟩ => hc <| by
      rw [h] at hcs
      obtain ⟨rfl, rfl⟩ := List.cons.inj hcs
      exact hname

theorem not_isNameContinue_of_endsNumber {c : Char} (h : Token.endsNumber c = true) :
    Token.isNameContinue c = false := by
  simpa using of_contains (p := fun c => !Token.isNameContinue c) (by decide) h

theorem scan_name {c : Char} (hc : Token.isNameStart c = true) (rest : List Char) :
    Token.scan (c :: rest) = some (.name (.ofList (c :: rest.takeWhile Token.isNameContinue)),
      rest.dropWhile Token.isNameContinue) := by
  have hdot : c ≠ '.' := by
    rintro rfl
    exact absurd hc (by decide)
  have hquote : c ≠ '"' := by
    rintro rfl
    exact absurd hc (by decide)
  have hmark : Token.isPunctuator c = false := by
    cases hmark : Token.isPunctuator c with
    | false => rfl
    | true =>
      have hstart := of_contains (p := fun c => !Token.isNameStart c) (by decide) hmark
      rw [hc] at hstart
      cases hstart
  unfold Token.scan
  split <;> simp_all

theorem isIgnored_of_isNameStart {c : Char} (h : Token.isNameStart c = true) :
    Lexemes.isIgnored c = false ∧ c ≠ '#' := by
  constructor
  · cases hignored : Lexemes.isIgnored c with
    | false => rfl
    | true =>
      have hstart := of_contains (p := fun c => !Token.isNameStart c) (by decide) hignored
      rw [h] at hstart
      cases hstart
  · rintro rfl
    exact absurd h (by decide)

/-- Of a text that was put together, the part that goes on is the first piece. -/
theorem takeWhile_dropWhile_append {p : Char → Bool} {cs : List Char} (rest : List Char)
    (hcs : cs.all p = true)
    (hrest : ∀ c ∈ rest.head?, p c = false) :
    (cs ++ rest).takeWhile p = cs ∧ (cs ++ rest).dropWhile p = rest := by
  have hall : ∀ c ∈ cs, p c = true := List.all_eq_true.1 hcs
  rw [List.takeWhile_append_of_pos hall, List.dropWhile_append_of_pos hall]
  cases rest with
  | nil => simp
  | cons c rest => simp [hrest c (by simp)]

theorem lexes_name {text : String} (h : IsName text) : Lexes Boundary text (some [.name text]) := by
  obtain ⟨c, cs, htext, hc, hcs⟩ := h
  intro rest hrest
  obtain ⟨hignored, hcomment⟩ := isIgnored_of_isNameStart hc
  obtain ⟨htake, hdrop⟩ := takeWhile_dropWhile_append rest hcs fun c hc =>
    not_isNameContinue_of_endsNumber (hrest c hc)
  have hscan := scan_name hc (cs ++ rest)
  rw [htake, hdrop, ← htext, String.ofList_toList] at hscan
  rw [htext, List.cons_append, tokens?_token hignored hcomment hscan]
  cases tokens? rest <;> rfl

end OpManifest.GraphQL
