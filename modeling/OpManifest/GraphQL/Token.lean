import OpManifest.GraphQL.BlockString
import OpManifest.Decimal.Binary64
import OpManifest.Text.Digit

/-!
# Tokens of GraphQL

The lexical grammar: punctuators, names, numbers, quoted strings and block
strings.  `Token.scan` reads the token that a text begins with and answers
what follows it, which is always shorter (`Token.scan_length_lt`).
-/

namespace OpManifest.GraphQL

open Decimal (Binary64)
open Text (hexNumber? digitsValue charOfCode?)

/-- A lexical token with its value. -/
inductive Token where
  | punctuator (c : Char)
  | ellipsis
  | name (text : String)
  | int (value : Int)
  | float (value : Binary64)
  | string (text : String)
  deriving DecidableEq, Repr

namespace Token

/-- The one-character punctuators. -/
def isPunctuator (c : Char) : Bool := "!$:=@|&()[]{}".toList.contains c

/-- A name begins with a letter of ASCII or an underscore. -/
def isNameStart (c : Char) : Bool := c.isAlpha || c = '_'

/-- A name goes on with letters and digits of ASCII and underscores. -/
def isNameContinue (c : Char) : Bool := c.isAlphanum || c = '_'

/-! ## Numbers -/

/-- A number runs up to one of these characters. -/
def endsNumber (c : Char) : Bool := " \n\r\t,#!$:=@|&()[]{}".toList.contains c

/-- The digits have the form of a whole number: no zero before other digits. -/
def isWhole (digits : List Char) : Bool :=
  match digits with
  | [] => false
  | ['0'] => true
  | '0' :: _ => false
  | _ => digits.all Char.isDigit

/-- Splits the sign off. -/
def splitSign : List Char → Bool × List Char
  | '-' :: digits => (true, digits)
  | digits => (false, digits)

/-- A whole number with its sign; it has to fit into 64 bits. -/
def readInt (text : List Char) : Option Int :=
  let (negative, digits) := splitSign text
  let value : Int := if negative then -(digitsValue digits : Int) else digitsValue digits
  if isWhole digits && -0x8000000000000000 ≤ value && value < 0x8000000000000000 then some value
  else none

/-- The exponent after its letter.  Without a sign it begins with one of the
digits 1 to 8. -/
def readExponent (text : List Char) : Option Int :=
  match text with
  | '+' :: digits => if digits.isEmpty || !digits.all Char.isDigit then none
    else some (digitsValue digits)
  | '-' :: digits => if digits.isEmpty || !digits.all Char.isDigit then none
    else some (-(digitsValue digits : Int))
  | c :: digits => if '1' ≤ c && c ≤ '8' && digits.all Char.isDigit then
      some (digitsValue (c :: digits)) else none
  | [] => none

/-- The letter that opens an exponent. -/
def isExponentMark (c : Char) : Bool := c = 'e' || c = 'E'

/-- A number with a point, an exponent or both. -/
def readFloat (text : List Char) : Option Binary64 := do
  let (negative, text) := splitSign text
  let mantissa := text.takeWhile (!isExponentMark ·)
  let exponent ← match text.dropWhile (!isExponentMark ·) with
    | [] => some 0
    | _ :: exponent => readExponent exponent
  let whole := mantissa.takeWhile (· ≠ '.')
  let part ← match mantissa.dropWhile (· ≠ '.') with
    | [] => some []
    | _ :: part => if part.isEmpty || !part.all Char.isDigit then none else some part
  if isWhole whole then
    some (.ofFraction ⟨negative, digitsValue (whole ++ part), exponent - part.length⟩)
  else none

/-- A number is a float exactly when a point or an exponent mark stands after
its first character. -/
def readNumber (text : List Char) : Option Token :=
  if text.tail.any fun c => c = '.' || isExponentMark c then .float <$> readFloat text
  else .int <$> readInt text

/-! ## Strings -/

/-- The four characters after `\u`: hexadecimal digits, of which the first may
be a plus sign. -/
def readCodeUnit (a b c d : Char) : Option Char := do
  charOfCode? (← hexNumber? (if a = '+' then [b, c, d] else [a, b, c, d]))

/-- The character that a backslash and a letter stand for; `\b` is U+0010. -/
def simpleEscape : Char → Option Char
  | '"' => some '"'
  | '\\' => some '\\'
  | '/' => some '/'
  | 'b' => some '\x10'
  | 'f' => some '\x0c'
  | 'n' => some '\n'
  | 'r' => some '\r'
  | 't' => some '\t'
  | _ => none

/-- The content of a quoted string and the text after its closing quote. -/
def scanQuoted : List Char → Option (List Char × List Char)
  | '"' :: rest => some ([], rest)
  | '\\' :: 'u' :: a :: b :: c :: d :: rest => do
    let unit ← readCodeUnit a b c d
    let (text, rest) ← scanQuoted rest
    return (unit :: text, rest)
  | '\\' :: c :: rest => do
    let escaped ← simpleEscape c
    let (text, rest) ← scanQuoted rest
    return (escaped :: text, rest)
  | c :: rest =>
    if c = '\n' || c = '\\' then none
    else do
      let (text, rest) ← scanQuoted rest
      return (c :: text, rest)
  | [] => none

/-- The raw content of a block string, with its escaped triple quotes
unescaped, and the text after its closing quotes. -/
def scanBlock : List Char → Option (List Char × List Char)
  | '\\' :: '"' :: '"' :: '"' :: rest => do
    let (text, rest) ← scanBlock rest
    return ('"' :: '"' :: '"' :: text, rest)
  | '"' :: '"' :: '"' :: rest => some ([], rest)
  | c :: rest => do
    let (text, rest) ← scanBlock rest
    return (c :: text, rest)
  | [] => none

/-! ## Scanning -/

/-- The token that a text begins with, and the text after it. -/
def scan : List Char → Option (Token × List Char)
  | '.' :: '.' :: '.' :: rest => some (.ellipsis, rest)
  | '"' :: '"' :: '"' :: rest => do
    let (raw, rest) ← scanBlock rest
    return (.string (.ofList (BlockString.ofRaw raw)), rest)
  | '"' :: rest => do
    let (text, rest) ← scanQuoted rest
    return (.string (.ofList text), rest)
  | c :: rest =>
    if isPunctuator c then some (.punctuator c, rest)
    else if isNameStart c then
      some (.name (.ofList (c :: rest.takeWhile isNameContinue)), rest.dropWhile isNameContinue)
    else if c = '-' || c.isDigit then do
      let token ← readNumber (c :: rest.takeWhile (!endsNumber ·))
      return (token, rest.dropWhile (!endsNumber ·))
    else none
  | [] => none

theorem length_dropWhile_le (p : Char → Bool) (cs : List Char) :
    (cs.dropWhile p).length ≤ cs.length :=
  (List.dropWhile_sublist p).length_le

theorem scanQuoted_length_lt {cs text rest : List Char} (h : scanQuoted cs = some (text, rest)) :
    rest.length < cs.length := by
  fun_induction scanQuoted cs generalizing text rest with
  | case1 tail => cases h; simp
  | case2 a b c d tail ih =>
    simp only [Option.bind_eq_bind, Option.bind_eq_some_iff, pure, Option.some.injEq] at h
    obtain ⟨_, _, ⟨_, _⟩, hs, heq⟩ := h
    cases heq
    have := ih hs
    simp only [List.length_cons]; omega
  | case3 c tail _ ih =>
    simp only [Option.bind_eq_bind, Option.bind_eq_some_iff, pure, Option.some.injEq] at h
    obtain ⟨_, _, ⟨_, _⟩, hs, heq⟩ := h
    cases heq
    have := ih hs
    simp only [List.length_cons]; omega
  | case4 => cases h
  | case5 c tail _ _ _ _ ih =>
    simp only [Option.bind_eq_bind, Option.bind_eq_some_iff, pure, Option.some.injEq] at h
    obtain ⟨⟨_, _⟩, hs, heq⟩ := h
    cases heq
    have := ih hs
    simp only [List.length_cons]; omega
  | case6 => cases h

theorem scanBlock_length_lt {cs text rest : List Char} (h : scanBlock cs = some (text, rest)) :
    rest.length < cs.length := by
  fun_induction scanBlock cs generalizing text rest with
  | case1 tail ih =>
    simp only [Option.bind_eq_bind, Option.bind_eq_some_iff, pure, Option.some.injEq] at h
    obtain ⟨⟨_, _⟩, hs, heq⟩ := h
    cases heq
    have := ih hs
    simp only [List.length_cons]; omega
  | case2 tail => cases h; simp only [List.length_cons]; omega
  | case3 c tail _ _ ih =>
    simp only [Option.bind_eq_bind, Option.bind_eq_some_iff, pure, Option.some.injEq] at h
    obtain ⟨⟨_, _⟩, hs, heq⟩ := h
    cases heq
    have := ih hs
    simp only [List.length_cons]; omega
  | case4 => cases h

/-- A token has at least one character. -/
theorem scan_length_lt {cs rest : List Char} {token : Token} (h : scan cs = some (token, rest)) :
    rest.length < cs.length := by
  unfold scan at h
  split at h
  · cases h; simp only [List.length_cons]; omega
  · simp only [Option.bind_eq_bind, Option.bind_eq_some_iff, pure, Option.some.injEq] at h
    obtain ⟨⟨_, _⟩, hs, heq⟩ := h
    cases heq
    have := scanBlock_length_lt hs
    simp only [List.length_cons]; omega
  · simp only [Option.bind_eq_bind, Option.bind_eq_some_iff, pure, Option.some.injEq] at h
    obtain ⟨⟨_, _⟩, hs, heq⟩ := h
    cases heq
    have := scanQuoted_length_lt hs
    simp only [List.length_cons]; omega
  · rename_i c tail _ _ _
    split at h
    · cases h; simp
    · split at h
      · cases h
        have := length_dropWhile_le isNameContinue tail
        simp only [List.length_cons]; omega
      · split at h
        · simp only [Option.bind_eq_bind, Option.bind_eq_some_iff, pure, Option.some.injEq] at h
          obtain ⟨_, _, heq⟩ := h
          cases heq
          have := length_dropWhile_le (!endsNumber ·) tail
          simp only [List.length_cons]; omega
        · cases h
  · cases h

end Token

end OpManifest.GraphQL
