import OpManifest.Script.Language
import OpManifest.Script.Node
import OpManifest.Text.Blank

/-!
# Scanning scripts

A machine that reads a script character by character and builds its bracket
structure.  It may look ahead, but every step takes exactly one character, so
that the offset of a node is the size of the characters before it.

Two choices need to know what stands before: a slash divides after an operand
and opens a regular expression elsewhere, and an angle bracket compares after
an operand and opens an element elsewhere.
-/

namespace OpManifest.Script

/-- What the token before lets follow.  After a header keyword comes a
parenthesis, and after that a statement. -/
inductive Expect where
  | statement
  | expression
  | body
  | operator
  | member
  | header
  deriving DecidableEq, Repr

namespace Expect

/-- An operand may begin here. -/
def allowsOperand : Expect → Bool
  | .statement | .expression | .body | .header => true
  | .operator | .member => false

end Expect

/-- An enclosure that is still open.  A header is the parenthesis after a
keyword such as `if`, a block is a brace that holds statements, and an embedded
expression stands in the braces of an element. -/
inductive Enclosure where
  | program
  | round (header : Bool)
  | square
  | brace (block : Bool)
  | embedded
  | substitution
  | template (opening : Opening)
  | tag
  | children
  deriving DecidableEq, Repr

/-- An open enclosure with its nodes, the last one first, and where it begins. -/
structure Frame where
  enclosure : Enclosure
  start : Nat
  nodes : List Node
  deriving Repr

namespace Frame

/-- The node that the enclosure becomes if it ends at a place. -/
def toNode (frame : Frame) (stop : Nat) (closed : Bool) : Node :=
  let nodes := frame.nodes.reverse
  match frame.enclosure with
  | .round _ => .group .round frame.start stop nodes closed
  | .square => .group .square frame.start stop nodes closed
  | .program | .brace _ | .embedded => .group .brace frame.start stop nodes closed
  | .substitution => .group .substitution frame.start stop nodes closed
  | .template opening => .template opening frame.start stop nodes closed
  | .tag | .children => .group .element frame.start stop nodes closed

end Frame

/-- The token that a character may be in the middle of.  The characters of a word
are collected with the last one first; a chunk is text of a template. -/
inductive Partial where
  | none
  | passing (count : Nat)
  | word (start : Nat) (collected : List Char)
  | string (quote : Char) (start : Nat) (escaped : Bool)
  | chunk (escaped : Bool)
  | lineComment
  | blockComment
  | regex (inClass escaped : Bool)
  | flags
  | attribute (quote : Char)
  | closingTag
  | typeArguments (depth : Nat)
  deriving DecidableEq, Repr

/-- The state of the machine. -/
structure Scanner where
  top : Frame
  outer : List Frame
  token : Partial
  expect : Expect
  afterLineEnd : Bool
  offset : Nat

/-! ## Characters and words -/

/-- A character between tokens. -/
def isSpace (c : Char) : Bool := Text.isBlank c || "\uFEFF\u2060\u200B".toList.contains c

/-- A character that ends a line. -/
def endsLine (c : Char) : Bool := "\n\r\u2028\u2029".toList.contains c

/-- A character of a word.  Words are names, keywords, numbers and private
names. -/
def isWordChar (c : Char) : Bool :=
  c.isAlphanum || c = '_' || c = '$' || c = '#' || c = '\\' || (0x80 ≤ c.toNat && !isSpace c)

/-- Keywords after which an expression comes. -/
def isOperatorWord (text : String) : Bool :=
  ["return", "typeof", "case", "in", "of", "instanceof", "new", "delete", "void", "throw",
    "await", "yield", "extends", "default"].contains text

/-- Keywords after which a statement comes. -/
def isStatementWord (text : String) : Bool :=
  ["do", "else", "try", "finally", "export"].contains text

/-- Keywords whose parenthesis a statement follows. -/
def isHeaderWord (text : String) : Bool := ["if", "while", "for", "with"].contains text

/-- What a word lets follow.  The name of a member is an operand, whatever it
is. -/
def Expect.afterWord (expect : Expect) (text : String) : Expect :=
  if expect = .member then .operator
  else if expect = .header && text = "await" then .header
  else if isHeaderWord text then .header
  else if isStatementWord text then .statement
  else if isOperatorWord text then .expression
  else .operator

/-- The text goes on with the given one. -/
def continuesWith (word : String) (cs : List Char) : Bool := word.toList.isPrefixOf cs

/-- After an angle bracket stand type parameters: a name with a comma or with
the word `extends` after it. -/
def opensTypeParameters (cs : List Char) : Bool :=
  let cs := cs.dropWhile isSpace
  let rest := (cs.dropWhile isWordChar).dropWhile isSpace
  rest.head? = some ',' ||
    (continuesWith "extends" rest && ((rest.drop 7).head?.any fun c => isSpace c || c = '{'))

/-- After an angle bracket stands an element or a fragment. -/
def opensElement (language : Language) (cs : List Char) : Bool :=
  language.hasElements &&
    (match cs.dropWhile isSpace with
      | c :: _ => c = '>' || (isWordChar c && !c.isDigit)
      | [] => false)
    && !(language.hasTypes && opensTypeParameters cs)

namespace Scanner

/-- Before the first character. -/
def initial : Scanner := ⟨⟨.program, 0, []⟩, [], .none, .statement, false, 0⟩

/-! ## Changes of the structure -/

/-- Adds a node to the innermost enclosure. -/
def add (s : Scanner) (node : Node) : Scanner :=
  { s with top := { s.top with nodes := node :: s.top.nodes }, afterLineEnd := false }

/-- Opens an enclosure that begins with the next character. -/
def enter (s : Scanner) (enclosure : Enclosure) (expect : Expect) : Scanner :=
  { s with
    top := ⟨enclosure, s.offset, []⟩
    outer := s.top :: s.outer
    expect := expect
    afterLineEnd := false }

/-- Closes the innermost enclosure, which ends with the next character; its node
joins the one around it. -/
def leave (s : Scanner) (expect : Expect) : Scanner :=
  match s.outer with
  | [] => s
  | around :: outer =>
    { s with
      top := { around with nodes := s.top.toNode (s.offset + 1) true :: around.nodes }
      outer := outer
      expect := expect
      afterLineEnd := false }

/-- Adds a mark. -/
def mark (s : Scanner) (text : String) (expect : Expect) : Scanner :=
  { s.add (.mark text) with expect := expect, token := .passing (text.length - 1) }

/-- Ends a word. -/
def endWord (s : Scanner) (start : Nat) (collected : List Char) : Scanner :=
  let text : String := .ofList collected.reverse
  { s.add (.word start text) with expect := s.expect.afterWord text, token := .none }

/-- Reads a character of a word, which ends before a character of another
kind.  A number goes on after a point. -/
def wordChar (s : Scanner) (start : Nat) (collected : List Char) (c : Char) (rest : List Char) :
    Scanner :=
  let collected := c :: collected
  let goesOn : Bool := match rest with
    | next :: _ => isWordChar next ||
        (next = '.' && (collected.getLast?.any fun c => c.isDigit || c = '.'))
    | [] => false
  if goesOn then { s with token := .word start collected } else s.endWord start collected

/-! ## Steps -/

/-- A closing bracket of code, if it fits the innermost enclosure. -/
def close (s : Scanner) (c : Char) : Scanner :=
  match s.top.enclosure, c with
  | .round header, ')' => s.leave (if header then .statement else .operator)
  | .square, ']' => s.leave .operator
  | .brace block, '}' => s.leave (if block then .statement else .operator)
  | .embedded, '}' => s.leave .operator
  | .substitution, '}' => { s.leave .operator with token := .chunk false }
  | _, _ => s.mark (.singleton c) .operator

/-- A character of code between tokens. -/
def codeChar (language : Language) (s : Scanner) (c : Char) (rest : List Char) : Scanner :=
  if isSpace c then { s with afterLineEnd := s.afterLineEnd || endsLine c }
  else if c = '/' && rest.head? = some '/' then { s with token := .lineComment }
  else if c = '/' && rest.head? = some '*' then { s with token := .blockComment }
  else if c = '#' && rest.head? = some '!' && s.offset = 0 then { s with token := .lineComment }
  else if isWordChar c then s.wordChar s.offset [] c rest
  else if c = '.' && s.expect.allowsOperand && rest.head?.any Char.isDigit then
    s.wordChar s.offset [] c rest
  else if c = '"' || c = '\'' then { s with token := .string c s.offset false }
  else if c = '`' then
    { s.enter (.template ⟨s.afterLineEnd, rest.head? = some ';'⟩) .operator with
      token := .chunk false }
  else if c = '(' then s.enter (.round (s.expect = .header)) .expression
  else if c = '[' then s.enter .square .expression
  else if c = '{' then
    let block := s.expect ≠ .expression
    s.enter (.brace block) (if block then .statement else .expression)
  else if c = ')' || c = ']' || c = '}' then s.close c
  else if c = '/' && s.expect.allowsOperand then { s with token := .regex false false }
  else if c = '<' && s.expect.allowsOperand && opensElement language rest then
    s.enter .tag .operator
  else if c = '.' && continuesWith ".." rest then s.mark "..." .expression
  else if c = '.' then s.mark "." .member
  else if c = '?' && rest.head? = some '.' && !((rest.drop 1).head?.any Char.isDigit) then
    s.mark "?." .member
  else if c = '=' && rest.head? = some '>' then s.mark "=>" .body
  else if (c = '+' || c = '-') && rest.head? = some c then
    s.mark (.ofList [c, c]) (if s.expect = .operator then .operator else .expression)
  else if c = '!' && language.hasTypes && s.expect = .operator && rest.head? ≠ some '=' then
    s.mark "!" .operator
  else if c = ';' then s.mark ";" .statement
  else s.mark (.singleton c) .expression

/-- A character of the text of a template. -/
def chunkChar (s : Scanner) (escaped : Bool) (c : Char) (rest : List Char) : Scanner :=
  if escaped then { s with token := .chunk false }
  else if c = '\\' then { s with token := .chunk true }
  else if c = '`' then { s.leave .operator with token := .none }
  else if c = '$' && rest.head? = some '{' then
    { s.enter .substitution .expression with token := .passing 1 }
  else { s with token := .chunk false }

/-- A character inside a tag.  An angle bracket after an equals sign opens an
element, elsewhere it opens type arguments. -/
def tagChar (s : Scanner) (c : Char) (rest : List Char) : Scanner :=
  if isSpace c then s
  else if c = '{' then s.enter .embedded .expression
  else if c = '"' || c = '\'' then { s with token := .attribute c, expect := .operator }
  else if c = '/' && rest.head? = some '*' then { s with token := .blockComment }
  else if c = '/' && rest.head? = some '>' then { s with token := .closingTag }
  else if c = '>' then { s with top := { s.top with enclosure := .children } }
  else if c = '<' && s.expect = .expression then s.enter .tag .operator
  else if c = '<' then { s with token := .typeArguments 0 }
  else { s with expect := if c = '=' then .expression else .operator }

/-- A character between tags. -/
def childrenChar (s : Scanner) (c : Char) (rest : List Char) : Scanner :=
  if c = '{' then s.enter .embedded .expression
  else if c = '<' && (rest.dropWhile isSpace).head? = some '/' then { s with token := .closingTag }
  else if c = '<' then s.enter .tag .operator
  else s

/-- The next state after a character; `rest` are the characters after it. -/
def step (language : Language) (s : Scanner) (c : Char) (rest : List Char) : Scanner :=
  match s.token with
  | .passing (count + 1) =>
    { s with token := if count = 0 then .none else .passing count }
  | .word start collected => s.wordChar start collected c rest
  | .string quote start escaped =>
    if escaped then { s with token := .string quote start false }
    else if c = '\\' then { s with token := .string quote start true }
    else if c = quote then
      { s.add (.string start (s.offset + 1)) with token := .none, expect := .operator }
    else { s with token := .string quote start false }
  | .chunk escaped => s.chunkChar escaped c rest
  | .lineComment =>
    if rest.head?.all endsLine then { s with token := .none } else s
  | .blockComment =>
    let s := { s with afterLineEnd := s.afterLineEnd || endsLine c }
    if c = '*' && rest.head? = some '/' then { s with token := .passing 1 } else s
  | .regex inClass escaped =>
    if escaped then { s with token := .regex inClass false }
    else if c = '\\' then { s with token := .regex inClass true }
    else if c = '[' then { s with token := .regex true false }
    else if c = ']' then { s with token := .regex false false }
    else if c = '/' && !inClass then
      { s.add (.mark "/") with
        token := if rest.head?.any isWordChar then .flags else .none, expect := .operator }
    else s
  | .flags => if rest.head?.any isWordChar then s else { s with token := .none }
  | .attribute quote => if c = quote then { s with token := .none } else s
  | .closingTag => if c = '>' then { s.leave .operator with token := .none } else s
  | .typeArguments depth =>
    if c = '<' then { s with token := .typeArguments (depth + 1) }
    else if c = '>' then
      { s with token := match depth with
        | 0 => .none
        | depth + 1 => .typeArguments depth }
    else s
  | .none | .passing 0 =>
    match s.top.enclosure with
    | .tag => s.tagChar c rest
    | .children => s.childrenChar c rest
    | .template _ => s.chunkChar false c rest
    | _ => s.codeChar language c rest

/-- Reads a text to its end. -/
def run (language : Language) (s : Scanner) : List Char → Scanner
  | [] => s
  | c :: rest =>
    let next := s.step language c rest
    run language { next with offset := s.offset + c.utf8Size } rest

/-- Closes what is still open around the given nodes, from the inside out, where
the script ends. -/
def unwind (stop : Nat) (top : Frame) : List Frame → List Node
  | [] => top.nodes.reverse
  | around :: outer =>
    unwind stop { around with nodes := top.toNode stop false :: around.nodes } outer

/-- The nodes of the whole script. -/
def finish (s : Scanner) : List Node := unwind s.offset s.top s.outer

end Scanner

/-- The bracket structure of a script. -/
def Node.ofText (language : Language) (text : String) : List Node :=
  (Scanner.initial.run language text.toList).finish

end OpManifest.Script
