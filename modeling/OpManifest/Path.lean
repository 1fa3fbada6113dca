import OpManifest.Text.Split
import Std.Data.ExtTreeMap

/-!
# Paths

A path is a text whose components stand between slashes.  Two spellings of the
same components name the same place, but the spelling is kept: it is what
messages show.
-/

namespace OpManifest

/-- A path as it is spelled. -/
structure Path where
  text : String
  deriving DecidableEq, Repr, Inhabited

namespace Path

/-- A component: the root of an absolute path, a dot at the start of a
relative one, two dots, or a name. -/
inductive Component where
  | root
  | here
  | up
  | name (text : String)
  deriving DecidableEq, Repr, Inhabited

namespace Component

/-- Names come last, in the order of their characters. -/
def rank : Component → List Nat
  | .root => [0]
  | .here => [1]
  | .up => [2]
  | .name text => 3 :: text.toList.map Char.toNat

instance : Ord Component := ⟨compareOn rank⟩

instance : Std.TransOrd Component := inferInstanceAs (Std.TransCmp (compareOn rank))

theorem rank_injective {a b : Component} (h : rank a = rank b) : a = b := by
  cases a <;> cases b <;> simp_all [rank]
  rename_i a b
  have := (List.map_inj_right (fun x y (h : Char.toNat x = Char.toNat y) => Char.toNat_inj.1 h)).1 h
  exact String.toList_inj.1 this

instance : Std.LawfulEqOrd Component where
  eq_of_compare h := rank_injective (Std.LawfulEqOrd.eq_of_compare h)

/-- The component that a name between slashes spells. -/
def ofName (text : String) : Component :=
  if text = "." then .here else if text = ".." then .up else .name text

end Component

/-- A name between slashes, and where in the path it stands. -/
structure Segment where
  name : String
  start : Nat
  stop : Nat

/-- Places the pieces of a path, of which the first begins at `start`. -/
def place (start : Nat) : List (List Char) → List Segment
  | [] => []
  | piece :: others =>
    ⟨.ofList piece, start, start + piece.length⟩ :: place (start + piece.length + 1) others

/-- The path begins at the root. -/
def isAbsolute (p : Path) : Bool := p.text.toList.head? = some '/'

/-- The names that count: empty ones do not, and a dot only at the start of a
relative path. -/
def segments (p : Path) : List Segment :=
  (place 0 (Text.split '/' p.text.toList)).filter fun s =>
    s.name ≠ "" && (s.name ≠ "." || s.start = 0)

/-- The components of a path. -/
def components (p : Path) : List Component :=
  (if p.isAbsolute then [.root] else []) ++ p.segments.map fun s => .ofName s.name

/-- The part of the spelling between two places. -/
def slice (p : Path) (start stop : Nat) : Path :=
  ⟨.ofList ((p.text.toList.take stop).drop start)⟩

/-- The second path as seen from the first. -/
def join (base p : Path) : Path :=
  if p.isAbsolute then p
  else if base.text = "" || base.text.toList.getLast? = some '/' then ⟨base.text ++ p.text⟩
  else ⟨base.text ++ "/" ++ p.text⟩

/-- The path of the directory that holds it. -/
def parent? (p : Path) : Option Path :=
  match p.segments.reverse with
  | [] => none
  | [_] => some ⟨if p.isAbsolute then "/" else ""⟩
  | _ :: holder :: _ => some (p.slice 0 holder.stop)

/-- The name that the path ends with. -/
def fileName? (p : Path) : Option String :=
  match p.segments.getLast? with
  | some s => if Component.ofName s.name = .name s.name then some s.name else none
  | none => none

/-- The path lies below the base, or is the base. -/
def startsWith (p base : Path) : Bool := base.components.isPrefixOf p.components

/-- The path as seen from the base that it lies below. -/
def stripPrefix? (p base : Path) : Option Path :=
  if p.startsWith base then
    if base.components.isEmpty then some p
    else
      match p.segments.drop base.segments.length with
      | [] => some ⟨""⟩
      | first :: others => some (p.slice first.start ((first :: others).getLastD first).stop)
  else none

/-- Splits a file name at its last dot.  A dot at the start is part of the
name. -/
def splitExtension (name : String) : String × Option String :=
  if name = ".." then (name, none)
  else
    let reversed := name.toList.reverse
    match reversed.dropWhile (· ≠ '.') with
    | _ :: stem =>
      if stem.isEmpty then (name, none)
      else (.ofList stem.reverse, some (.ofList (reversed.takeWhile (· ≠ '.')).reverse))
    | [] => (name, none)

/-- The extension of the file name. -/
def extension? (p : Path) : Option String := p.fileName?.bind fun name => (splitExtension name).2

/-- The path with another extension of its file name. -/
def withExtension (p : Path) (extension : String) : Path :=
  match p.fileName?, p.segments.getLast? with
  | some name, some s =>
    let stem := (splitExtension name).1
    ⟨(p.slice 0 (s.start + stem.length)).text ++ "." ++ extension⟩
  | _, _ => p

end Path

end OpManifest
