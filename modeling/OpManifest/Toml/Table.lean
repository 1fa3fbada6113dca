import OpManifest.Data.Datum

/-!
# Tables under construction

A document defines its tables piece by piece.  A table remembers how it came to
be, because that decides who may still add to it.
-/

namespace OpManifest.Toml

open Data (Datum)

/-- How a table came to be: by a header of its own, because it lies on the way
to a table with a header, or because it lies on the way to a dotted key. -/
inductive Origin where
  | defined
  | implied
  | dotted
  deriving DecidableEq, Repr

/-- What stands under a key: a finished value, a table, or the tables of an
array with headers of their own. -/
inductive Entry where
  | value (d : Datum)
  | table (origin : Origin) (members : List (String × Entry))
  | tables (elements : List (List (String × Entry)))
  deriving Inhabited

/-- The members of a table, in the order in which their keys first appear. -/
abbrev Members := List (String × Entry)

namespace Entry

mutual

/-- The entry as data. -/
def toDatum : Entry → Datum
  | .value d => d
  | .table _ members => .mapping (membersToData members) false
  | .tables elements => .sequence (elementsToData elements)

/-- The members of a table as data. -/
def membersToData : List (String × Entry) → List (String × Datum)
  | [] => []
  | (key, entry) :: members => (key, entry.toDatum) :: membersToData members

/-- The elements of an array of tables as data. -/
def elementsToData : List (List (String × Entry)) → List Datum
  | [] => []
  | members :: elements => .mapping (membersToData members) false :: elementsToData elements

end

end Entry

namespace Members

/-- Puts an entry under a key: in the place of the entry that stands there, or
at the end. -/
def put (members : Members) (key : String) (entry : Entry) : Members :=
  match members with
  | [] => [(key, entry)]
  | (other, found) :: members =>
    if other = key then (key, entry) :: members else (other, found) :: put members key entry

/-- Changes the table at the end of a path; tables on the way are made where
there are none.  Of an array of tables the last one is meant.  A dotted key does
not enter a table that a header has defined. -/
def change (byDots : Bool) (f : Origin → Members → Option Members) :
    List String → Origin → Members → Option Members
  | [], origin, members => f origin members
  | key :: path, _, members =>
    match members.lookup key with
    | none => do
      let made := if byDots then .dotted else .implied
      return members.put key (.table made (← change byDots f path made []))
    | some (.value _) => none
    | some (.table origin inner) =>
      if byDots && origin = .defined then none
      else do return members.put key (.table origin (← change byDots f path origin inner))
    | some (.tables elements) =>
      match elements.reverse with
      | [] => none
      | last :: others => do
        let last ← change byDots f path .defined last
        return members.put key (.tables (last :: others).reverse)

/-- Adds a key and its value to a table.  With a dotted key the value goes to a
table that dotted keys have made. -/
def addValue (members : Members) (path : List String) (key : String) (d : Datum) :
    Option Members :=
  change true (fun origin inner =>
    if (inner.lookup key).isSome || (!path.isEmpty && origin ≠ .dotted) then none
    else some (inner.put key (.value d))) path .defined members

/-- Defines a table by its header.  It may have come to be before, on the way to
other headers. -/
def define (members : Members) (path : List String) (key : String) : Option Members :=
  change false (fun _ inner =>
    match inner.lookup key with
    | none => some (inner.put key (.table .defined []))
    | some (.table .implied found) => some (inner.put key (.table .defined found))
    | some _ => none) path .defined members

/-- Adds a table to an array of tables. -/
def defineElement (members : Members) (path : List String) (key : String) : Option Members :=
  change false (fun _ inner =>
    match inner.lookup key with
    | none => some (inner.put key (.tables [[]]))
    | some (.tables elements) => some (inner.put key (.tables (elements ++ [[]])))
    | some _ => none) path .defined members

/-- Adds a key and its value to the table at the end of a path of headers. -/
def addValueAt (members : Members) (header : List String) (path : List String) (key : String)
    (d : Datum) : Option Members :=
  change false (fun _ inner => addValue inner path key d) header .defined members

end Members

end OpManifest.Toml
