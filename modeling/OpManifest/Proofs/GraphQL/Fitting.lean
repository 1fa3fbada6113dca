import Mathlib.Data.List.Nodup
import OpManifest.GraphQL.Parser
import OpManifest.Proofs.GraphQL.Phrase

/-!
# Phrases that can be parsed

What a parsed phrase promises (`Fits`): its names are names, its numbers are
numbers of their formats, the fields of its objects are in order, and its
brackets are nested no deeper than allowed.  What is read back from the printed
text of such a phrase promises the same (`Fits.readBack`).
-/

namespace OpManifest.GraphQL

open Decimal (Binary64)

/-! ## Tokens -/

/-- What the scanner promises of a token. -/
def Token.Valid : Token → Prop
  | .name text => IsName text
  | .int number => -0x8000000000000000 ≤ number ∧ number < 0x8000000000000000
  | .float number => number.Normal
  | .punctuator _ | .ellipsis | .string _ => True

theorem range_of_readInt {text : List Char} {number : Int} (h : Token.readInt text = some number) :
    -0x8000000000000000 ≤ number ∧ number < 0x8000000000000000 := by
  unfold Token.readInt at h
  simp only at h
  generalize (if (Token.splitSign text).1 = true then
      -(Text.digitsValue (Token.splitSign text).2 : Int)
    else Text.digitsValue (Token.splitSign text).2) = value at h
  split at h
  · rename_i hrange
    obtain rfl := Option.some.inj h
    simp only [Bool.and_eq_true, decide_eq_true_eq] at hrange
    exact ⟨hrange.1.2, hrange.2⟩
  · cases h

theorem normal_of_readFloat {text : List Char} {number : Binary64}
    (h : Token.readFloat text = some number) : number.Normal := by
  have hlast {c : Prop} [Decidable c] {f : Decimal.Fraction}
      (h : (if c then some (Binary64.ofFraction f) else none) = some number) : number.Normal := by
    split at h
    · obtain rfl := Option.some.inj h
      exact Binary64.normal_ofFraction f
    · cases h
  unfold Token.readFloat at h
  simp only [Option.bind_eq_bind] at h
  split at h
  all_goals
    obtain ⟨exponent, -, h⟩ := Option.bind_eq_some_iff.1 h
    split at h
    · exact hlast h
    · split at h
      · cases h
      · exact hlast h

theorem valid_of_readNumber {text : List Char} {token : Token}
    (h : Token.readNumber text = some token) : token.Valid := by
  unfold Token.readNumber at h
  split at h
  · obtain ⟨number, hread, rfl⟩ := Option.map_eq_some_iff.1 h
    exact normal_of_readFloat hread
  · obtain ⟨number, hread, rfl⟩ := Option.map_eq_some_iff.1 h
    exact range_of_readInt hread

theorem valid_of_scan {cs rest : List Char} {token : Token}
    (h : Token.scan cs = some (token, rest)) : token.Valid := by
  unfold Token.scan at h
  split at h
  · cases h
    trivial
  · obtain ⟨_, -, hout⟩ := Option.bind_eq_some_iff.1 h
    cases hout
    trivial
  · obtain ⟨_, -, hout⟩ := Option.bind_eq_some_iff.1 h
    cases hout
    trivial
  · rename_i c tail _ _ _
    split at h
    · cases h
      trivial
    · split at h
      · rename_i hstart
        cases h
        exact ⟨c, tail.takeWhile Token.isNameContinue, String.toList_ofList, hstart,
          List.all_takeWhile⟩
      · split at h
        · obtain ⟨_, hread, hout⟩ := Option.bind_eq_some_iff.1 h
          cases hout
          exact valid_of_readNumber hread
        · cases h
  · cases h

/-- The tokens of a text are valid. -/
theorem valid_of_mem_scan (p : Position) (cs : List Char) :
    ∀ l ∈ (Lexemes.scan p cs).lexemes, l.token.Valid := by
  induction cs using Lexemes.scanInduction generalizing p with
  | nil => simp [Lexemes.scan_nil]
  | ignored c rest hignored ih =>
    rw [Lexemes.scan_ignored hignored]
    exact ih _
  | lastComment rest hdrop => simp [Lexemes.scan_last_comment hdrop]
  | comment rest c tail hdrop ih =>
    rw [Lexemes.scan_comment hdrop]
    exact ih _
  | stop c rest hignored hcomment hscan => simp [Lexemes.scan_none hignored hcomment hscan]
  | token c rest token tail hignored hcomment hscan ih =>
    obtain ⟨q, hq⟩ := Lexemes.scan_token (p := p) hignored hcomment hscan
    rw [hq]
    exact List.forall_mem_cons.2 ⟨valid_of_scan hscan, ih q⟩

/-! ## Fields in order -/

/-- The fields are in the order of their names, and no two have one name. -/
def SortedFields (fields : List (String × Value)) : Prop :=
  (fields.map Prod.fst).Pairwise (compare · · = .lt)

theorem sortedFields_sortFields (fields : List (String × Value)) :
    SortedFields (Parser.sortFields fields) := by
  rw [SortedFields, Parser.sortFields, Std.ExtTreeMap.map_fst_toList_eq_keys]
  exact Std.ExtTreeMap.ordered_keys

theorem mem_of_mem_sortFields {fields : List (String × Value)} {field : String × Value}
    (h : field ∈ Parser.sortFields fields) : field ∈ fields := by
  obtain ⟨name, item⟩ := field
  rw [Parser.sortFields, Std.ExtTreeMap.mem_toList_iff_getElem?_eq_some,
    Std.ExtTreeMap.ofList_eq_insertMany_empty] at h
  have hinsert : ∀ (fields : List (String × Value)) (map : Std.ExtTreeMap String Value compare),
      (map.insertMany fields)[name]? = some item →
        (name, item) ∈ fields ∨ map[name]? = some item := by
    intro fields
    induction fields with
    | nil => exact fun map h => .inr (by simpa using h)
    | cons field fields ih =>
      intro map h
      rw [Std.ExtTreeMap.insertMany_cons] at h
      rcases ih _ h with hin | hin
      · exact .inl (List.mem_cons_of_mem _ hin)
      · rw [Std.ExtTreeMap.getElem?_insert] at hin
        split at hin
        · rename_i hname
          obtain rfl := Std.LawfulEqCmp.eq_of_compare hname
          obtain rfl := Option.some.inj hin
          exact .inl List.mem_cons_self
        · exact .inr hin
  simpa using hinsert fields ∅ h

/-- Fields in order are left as they are. -/
theorem sortFields_eq_self {fields : List (String × Value)} (h : SortedFields fields) :
    Parser.sortFields fields = fields := by
  have hpairs : fields.Pairwise fun a b => compare a.1 b.1 = .lt := List.pairwise_map.1 h
  have hdistinct : fields.Pairwise fun a b => ¬compare a.1 b.1 = .eq :=
    hpairs.imp fun hlt heq => by simp [hlt] at heq
  have hsorted : (Parser.sortFields fields).Pairwise fun a b => compare a.1 b.1 = .lt :=
    Std.ExtTreeMap.ordered_keys_toList
  have hnodup {fields : List (String × Value)}
      (hpairs : fields.Pairwise fun a b => compare a.1 b.1 = .lt) : fields.Nodup :=
    hpairs.imp fun hlt heq => by simp [heq, Std.ReflCmp.compare_self] at hlt
  have hmem (field : String × Value) : field ∈ Parser.sortFields fields ↔ field ∈ fields := by
    refine ⟨mem_of_mem_sortFields, fun hin => ?_⟩
    rw [Parser.sortFields, Std.ExtTreeMap.mem_toList_iff_getElem?_eq_some]
    exact Std.ExtTreeMap.getElem?_ofList_of_mem Std.ReflCmp.compare_self hdistinct hin
  have hperm : (Parser.sortFields fields).Perm fields :=
    (List.perm_ext_iff_of_nodup (hnodup hsorted) (hnodup hpairs)).2 hmem
  refine hperm.eq_of_pairwise (fun a b _ _ hab hba => ?_) hsorted hpairs
  rw [Std.OrientedCmp.gt_of_lt hab] at hba
  cases hba

/-! ## Values -/

/-- A value that can be parsed below so many more brackets. -/
inductive Value.Fits (constant : Bool) : Nat → Value → Prop where
  | reference {depth : Nat} {name : String} (hvariable : constant = false) (hname : IsName name) :
    Fits constant depth (.reference name)
  | int {depth : Nat} {number : Int} (hnumber : (Token.int number).Valid) :
    Fits constant depth (.int number)
  | float {depth : Nat} {number : Binary64} (hnumber : (Token.float number).Valid) :
    Fits constant depth (.float number)
  | string {depth : Nat} {text : String} : Fits constant depth (.string text)
  | boolean {depth : Nat} {value : Bool} : Fits constant depth (.boolean value)
  | null {depth : Nat} : Fits constant depth .null
  | symbol {depth : Nat} {name : String} (hname : IsName name)
    (hword : name ≠ "true" ∧ name ≠ "false" ∧ name ≠ "null") : Fits constant depth (.symbol name)
  | list {depth : Nat} {items : List Value} (hitems : ∀ item ∈ items, Fits constant depth item) :
    Fits constant (depth + 1) (.list items)
  | object {depth : Nat} {fields : List (String × Value)} (hsorted : SortedFields fields)
    (hnames : ∀ field ∈ fields, IsName field.1)
    (hfields : ∀ field ∈ fields, Fits constant depth field.2) :
    Fits constant (depth + 1) (.object fields)

theorem forall₂_of_mapM {α : Type} {f : α → Option α} {items back : List α}
    (h : items.mapM f = some back) : List.Forall₂ (fun a b => f a = some b) items back := by
  induction items generalizing back with
  | nil =>
    rw [List.mapM_nil] at h
    obtain rfl := Option.some.inj h
    exact .nil
  | cons item items ih =>
    rw [List.mapM_cons] at h
    obtain ⟨first, hfirst, h⟩ := Option.bind_eq_some_iff.1 h
    obtain ⟨others, hothers, h⟩ := Option.bind_eq_some_iff.1 h
    obtain rfl := Option.some.inj h
    exact .cons hfirst (ih hothers)

/-- What is mapped member by member comes from a member. -/
theorem exists_of_mem_mapM {α : Type} {f : α → Option α} {items back : List α}
    (h : items.mapM f = some back) {b : α} (hb : b ∈ back) : ∃ a ∈ items, f a = some b := by
  replace h := forall₂_of_mapM h
  induction h with
  | nil => cases hb
  | @cons item first items others hfirst _ ih =>
    rcases List.mem_cons.1 hb with rfl | hb
    · exact ⟨item, List.mem_cons_self, hfirst⟩
    · obtain ⟨a, ha, hfa⟩ := ih hb
      exact ⟨a, List.mem_cons_of_mem item ha, hfa⟩

namespace Value

/-- Names are read back as they are. -/
theorem map_fst_readBackNamed {fields back : List (String × Value)}
    (h : fields.mapM readBackNamed = some back) : back.map Prod.fst = fields.map Prod.fst := by
  replace h := forall₂_of_mapM h
  induction h with
  | nil => rfl
  | cons hfirst _ ih =>
    obtain ⟨item, -, rfl⟩ := Option.map_eq_some_iff.1 hfirst
    rw [List.map_cons, List.map_cons, ih]

theorem valid_of_floatToken {number : Binary64} {token : Token}
    (h : floatToken number = some token) : token.Valid := by
  unfold floatToken at h
  split at h
  · obtain rfl := Option.some.inj h
    show IsName _
    decide
  · obtain rfl := Option.some.inj h
    show IsName _
    decide
  · exact valid_of_readNumber h

theorem fits_of_ofNumber? {constant : Bool} {depth : Nat} {number : Binary64} {back : Value}
    (h : ofNumber? number = some back) : back.Fits constant depth := by
  unfold ofNumber? at h
  split at h
  · rename_i hwhole
    obtain rfl := Option.some.inj h
    exact .int (valid_of_floatToken hwhole)
  · rename_i hnumber
    obtain rfl := Option.some.inj h
    exact .float (valid_of_floatToken hnumber)
  · rename_i name hname
    obtain rfl := Option.some.inj h
    refine .symbol (valid_of_floatToken hname) ?_
    rcases floatToken_cases hname with ⟨_, hint⟩ | ⟨_, hfloat⟩ | hinf | hnan
    · cases hint
    · cases hfloat
    · rw [Token.name.inj hinf]
      decide
    · rw [Token.name.inj hnan]
      decide
  · cases h

theorem Fits.readBack {constant : Bool} {depth : Nat} {v back : Value} (h : v.Fits constant depth)
    (hback : v.readBack = some back) : back.Fits constant depth := by
  induction h generalizing back with
  | list hitems ih =>
    rw [Value.readBack, readBackItems_eq] at hback
    obtain ⟨items, hread, rfl⟩ := Option.map_eq_some_iff.1 hback
    refine .list fun item hitem => ?_
    obtain ⟨written, hwritten, hitemread⟩ := exists_of_mem_mapM hread hitem
    exact ih written hwritten hitemread
  | object hsorted hnames hfields ih =>
    rw [Value.readBack, readBackFields_eq] at hback
    obtain ⟨fields, hread, rfl⟩ := Option.map_eq_some_iff.1 hback
    have hkeys := map_fst_readBackNamed hread
    refine .object ?_ (fun field hfield => ?_) fun field hfield => ?_
    · rw [SortedFields, hkeys]
      exact hsorted
    · obtain ⟨written, hwritten, hfieldread⟩ := exists_of_mem_mapM hread hfield
      obtain ⟨item, -, rfl⟩ := Option.map_eq_some_iff.1 hfieldread
      exact hnames written hwritten
    · obtain ⟨written, hwritten, hfieldread⟩ := exists_of_mem_mapM hread hfield
      obtain ⟨item, hitem, rfl⟩ := Option.map_eq_some_iff.1 hfieldread
      exact ih written hwritten hitem
  | float hnumber => exact fits_of_ofNumber? hback
  | string =>
    obtain rfl := Option.some.inj hback
    exact .string
  | reference hvariable hname =>
    obtain rfl := Option.some.inj hback
    exact .reference hvariable hname
  | int hnumber =>
    obtain rfl := Option.some.inj hback
    exact .int hnumber
  | boolean =>
    obtain rfl := Option.some.inj hback
    exact .boolean
  | null =>
    obtain rfl := Option.some.inj hback
    exact .null
  | symbol hname hword =>
    obtain rfl := Option.some.inj hback
    exact .symbol hname hword

end Value

/-! ## Arguments, directives and types -/

/-- Arguments that can be parsed below so many more brackets. -/
def ArgumentsFit (depth : Nat) (arguments : List (String × Value)) : Prop :=
  ∀ argument ∈ arguments, IsName argument.1 ∧ ∃ below, depth = below + 1 ∧
    argument.2.Fits false below

theorem ArgumentsFit.readBack {depth : Nat} {arguments back : List (String × Value)}
    (h : ArgumentsFit depth arguments) (hback : readBackArguments arguments = some back) :
    ArgumentsFit depth back := by
  intro argument hargument
  obtain ⟨written, hwritten, hread⟩ := exists_of_mem_mapM hback hargument
  obtain ⟨item, hitem, rfl⟩ := Option.map_eq_some_iff.1 hread
  obtain ⟨hname, below, hdepth, hfits⟩ := h written hwritten
  exact ⟨hname, below, hdepth, hfits.readBack hitem⟩

/-- A directive that can be parsed below so many more brackets. -/
structure Directive.Fits (depth : Nat) (d : Directive) : Prop where
  name : IsName d.name
  arguments : ArgumentsFit depth d.arguments

theorem Directive.Fits.readBack {depth : Nat} {d back : Directive} (h : d.Fits depth)
    (hback : d.readBack = some back) : back.Fits depth := by
  obtain ⟨arguments, hread, rfl⟩ := Option.map_eq_some_iff.1 hback
  exact ⟨h.name, h.arguments.readBack hread⟩

theorem fits_of_readBackDirectives {depth : Nat} {directives back : List Directive}
    (h : ∀ directive ∈ directives, directive.Fits depth)
    (hback : readBackDirectives directives = some back) :
    ∀ directive ∈ back, directive.Fits depth := by
  intro directive hdirective
  obtain ⟨written, hwritten, hread⟩ := exists_of_mem_mapM hback hdirective
  exact (h written hwritten).readBack hread

/-- A type that can be parsed below so many more brackets. -/
inductive TypeRef.Fits : Nat → TypeRef → Prop where
  | named {depth : Nat} {name : String} (hname : IsName name) : Fits depth (.named name)
  | list {depth : Nat} {item : TypeRef} (hitem : Fits depth item) : Fits (depth + 1) (.list item)
  | nonNull {depth : Nat} {type : TypeRef} (htype : Fits depth type)
    (hplain : ∀ inner, type ≠ .nonNull inner) : Fits depth (.nonNull type)

/-- A variable definition that can be parsed below so many more brackets. -/
structure VariableDefinition.Fits (depth : Nat) (v : VariableDefinition) : Prop where
  name : IsName v.name
  type : v.type.Fits depth
  default : ∀ default ∈ v.default, default.Fits true depth

theorem VariableDefinition.Fits.readBack {depth : Nat} {v back : VariableDefinition}
    (h : v.Fits depth) (hback : v.readBack = some back) : back.Fits depth := by
  unfold VariableDefinition.readBack at hback
  split at hback
  · rename_i default hdefault
    obtain ⟨item, hread, rfl⟩ := Option.map_eq_some_iff.1 hback
    refine ⟨h.name, h.type, fun other hother => ?_⟩
    obtain rfl := Option.some.inj hother
    exact (h.default default hdefault).readBack hread
  · obtain rfl := Option.some.inj hback
    exact h

/-! ## Selections -/

/-- A selection that can be parsed below so many more brackets. -/
inductive Selection.Fits : Nat → Selection → Prop where
  | leaf {depth : Nat} {responseName : Option String} {name : String}
    {arguments : List (String × Value)} {directives : List Directive}
    (hresponse : ∀ name ∈ responseName, IsName name) (hname : IsName name)
    (harguments : ArgumentsFit depth arguments)
    (hdirectives : ∀ directive ∈ directives, directive.Fits depth) :
    Fits depth (.field responseName name arguments directives [])
  | field {depth : Nat} {responseName : Option String} {name : String}
    {arguments : List (String × Value)} {directives : List Directive} {selections : List Selection}
    (hresponse : ∀ name ∈ responseName, IsName name) (hname : IsName name)
    (harguments : ArgumentsFit (depth + 1) arguments)
    (hdirectives : ∀ directive ∈ directives, directive.Fits (depth + 1))
    (hne : selections ≠ []) (hselections : ∀ selection ∈ selections, Fits depth selection) :
    Fits (depth + 1) (.field responseName name arguments directives selections)
  | spread {depth : Nat} {name : String} {directives : List Directive} (hname : IsName name)
    (hword : name ≠ "on") (hdirectives : ∀ directive ∈ directives, directive.Fits depth) :
    Fits depth (.spread name directives)
  | inlineFragment {depth : Nat} {typeCondition : Option String} {directives : List Directive}
    {selections : List Selection} (hcondition : ∀ name ∈ typeCondition, IsName name)
    (hdirectives : ∀ directive ∈ directives, directive.Fits (depth + 1)) (hne : selections ≠ [])
    (hselections : ∀ selection ∈ selections, Fits depth selection) :
    Fits (depth + 1) (.inlineFragment typeCondition directives selections)

theorem ne_nil_of_mapM {α : Type} {f : α → Option α} {items back : List α}
    (h : items.mapM f = some back) (hne : items ≠ []) : back ≠ [] := by
  rintro rfl
  exact hne (List.length_eq_zero_iff.1 (forall₂_of_mapM h).length_eq)

theorem Selection.Fits.readBack {depth : Nat} {s back : Selection} (h : s.Fits depth)
    (hback : s.readBack = some back) : back.Fits depth := by
  induction h generalizing back with
  | leaf hresponse hname harguments hdirectives =>
    rw [Selection.readBack] at hback
    obtain ⟨arguments, hread, hback⟩ := Option.bind_eq_some_iff.1 hback
    obtain ⟨directives, hdirectivesread, hback⟩ := Option.bind_eq_some_iff.1 hback
    obtain rfl := Option.some.inj hback
    exact .leaf hresponse hname (harguments.readBack hread)
      (fits_of_readBackDirectives hdirectives hdirectivesread)
  | field hresponse hname harguments hdirectives hne hselections ih =>
    rw [Selection.readBack, readBackList_eq] at hback
    obtain ⟨arguments, hread, hback⟩ := Option.bind_eq_some_iff.1 hback
    obtain ⟨directives, hdirectivesread, hback⟩ := Option.bind_eq_some_iff.1 hback
    obtain ⟨selections, hselectionsread, hback⟩ := Option.bind_eq_some_iff.1 hback
    obtain rfl := Option.some.inj hback
    refine .field hresponse hname (harguments.readBack hread)
      (fits_of_readBackDirectives hdirectives hdirectivesread) (ne_nil_of_mapM hselectionsread hne)
      fun selection hselection => ?_
    obtain ⟨written, hwritten, hselectionread⟩ := exists_of_mem_mapM hselectionsread hselection
    exact ih written hwritten hselectionread
  | spread hname hword hdirectives =>
    rw [Selection.readBack] at hback
    obtain ⟨directives, hread, rfl⟩ := Option.map_eq_some_iff.1 hback
    exact .spread hname hword (fits_of_readBackDirectives hdirectives hread)
  | inlineFragment hcondition hdirectives hne hselections ih =>
    rw [Selection.readBack, readBackList_eq] at hback
    obtain ⟨directives, hdirectivesread, hback⟩ := Option.bind_eq_some_iff.1 hback
    obtain ⟨selections, hselectionsread, hback⟩ := Option.bind_eq_some_iff.1 hback
    obtain rfl := Option.some.inj hback
    refine .inlineFragment hcondition (fits_of_readBackDirectives hdirectives hdirectivesread)
      (ne_nil_of_mapM hselectionsread hne) fun selection hselection => ?_
    obtain ⟨written, hwritten, hselectionread⟩ := exists_of_mem_mapM hselectionsread hselection
    exact ih written hwritten hselectionread

/-- A selection set that can be parsed below so many more brackets. -/
structure SetFits (depth : Nat) (selections : List Selection) : Prop where
  nonempty : selections ≠ []
  selections : ∀ selection ∈ selections, selection.Fits depth

theorem SetFits.readBack {depth : Nat} {selections back : List Selection}
    (h : SetFits depth selections) (hback : readBackSelections selections = some back) :
    SetFits depth back := by
  refine ⟨ne_nil_of_mapM hback h.nonempty, fun selection hselection => ?_⟩
  obtain ⟨written, hwritten, hread⟩ := exists_of_mem_mapM hback hselection
  exact (h.selections written hwritten).readBack hread

/-! ## Definitions -/

/-- The depth that is left inside the brackets of a definition. -/
def innerDepth : Nat := Parser.maxDepth - 1

/-- An operation that can be parsed. -/
structure Operation.Fits (o : Operation) : Prop where
  name : ∀ name ∈ o.name, IsName name
  variableDefinitions : ∀ definition ∈ o.variableDefinitions, definition.Fits innerDepth
  directives : ∀ directive ∈ o.directives, directive.Fits Parser.maxDepth
  selections : SetFits innerDepth o.selections

theorem Operation.Fits.readBack {o back : Operation} (h : o.Fits) (hback : o.readBack = some back) :
    back.Fits := by
  obtain ⟨definitions, hdefinitions, hback⟩ := Option.bind_eq_some_iff.1 hback
  obtain ⟨directives, hdirectives, hback⟩ := Option.bind_eq_some_iff.1 hback
  obtain ⟨selections, hselections, hback⟩ := Option.bind_eq_some_iff.1 hback
  obtain rfl := Option.some.inj hback
  refine ⟨h.name, fun definition hdefinition => ?_,
    fits_of_readBackDirectives h.directives hdirectives, h.selections.readBack hselections⟩
  obtain ⟨written, hwritten, hread⟩ := exists_of_mem_mapM hdefinitions hdefinition
  exact (h.variableDefinitions written hwritten).readBack hread

/-- A fragment that can be parsed. -/
structure Fragment.Fits (f : Fragment) : Prop where
  name : IsName f.name
  typeCondition : IsName f.typeCondition
  directives : ∀ directive ∈ f.directives, directive.Fits Parser.maxDepth
  selections : SetFits innerDepth f.selections

theorem Fragment.Fits.readBack {f back : Fragment} (h : f.Fits) (hback : f.readBack = some back) :
    back.Fits := by
  obtain ⟨directives, hdirectives, hback⟩ := Option.bind_eq_some_iff.1 hback
  obtain ⟨selections, hselections, hback⟩ := Option.bind_eq_some_iff.1 hback
  obtain rfl := Option.some.inj hback
  exact ⟨h.name, h.typeCondition, fits_of_readBackDirectives h.directives hdirectives,
    h.selections.readBack hselections⟩

/-- A definition that can be parsed. -/
def Definition.Fits : Definition → Prop
  | .shorthand set => SetFits innerDepth set
  | .operation o => o.Fits
  | .fragment f => f.Fits

theorem Definition.Fits.readBack {d back : Definition} (h : d.Fits)
    (hback : d.readBack = some back) : back.Fits := by
  cases d with
  | shorthand set =>
    obtain ⟨selections, hread, rfl⟩ := Option.map_eq_some_iff.1 hback
    exact SetFits.readBack h hread
  | operation o =>
    obtain ⟨operation, hread, rfl⟩ := Option.map_eq_some_iff.1 hback
    exact Operation.Fits.readBack h hread
  | fragment f =>
    obtain ⟨fragment, hread, rfl⟩ := Option.map_eq_some_iff.1 hback
    exact Fragment.Fits.readBack h hread

/-- A document that can be parsed. -/
structure Document.Fits (d : Document) : Prop where
  nonempty : d.definitions ≠ []
  definitions : ∀ definition ∈ d.definitions, definition.Fits

/-- What is read back from a document that can be parsed can be parsed. -/
theorem Document.Fits.readBack {d back : Document} (h : d.Fits) (hback : d.readBack = some back) :
    back.Fits := by
  obtain ⟨definitions, hread, rfl⟩ := Option.map_eq_some_iff.1 hback
  refine ⟨ne_nil_of_mapM hread h.nonempty, fun definition hdefinition => ?_⟩
  obtain ⟨written, hwritten, hdefinitionread⟩ := exists_of_mem_mapM hread hdefinition
  exact (h.definitions written hwritten).readBack hdefinitionread

end OpManifest.GraphQL
