import OpManifest.GraphQL.Document
import OpManifest.Proofs.GraphQL.Number
import OpManifest.Proofs.GraphQL.Strings

/-!
# Phrases and their literals

What the way from a document to its text and back is about: the tokens that a
phrase is written with (`tokens`), its literals (`literals`), and the phrase that
is read back from its printed text, if any (`readBack`).  A phrase is read back
as it is exactly if all its literals are (`Document.readBack_eq_iff`).
-/

namespace OpManifest.GraphQL

open Decimal (Binary64)

/-! ## Lists of phrases -/

/-- A list is mapped to itself if all its members are. -/
theorem mapM_eq_self_iff {α : Type} {f : α → Option α} {items : List α} :
    items.mapM f = some items ↔ ∀ item ∈ items, f item = some item := by
  induction items with
  | nil => simp
  | cons item items ih =>
    rw [List.mapM_cons, List.forall_mem_cons, ← ih]
    cases hitem : f item <;> cases hitems : items.mapM f <;> simp

/-! ## Values -/

namespace Value

/-- To show something of all values, show it of lists and objects whose members
have it, and of all others. -/
theorem byMembers {motive : Value → Prop}
    (list : ∀ items, (∀ item ∈ items, motive item) → motive (.list items))
    (object : ∀ fields, (∀ field ∈ fields, motive field.2) → motive (.object fields))
    (reference : ∀ name, motive (.reference name)) (int : ∀ number, motive (.int number))
    (float : ∀ number, motive (.float number)) (string : ∀ text, motive (.string text))
    (boolean : ∀ value, motive (.boolean value)) (null : motive .null)
    (symbol : ∀ name, motive (.symbol name)) (v : Value) : motive v := by
  refine @Value.rec motive (fun items => ∀ item ∈ items, motive item)
    (fun fields => ∀ field ∈ fields, motive field.2) (fun field => motive field.2)
    reference int float string boolean null symbol list object ?_ ?_ ?_ ?_ ?_ v
  · simp
  · intro item items hitem hitems
    exact List.forall_mem_cons.2 ⟨hitem, hitems⟩
  · simp
  · intro field fields hfield hfields
    exact List.forall_mem_cons.2 ⟨hfield, hfields⟩
  · exact fun _ _ hitem => hitem

mutual

/-- The tokens that write a value. -/
def tokens : Value → List Token
  | .reference name => [.punctuator '$', .name name]
  | .int number => [.int number]
  | .float number => [.float number]
  | .string text => [.string text]
  | .boolean true => [.name "true"]
  | .boolean false => [.name "false"]
  | .null => [.name "null"]
  | .symbol name => [.name name]
  | .list items => .punctuator '[' :: (itemTokens items ++ [.punctuator ']'])
  | .object fields => .punctuator '\x7b' :: (fieldTokens fields ++ [.punctuator '\x7d'])

/-- The tokens of the items of a list. -/
def itemTokens : List Value → List Token
  | [] => []
  | item :: items => tokens item ++ itemTokens items

/-- The tokens of named values. -/
def fieldTokens : List (String × Value) → List Token
  | [] => []
  | (name, item) :: fields => .name name :: .punctuator ':' :: (tokens item ++ fieldTokens fields)

end

mutual

/-- The literals of a value: what is in it but for lists and objects. -/
def literals : Value → List Value
  | .list items => itemLiterals items
  | .object fields => fieldLiterals fields
  | literal => [literal]

/-- The literals of the items of a list. -/
def itemLiterals : List Value → List Value
  | [] => []
  | item :: items => literals item ++ itemLiterals items

/-- The literals of named values. -/
def fieldLiterals : List (String × Value) → List Value
  | [] => []
  | (_, item) :: fields => literals item ++ fieldLiterals fields

end

/-- The value that a printed number is read back as. -/
def ofNumber? (number : Binary64) : Option Value :=
  match floatToken number with
  | some (.int whole) => some (.int whole)
  | some (.float number) => some (.float number)
  | some (.name name) => some (.symbol name)
  | _ => none

mutual

/-- The value that is read back from the text of a value. -/
def readBack : Value → Option Value
  | .float number => ofNumber? number
  | .string text => some (.string (.ofList (readBackText text.toList)))
  | .list items => (readBackItems items).map .list
  | .object fields => (readBackFields fields).map .object
  | literal => some literal

/-- The items that are read back from the texts of items. -/
def readBackItems : List Value → Option (List Value)
  | [] => some []
  | item :: items => do return (← readBack item) :: (← readBackItems items)

/-- The named values that are read back from the texts of named values. -/
def readBackFields : List (String × Value) → Option (List (String × Value))
  | [] => some []
  | (name, item) :: fields => do return (name, ← readBack item) :: (← readBackFields fields)

end

/-- The tokens of one named value. -/
def namedTokens (field : String × Value) : List Token :=
  .name field.1 :: .punctuator ':' :: field.2.tokens

/-- What is read back from the text of one named value. -/
def readBackNamed (field : String × Value) : Option (String × Value) :=
  field.2.readBack.map (field.1, ·)

theorem itemTokens_eq (items : List Value) : itemTokens items = items.flatMap tokens := by
  induction items with
  | nil => rfl
  | cons item items ih => rw [itemTokens, ih, List.flatMap_cons]

theorem fieldTokens_eq (fields : List (String × Value)) :
    fieldTokens fields = fields.flatMap namedTokens := by
  induction fields with
  | nil => rfl
  | cons field fields ih =>
    rw [fieldTokens, ih, List.flatMap_cons]
    rfl

theorem itemLiterals_eq (items : List Value) : itemLiterals items = items.flatMap literals := by
  induction items with
  | nil => rfl
  | cons item items ih => rw [itemLiterals, ih, List.flatMap_cons]

theorem fieldLiterals_eq (fields : List (String × Value)) :
    fieldLiterals fields = fields.flatMap (·.2.literals) := by
  induction fields with
  | nil => rfl
  | cons field fields ih => rw [fieldLiterals, ih, List.flatMap_cons]

theorem readBackItems_eq (items : List Value) : readBackItems items = items.mapM readBack := by
  induction items with
  | nil => simp [readBackItems]
  | cons item items ih =>
    rw [readBackItems, ih, List.mapM_cons]

theorem readBackFields_eq (fields : List (String × Value)) :
    readBackFields fields = fields.mapM readBackNamed := by
  induction fields with
  | nil => simp [readBackFields]
  | cons field fields ih =>
    rw [readBackFields, ih, List.mapM_cons, readBackNamed]
    cases field.2.readBack <;> rfl

end Value

/-! ## Literals that are read back -/

/-- All of these literals are read back as they are. -/
def AllReadBack (literals : List Value) : Prop :=
  ∀ literal ∈ literals, literal.readBack = some literal

@[simp]
theorem allReadBack_nil : AllReadBack [] := by
  simp [AllReadBack]

@[simp]
theorem allReadBack_append (first second : List Value) :
    AllReadBack (first ++ second) ↔ AllReadBack first ∧ AllReadBack second :=
  List.forall_mem_append

/-- A list is read back as it is if the literals of its members are. -/
theorem mapM_readBack_iff {α : Type} {readBack : α → Option α} {literals : α → List Value}
    {items : List α}
    (h : ∀ item ∈ items, readBack item = some item ↔ AllReadBack (literals item)) :
    items.mapM readBack = some items ↔ AllReadBack (items.flatMap literals) := by
  rw [mapM_eq_self_iff, AllReadBack]
  simp only [List.mem_flatMap, forall_exists_index, and_imp]
  exact ⟨fun hall literal item hitem => (h item hitem).1 (hall item hitem) literal,
    fun hall item hitem => (h item hitem).2 fun literal => hall literal item hitem⟩

theorem Value.readBackNamed_eq_iff (field : String × Value) :
    readBackNamed field = some field ↔ field.2.readBack = some field.2 := by
  rw [readBackNamed]
  cases field.2.readBack <;> simp [Prod.ext_iff]

/-- A value is read back as it is if its literals are. -/
theorem Value.readBack_eq_iff (v : Value) : v.readBack = some v ↔ AllReadBack v.literals := by
  induction v using byMembers with
  | list items ih =>
    rw [literals, itemLiterals_eq, ← mapM_readBack_iff ih, readBack, readBackItems_eq]
    cases items.mapM readBack <;> simp
  | object fields ih =>
    have hfields : ∀ field ∈ fields,
        readBackNamed field = some field ↔ AllReadBack field.2.literals :=
      fun field hfield => (readBackNamed_eq_iff field).trans (ih field hfield)
    rw [literals, fieldLiterals_eq, ← mapM_readBack_iff hfields, readBack, readBackFields_eq]
    cases fields.mapM readBackNamed <;> simp
  | reference | int | float | string | boolean | null | symbol => simp [literals, AllReadBack]

/-! ## Arguments and directives -/

/-- The tokens of arguments in parentheses, if any. -/
def argumentTokens (arguments : List (String × Value)) : List Token :=
  if arguments.isEmpty then []
  else .punctuator '(' :: (arguments.flatMap Value.namedTokens ++ [.punctuator ')'])

/-- The literals of arguments. -/
def argumentLiterals (arguments : List (String × Value)) : List Value :=
  arguments.flatMap (·.2.literals)

/-- The arguments that are read back from the text of arguments. -/
def readBackArguments (arguments : List (String × Value)) : Option (List (String × Value)) :=
  arguments.mapM Value.readBackNamed

theorem readBackArguments_eq_iff (arguments : List (String × Value)) :
    readBackArguments arguments = some arguments ↔ AllReadBack (argumentLiterals arguments) :=
  mapM_readBack_iff fun argument _ =>
    (Value.readBackNamed_eq_iff argument).trans argument.2.readBack_eq_iff

namespace Directive

/-- The tokens that write a directive. -/
def tokens (d : Directive) : List Token :=
  .punctuator '@' :: .name d.name :: argumentTokens d.arguments

/-- The literals of a directive. -/
def literals (d : Directive) : List Value := argumentLiterals d.arguments

/-- The directive that is read back from the text of a directive. -/
def readBack (d : Directive) : Option Directive :=
  (readBackArguments d.arguments).map (⟨d.name, ·⟩)

theorem readBack_eq_iff (d : Directive) : d.readBack = some d ↔ AllReadBack d.literals := by
  obtain ⟨name, arguments⟩ := d
  rw [literals, ← readBackArguments_eq_iff, readBack]
  cases readBackArguments arguments <;> simp

end Directive

/-- The directives that are read back from the text of directives. -/
def readBackDirectives (directives : List Directive) : Option (List Directive) :=
  directives.mapM Directive.readBack

theorem readBackDirectives_eq_iff (directives : List Directive) :
    readBackDirectives directives = some directives ↔
      AllReadBack (directives.flatMap Directive.literals) :=
  mapM_readBack_iff fun directive _ => directive.readBack_eq_iff

/-! ## Variables -/

/-- The tokens that write a type. -/
def TypeRef.tokens : TypeRef → List Token
  | .named name => [.name name]
  | .list item => .punctuator '[' :: (item.tokens ++ [.punctuator ']'])
  | .nonNull type => type.tokens ++ [.punctuator '!']

namespace VariableDefinition

/-- The tokens that write the default of a variable, if it has one. -/
def defaultTokens : Option Value → List Token
  | some default => .punctuator '=' :: default.tokens
  | none => []

/-- The tokens that write a variable definition. -/
def tokens (v : VariableDefinition) : List Token :=
  .punctuator '$' :: .name v.name :: .punctuator ':' :: (v.type.tokens ++ defaultTokens v.default)

/-- The literals of a variable definition. -/
def literals (v : VariableDefinition) : List Value :=
  match v.default with
  | some default => default.literals
  | none => []

/-- The variable definition that is read back from the text of one. -/
def readBack (v : VariableDefinition) : Option VariableDefinition :=
  match v.default with
  | some default => default.readBack.map fun back => { v with default := some back }
  | none => some v

theorem readBack_eq_iff (v : VariableDefinition) :
    v.readBack = some v ↔ AllReadBack v.literals := by
  obtain ⟨name, type, default⟩ := v
  cases default with
  | none => simp [readBack, literals]
  | some default =>
    show default.readBack.map _ = _ ↔ AllReadBack default.literals
    rw [← default.readBack_eq_iff]
    cases default.readBack <;> simp

end VariableDefinition

/-! ## Selections -/

namespace Selection

/-- To show something of all selections, show it of each if the selections
inside it have it. -/
theorem byMembers {motive : Selection → Prop}
    (field : ∀ responseName name arguments directives selections,
      (∀ selection ∈ selections, motive selection) →
        motive (.field responseName name arguments directives selections))
    (spread : ∀ name directives, motive (.spread name directives))
    (inlineFragment : ∀ typeCondition directives selections,
      (∀ selection ∈ selections, motive selection) →
        motive (.inlineFragment typeCondition directives selections))
    (s : Selection) : motive s := by
  refine @Selection.rec motive (fun selections => ∀ selection ∈ selections, motive selection)
    field spread inlineFragment ?_ ?_ s
  · simp
  · intro selection selections hselection hselections
    exact List.forall_mem_cons.2 ⟨hselection, hselections⟩

/-- The tokens of the name under which a field is answered, if it has one. -/
def responseTokens : Option String → List Token
  | some responseName => [.name responseName, .punctuator ':']
  | none => []

/-- The tokens of the type that an inline fragment is for, if it has one. -/
def conditionTokens : Option String → List Token
  | some typeCondition => [.name "on", .name typeCondition]
  | none => []

mutual

/-- The tokens that write a selection. -/
def tokens : Selection → List Token
  | .field responseName name arguments directives selections =>
    responseTokens responseName ++ .name name :: (argumentTokens arguments ++
      (directives.flatMap Directive.tokens ++ match selections with
        | [] => []
        | first :: others =>
          .punctuator '\x7b' :: (tokens first ++ listTokens others ++ [.punctuator '\x7d'])))
  | .spread name directives => .ellipsis :: .name name :: directives.flatMap Directive.tokens
  | .inlineFragment typeCondition directives selections =>
    .ellipsis :: (conditionTokens typeCondition ++ (directives.flatMap Directive.tokens ++
      .punctuator '\x7b' :: (listTokens selections ++ [.punctuator '\x7d'])))

/-- The tokens of selections. -/
def listTokens : List Selection → List Token
  | [] => []
  | first :: others => tokens first ++ listTokens others

end

mutual

/-- The literals of a selection. -/
def literals : Selection → List Value
  | .field _ _ arguments directives selections =>
    argumentLiterals arguments ++ (directives.flatMap Directive.literals ++ listLiterals selections)
  | .spread _ directives => directives.flatMap Directive.literals
  | .inlineFragment _ directives selections =>
    directives.flatMap Directive.literals ++ listLiterals selections

/-- The literals of selections. -/
def listLiterals : List Selection → List Value
  | [] => []
  | first :: others => literals first ++ listLiterals others

end

mutual

/-- The selection that is read back from the text of a selection. -/
def readBack : Selection → Option Selection
  | .field responseName name arguments directives selections => do
    return .field responseName name (← readBackArguments arguments)
      (← readBackDirectives directives)
      (← readBackList selections)
  | .spread name directives => (readBackDirectives directives).map (.spread name)
  | .inlineFragment typeCondition directives selections => do
    return .inlineFragment typeCondition (← readBackDirectives directives)
      (← readBackList selections)

/-- The selections that are read back from the texts of selections. -/
def readBackList : List Selection → Option (List Selection)
  | [] => some []
  | first :: others => do return (← readBack first) :: (← readBackList others)

end

theorem listTokens_eq (selections : List Selection) :
    listTokens selections = selections.flatMap tokens := by
  induction selections with
  | nil => rfl
  | cons first others ih => rw [listTokens, ih, List.flatMap_cons]

theorem listLiterals_eq (selections : List Selection) :
    listLiterals selections = selections.flatMap literals := by
  induction selections with
  | nil => rfl
  | cons first others ih => rw [listLiterals, ih, List.flatMap_cons]

theorem readBackList_eq (selections : List Selection) :
    readBackList selections = selections.mapM readBack := by
  induction selections with
  | nil => simp [readBackList]
  | cons first others ih => rw [readBackList, ih, List.mapM_cons]

/-- A selection is read back as it is if its literals are. -/
theorem readBack_eq_iff (s : Selection) : s.readBack = some s ↔ AllReadBack s.literals := by
  induction s using byMembers with
  | field responseName name arguments directives selections ih =>
    rw [literals, allReadBack_append, allReadBack_append, listLiterals_eq, ← mapM_readBack_iff ih,
      ← readBackArguments_eq_iff, ← readBackDirectives_eq_iff, readBack, readBackList_eq]
    cases readBackArguments arguments <;> cases readBackDirectives directives <;>
      cases selections.mapM readBack <;> simp
  | spread name directives =>
    rw [literals, ← readBackDirectives_eq_iff, readBack]
    cases readBackDirectives directives <;> simp
  | inlineFragment typeCondition directives selections ih =>
    rw [literals, allReadBack_append, listLiterals_eq, ← mapM_readBack_iff ih,
      ← readBackDirectives_eq_iff, readBack, readBackList_eq]
    cases readBackDirectives directives <;> cases selections.mapM readBack <;> simp

end Selection

/-- The tokens of a selection set. -/
def setTokens (selections : List Selection) : List Token :=
  .punctuator '\x7b' :: (selections.flatMap Selection.tokens ++ [.punctuator '\x7d'])

/-- The selections that are read back from the text of selections. -/
def readBackSelections (selections : List Selection) : Option (List Selection) :=
  selections.mapM Selection.readBack

theorem readBackSelections_eq_iff (selections : List Selection) :
    readBackSelections selections = some selections ↔
      AllReadBack (selections.flatMap Selection.literals) :=
  mapM_readBack_iff fun selection _ => selection.readBack_eq_iff

/-- The tokens of the selections of a field, if it has some. -/
def nestedTokens (selections : List Selection) : List Token :=
  if selections.isEmpty then [] else setTokens selections

namespace Selection

theorem tokens_field (responseName : Option String) (name : String)
    (arguments : List (String × Value)) (directives : List Directive)
    (selections : List Selection) :
    (field responseName name arguments directives selections).tokens =
      responseTokens responseName ++ .name name :: (argumentTokens arguments ++
        (directives.flatMap Directive.tokens ++ nestedTokens selections)) := by
  cases selections with
  | nil => rfl
  | cons first others =>
    have hlist := listTokens_eq (first :: others)
    rw [listTokens] at hlist
    unfold tokens
    simp only [hlist, nestedTokens, setTokens]
    rfl

theorem tokens_inlineFragment (typeCondition : Option String) (directives : List Directive)
    (selections : List Selection) :
    (inlineFragment typeCondition directives selections).tokens =
      .ellipsis :: (conditionTokens typeCondition ++
        (directives.flatMap Directive.tokens ++ setTokens selections)) := by
  rw [tokens, listTokens_eq]
  rfl

theorem readBack_field (responseName : Option String) (name : String)
    (arguments : List (String × Value)) (directives : List Directive)
    (selections : List Selection) :
    (field responseName name arguments directives selections).readBack = do
      return field responseName name (← readBackArguments arguments)
        (← readBackDirectives directives) (← readBackSelections selections) := by
  rw [readBack, readBackList_eq]
  rfl

theorem readBack_inlineFragment (typeCondition : Option String) (directives : List Directive)
    (selections : List Selection) :
    (inlineFragment typeCondition directives selections).readBack = do
      return inlineFragment typeCondition (← readBackDirectives directives)
        (← readBackSelections selections) := by
  rw [readBack, readBackList_eq]
  rfl

end Selection

/-! ## Definitions -/

namespace Operation

/-- The tokens of the variables of an operation in parentheses, if any. -/
def variableTokens (definitions : List VariableDefinition) : List Token :=
  if definitions.isEmpty then []
  else .punctuator '(' :: (definitions.flatMap VariableDefinition.tokens ++ [.punctuator ')'])

/-- The tokens that write an operation. -/
def tokens (o : Operation) : List Token :=
  .name o.kind.keyword :: (o.name.toList.map .name ++ (variableTokens o.variableDefinitions ++
    (o.directives.flatMap Directive.tokens ++ setTokens o.selections)))

/-- The literals of an operation. -/
def literals (o : Operation) : List Value :=
  o.variableDefinitions.flatMap VariableDefinition.literals ++
    (o.directives.flatMap Directive.literals ++ o.selections.flatMap Selection.literals)

/-- The operation that is read back from the text of an operation. -/
def readBack (o : Operation) : Option Operation := do
  return ⟨o.kind, o.name, ← o.variableDefinitions.mapM VariableDefinition.readBack,
    ← readBackDirectives o.directives, ← readBackSelections o.selections⟩

theorem readBack_eq_iff (o : Operation) : o.readBack = some o ↔ AllReadBack o.literals := by
  obtain ⟨kind, name, definitions, directives, selections⟩ := o
  rw [literals, allReadBack_append, allReadBack_append, ← readBackDirectives_eq_iff,
    ← readBackSelections_eq_iff,
    ← mapM_readBack_iff fun definition _ => definition.readBack_eq_iff, readBack]
  cases definitions.mapM VariableDefinition.readBack <;> cases readBackDirectives directives <;>
    cases readBackSelections selections <;> simp

end Operation

namespace Fragment

/-- The tokens that write a fragment. -/
def tokens (f : Fragment) : List Token :=
  .name "fragment" :: .name f.name :: .name "on" :: .name f.typeCondition ::
    (f.directives.flatMap Directive.tokens ++ setTokens f.selections)

/-- The literals of a fragment. -/
def literals (f : Fragment) : List Value :=
  f.directives.flatMap Directive.literals ++ f.selections.flatMap Selection.literals

/-- The fragment that is read back from the text of a fragment. -/
def readBack (f : Fragment) : Option Fragment := do
  return ⟨f.name, f.typeCondition, ← readBackDirectives f.directives,
    ← readBackSelections f.selections⟩

theorem readBack_eq_iff (f : Fragment) : f.readBack = some f ↔ AllReadBack f.literals := by
  obtain ⟨name, typeCondition, directives, selections⟩ := f
  rw [literals, allReadBack_append, ← readBackDirectives_eq_iff, ← readBackSelections_eq_iff,
    readBack]
  cases readBackDirectives directives <;> cases readBackSelections selections <;> simp

end Fragment

namespace Definition

/-- The tokens that write a definition. -/
def tokens : Definition → List Token
  | .shorthand set => setTokens set
  | .operation o => o.tokens
  | .fragment f => f.tokens

/-- The literals of a definition. -/
def literals : Definition → List Value
  | .shorthand set => set.flatMap Selection.literals
  | .operation o => o.literals
  | .fragment f => f.literals

/-- The definition that is read back from the text of a definition. -/
def readBack : Definition → Option Definition
  | .shorthand set => (readBackSelections set).map .shorthand
  | .operation o => o.readBack.map .operation
  | .fragment f => f.readBack.map .fragment

theorem readBack_eq_iff (d : Definition) : d.readBack = some d ↔ AllReadBack d.literals := by
  cases d with
  | shorthand set =>
    rw [literals, ← readBackSelections_eq_iff, readBack]
    cases readBackSelections set <;> simp
  | operation o =>
    rw [literals, ← o.readBack_eq_iff, readBack]
    cases o.readBack <;> simp
  | fragment f =>
    rw [literals, ← f.readBack_eq_iff, readBack]
    cases f.readBack <;> simp

end Definition

namespace Document

/-- The tokens that write a document. -/
def tokens (d : Document) : List Token := d.definitions.flatMap Definition.tokens

/-- The literals of a document. -/
def literals (d : Document) : List Value := d.definitions.flatMap Definition.literals

/-- The document that is read back from the text of a document. -/
def readBack (d : Document) : Option Document :=
  (d.definitions.mapM Definition.readBack).map (⟨·⟩)

/-- A document is read back as it is if its literals are. -/
theorem readBack_eq_iff (d : Document) : d.readBack = some d ↔ AllReadBack d.literals := by
  obtain ⟨definitions⟩ := d
  rw [literals, ← mapM_readBack_iff fun definition _ => definition.readBack_eq_iff, readBack]
  cases definitions.mapM Definition.readBack <;> simp

end Document

end OpManifest.GraphQL
