import OpManifest.GraphQL.Printer
import OpManifest.Proofs.GraphQL.Fitting

/-!
# The tokens of a printed document

The text of a phrase is cut into the tokens of the phrase that is read back from
it (`lexes_value`, `lexes_selection`, `tokens?_print`).  If some number in it is
read back as none, then no token begins where it stands.
-/

namespace OpManifest.GraphQL

/-! ## Sequences of phrases -/

theorem Lexes.congr {before : List Char → Prop} {piece : String}
    {tokens others : Option (List Token)} (h : Lexes before piece tokens)
    (hsame : tokens = others) : Lexes before piece others :=
  hsame ▸ h

/-- A phrase between two punctuators. -/
theorem Lexes.between {left right piece : String} {tokens : Option (List Token)}
    (h : Lexes Boundary piece tokens) (opening closing : Char)
    (hleft : Punctuates left [.punctuator opening])
    (hright : Punctuates right [.punctuator closing]) (hdelimits : Delimits right) :
    Lexes Boundary (left ++ piece ++ right)
      (tokens.map fun ts => .punctuator opening :: (ts ++ [.punctuator closing])) := by
  refine (((lexes_text hleft).then h).until (lexes_text hright) hdelimits).weaken.congr ?_
  cases tokens <;> simp

theorem lexes_blank : Lexes Anything " " (some []) := lexes_text (by decide)

theorem lexes_feed : Lexes Anything "\n" (some []) := lexes_text (by decide)

theorem lexes_colon : Lexes Anything ": " (some [.punctuator ':']) := lexes_text (by decide)

theorem lexes_dollar : Lexes Anything "$" (some [.punctuator '$']) := lexes_text (by decide)

section Sequences

variable {α : Type} {print : α → String} {readBack : α → Option α} {tokens : α → List Token}

theorem map_mapM_cons (item : α) (items : List α) :
    ((item :: items).mapM readBack).map (·.flatMap tokens) =
      sideBySide ((readBack item).map tokens) ((items.mapM readBack).map (·.flatMap tokens)) := by
  rw [List.mapM_cons]
  cases readBack item <;> cases items.mapM readBack <;> simp

/-- Phrases with a separator between them. -/
theorem lexes_intercalate {separator : String} {items : List α}
    (hseparator : Lexes Anything separator (some [])) (hdelimits : Delimits separator)
    (h : ∀ item ∈ items, Lexes Boundary (print item) ((readBack item).map tokens)) :
    Lexes Boundary (String.intercalate separator (items.map print))
      ((items.mapM readBack).map (·.flatMap tokens)) := by
  induction items with
  | nil => exact lexes_empty Boundary
  | cons item items ih =>
    have hitem := h item List.mem_cons_self
    have hitems := ih fun other hother => h other (List.mem_cons_of_mem item hother)
    rw [map_mapM_cons]
    cases items with
    | nil =>
      refine hitem.congr ?_
      rw [List.mapM_nil]
      exact (sideBySide_nil_right _).symm
    | cons second others =>
      rw [List.map_cons, List.map_cons, String.intercalate_cons_cons]
      refine ((hitem.until hseparator hdelimits).then hitems).congr ?_
      rw [sideBySide_nil_right]

/-- Phrases with commas between them. -/
theorem lexes_commas {items : List α}
    (h : ∀ item ∈ items, Lexes Boundary (print item) ((readBack item).map tokens)) :
    Lexes Boundary (Printer.commas (items.map print))
      ((items.mapM readBack).map (·.flatMap tokens)) :=
  lexes_intercalate (lexes_text (by decide)) (by decide) h

/-- Phrases side by side. -/
theorem lexes_join {before : List Char → Prop} {items : List α}
    (h : ∀ item ∈ items, Lexes before (print item) ((readBack item).map tokens))
    (hfollows : ∀ item ∈ items, ∀ rest, before ((print item).toList ++ rest)) :
    Lexes before (String.join (items.map print))
      ((items.mapM readBack).map (·.flatMap tokens)) := by
  induction items with
  | nil => exact lexes_empty before
  | cons item items ih =>
    have hitems := ih (fun other hother => h other (List.mem_cons_of_mem item hother))
      fun other hother => hfollows other (List.mem_cons_of_mem item hother)
    rw [map_mapM_cons, List.map_cons, String.join_cons]
    refine (h item List.mem_cons_self).append hitems fun rest hrest => ?_
    cases items with
    | nil => simpa using hrest
    | cons second others =>
      rw [List.map_cons, String.join_cons, String.toList_append, List.append_assoc]
      exact hfollows second (by simp) _

end Sequences

/-! ## Values -/

/-- The text of one named value. -/
def namedText (indent : Nat) (field : String × Value) : String :=
  field.1 ++ ": " ++ Printer.value indent field.2

theorem values_eq (indent : Nat) (items : List Value) :
    Printer.values indent items = items.map (Printer.value indent) := by
  induction items with
  | nil => rfl
  | cons item items ih => rw [Printer.values, ih, List.map_cons]

theorem fields_eq (indent : Nat) (fields : List (String × Value)) :
    Printer.fields indent fields = fields.map (namedText indent) := by
  induction fields with
  | nil => rfl
  | cons field fields ih =>
    rw [Printer.fields, ih, List.map_cons]
    rfl

theorem lexes_named {indent : Nat} {field : String × Value} (hname : IsName field.1)
    (hvalue : Lexes Boundary (Printer.value indent field.2) (field.2.readBack.map Value.tokens)) :
    Lexes Boundary (namedText indent field)
      ((Value.readBackNamed field).map Value.namedTokens) := by
  refine (((lexes_name hname).until lexes_colon (by decide)).then hvalue).congr ?_
  rw [Value.readBackNamed]
  cases field.2.readBack <;> rfl

/-- A printed value is cut into the tokens of what is read back from it. -/
theorem lexes_value {constant : Bool} {depth : Nat} {v : Value} (h : v.Fits constant depth)
    (indent : Nat) : Lexes Boundary (Printer.value indent v) (v.readBack.map Value.tokens) := by
  induction h with
  | reference _ hname =>
    rw [Printer.value]
    exact lexes_dollar.then (lexes_name hname)
  | int hnumber =>
    rw [Printer.value]
    exact lexes_int hnumber.1 hnumber.2
  | @float depth number hnumber =>
    rw [Printer.value]
    refine (lexes_float number).congr ?_
    rw [Value.readBack, Value.ofNumber?]
    cases htoken : floatToken number with
    | none => rfl
    | some token =>
      rcases floatToken_cases htoken with ⟨_, rfl⟩ | ⟨_, rfl⟩ | rfl | rfl <;> rfl
  | string =>
    rw [Printer.value]
    exact lexes_string indent _
  | @boolean depth value =>
    cases value with
    | true =>
      rw [Printer.value]
      exact lexes_name (by decide)
    | false =>
      rw [Printer.value]
      exact lexes_name (by decide)
  | null =>
    rw [Printer.value]
    exact lexes_name (by decide)
  | symbol hname _ =>
    rw [Printer.value]
    exact lexes_name hname
  | @list depth items hitems ih =>
    rw [Printer.value, values_eq]
    refine ((lexes_commas ih).between '[' ']' (by decide) (by decide) (by decide)).congr ?_
    rw [Value.readBack, Value.readBackItems_eq]
    cases items.mapM Value.readBack <;> simp [Value.tokens, Value.itemTokens_eq]
  | @object depth fields hsorted hnames hfields ih =>
    have hnamed := lexes_commas fun field hfield =>
      lexes_named (hnames field hfield) (ih field hfield)
    rw [Printer.value, fields_eq]
    refine (hnamed.between '\x7b' '\x7d' (by decide) (by decide) (by decide)).congr ?_
    rw [Value.readBack, Value.readBackFields_eq]
    cases fields.mapM Value.readBackNamed <;> simp [Value.tokens, Value.fieldTokens_eq]

/-! ## Arguments, directives and variables -/

/-- The text is empty, or its first character ends names and numbers. -/
def DelimitsOrEmpty (piece : String) : Prop := piece = "" ∨ Delimits piece

/-- A piece with another one after it that does not go on with it. -/
theorem Lexes.glue {a b : String} {tokens more : Option (List Token)}
    (ha : Lexes Boundary a tokens) (hb : Lexes Boundary b more) (h : DelimitsOrEmpty b) :
    Lexes Boundary (a ++ b) (sideBySide tokens more) := by
  refine ha.append hb fun rest hrest => ?_
  rcases h with rfl | h
  · simpa using hrest
  · exact h.boundary rest

theorem lexes_fields {depth : Nat} {arguments : List (String × Value)}
    (h : ArgumentsFit depth arguments) (indent : Nat) :
    Lexes Boundary (Printer.commas (Printer.fields indent arguments))
      ((readBackArguments arguments).map (·.flatMap Value.namedTokens)) := by
  rw [fields_eq]
  refine lexes_commas fun argument hargument => ?_
  obtain ⟨hname, below, -, hfits⟩ := h argument hargument
  exact lexes_named hname (lexes_value hfits indent)

theorem lexes_arguments {depth : Nat} {arguments : List (String × Value)}
    (h : ArgumentsFit depth arguments) (indent : Nat) :
    Lexes Boundary (Printer.arguments indent arguments)
      ((readBackArguments arguments).map argumentTokens) := by
  cases arguments with
  | nil => exact lexes_empty Boundary
  | cons first others =>
    refine ((lexes_fields h indent).between '(' ')' (by decide) (by decide) (by decide)).congr ?_
    cases hread : readBackArguments (first :: others) with
    | none => rfl
    | some back =>
      have hne : back.isEmpty = false := by simpa using ne_nil_of_mapM hread (by simp)
      simp [argumentTokens, hne]

theorem delimits_arguments (indent : Nat) (arguments : List (String × Value)) :
    DelimitsOrEmpty (Printer.arguments indent arguments) := by
  unfold Printer.arguments
  split
  · exact .inl rfl
  · rw [String.append_assoc]
    exact .inr (Delimits.append (by decide) _)

/-- The text of one directive. -/
def directiveText (indent : Nat) (d : Directive) : String :=
  " @" ++ d.name ++ Printer.arguments indent d.arguments

theorem delimits_directiveText (indent : Nat) (d : Directive) :
    Delimits (directiveText indent d) := by
  rw [directiveText, String.append_assoc]
  exact Delimits.append (by decide) _

theorem lexes_directive {depth : Nat} {d : Directive} (h : d.Fits depth) (indent : Nat) :
    Lexes Boundary (directiveText indent d) (d.readBack.map Directive.tokens) := by
  have hat : Lexes Anything " @" (some [.punctuator '@']) := lexes_text (by decide)
  refine ((hat.then (lexes_name h.name)).glue (lexes_arguments h.arguments indent)
    (delimits_arguments indent d.arguments)).congr ?_
  rw [Directive.readBack]
  cases readBackArguments d.arguments <;> rfl

theorem lexes_directives {depth : Nat} {directives : List Directive}
    (h : ∀ directive ∈ directives, directive.Fits depth) (indent : Nat) :
    Lexes Boundary (Printer.directives indent directives)
      ((readBackDirectives directives).map (·.flatMap Directive.tokens)) :=
  lexes_join (fun directive hdirective => lexes_directive (h directive hdirective) indent)
    fun directive _ => (delimits_directiveText indent directive).boundary

theorem delimits_directives (indent : Nat) (directives : List Directive) :
    DelimitsOrEmpty (Printer.directives indent directives) := by
  cases directives with
  | nil => exact .inl rfl
  | cons first others =>
    rw [Printer.directives, List.map_cons, String.join_cons]
    exact .inr ((delimits_directiveText indent first).append _)

theorem lexes_typeRef {depth : Nat} {type : TypeRef} (h : type.Fits depth) :
    Lexes Boundary (Printer.typeRef type) (some type.tokens) := by
  induction h with
  | named hname =>
    rw [Printer.typeRef]
    exact lexes_name hname
  | list _ ih =>
    rw [Printer.typeRef]
    exact ih.between '[' ']' (by decide) (by decide) (by decide)
  | nonNull _ _ ih =>
    have hmark : Lexes Anything "!" (some [.punctuator '!']) := lexes_text (by decide)
    rw [Printer.typeRef]
    exact (ih.until hmark (by decide)).weaken

theorem lexes_variableDefinition {depth : Nat} {v : VariableDefinition} (h : v.Fits depth) :
    Lexes Boundary (Printer.variableDefinition v)
      (v.readBack.map VariableDefinition.tokens) := by
  have hequals : Lexes Anything " = " (some [.punctuator '=']) := lexes_text (by decide)
  have htype := ((lexes_dollar.then (lexes_name h.name)).until lexes_colon (by decide)).then
    (lexes_typeRef h.type)
  obtain ⟨name, type, default⟩ := v
  cases default with
  | none =>
    refine (htype.glue (lexes_empty Boundary) (.inl rfl)).congr ?_
    simp [VariableDefinition.readBack, VariableDefinition.tokens, VariableDefinition.defaultTokens]
  | some default =>
    have hdefault := hequals.then (lexes_value (h.default default rfl) 0)
    refine (htype.glue hdefault (.inr (Delimits.append (by decide) _))).congr ?_
    simp only [VariableDefinition.readBack]
    cases default.readBack <;>
      simp [VariableDefinition.tokens, VariableDefinition.defaultTokens]

/-! ## Selections -/

theorem lexes_blanks (indent : Nat) : Lexes Anything (Printer.blanks indent) (some []) := by
  have hblank : ∀ c ∈ (Printer.blanks indent).toList, c = ' ' := by
    rw [Printer.blanks, String.toList_ofList]
    exact fun c hc => (List.mem_replicate.1 hc).2
  refine lexes_text ⟨List.all_eq_true.2 fun c hc => ?_, List.filterMap_eq_nil_iff.2 fun c hc => ?_⟩
  · rw [hblank c hc]
    decide
  · rw [hblank c hc]
    decide

theorem selections_eq (indent : Nat) (selections : List Selection) :
    Printer.selections indent selections =
      String.join (selections.map (Printer.selection indent)) := by
  induction selections with
  | nil => rfl
  | cons first others ih => rw [Printer.selections, ih, List.map_cons, String.join_cons]

theorem lexes_selections {indent : Nat} {selections : List Selection}
    (h : ∀ selection ∈ selections, Lexes Anything (Printer.selection indent selection)
      (selection.readBack.map Selection.tokens)) :
    Lexes Anything (Printer.selections indent selections)
      ((readBackSelections selections).map (·.flatMap Selection.tokens)) := by
  rw [selections_eq]
  exact lexes_join h fun _ _ _ => trivial

/-- The text of the name under which a field is answered, if it has one. -/
def responseText : Option String → String
  | some responseName => responseName ++ ": "
  | none => ""

/-- The text of the type that an inline fragment is for, if it has one. -/
def conditionText : Option String → String
  | some typeCondition => " on " ++ typeCondition
  | none => ""

/-- The text of the selections of a field, if it has some. -/
def nestedText (indent : Nat) (selections : List Selection) : String :=
  if selections.isEmpty then ""
  else " \x7b\n" ++ Printer.selections (Printer.deeper indent) selections ++
    Printer.blanks indent ++ "\x7d"

theorem selection_field (indent : Nat) (responseName : Option String) (name : String)
    (arguments : List (String × Value)) (directives : List Directive)
    (selections : List Selection) :
    Printer.selection indent (.field responseName name arguments directives selections) =
      Printer.blanks indent ++ responseText responseName ++ name ++
        Printer.arguments indent arguments ++ Printer.directives indent directives ++
        nestedText indent selections ++ "\n" := by
  unfold Printer.selection
  cases responseName <;> cases selections <;>
    simp [responseText, nestedText, Printer.selections, String.append_assoc]

theorem selection_inlineFragment (indent : Nat) (typeCondition : Option String)
    (directives : List Directive) (selections : List Selection) :
    Printer.selection indent (.inlineFragment typeCondition directives selections) =
      Printer.blanks indent ++ "..." ++ conditionText typeCondition ++
        Printer.directives indent directives ++ " \x7b\n" ++
        Printer.selections (Printer.deeper indent) selections ++ Printer.blanks indent ++
        "\x7d\n" := by
  unfold Printer.selection
  cases typeCondition <;> rfl

theorem lexes_response {responseName : Option String} (h : ∀ name ∈ responseName, IsName name) :
    Lexes Anything (responseText responseName) (some (Selection.responseTokens responseName)) := by
  cases responseName with
  | none => exact lexes_empty Anything
  | some name =>
    exact (lexes_name (h name rfl)).until lexes_colon (by decide)

theorem lexes_condition {typeCondition : Option String} (h : ∀ name ∈ typeCondition, IsName name) :
    Lexes Boundary (conditionText typeCondition)
      (some (Selection.conditionTokens typeCondition)) := by
  cases typeCondition with
  | none => exact lexes_empty Boundary
  | some name =>
    have hon : Lexes Anything (" " ++ "on" ++ " ") (some [.name "on"]) :=
      (lexes_blank.then (lexes_name (by decide))).until lexes_blank (by decide)
    exact hon.then (lexes_name (h name rfl))

theorem delimits_nestedText (indent : Nat) (selections : List Selection) :
    DelimitsOrEmpty (nestedText indent selections) := by
  unfold nestedText
  split
  · exact .inl rfl
  · rw [String.append_assoc, String.append_assoc]
    exact .inr (Delimits.append (by decide) _)

theorem lexes_nested {indent : Nat} {selections : List Selection}
    (h : ∀ selection ∈ selections, Lexes Anything
      (Printer.selection (Printer.deeper indent) selection)
      (selection.readBack.map Selection.tokens)) :
    Lexes Boundary (nestedText indent selections)
      ((readBackSelections selections).map nestedTokens) := by
  have hopen : Lexes Anything " \x7b\n" (some [.punctuator '\x7b']) :=
    lexes_text (by decide)
  have hclose : Lexes Anything "\x7d" (some [.punctuator '\x7d']) :=
    lexes_text (by decide)
  cases selections with
  | nil => exact lexes_empty Boundary
  | cons first others =>
    refine (((hopen.then (lexes_selections h)).then (lexes_blanks indent)).then
      hclose).weaken.congr ?_
    cases hread : readBackSelections (first :: others) with
    | none => rfl
    | some back =>
      have hne : back.isEmpty = false := by simpa using ne_nil_of_mapM hread (by simp)
      simp [nestedTokens, setTokens, hne]

theorem lexes_field {depth indent : Nat} {responseName : Option String} {name : String}
    {arguments : List (String × Value)} {directives : List Directive} {selections : List Selection}
    (hresponse : ∀ name ∈ responseName, IsName name) (hname : IsName name)
    (harguments : ArgumentsFit depth arguments)
    (hdirectives : ∀ directive ∈ directives, directive.Fits depth)
    (hselections : ∀ selection ∈ selections, Lexes Anything
      (Printer.selection (Printer.deeper indent) selection)
      (selection.readBack.map Selection.tokens)) :
    let field := Selection.field responseName name arguments directives selections
    Lexes Anything (Printer.selection indent field) (field.readBack.map Selection.tokens) := by
  intro field
  have hstart := ((lexes_blanks indent).then (lexes_response hresponse)).then (lexes_name hname)
  have hmiddle := (hstart.glue (lexes_arguments harguments indent)
    (delimits_arguments indent arguments)).glue (lexes_directives hdirectives indent)
      (delimits_directives indent directives)
  rw [selection_field, Selection.readBack_field]
  refine ((hmiddle.glue (lexes_nested hselections) (delimits_nestedText indent selections)).until
    lexes_feed (by decide)).congr ?_
  cases readBackArguments arguments <;> cases readBackDirectives directives <;>
    cases readBackSelections selections <;> simp [Selection.tokens_field]

/-- A printed selection is cut into the tokens of what is read back from it. -/
theorem lexes_selection {depth : Nat} {s : Selection} (h : s.Fits depth) (indent : Nat) :
    Lexes Anything (Printer.selection indent s) (s.readBack.map Selection.tokens) := by
  induction h generalizing indent with
  | leaf hresponse hname harguments hdirectives =>
    exact lexes_field hresponse hname harguments hdirectives (by simp)
  | field hresponse hname harguments hdirectives hne hselections ih =>
    exact lexes_field hresponse hname harguments hdirectives fun selection hselection =>
      ih selection hselection (Printer.deeper indent)
  | @spread depth name directives hname hword hdirectives =>
    have hstart := ((lexes_blanks indent).then lexes_ellipsis).then (lexes_name hname)
    unfold Printer.selection
    rw [Selection.readBack]
    refine ((hstart.glue (lexes_directives hdirectives indent)
      (delimits_directives indent directives)).until lexes_feed (by decide)).congr ?_
    cases readBackDirectives directives <;> simp [Selection.tokens]
  | @inlineFragment depth typeCondition directives selections hcondition hdirectives hne
      hselections ih =>
    have hopen : Lexes Anything " \x7b\n" (some [.punctuator '\x7b']) :=
      lexes_text (by decide)
    have hend : Lexes Anything "\x7d\n" (some [.punctuator '\x7d']) :=
      lexes_text (by decide)
    have hstart := ((((lexes_blanks indent).then lexes_ellipsis).then
      (lexes_condition hcondition)).glue (lexes_directives hdirectives indent)
        (delimits_directives indent directives)).until hopen (by decide)
    have hinner := lexes_selections fun selection hselection =>
      ih selection hselection (Printer.deeper indent)
    rw [selection_inlineFragment, Selection.readBack_inlineFragment]
    refine (((hstart.then hinner).then (lexes_blanks indent)).then hend).congr ?_
    cases readBackDirectives directives <;> cases readBackSelections selections <;>
      simp [Selection.tokens_inlineFragment, setTokens]

theorem lexes_selectionSet {depth : Nat} {selections : List Selection}
    (h : SetFits depth selections) :
    Lexes Anything (Printer.selectionSet selections)
      ((readBackSelections selections).map setTokens) := by
  have hopen : Lexes Anything "\x7b\n" (some [.punctuator '\x7b']) :=
    lexes_text (by decide)
  have hclose : Lexes Anything "\x7d\n" (some [.punctuator '\x7d']) :=
    lexes_text (by decide)
  have hinner := lexes_selections fun selection hselection =>
    lexes_selection (h.selections selection hselection) (Printer.deeper 0)
  refine ((hopen.then hinner).then hclose).congr ?_
  cases readBackSelections selections <;> simp [setTokens]

/-! ## Definitions -/

/-- The text of the name of an operation, if it has one. -/
def nameText : Option String → String
  | some name => " " ++ name
  | none => ""

theorem definition_operation (o : Operation) :
    Printer.definition (.operation o) =
      o.kind.keyword ++ nameText o.name ++ Printer.variableList o ++
        Printer.directives 0 o.directives ++ " " ++ Printer.selectionSet o.selections := by
  obtain ⟨kind, name, definitions, directives, selections⟩ := o
  unfold Printer.definition
  cases name <;> rfl

theorem lexes_operationName {operationName : Option String}
    (h : ∀ name ∈ operationName, IsName name) :
    Lexes Boundary (nameText operationName) (some (operationName.toList.map .name)) := by
  cases operationName with
  | none => exact lexes_empty Boundary
  | some name =>
    exact lexes_blank.then (lexes_name (h name rfl))

theorem delimits_nameText (operationName : Option String) :
    DelimitsOrEmpty (nameText operationName) := by
  cases operationName with
  | none => exact .inl rfl
  | some name => exact .inr (Delimits.append (by decide) _)

/-- The variables of an operation that is no subscription. -/
theorem variableList_eq {o : Operation} (hkind : o.kind ≠ .subscription) :
    Printer.variableList o = if o.variableDefinitions.isEmpty then ""
      else "(" ++ Printer.commas (o.variableDefinitions.map Printer.variableDefinition) ++ ")" := by
  obtain ⟨kind, name, definitions, directives, selections⟩ := o
  unfold Printer.variableList
  cases kind with
  | query | mutation => simp
  | subscription => exact absurd rfl hkind

theorem delimits_variableList {o : Operation} (hkind : o.kind ≠ .subscription) :
    DelimitsOrEmpty (Printer.variableList o) := by
  rw [variableList_eq hkind]
  split
  · exact .inl rfl
  · rw [String.append_assoc]
    exact .inr (Delimits.append (by decide) _)

theorem lexes_variableList {o : Operation} (h : o.Fits) (hkind : o.kind ≠ .subscription) :
    Lexes Boundary (Printer.variableList o)
      ((o.variableDefinitions.mapM VariableDefinition.readBack).map Operation.variableTokens) := by
  have hdefinitions := lexes_commas fun definition hdefinition =>
    lexes_variableDefinition (h.variableDefinitions definition hdefinition)
  rw [variableList_eq hkind]
  cases hcase : o.variableDefinitions with
  | nil => exact lexes_empty Boundary
  | cons first others =>
    rw [hcase] at hdefinitions
    refine (hdefinitions.between '(' ')' (by decide) (by decide) (by decide)).congr ?_
    cases hread : (first :: others).mapM VariableDefinition.readBack with
    | none => rfl
    | some back =>
      have hne : back.isEmpty = false := by simpa using ne_nil_of_mapM hread (by simp)
      simp [Operation.variableTokens, hne]

theorem isName_keyword (kind : OperationKind) : IsName kind.keyword := by
  cases kind <;> decide

theorem lexes_operation {o : Operation} (h : o.Fits) (hkind : o.kind ≠ .subscription) :
    Lexes Anything (Printer.definition (.operation o)) (o.readBack.map Operation.tokens) := by
  have hstart := ((lexes_name (isName_keyword o.kind)).glue (lexes_operationName h.name)
    (delimits_nameText o.name)).glue (lexes_variableList h hkind) (delimits_variableList hkind)
  have hmiddle := (hstart.glue (lexes_directives h.directives 0)
    (delimits_directives 0 o.directives)).until lexes_blank (by decide)
  rw [definition_operation, Operation.readBack]
  refine (hmiddle.then (lexes_selectionSet h.selections)).congr ?_
  cases o.variableDefinitions.mapM VariableDefinition.readBack <;>
    cases readBackDirectives o.directives <;> cases readBackSelections o.selections <;>
    simp [Operation.tokens]

theorem lexes_fragment {f : Fragment} (h : f.Fits) :
    Lexes Anything (Printer.definition (.fragment f)) (f.readBack.map Fragment.tokens) := by
  have hkeyword : Lexes Anything ("fragment" ++ " ") (some [.name "fragment"]) :=
    (lexes_name (by decide)).until lexes_blank (by decide)
  have hon : Lexes Anything (" " ++ "on" ++ " ") (some [.name "on"]) :=
    (lexes_blank.then (lexes_name (by decide))).until lexes_blank (by decide)
  have hstart := ((hkeyword.then (lexes_name h.name)).until hon (by decide)).then
    (lexes_name h.typeCondition)
  have hmiddle := (hstart.glue (lexes_directives h.directives 0)
    (delimits_directives 0 f.directives)).until lexes_blank (by decide)
  unfold Printer.definition
  rw [Fragment.readBack]
  refine (hmiddle.then (lexes_selectionSet h.selections)).congr ?_
  cases readBackDirectives f.directives <;> cases readBackSelections f.selections <;>
    simp [Fragment.tokens]

/-- The definition is no subscription.  Printing one may leave out its variables. -/
def Definition.Printable : Definition → Prop
  | .operation o => o.kind ≠ .subscription
  | .shorthand _ | .fragment _ => True

theorem lexes_definition {d : Definition} (h : d.Fits) (hprintable : d.Printable) :
    Lexes Anything (Printer.definition d) (d.readBack.map Definition.tokens) := by
  cases d with
  | shorthand set =>
    unfold Printer.definition
    rw [Definition.readBack]
    refine (lexes_selectionSet h).congr ?_
    cases readBackSelections set <;> rfl
  | operation o =>
    rw [Definition.readBack]
    refine (lexes_operation h hprintable).congr ?_
    cases o.readBack <;> rfl
  | fragment f =>
    rw [Definition.readBack]
    refine (lexes_fragment h).congr ?_
    cases f.readBack <;> rfl

/-- A printed document is cut into the tokens of what is read back from it. -/
theorem tokens?_print {d : Document} (h : d.Fits)
    (hprintable : ∀ definition ∈ d.definitions, definition.Printable) :
    tokens? d.print.toList = d.readBack.map Document.tokens := by
  have hdefinitions := lexes_intercalate lexes_feed (by decide) fun definition hdefinition =>
    (lexes_definition (h.definitions definition hdefinition)
      (hprintable definition hdefinition)).weaken
  rw [Document.print, hdefinitions.tokens?_eq, Document.readBack]
  cases d.definitions.mapM Definition.readBack <;> rfl

end OpManifest.GraphQL
