import OpManifest.GraphQL.Parser
import OpManifest.Proofs.GraphQL.Fitting

/-!
# Parsed phrases

What a parser gives from valid tokens fits: it has the names, the numbers, the
order of fields and the depth that `Fits` asks for (`yields_value`,
`yields_selection`, `fits_of_parse`).
-/

namespace OpManifest.GraphQL

namespace Parser

/-- From valid tokens the parser gives only such phrases, and leaves valid
tokens. -/
def Yields {α : Type} (parser : Parser α) (good : α → Prop) : Prop :=
  ∀ (ls rest : List Lexeme) (phrase : α), (∀ l ∈ ls, l.token.Valid) →
    parser ls = .ok (phrase, rest) → good phrase ∧ ∀ l ∈ rest, l.token.Valid

variable {α β : Type}

theorem Yields.pure {good : α → Prop} {phrase : α} (h : good phrase) :
    Yields (Pure.pure phrase) good := by
  intro ls rest phrase' hls heq
  cases heq
  exact ⟨h, hls⟩

theorem Yields.bind {parser : Parser α} {next : α → Parser β} {good : α → Prop} {better : β → Prop}
    (h : Yields parser good) (hnext : ∀ phrase, good phrase → Yields (next phrase) better) :
    Yields (parser >>= next) better := by
  intro ls rest phrase hls heq
  have hbind : StateT.bind parser next ls = .ok (phrase, rest) := heq
  rw [StateT.bind] at hbind
  cases hfirst : parser ls with
  | error failure =>
    rw [hfirst] at hbind
    cases hbind
  | ok found =>
    rw [hfirst] at hbind
    obtain ⟨hgood, hvalid⟩ := h ls found.2 found.1 hls hfirst
    exact hnext found.1 hgood found.2 rest phrase hvalid hbind

theorem Yields.mono {parser : Parser α} {good better : α → Prop} (h : Yields parser good)
    (himp : ∀ phrase, good phrase → better phrase) : Yields parser better := by
  intro ls rest phrase hls heq
  obtain ⟨hgood, hvalid⟩ := h ls rest phrase hls heq
  exact ⟨himp phrase hgood, hvalid⟩

theorem Yields.map {parser : Parser α} {good : α → Prop} {better : β → Prop}
    (h : Yields parser good) (f : α → β) (himp : ∀ phrase, good phrase → better (f phrase)) :
    Yields (f <$> parser) better :=
  h.bind fun phrase hgood => Yields.pure (himp phrase hgood)

theorem yields_unexpected (good : α → Prop) : Yields unexpected good := by
  intro ls rest phrase _ heq
  cases heq

theorem yields_peek : Yields peek fun token => ∀ t ∈ token, t.Valid := by
  intro ls rest phrase hls heq
  cases heq
  refine ⟨fun t ht => ?_, hls⟩
  cases ls with
  | nil => cases ht
  | cons l ls =>
    obtain rfl := Option.some.inj ht
    exact hls l List.mem_cons_self

/-- A choice by the next token, if that token is taken as a name. -/
theorem yields_peek_name {next : Option Token → Parser α} {good : α → Prop}
    (h : ∀ token, (∀ t ∈ token, t.Valid) → Yields (next token) good ∨
      ∃ (text : String) (after : String → Parser α), token = some (.name text) ∧
        next token = name >>= after ∧ Yields (after text) good) :
    Yields (peek >>= next) good := by
  intro ls rest phrase hls heq
  have hnext : next (ls.head?.map (·.token)) ls = .ok (phrase, rest) := heq
  have hvalid := (yields_peek ls ls (ls.head?.map (·.token)) hls rfl).1
  rcases h _ hvalid with hyields | ⟨text, after, htoken, hname, hyields⟩
  · exact hyields ls rest phrase hls hnext
  · rw [hname] at hnext
    cases ls with
    | nil => cases htoken
    | cons l ls =>
      obtain ⟨token, position⟩ := l
      obtain rfl : token = .name text := Option.some.inj htoken
      exact hyields ls rest phrase (fun l hl => hls l (List.mem_cons_of_mem _ hl)) hnext

theorem yields_expect (token : Token) : Yields (expect token) fun _ => True := by
  intro ls rest phrase hls heq
  unfold expect at heq
  split at heq
  · split at heq
    · cases heq
      exact ⟨trivial, fun l hl => hls l (List.mem_cons_of_mem _ hl)⟩
    · cases heq
  · cases heq

theorem yields_name : Yields name IsName := by
  intro ls rest phrase hls heq
  unfold name at heq
  split at heq
  · cases heq
    exact ⟨hls _ List.mem_cons_self, fun l hl => hls l (List.mem_cons_of_mem _ hl)⟩
  · cases heq

theorem yields_discard_name : Yields (discard name) fun _ => True :=
  yields_name.map (Function.const String PUnit.unit) fun _ _ => trivial

theorem yields_many {close : Char} {parser : Parser α} {good : α → Prop} (h : Yields parser good) :
    Yields (many close parser) fun phrases => ∀ phrase ∈ phrases, good phrase := by
  intro ls rest phrases hls heq
  have hupTo : upTo close parser ls = .ok (phrases, rest) := heq
  clear heq
  induction hlength : ls.length using Nat.strongRecOn generalizing ls rest phrases with
  | _ length ih =>
    cases ls with
    | nil =>
      rw [upTo] at hupTo
      cases hupTo
    | cons l tail =>
      rw [upTo] at hupTo
      split at hupTo
      · cases hupTo
        exact ⟨by simp, fun other hother => hls other (List.mem_cons_of_mem l hother)⟩
      · split at hupTo
        · cases hupTo
        · rename_i first after hparse
          obtain ⟨hgood, hvalid⟩ := h _ _ _ hls hparse
          split at hupTo
          · split at hupTo
            · cases hupTo
            · rename_i hshort _ others last hothers
              cases hupTo
              have hsmaller : after.length < length := by
                rw [← hlength, List.length_cons]
                omega
              obtain ⟨hmore, hend⟩ := ih after.length hsmaller after rest others hvalid hothers rfl
              exact ⟨List.forall_mem_cons.2 ⟨hgood, hmore⟩, hend⟩
          · cases hupTo

theorem yields_many1 {close : Char} {parser : Parser α} {good : α → Prop} (h : Yields parser good) :
    Yields (many1 close parser) fun phrases => phrases ≠ [] ∧ ∀ phrase ∈ phrases, good phrase :=
  h.bind fun _ hfirst => (yields_many h).bind fun _ hothers =>
    Yields.pure ⟨by simp, List.forall_mem_cons.2 ⟨hfirst, hothers⟩⟩

/-! ## Values -/

theorem yields_named {parser : Parser Value} {good : Value → Prop} (h : Yields parser good) :
    Yields (do
      let name ← name
      punctuator ':'
      return (name, ← parser)) fun field => IsName field.1 ∧ good field.2 :=
  yields_name.bind fun _ hname => (yields_expect _).bind fun _ _ => h.bind fun _ hvalue =>
    Yields.pure ⟨hname, hvalue⟩

theorem yields_valueAbove {constant : Bool} {depth : Nat} {nested : Option (Parser Value)}
    (h : ∀ parser ∈ nested,
      ∃ below, depth = below + 1 ∧ Yields parser (Value.Fits constant below)) :
    Yields (valueAbove constant nested) (Value.Fits constant depth) := by
  refine yields_peek.bind fun token htoken => ?_
  split
  · rename_i text
    have hname : IsName text := htoken _ rfl
    refine yields_discard_name.bind fun _ _ => Yields.pure ?_
    split
    · exact .boolean
    · exact .boolean
    · exact .null
    · exact .symbol hname ⟨by assumption, by assumption, by assumption⟩
  · exact (yields_expect _).bind fun _ _ => Yields.pure (.int (htoken _ rfl))
  · exact (yields_expect _).bind fun _ _ => Yields.pure (.float (htoken _ rfl))
  · exact (yields_expect _).bind fun _ _ => Yields.pure .string
  · split
    · exact yields_unexpected _
    · rename_i hvariable
      exact (yields_expect _).bind fun _ _ => yields_name.bind fun _ hname =>
        Yields.pure (.reference (by simpa using hvariable) hname)
  · split
    · exact yields_unexpected _
    · obtain ⟨below, rfl, hnested⟩ := h _ rfl
      exact (yields_expect _).bind fun _ _ => (yields_many hnested).bind fun _ hitems =>
        Yields.pure (.list hitems)
  · split
    · exact yields_unexpected _
    · obtain ⟨below, rfl, hnested⟩ := h _ rfl
      refine (yields_expect _).bind fun _ _ => (yields_many (yields_named hnested)).bind
        fun fields hfields => Yields.pure (.object (sortedFields_sortFields fields) ?_ ?_)
      · exact fun field hfield => (hfields field (mem_of_mem_sortFields hfield)).1
      · exact fun field hfield => (hfields field (mem_of_mem_sortFields hfield)).2
  · exact yields_unexpected _

theorem yields_value (constant : Bool) (depth : Nat) :
    Yields (value constant depth) (Value.Fits constant depth) := by
  induction depth with
  | zero => exact yields_valueAbove nofun
  | succ depth ih =>
    refine yields_valueAbove fun parser hparser => ?_
    obtain rfl := Option.some.inj hparser
    exact ⟨depth, rfl, ih⟩

/-! ## Arguments, directives and variables -/

theorem yields_arguments (depth : Nat) : Yields (arguments depth) (ArgumentsFit depth) := by
  refine yields_peek.bind fun token _ => ?_
  split
  · rename_i below _
    refine (yields_expect _).bind fun _ _ =>
      (yields_many1 (yields_named (yields_value false below))).mono
        fun args hargs argument hargument => ?_
    obtain ⟨hname, hfits⟩ := hargs.2 argument hargument
    exact ⟨hname, below, rfl, hfits⟩
  · exact yields_unexpected _
  · exact Yields.pure (by simp [ArgumentsFit])

theorem yields_directive (depth : Nat) :
    Yields (do return Directive.mk (← name) (← arguments depth)) (Directive.Fits depth) :=
  yields_name.bind fun _ hname => (yields_arguments depth).bind fun _ hargs =>
    Yields.pure ⟨hname, hargs⟩

theorem yields_directives (depth : Nat) :
    Yields (directives depth) fun ds => ∀ directive ∈ ds, directive.Fits depth := by
  intro ls rest ds hls heq
  induction hlength : ls.length using Nat.strongRecOn generalizing ls rest ds with
  | _ length ih =>
    cases ls with
    | nil =>
      rw [directives] at heq
      cases heq
      exact ⟨by simp, by simp⟩
    | cons l tail =>
      rw [directives] at heq
      split at heq
      · split at heq
        · cases heq
        · rename_i first after hparse
          obtain ⟨hfirst, hvalid⟩ := yields_directive depth _ _ _
            (fun other hother => hls other (List.mem_cons_of_mem l hother)) hparse
          split at heq
          · split at heq
            · cases heq
            · rename_i hshort _ others last hothers
              cases heq
              have hsmaller : after.length < length := by
                rw [← hlength, List.length_cons]
                omega
              obtain ⟨hmore, hend⟩ := ih after.length hsmaller after rest others hvalid hothers rfl
              exact ⟨List.forall_mem_cons.2 ⟨hfirst, hmore⟩, hend⟩
          · cases heq
      · cases heq
        exact ⟨by simp, hls⟩

theorem yields_marked {depth : Nat} {type : TypeRef} (h : type.Fits depth)
    (hplain : ∀ inner, type ≠ .nonNull inner) : Yields (marked type) (TypeRef.Fits depth) := by
  refine yields_peek.bind fun token _ => ?_
  split
  · exact (yields_expect _).bind fun _ _ => Yields.pure (.nonNull h hplain)
  · exact Yields.pure h

theorem yields_typeAbove {depth : Nat} {item : Option (Parser TypeRef)}
    (h : ∀ parser ∈ item, ∃ below, depth = below + 1 ∧ Yields parser (TypeRef.Fits below)) :
    Yields (typeAbove item) (TypeRef.Fits depth) := by
  refine yields_peek.bind fun token _ => ?_
  split
  · obtain ⟨below, rfl, hitem⟩ := h _ rfl
    exact (yields_expect _).bind fun _ _ => hitem.bind fun _ htype => (yields_expect _).bind
      fun _ _ => yields_marked (.list htype) nofun
  · exact yields_unexpected _
  · exact yields_name.bind fun _ hname => yields_marked (.named hname) nofun

theorem yields_typeRef (depth : Nat) : Yields (typeRef depth) (TypeRef.Fits depth) := by
  induction depth with
  | zero => exact yields_typeAbove nofun
  | succ depth ih =>
    refine yields_typeAbove fun parser hparser => ?_
    obtain rfl := Option.some.inj hparser
    exact ⟨depth, rfl, ih⟩

theorem yields_variableDefinition (depth : Nat) :
    Yields (variableDefinition depth) (VariableDefinition.Fits depth) := by
  refine (yields_expect _).bind fun _ _ => yields_name.bind fun _ hname => (yields_expect _).bind
    fun _ _ => (yields_typeRef depth).bind fun _ htype => yields_peek.bind fun token _ => ?_
  split
  · refine (yields_expect _).bind fun _ _ => (yields_value true depth).bind fun default hdefault =>
      Yields.pure ⟨hname, htype, fun other hother => ?_⟩
    obtain rfl := Option.some.inj hother
    exact hdefault
  · exact Yields.pure ⟨hname, htype, nofun⟩

theorem yields_variableDefinitions :
    Yields (variableDefinitions maxDepth) fun definitions =>
      ∀ definition ∈ definitions, definition.Fits innerDepth := by
  refine yields_peek.bind fun token _ => ?_
  split
  · rename_i below hdepth _
    obtain rfl : below = innerDepth := by rw [innerDepth, hdepth, Nat.succ_sub_one]
    exact (yields_expect _).bind fun _ _ =>
      (yields_many1 (yields_variableDefinition innerDepth)).mono fun _ hdefinitions =>
        hdefinitions.2
  · exact yields_unexpected _
  · exact Yields.pure (by simp)

/-! ## Selections -/

theorem yields_fieldRest {depth : Nat} {set : Parser (List Selection)}
    (h : Yields set fun selections => ∃ below, depth = below + 1 ∧ SetFits below selections)
    {responseName : Option String} {fieldName : String}
    (hresponse : ∀ name ∈ responseName, IsName name) (hname : IsName fieldName) :
    Yields (do
      let arguments ← arguments depth
      let directives ← directives depth
      match ← peek with
      | some (.punctuator '{') =>
        return Selection.field responseName fieldName arguments directives (← set)
      | _ => return Selection.field responseName fieldName arguments directives [])
      (Selection.Fits depth) := by
  refine (yields_arguments depth).bind fun _ hargs => (yields_directives depth).bind fun _ hds =>
    yields_peek.bind fun token _ => ?_
  split
  · refine h.bind fun selections hset => Yields.pure ?_
    obtain ⟨below, rfl, hset⟩ := hset
    exact .field hresponse hname hargs hds hset.nonempty hset.selections
  · exact Yields.pure (.leaf hresponse hname hargs hds)

theorem yields_selection {depth : Nat} {set : Parser (List Selection)}
    (h : Yields set fun selections => ∃ below, depth = below + 1 ∧ SetFits below selections) :
    Yields (selection depth set) (Selection.Fits depth) := by
  have hfragment {typeCondition : Option String}
      (hcondition : ∀ name ∈ typeCondition, IsName name) :
      Yields (do return Selection.inlineFragment typeCondition (← directives depth) (← set))
        (Selection.Fits depth) := by
    refine (yields_directives depth).bind fun _ hds => h.bind fun selections hset => Yields.pure ?_
    obtain ⟨below, rfl, hset⟩ := hset
    exact .inlineFragment hcondition hds hset.nonempty hset.selections
  refine yields_peek.bind fun token _ => ?_
  split
  · refine (yields_expect _).bind fun _ _ => yields_peek_name fun next hnext => ?_
    split
    · refine .inl (yields_discard_name.bind fun _ _ =>
        yields_name.bind fun name hname => hfragment ?_)
      intro other hother
      obtain rfl := Option.some.inj hother
      exact hname
    · rename_i text hword
      refine .inr ⟨text, _, rfl, rfl, (yields_directives depth).bind fun _ hds => Yields.pure ?_⟩
      exact .spread (hnext _ rfl) (fun heq => by simp_all) hds
    · exact .inl (hfragment nofun)
  · refine yields_name.bind fun first hfirst => yields_peek.bind fun next _ => ?_
    split
    · refine (yields_expect _).bind fun _ _ => yields_name.bind fun name hname =>
        yields_fieldRest h ?_ hname
      intro other hother
      obtain rfl := Option.some.inj hother
      exact hfirst
    · exact yields_fieldRest h nofun hfirst

theorem yields_selectionSet (depth : Nat) :
    Yields (selectionSet depth) fun selections =>
      ∃ below, depth = below + 1 ∧ SetFits below selections := by
  induction depth with
  | zero => exact yields_unexpected _
  | succ depth ih =>
    exact (yields_expect _).bind fun _ _ => (yields_many1 (yields_selection ih)).mono
      fun selections hset => ⟨depth, rfl, hset.1, hset.2⟩

/-! ## Definitions -/

theorem yields_definitionSet : Yields (selectionSet maxDepth) (SetFits innerDepth) := by
  refine (yields_selectionSet maxDepth).mono fun selections hset => ?_
  obtain ⟨below, hdepth, hset⟩ := hset
  obtain rfl : below = innerDepth := by rw [innerDepth, hdepth, Nat.succ_sub_one]
  exact hset

theorem yields_ending {build : List Directive → List Selection → β} {good : β → Prop}
    (h : ∀ ds selections, (∀ directive ∈ ds, Directive.Fits maxDepth directive) →
      SetFits innerDepth selections → good (build ds selections)) :
    Yields (do return build (← directives maxDepth) (← selectionSet maxDepth)) good :=
  (yields_directives maxDepth).bind fun _ hds => yields_definitionSet.bind fun _ hset =>
    Yields.pure (h _ _ hds hset)

theorem yields_operation (kind : OperationKind) : Yields (operation kind) Operation.Fits := by
  have hrest {operationName : Option String} (hname : ∀ name ∈ operationName, IsName name) :
      Yields (do
        let definitions ← variableDefinitions maxDepth
        let directives ← directives maxDepth
        return Operation.mk kind operationName definitions directives (← selectionSet maxDepth))
        Operation.Fits :=
    yields_variableDefinitions.bind fun _ hdefinitions => yields_ending fun _ _ hds hset =>
      ⟨hname, hdefinitions, hds, hset⟩
  refine yields_peek.bind fun token htoken => ?_
  split
  · refine yields_discard_name.bind fun _ _ => hrest fun other hother => ?_
    obtain rfl := Option.some.inj hother
    exact htoken _ rfl
  · exact hrest nofun

theorem yields_fragment : Yields fragment Fragment.Fits :=
  yields_name.bind fun _ hname => (yields_expect _).bind fun _ _ => yields_name.bind
    fun _ hcondition => yields_ending fun _ _ hds hset => ⟨hname, hcondition, hds, hset⟩

theorem yields_definition : Yields definition Definition.Fits := by
  refine yields_peek.bind fun token _ => ?_
  split
  · exact yields_definitionSet.map Definition.shorthand fun _ h => h
  · exact yields_discard_name.bind fun _ _ =>
      (yields_operation .query).map Definition.operation fun _ h => h
  · exact yields_discard_name.bind fun _ _ =>
      (yields_operation .mutation).map Definition.operation fun _ h => h
  · exact yields_discard_name.bind fun _ _ =>
      (yields_operation .subscription).map Definition.operation fun _ h => h
  · exact yields_discard_name.bind fun _ _ => yields_fragment.map Definition.fragment fun _ h => h
  · exact yields_unexpected _

theorem fits_of_definitions {ls : List Lexeme} (hls : ∀ l ∈ ls, l.token.Valid)
    {ds : List Definition} (h : definitions ls = .ok ds) : ∀ definition ∈ ds, definition.Fits := by
  induction hlength : ls.length using Nat.strongRecOn generalizing ls ds with
  | _ length ih =>
    cases ls with
    | nil =>
      rw [definitions] at h
      cases h
      simp
    | cons l tail =>
      rw [definitions] at h
      split at h
      · cases h
      · rename_i first after hparse
        obtain ⟨hfirst, hvalid⟩ := yields_definition _ _ _ hls hparse
        split at h
        · split at h
          · cases h
          · rename_i hshort _ others hothers
            cases h
            have hsmaller : after.length < length := by
              rw [← hlength, List.length_cons]
              omega
            exact List.forall_mem_cons.2 ⟨hfirst, ih after.length hsmaller hvalid hothers rfl⟩
        · cases h

end Parser

/-- A parsed document fits. -/
theorem fits_of_parse {text : String} {d : Document} (h : Document.parse text = .ok d) :
    d.Fits := by
  have hvalid : ∀ l ∈ (Lexemes.ofString text).lexemes, l.token.Valid := valid_of_mem_scan _ _
  unfold Document.parse at h
  simp only at h
  split at h
  · cases h
  · rename_i ds hds
    split at h
    · rename_i hdone
      cases h
      have hsome := (Bool.and_eq_true_iff.1 hdone).2
      exact ⟨by simpa using hsome, Parser.fits_of_definitions hvalid hds⟩
    · cases h

end OpManifest.GraphQL
