import OpManifest.GraphQL.Parser
import OpManifest.Proofs.GraphQL.Fitting

/-!
# Parsing the tokens of a phrase

Each parser reads the phrases that it can give from their tokens (`reads_value`,
`reads_selection`, `reads_definition`), if the text goes on with a token that
the phrase cannot go on with: a field, say, is read to its end if neither a
colon nor an opening bracket nor a directive follows.  So a text with the tokens
of a document is parsed as it (`parse_of_tokens?`).
-/

namespace OpManifest.GraphQL

namespace Parser

/-- Before a token that begins with none of the stops, the parser reads the
phrase from its tokens and leaves the rest. -/
def Reads {α : Type} (stops : List Char) (parser : Parser α) (tokens : List Token) (phrase : α) :
    Prop :=
  ∀ ls rest : List Lexeme, ls.map (·.token) = tokens →
    (∀ c ∈ stops, rest.head?.map (·.token) ≠ some (.punctuator c)) →
      parser (ls ++ rest) = .ok (phrase, rest)

variable {α β : Type}

theorem Reads.pure (phrase : α) : Reads [] (Pure.pure phrase) [] phrase := by
  intro ls rest hls _
  obtain rfl := List.map_eq_nil_iff.1 hls
  rfl

theorem Reads.pure_of_eq {phrase other : α} (h : phrase = other) :
    Reads [] (Pure.pure phrase) [] other :=
  h ▸ Reads.pure phrase

theorem Reads.weaken {stops more : List Char} {parser : Parser α} {tokens : List Token} {phrase : α}
    (h : Reads stops parser tokens phrase) (hsub : stops ⊆ more) :
    Reads more parser tokens phrase :=
  fun ls rest hls hrest => h ls rest hls fun c hc => hrest c (hsub hc)

theorem Reads.bind {stops more : List Char} {parser : Parser α} {next : α → Parser β}
    {tokens others : List Token} {phrase : α} {result : β} (h : Reads stops parser tokens phrase)
    (hnext : Reads more (next phrase) others result)
    (hstops : ∀ c ∈ stops, others.head? ≠ some (.punctuator c) ∧ (others = [] → c ∈ more)) :
    Reads more (parser >>= next) (tokens ++ others) result := by
  intro ls rest hls hrest
  obtain ⟨first, second, rfl, hfirst, hsecond⟩ := List.map_eq_append_iff.1 hls
  have hread := h first (second ++ rest) hfirst fun c hc => by
    obtain ⟨hhead, hempty⟩ := hstops c hc
    cases second with
    | nil => exact hrest c (hempty hsecond.symm)
    | cons l second =>
      rw [← hsecond] at hhead
      exact hhead
  show StateT.bind parser next (first ++ second ++ rest) = _
  rw [List.append_assoc, StateT.bind, hread]
  exact hnext second rest hsecond hrest

/-- After a phrase that nothing can go on with. -/
theorem Reads.then {more : List Char} {parser : Parser α} {next : α → Parser β}
    {tokens others : List Token} {phrase : α} {result : β} (h : Reads [] parser tokens phrase)
    (hnext : Reads more (next phrase) others result) :
    Reads more (parser >>= next) (tokens ++ others) result :=
  h.bind hnext (by simp)

theorem Reads.map {parser : Parser α} {stops : List Char} {tokens : List Token} {phrase : α}
    (h : Reads stops parser tokens phrase) (f : α → β) :
    Reads stops (f <$> parser) tokens (f phrase) := by
  intro ls rest hls hrest
  show StateT.map f parser (ls ++ rest) = _
  rw [StateT.map, h ls rest hls hrest]
  rfl

theorem head?_append_ne {first second : List Token} {token : Token}
    (hfirst : first.head? ≠ some token) (hsecond : second.head? ≠ some token) :
    (first ++ second).head? ≠ some token := by
  cases first with
  | nil => exact hsecond
  | cons => exact hfirst

/-- A choice by the next token, which is the first one of the phrase. -/
theorem Reads.peek {stops : List Char} {next : Option Token → Parser α} {token : Token}
    {tokens : List Token} {phrase : α}
    (h : Reads stops (next (some token)) (token :: tokens) phrase) :
    Reads stops (Parser.peek >>= next) (token :: tokens) phrase := by
  intro ls rest hls hrest
  obtain ⟨l, others, rfl, rfl, rfl⟩ := List.map_eq_cons_iff.1 hls
  exact h (l :: others) rest rfl hrest

/-- A choice by the next token that falls on the last branch, since the token is
none of the stops. -/
theorem Reads.peek_past {stops more : List Char} {next : Option Token → Parser α}
    {parser : Parser α} {tokens : List Token} {phrase : α} (h : Reads more parser tokens phrase)
    (hnext : ∀ token, (∀ c ∈ stops, token ≠ some (.punctuator c)) → next token = parser)
    (hstops : ∀ c ∈ stops, tokens.head? ≠ some (.punctuator c) ∧ (tokens = [] → c ∈ more)) :
    Reads more (Parser.peek >>= next) tokens phrase := by
  intro ls rest hls hrest
  have hparser := hnext ((ls ++ rest).head?.map (·.token)) fun c hc => by
    obtain ⟨hhead, hempty⟩ := hstops c hc
    cases ls with
    | nil => exact hrest c (hempty hls.symm)
    | cons l ls =>
      rw [← hls] at hhead
      exact hhead
  show next ((ls ++ rest).head?.map (·.token)) (ls ++ rest) = _
  rw [hparser]
  exact h ls rest hls hrest

/-- A choice by the next token, if the phrase has none. -/
theorem Reads.peek_nil {stops : List Char} {next : Option Token → Parser α} {phrase : α}
    (h : ∀ token, (∀ c ∈ stops, token ≠ some (.punctuator c)) → next token = Pure.pure phrase) :
    Reads stops (Parser.peek >>= next) [] phrase :=
  ((Reads.pure phrase).weaken (List.nil_subset stops)).peek_past h fun _ hc => ⟨nofun, fun _ => hc⟩

theorem reads_name (text : String) : Reads [] name [.name text] text := by
  intro ls rest hls _
  obtain ⟨⟨token, position⟩, rfl, rfl⟩ := List.map_eq_singleton_iff.1 hls
  rfl

theorem reads_discard_name (text : String) : Reads [] (discard name) [.name text] ⟨⟩ :=
  (reads_name text).map (Function.const String PUnit.unit)

theorem reads_expect (token : Token) : Reads [] (expect token) [token] () := by
  intro ls rest hls _
  obtain ⟨l, rfl, rfl⟩ := List.map_eq_singleton_iff.1 hls
  exact if_pos rfl

/-- The phrase begins with another token than these punctuators. -/
def Starts (avoided : List Char) (tokens : List Token) : Prop :=
  ∃ token others, tokens = token :: others ∧ ∀ c ∈ avoided, token ≠ .punctuator c

section Many

variable {close : Char} {parser : Parser α} {tokens : α → List Token} {stops : List Char}

/-- What follows a phrase of many begins with the next one or is the closing
punctuator. -/
theorem head?_many_ne {items : List α}
    (hstarts : ∀ item ∈ items, Starts (close :: stops) (tokens item)) (hclose : close ∉ stops)
    {c : Char} (hc : c ∈ stops) :
    (items.flatMap tokens ++ [Token.punctuator close]).head? ≠ some (.punctuator c) := by
  cases items with
  | nil =>
    intro heq
    exact hclose (Token.punctuator.inj (Option.some.inj heq) ▸ hc)
  | cons next items =>
    obtain ⟨token, others, hnext, hother⟩ := hstarts next List.mem_cons_self
    rw [List.flatMap_cons, hnext]
    intro heq
    exact hother c (List.mem_cons_of_mem close hc) (Option.some.inj heq)

/-- Phrases up to a closing punctuator. -/
theorem reads_many {items : List α} (hread : ∀ item ∈ items, Reads stops parser (tokens item) item)
    (hstarts : ∀ item ∈ items, Starts (close :: stops) (tokens item)) (hclose : close ∉ stops) :
    Reads [] (many close parser) (items.flatMap tokens ++ [.punctuator close]) items := by
  induction items with
  | nil =>
    intro ls rest hls _
    obtain ⟨l, rfl, hl⟩ := List.map_eq_singleton_iff.1 hls
    show upTo close parser (l :: rest) = _
    rw [upTo, if_pos hl]
  | cons item items ih =>
    have hothers : ∀ item ∈ items, Starts (close :: stops) (tokens item) :=
      fun other hother => hstarts other (List.mem_cons_of_mem item hother)
    have hitems := ih (fun other hother => hread other (List.mem_cons_of_mem item hother)) hothers
    intro ls rest hls hrest
    rw [List.flatMap_cons, List.append_assoc] at hls
    obtain ⟨first, second, rfl, hfirst, hsecond⟩ := List.map_eq_append_iff.1 hls
    obtain ⟨token, more, htokens, havoid⟩ := hstarts item List.mem_cons_self
    rw [htokens] at hfirst
    obtain ⟨l, tail, rfl, rfl, htail⟩ := List.map_eq_cons_iff.1 hfirst
    have hfollow : ∀ c ∈ stops, (second ++ rest).head?.map (·.token) ≠ some (.punctuator c) := by
      intro c hc
      have hhead : (second ++ rest).head?.map (·.token) =
          (items.flatMap tokens ++ [Token.punctuator close]).head? := by
        rw [← hsecond, List.head?_map, List.head?_append_of_ne_nil]
        rintro rfl
        simp at hsecond
      rw [hhead]
      exact head?_many_ne hothers hclose hc
    have hparse := hread item List.mem_cons_self (l :: tail) (second ++ rest)
      (by rw [htokens, List.map_cons, htail]) hfollow
    have hend : upTo close parser (second ++ rest) = .ok (items, rest) :=
      hitems second rest hsecond hrest
    show upTo close parser (l :: (tail ++ second) ++ rest) = _
    rw [List.cons_append, upTo, if_neg (havoid close List.mem_cons_self)]
    rw [List.cons_append, ← List.append_assoc] at hparse
    rw [hparse]
    simp only
    rw [if_pos (by simp), hend]

theorem reads_many1 {items : List α} (hne : items ≠ [])
    (hread : ∀ item ∈ items, Reads stops parser (tokens item) item)
    (hstarts : ∀ item ∈ items, Starts (close :: stops) (tokens item)) (hclose : close ∉ stops) :
    Reads [] (many1 close parser) (items.flatMap tokens ++ [.punctuator close]) items := by
  cases items with
  | nil => exact absurd rfl hne
  | cons first others =>
    have hstartsothers : ∀ item ∈ others, Starts (close :: stops) (tokens item) :=
      fun item hitem => hstarts item (List.mem_cons_of_mem first hitem)
    have hothers := reads_many (fun item hitem => hread item (List.mem_cons_of_mem first hitem))
      hstartsothers hclose
    rw [List.flatMap_cons, List.append_assoc]
    refine (hread first List.mem_cons_self).bind (hothers.map (first :: ·)) fun c hc => ?_
    exact ⟨head?_many_ne hstartsothers hclose hc, by simp⟩

end Many

/-! ## Values -/

theorem starts_name (avoided : List Char) (text : String) (others : List Token) :
    Starts avoided (.name text :: others) :=
  ⟨_, _, rfl, fun _ _ => nofun⟩

theorem starts_value (v : Value) : Starts [']'] v.tokens := by
  cases v with
  | boolean value => cases value <;> exact starts_name _ _ _
  | reference | list | object => exact ⟨_, _, rfl, by simp⟩
  | int | float | string | null | symbol => exact ⟨_, _, rfl, fun _ _ => nofun⟩

theorem reads_named {parser : Parser Value} {field : String × Value}
    (h : Reads [] parser field.2.tokens field.2) :
    Reads [] (do
      let name ← name
      punctuator ':'
      return (name, ← parser)) (Value.namedTokens field) field :=
  (reads_name field.1).then ((reads_expect (.punctuator ':')).then (h.map (field.1, ·)))

theorem value_eq (constant : Bool) (depth : Nat) :
    ∃ nested, value constant depth = valueAbove constant nested := by
  cases depth <;> exact ⟨_, rfl⟩

/-- A literal is read from its tokens, whatever may be nested. -/
theorem reads_symbol {constant : Bool} {nested : Option (Parser Value)} {text : String}
    (hword : text ≠ "true" ∧ text ≠ "false" ∧ text ≠ "null") :
    Reads [] (valueAbove constant nested) [.name text] (.symbol text) := by
  refine Reads.peek ((reads_discard_name text).then (Reads.pure_of_eq ?_))
  split <;> simp_all

/-- A value is read from its tokens. -/
theorem reads_value {constant : Bool} {depth : Nat} {v : Value} (h : v.Fits constant depth) :
    Reads [] (value constant depth) v.tokens v := by
  induction h with
  | @reference depth name hvariable _ =>
    obtain ⟨nested, hvalue⟩ := value_eq constant depth
    rw [hvalue]
    subst hvariable
    exact Reads.peek ((reads_expect (.punctuator '$')).then ((reads_name name).map Value.reference))
  | @int depth number _ =>
    obtain ⟨nested, hvalue⟩ := value_eq constant depth
    rw [hvalue]
    exact Reads.peek ((reads_expect (.int number)).then (Reads.pure _))
  | @float depth number _ =>
    obtain ⟨nested, hvalue⟩ := value_eq constant depth
    rw [hvalue]
    exact Reads.peek ((reads_expect (.float number)).then (Reads.pure _))
  | @string depth text =>
    obtain ⟨nested, hvalue⟩ := value_eq constant depth
    rw [hvalue]
    exact Reads.peek ((reads_expect (.string text)).then (Reads.pure _))
  | @boolean depth value =>
    obtain ⟨nested, hvalue⟩ := value_eq constant depth
    rw [hvalue]
    cases value with
    | true => exact Reads.peek ((reads_discard_name "true").then (Reads.pure _))
    | false => exact Reads.peek ((reads_discard_name "false").then (Reads.pure _))
  | @null depth =>
    obtain ⟨nested, hvalue⟩ := value_eq constant depth
    rw [hvalue]
    exact Reads.peek ((reads_discard_name "null").then (Reads.pure _))
  | @symbol depth name _ hword =>
    obtain ⟨nested, hvalue⟩ := value_eq constant depth
    rw [hvalue]
    exact reads_symbol hword
  | @list depth items _ ih =>
    have hitems := reads_many ih (fun item _ => starts_value item) (by simp)
    rw [value, Value.tokens, Value.itemTokens_eq]
    exact Reads.peek ((reads_expect (.punctuator '[')).then (hitems.map Value.list))
  | @object depth fields hsorted _ _ ih =>
    have hfields := reads_many (fun field hfield => reads_named (ih field hfield))
      (fun field _ => starts_name ['}'] field.1 _) (by simp)
    have hobject := hfields.map fun fields => Value.object (sortFields fields)
    rw [sortFields_eq_self hsorted] at hobject
    rw [value, Value.tokens, Value.fieldTokens_eq]
    exact Reads.peek ((reads_expect (.punctuator '{')).then hobject)

/-! ## Arguments, directives and variables -/

theorem reads_arguments {depth : Nat} {args : List (String × Value)} (h : ArgumentsFit depth args) :
    Reads ['('] (arguments depth) (argumentTokens args) args := by
  cases args with
  | nil =>
    refine Reads.peek_nil fun token htoken => ?_
    split
    · exact absurd rfl (htoken '(' List.mem_cons_self)
    · exact absurd rfl (htoken '(' List.mem_cons_self)
    · rfl
  | cons first others =>
    obtain ⟨-, below, rfl, -⟩ := h first List.mem_cons_self
    have hfits : ∀ argument ∈ first :: others, argument.2.Fits false below := by
      intro argument hargument
      obtain ⟨-, depth, hdepth, hargumentfits⟩ := h argument hargument
      exact Nat.succ.inj hdepth ▸ hargumentfits
    have hmany := reads_many1 (List.cons_ne_nil first others)
      (fun argument hargument => reads_named (reads_value (hfits argument hargument)))
      (fun argument _ => starts_name [')'] argument.1 _) (by simp)
    exact (Reads.peek ((reads_expect (.punctuator '(')).then hmany)).weaken (List.nil_subset _)

theorem reads_directive {depth : Nat} {d : Directive} (h : d.Fits depth) :
    Reads ['('] (do return Directive.mk (← name) (← arguments depth))
      (.name d.name :: argumentTokens d.arguments) d :=
  (reads_name d.name).then ((reads_arguments h.arguments).map (Directive.mk d.name))

theorem head?_argumentTokens (args : List (String × Value)) {c : Char} (hc : c ≠ '(') :
    (argumentTokens args).head? ≠ some (.punctuator c) := by
  unfold argumentTokens
  split
  · simp
  · intro heq
    exact hc (Token.punctuator.inj (Option.some.inj heq)).symm

theorem head?_directives (ds : List Directive) {c : Char} (hc : c ≠ '@') :
    (ds.flatMap Directive.tokens).head? ≠ some (.punctuator c) := by
  cases ds with
  | nil => simp
  | cons d ds =>
    intro heq
    exact hc (Token.punctuator.inj (Option.some.inj heq)).symm

theorem reads_directives {depth : Nat} {ds : List Directive}
    (h : ∀ directive ∈ ds, directive.Fits depth) :
    Reads ['@', '('] (directives depth) (ds.flatMap Directive.tokens) ds := by
  induction ds with
  | nil =>
    intro ls rest hls hrest
    obtain rfl := List.map_eq_nil_iff.1 hls
    show directives depth rest = _
    rw [directives.eq_def]
    cases rest with
    | nil => rfl
    | cons l rest => exact if_neg fun heq => hrest '@' (by simp) (congrArg some heq)
  | cons d ds ih =>
    have hothers := ih fun other hother => h other (List.mem_cons_of_mem d hother)
    intro ls rest hls hrest
    rw [List.flatMap_cons] at hls
    obtain ⟨first, second, rfl, hfirst, hsecond⟩ := List.map_eq_append_iff.1 hls
    obtain ⟨l, tail, rfl, hat, htail⟩ := List.map_eq_cons_iff.1 hfirst
    have hfollow : ∀ c ∈ ['('], (second ++ rest).head?.map (·.token) ≠ some (.punctuator c) := by
      intro c hc
      obtain rfl := List.mem_singleton.1 hc
      cases second with
      | nil => exact hrest '(' (by simp)
      | cons next second =>
        have hhead := head?_directives ds (c := '(') (by decide)
        rw [← hsecond] at hhead
        exact hhead
    have hparse := reads_directive (h d List.mem_cons_self) tail (second ++ rest) htail hfollow
    have hend := hothers second rest hsecond hrest
    show directives depth (l :: (tail ++ second) ++ rest) = _
    rw [List.cons_append, directives, if_pos hat, List.append_assoc, hparse]
    simp only
    rw [if_pos (by simp), hend]

theorem reads_marked (type : TypeRef) : Reads ['!'] (marked type) [] type := by
  refine Reads.peek_nil fun token htoken => ?_
  split
  · exact absurd rfl (htoken '!' List.mem_cons_self)
  · rfl

theorem reads_mark (type : TypeRef) : Reads [] (marked type) [.punctuator '!'] (.nonNull type) :=
  Reads.peek ((reads_expect (.punctuator '!')).then (Reads.pure _))

/-- A type with an exclamation mark is read up to the mark first. -/
def ReadsMarked (depth : Nat) (type : TypeRef) : Prop :=
  ∀ (stops : List Char) (marks : List Token) (result : TypeRef),
    Reads stops (marked type) marks result →
      Reads stops (typeRef depth) (type.tokens ++ marks) result

theorem readsMarked_named (depth : Nat) (name : String) : ReadsMarked depth (.named name) := by
  intro stops marks result hmarks
  cases depth with
  | zero => exact Reads.peek ((reads_name name).then hmarks)
  | succ depth => exact Reads.peek ((reads_name name).then hmarks)

theorem readsMarked_list {depth : Nat} {item : TypeRef}
    (h : Reads ['!'] (typeRef depth) item.tokens item) : ReadsMarked (depth + 1) (.list item) := by
  intro stops marks result hmarks
  rw [TypeRef.tokens, List.cons_append, List.append_assoc]
  exact Reads.peek ((reads_expect (.punctuator '[')).then
    (h.bind ((reads_expect (.punctuator ']')).then hmarks) (by simp)))

theorem ReadsMarked.reads {depth : Nat} {type : TypeRef} (h : ReadsMarked depth type) :
    Reads ['!'] (typeRef depth) type.tokens type := by
  have hread := h _ _ _ (reads_marked type)
  rwa [List.append_nil] at hread

theorem reads_typeRef {depth : Nat} {type : TypeRef} (h : type.Fits depth) :
    Reads ['!'] (typeRef depth) type.tokens type := by
  have hboth : ((∀ inner, type ≠ .nonNull inner) → ReadsMarked depth type) ∧
      Reads ['!'] (typeRef depth) type.tokens type := by
    induction h with
    | @named depth name hname =>
      have hmarked := readsMarked_named depth name
      exact ⟨fun _ => hmarked, hmarked.reads⟩
    | list hitem ih =>
      have hmarked := readsMarked_list ih.2
      exact ⟨fun _ => hmarked, hmarked.reads⟩
    | @nonNull depth type htype hplain ih =>
      refine ⟨fun hnot => absurd rfl (hnot type), ?_⟩
      exact (ih.1 hplain _ _ _ (reads_mark type)).weaken (List.nil_subset _)
  exact hboth.2

theorem reads_variableDefinition {depth : Nat} {v : VariableDefinition} (h : v.Fits depth) :
    Reads ['!', '='] (variableDefinition depth) v.tokens v := by
  obtain ⟨name, type, default⟩ := v
  have htype := reads_typeRef h.type
  refine ((reads_expect (.punctuator '$')).then ((reads_name name).then
    ((reads_expect (.punctuator ':')).then (htype.bind ?_ fun c hc => ?_))))
  · cases default with
    | none =>
      refine Reads.peek_nil fun token htoken => ?_
      split
      · exact absurd rfl (htoken '=' (by simp))
      · rfl
    | some default =>
      have hvalue := reads_value (h.default default rfl)
      exact (Reads.peek ((reads_expect (.punctuator '=')).then
        (hvalue.map fun value => VariableDefinition.mk name type (some value)))).weaken
          (List.nil_subset _)
  · obtain rfl := List.mem_singleton.1 hc
    cases default with
    | none => simp [VariableDefinition.defaultTokens]
    | some default => simp [VariableDefinition.defaultTokens]

/-! ## Selections -/

/-- The punctuators that a selection could go on with. -/
def selectionStops : List Char := [':', '(', '@', '{']

theorem starts_selection (s : Selection) : Starts ('}' :: selectionStops) s.tokens := by
  cases s with
  | field responseName name arguments directives selections =>
    rw [Selection.tokens_field]
    cases responseName <;> exact starts_name _ _ _
  | spread name directives => exact ⟨_, _, rfl, fun _ _ => nofun⟩
  | inlineFragment typeCondition directives selections => exact ⟨_, _, rfl, fun _ _ => nofun⟩

theorem reads_set {depth : Nat} {selections : List Selection} (hne : selections ≠ [])
    (h : ∀ s ∈ selections, Reads selectionStops (selection depth (selectionSet depth)) s.tokens s) :
    Reads [] (selectionSet (depth + 1)) (setTokens selections) selections :=
  (reads_expect (.punctuator '{')).then
    (reads_many1 hne h (fun s _ => starts_selection s) (by decide))

theorem head?_nestedTokens (selections : List Selection) {c : Char} (hc : c ≠ '{') :
    (nestedTokens selections).head? ≠ some (.punctuator c) := by
  unfold nestedTokens
  split
  · simp
  · intro heq
    exact hc (Token.punctuator.inj (Option.some.inj heq)).symm

section Field

variable {depth : Nat} {set : Parser (List Selection)} {args : List (String × Value)}
  {ds : List Directive} {selections : List Selection}

/-- A field behind its names. -/
theorem reads_fieldRest (responseName : Option String) (fieldName : String)
    (hargs : ArgumentsFit depth args) (hds : ∀ directive ∈ ds, directive.Fits depth)
    (hset : selections ≠ [] → Reads [] set (setTokens selections) selections) :
    Reads selectionStops (do
        let arguments ← arguments depth
        let directives ← directives depth
        match ← peek with
        | some (.punctuator '{') =>
          return Selection.field responseName fieldName arguments directives (← set)
        | _ => return Selection.field responseName fieldName arguments directives [])
      (argumentTokens args ++ (ds.flatMap Directive.tokens ++ nestedTokens selections))
      (.field responseName fieldName args ds selections) := by
  refine (reads_arguments hargs).bind ((reads_directives hds).bind ?_ fun c hc => ?_)
    fun c hc => ?_
  · cases selections with
    | nil =>
      refine Reads.peek_nil fun token htoken => ?_
      split
      · exact absurd rfl (htoken '{' (by decide))
      · rfl
    | cons first others =>
      have hread := (hset (by simp)).map (Selection.field responseName fieldName args ds)
      exact (Reads.peek hread).weaken (List.nil_subset _)
  · have hall : ∀ c ∈ ['@', '('], c ≠ '{' ∧ c ∈ selectionStops := by simp [selectionStops]
    exact ⟨head?_nestedTokens selections (hall c hc).1, fun _ => (hall c hc).2⟩
  · obtain rfl := List.mem_singleton.1 hc
    exact ⟨head?_append_ne (head?_directives ds (by decide))
      (head?_nestedTokens selections (by decide)), fun _ => by decide⟩

theorem reads_field (responseName : Option String) (fieldName : String)
    (hargs : ArgumentsFit depth args) (hds : ∀ directive ∈ ds, directive.Fits depth)
    (hset : selections ≠ [] → Reads [] set (setTokens selections) selections) :
    Reads selectionStops (selection depth set)
      (Selection.field responseName fieldName args ds selections).tokens
      (.field responseName fieldName args ds selections) := by
  have hrest := reads_fieldRest responseName fieldName hargs hds hset
  rw [Selection.tokens_field]
  cases responseName with
  | none =>
    refine Reads.peek ((reads_name fieldName).then (hrest.peek_past
      (fun token (htoken : ∀ c ∈ [':'], token ≠ some (.punctuator c)) => ?_) fun c hc => ?_))
    · split
      · exact absurd rfl (htoken ':' List.mem_cons_self)
      · rfl
    · obtain rfl := List.mem_singleton.1 hc
      exact ⟨head?_append_ne (head?_argumentTokens args (by decide))
        (head?_append_ne (head?_directives ds (by decide))
          (head?_nestedTokens selections (by decide))), fun _ => by decide⟩
  | some responseName =>
    exact Reads.peek ((reads_name responseName).then (Reads.peek
      ((reads_expect (.punctuator ':')).then ((reads_name fieldName).then hrest))))

end Field

theorem setTokens_stops (selections : List Selection) {c : Char} (hc : c ∈ ['@', '(']) :
    (setTokens selections).head? ≠ some (.punctuator c) ∧ (setTokens selections = [] → c ∈ []) := by
  have hall : ∀ c ∈ ['@', '('], '\x7b' ≠ c := by simp
  exact ⟨fun heq => hall c hc (Token.punctuator.inj (Option.some.inj heq)), nofun⟩

/-- A selection is read from its tokens. -/
theorem reads_selection {depth : Nat} {s : Selection} (h : s.Fits depth) :
    Reads selectionStops (selection depth (selectionSet depth)) s.tokens s := by
  induction h with
  | leaf hresponse hname hargs hds => exact reads_field _ _ hargs hds fun hne => absurd rfl hne
  | field hresponse hname hargs hds hne hselections ih =>
    exact reads_field _ _ hargs hds fun hne => reads_set hne ih
  | @spread depth name ds hname hword hds =>
    have hspread := (reads_directives hds).map (Selection.spread name)
    refine Reads.peek ((reads_expect .ellipsis).then (Reads.peek ?_))
    split
    · simp_all
    · exact (reads_name name).then (hspread.weaken (by simp [selectionStops]))
    · simp_all
  | @inlineFragment depth typeCondition ds selections hcondition hds hne hselections ih =>
    have hset := (reads_set hne ih).map (Selection.inlineFragment typeCondition ds)
    have hrest : Reads [] (do
        return Selection.inlineFragment typeCondition (← directives (depth + 1))
          (← selectionSet (depth + 1)))
        (ds.flatMap Directive.tokens ++ setTokens selections)
        (.inlineFragment typeCondition ds selections) :=
      (reads_directives hds).bind hset fun c hc => setTokens_stops selections hc
    rw [Selection.tokens_inlineFragment]
    refine (Reads.peek ((reads_expect .ellipsis).then ?_)).weaken (List.nil_subset _)
    cases typeCondition with
    | none =>
      -- what follows is a directive or the selection set, so no name
      cases ds with
      | nil => exact Reads.peek hrest
      | cons d ds => exact Reads.peek hrest
    | some typeCondition =>
      exact Reads.peek ((reads_discard_name "on").then ((reads_name typeCondition).then hrest))

theorem reads_selectionSet {depth : Nat} {selections : List Selection}
    (h : SetFits depth selections) :
    Reads [] (selectionSet (depth + 1)) (setTokens selections) selections :=
  reads_set h.nonempty fun s hs => reads_selection (h.selections s hs)

/-! ## Definitions -/

theorem reads_variableDefinitions {definitions : List VariableDefinition}
    (h : ∀ definition ∈ definitions, definition.Fits innerDepth) :
    Reads ['('] (variableDefinitions maxDepth) (Operation.variableTokens definitions)
      definitions := by
  cases definitions with
  | nil =>
    refine Reads.peek_nil fun token htoken => ?_
    split
    · exact absurd rfl (htoken '(' List.mem_cons_self)
    · exact absurd rfl (htoken '(' List.mem_cons_self)
    · rfl
  | cons first others =>
    have hmany := reads_many1 (List.cons_ne_nil first others)
      (fun definition hdefinition => reads_variableDefinition (h definition hdefinition))
      (fun definition _ => ⟨_, _, rfl, by simp⟩ : ∀ definition ∈ first :: others,
        Starts [')', '!', '='] definition.tokens) (by decide)
    exact (Reads.peek ((reads_expect (.punctuator '(')).then hmany)).weaken (List.nil_subset _)

/-- The directives and the selection set that end a definition. -/
theorem reads_ending {ds : List Directive} {selections : List Selection}
    (hds : ∀ directive ∈ ds, directive.Fits maxDepth) (hset : SetFits innerDepth selections)
    (build : List Directive → List Selection → β) :
    Reads [] (do return build (← directives maxDepth) (← selectionSet maxDepth))
      (ds.flatMap Directive.tokens ++ setTokens selections) (build ds selections) :=
  (reads_directives hds).bind ((reads_selectionSet hset).map (build ds)) fun _ hc =>
    setTokens_stops selections hc

theorem reads_operation {o : Operation} (h : o.Fits) :
    Reads [] (operation o.kind) (o.name.toList.map .name ++
      (Operation.variableTokens o.variableDefinitions ++
        (o.directives.flatMap Directive.tokens ++ setTokens o.selections))) o := by
  obtain ⟨kind, operationName, definitions, ds, selections⟩ := o
  have hending := reads_ending h.directives h.selections
    (Operation.mk kind operationName definitions)
  have hrest : Reads [] (do
      let definitions ← variableDefinitions maxDepth
      let directives ← directives maxDepth
      return Operation.mk kind operationName definitions directives (← selectionSet maxDepth))
      (Operation.variableTokens definitions ++
        (ds.flatMap Directive.tokens ++ setTokens selections))
      ⟨kind, operationName, definitions, ds, selections⟩ := by
    refine (reads_variableDefinitions h.variableDefinitions).bind hending fun c hc => ?_
    obtain rfl := List.mem_singleton.1 hc
    have hset := setTokens_stops selections (c := '(') (by decide)
    exact ⟨head?_append_ne (head?_directives ds (by decide)) hset.1,
      fun hnil => hset.2 (List.append_eq_nil_iff.1 hnil).2⟩
  cases operationName with
  | some text => exact Reads.peek ((reads_discard_name text).then hrest)
  | none =>
    -- what follows is a punctuator, so no name
    cases definitions with
    | cons first others => exact Reads.peek hrest
    | nil =>
      cases ds with
      | cons d ds => exact Reads.peek hrest
      | nil => exact Reads.peek hrest

theorem reads_fragment {f : Fragment} (h : f.Fits) :
    Reads [] fragment (.name f.name :: .name "on" :: .name f.typeCondition ::
      (f.directives.flatMap Directive.tokens ++ setTokens f.selections)) f :=
  (reads_name f.name).then ((reads_expect (.name "on")).then ((reads_name f.typeCondition).then
    (reads_ending h.directives h.selections (Fragment.mk f.name f.typeCondition))))

/-- A definition is read from its tokens. -/
theorem reads_definition {d : Definition} (h : d.Fits) : Reads [] definition d.tokens d := by
  cases d with
  | shorthand set => exact Reads.peek ((reads_selectionSet h).map Definition.shorthand)
  | operation o =>
    obtain ⟨kind, name, definitions, ds, selections⟩ := o
    have hrest := (reads_operation h).map Definition.operation
    cases kind with
    | query => exact Reads.peek ((reads_discard_name "query").then hrest)
    | mutation => exact Reads.peek ((reads_discard_name "mutation").then hrest)
    | subscription => exact Reads.peek ((reads_discard_name "subscription").then hrest)
  | fragment f =>
    exact Reads.peek
      ((reads_discard_name "fragment").then ((reads_fragment h).map Definition.fragment))

theorem definition_tokens_ne_nil (d : Definition) : d.tokens ≠ [] := by
  cases d <;> exact List.cons_ne_nil _ _

/-- The definitions of a document are read from their tokens. -/
theorem definitions_of_tokens {ds : List Definition} (h : ∀ definition ∈ ds, definition.Fits)
    {ls : List Lexeme} (hls : ls.map (·.token) = ds.flatMap Definition.tokens) :
    definitions ls = .ok ds := by
  induction ds generalizing ls with
  | nil =>
    obtain rfl := List.map_eq_nil_iff.1 hls
    rw [definitions]
  | cons d ds ih =>
    rw [List.flatMap_cons] at hls
    obtain ⟨first, second, rfl, hfirst, hsecond⟩ := List.map_eq_append_iff.1 hls
    have hparse := reads_definition (h d List.mem_cons_self) first second hfirst (by simp)
    have hend := ih (fun other hother => h other (List.mem_cons_of_mem d hother)) hsecond
    cases first with
    | nil => exact absurd hfirst.symm (definition_tokens_ne_nil d)
    | cons l tail =>
      rw [List.cons_append] at hparse ⊢
      rw [definitions, hparse]
      simp only
      rw [if_pos (by simp), hend]

end Parser

theorem tokens?_eq_some {text : String} {tokens : List Token}
    (h : tokens? text.toList = some tokens) :
    (Lexemes.ofString text).complete = true ∧
      (Lexemes.ofString text).lexemes.map (·.token) = tokens := by
  unfold tokens? Lexemes.tokens? at h
  rw [← Lexemes.ofString] at h
  split at h
  · exact ⟨‹_›, Option.some.inj h⟩
  · cases h

/-- A text with the tokens of a document that can be parsed is parsed as it. -/
theorem parse_of_tokens? {d : Document} (h : d.Fits) {text : String}
    (htokens : tokens? text.toList = some d.tokens) : Document.parse text = .ok d := by
  obtain ⟨hcomplete, hlexemes⟩ := tokens?_eq_some htokens
  have hparse := Parser.definitions_of_tokens h.definitions hlexemes
  have hsome : d.definitions.isEmpty = false := by simpa using h.nonempty
  unfold Document.parse
  simp [hparse, hcomplete, hsome]

/-- A text that is not made of tokens to its end is no document. -/
theorem parse_of_tokens?_eq_none {text : String} (h : tokens? text.toList = none) :
    (Document.parse text).toOption = none := by
  have hcomplete : (Lexemes.ofString text).complete = false := by
    unfold tokens? Lexemes.tokens? at h
    rw [← Lexemes.ofString] at h
    split at h
    · cases h
    · rename_i hstop
      simpa using hstop
  unfold Document.parse
  simp only [hcomplete, Bool.false_and]
  cases Parser.definitions (Lexemes.ofString text).lexemes <;> rfl

end OpManifest.GraphQL
