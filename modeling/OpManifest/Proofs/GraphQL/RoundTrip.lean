import OpManifest.Proofs.GraphQL.Parsed
import OpManifest.Proofs.GraphQL.Printing
import OpManifest.Proofs.GraphQL.Reading

/-!
# From a document to its text and back

The text of a parsed document is parsed as what is read back from it
(`Document.parse_print`), which is the document itself exactly if all its
literals are kept (`Document.readBack_eq_iff_kept`): a number is kept if it is
finite and not whole, and a string if it has nothing to lose in print.
-/

namespace OpManifest.GraphQL

open Decimal (Binary64)

/-! ## Literals -/

namespace Value

/-- A literal as it is parsed: neither a list nor an object, and a number of its
format. -/
def IsLiteral : Value → Prop
  | .float number => number.Normal
  | .list _ | .object _ => False
  | _ => True

/-- The literal is written so that it is read back: a number with a fraction, or
a string that has nothing to lose in print. -/
def Kept : Value → Prop
  | .float number => number.HasFraction
  | .string text => KeptText text.toList
  | _ => True

instance : DecidablePred Kept
  | .float number => inferInstanceAs (Decidable number.HasFraction)
  | .string text => inferInstanceAs (Decidable (KeptText text.toList))
  | .reference _ | .int _ | .boolean _ | .null | .symbol _ | .list _ | .object _ =>
    inferInstanceAs (Decidable True)

theorem ofNumber?_eq_float_iff {number other : Binary64} :
    ofNumber? number = some (.float other) ↔ floatToken number = some (.float other) := by
  rw [ofNumber?]
  cases floatToken number with
  | none => simp
  | some token => cases token <;> simp

theorem readBack_float_iff {number : Binary64} (h : number.Normal) :
    (float number).readBack = some (float number) ↔ number.HasFraction := by
  rw [readBack, ofNumber?_eq_float_iff]
  cases number with
  | notANumber => exact absurd h id
  | infinite negative =>
    refine iff_of_false ?_ id
    cases negative with
    | false => simp [floatToken]
    | true =>
      have hnone : floatToken (.infinite true) = none := by decide
      simp [hnone]
  | finite negative mantissa exponent =>
    rw [Binary64.HasFraction, ← readNumber_text_iff h]
    rfl

/-- A literal is read back as it is exactly if it is kept. -/
theorem IsLiteral.readBack_iff {literal : Value} (h : literal.IsLiteral) :
    literal.readBack = some literal ↔ literal.Kept := by
  cases literal with
  | float number => exact readBack_float_iff h
  | string text =>
    rw [Kept, ← readBackText_iff, readBack, Option.some.injEq, Value.string.injEq,
      ← String.toList_inj, String.toList_ofList]
  | list => exact absurd h id
  | object => exact absurd h id
  | reference | int | boolean | null | symbol => exact iff_of_true rfl trivial

/-- The literals of a value that can be parsed are literals. -/
theorem Fits.literals {constant : Bool} {depth : Nat} {v : Value} (h : v.Fits constant depth) :
    ∀ literal ∈ v.literals, literal.IsLiteral := by
  induction h with
  | list _ ih =>
    rw [Value.literals, itemLiterals_eq]
    exact List.forall_mem_flatMap.2 ih
  | object _ _ _ ih =>
    rw [Value.literals, fieldLiterals_eq]
    exact List.forall_mem_flatMap.2 ih
  | float hnumber => exact List.forall_mem_singleton.2 hnumber
  | reference | int | string | boolean | null | symbol => exact List.forall_mem_singleton.2 trivial

end Value

theorem ArgumentsFit.literals {depth : Nat} {arguments : List (String × Value)}
    (h : ArgumentsFit depth arguments) :
    ∀ literal ∈ argumentLiterals arguments, literal.IsLiteral := by
  refine List.forall_mem_flatMap.2 fun argument hargument => ?_
  obtain ⟨-, _, -, hfits⟩ := h argument hargument
  exact hfits.literals

theorem literals_of_directives {depth : Nat} {directives : List Directive}
    (h : ∀ directive ∈ directives, directive.Fits depth) :
    ∀ literal ∈ directives.flatMap Directive.literals, literal.IsLiteral :=
  List.forall_mem_flatMap.2 fun directive hdirective => (h directive hdirective).arguments.literals

theorem VariableDefinition.Fits.literals {depth : Nat} {v : VariableDefinition} (h : v.Fits depth) :
    ∀ literal ∈ v.literals, literal.IsLiteral := by
  unfold VariableDefinition.literals
  split
  · rename_i default hdefault
    exact (h.default default hdefault).literals
  · simp

theorem Selection.Fits.literals {depth : Nat} {s : Selection} (h : s.Fits depth) :
    ∀ literal ∈ s.literals, literal.IsLiteral := by
  induction h with
  | leaf _ _ harguments hdirectives =>
    rw [Selection.literals, listLiterals_eq, List.forall_mem_append, List.forall_mem_append]
    exact ⟨harguments.literals, literals_of_directives hdirectives, by simp⟩
  | field _ _ harguments hdirectives _ _ ih =>
    rw [Selection.literals, listLiterals_eq, List.forall_mem_append, List.forall_mem_append]
    exact ⟨harguments.literals, literals_of_directives hdirectives, List.forall_mem_flatMap.2 ih⟩
  | spread _ _ hdirectives => exact literals_of_directives hdirectives
  | inlineFragment _ hdirectives _ _ ih =>
    rw [Selection.literals, listLiterals_eq, List.forall_mem_append]
    exact ⟨literals_of_directives hdirectives, List.forall_mem_flatMap.2 ih⟩

theorem SetFits.literals {depth : Nat} {selections : List Selection}
    (h : SetFits depth selections) :
    ∀ literal ∈ selections.flatMap Selection.literals, literal.IsLiteral :=
  List.forall_mem_flatMap.2 fun selection hselection => (h.selections selection hselection).literals

theorem Definition.Fits.literals {d : Definition} (h : d.Fits) :
    ∀ literal ∈ d.literals, literal.IsLiteral := by
  cases d with
  | shorthand set => exact SetFits.literals h
  | operation o =>
    have hfits : o.Fits := h
    rw [Definition.literals, Operation.literals, List.forall_mem_append, List.forall_mem_append]
    exact ⟨List.forall_mem_flatMap.2 fun definition hdefinition =>
      (hfits.variableDefinitions definition hdefinition).literals,
      literals_of_directives hfits.directives, hfits.selections.literals⟩
  | fragment f =>
    have hfits : f.Fits := h
    rw [Definition.literals, Fragment.literals, List.forall_mem_append]
    exact ⟨literals_of_directives hfits.directives, hfits.selections.literals⟩

/-! ## Documents -/

namespace Document

/-- The literals of a document that can be parsed are literals. -/
theorem Fits.literals {d : Document} (h : d.Fits) : ∀ literal ∈ d.literals, literal.IsLiteral :=
  List.forall_mem_flatMap.2 fun definition hdefinition =>
    (h.definitions definition hdefinition).literals

/-- What is read back from a document is the document itself exactly if all its
literals are kept. -/
theorem readBack_eq_iff_kept {d : Document} (h : d.Fits) :
    d.readBack = some d ↔ ∀ literal ∈ d.literals, literal.Kept := by
  rw [readBack_eq_iff, AllReadBack]
  exact forall₂_congr fun literal hliteral => (h.literals literal hliteral).readBack_iff

/-- The text of a document is parsed as what is read back from it. -/
theorem parse_print {d : Document} (h : d.Fits)
    (hprintable : ∀ definition ∈ d.definitions, definition.Printable) :
    (parse d.print).toOption = d.readBack := by
  have htokens := tokens?_print h hprintable
  cases hback : d.readBack with
  | none =>
    rw [hback, Option.map_none] at htokens
    exact parse_of_tokens?_eq_none htokens
  | some back =>
    rw [hback, Option.map_some] at htokens
    rw [parse_of_tokens? (h.readBack hback) htokens]
    rfl

/-- The text of a document is parsed as the document exactly if all its literals
are kept. -/
theorem parse_print_eq_iff {d : Document} (h : d.Fits)
    (hprintable : ∀ definition ∈ d.definitions, definition.Printable) :
    parse d.print = .ok d ↔ ∀ literal ∈ d.literals, literal.Kept := by
  rw [← readBack_eq_iff_kept h, ← parse_print h hprintable]
  cases parse d.print <;> simp [Except.toOption]

end Document

end OpManifest.GraphQL
