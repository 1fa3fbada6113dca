import OpManifest.Proofs.Canonical
import OpManifest.Proofs.GraphQL.RoundTrip

/-!
# What the text of an operation says

The text that is published of an operation is what a server is sent.  It is
parsed as what is read back from the canonical form of the source
(`body_denotes`), which is that form itself exactly if none of its literals is
lost in print: a number that is whole comes back as an integer or not at all, and
a string may lose characters.
-/

namespace OpManifest

open GraphQL (Definition Document Operation OperationKind)

/-! ## The canonical form -/

/-- The definitions of the canonical form are those of the document, without the
compiler's directives. -/
theorem mem_canonical {document : Document} {definition : Definition} :
    definition ∈ (canonical document).definitions ↔
      ∃ written ∈ document.definitions, withoutCompilerDirectives written = definition := by
  rw [canonical, List.mem_mergeSort, List.mem_map]

theorem fits_withoutCompilerDirectives {definition : Definition} (h : definition.Fits) :
    (withoutCompilerDirectives definition).Fits := by
  cases definition with
  | shorthand | fragment => exact h
  | operation o =>
    have hfits : o.Fits := h
    exact ⟨hfits.name, hfits.variableDefinitions,
      fun directive hdirective => hfits.directives directive (List.mem_of_mem_filter hdirective),
      hfits.selections⟩

/-- The canonical form of a document that can be parsed can be parsed. -/
theorem fits_canonical {document : Document} (h : document.Fits) : (canonical document).Fits := by
  refine ⟨fun hnil => ?_, fun definition hdefinition => ?_⟩
  · obtain ⟨written, hwritten⟩ := List.exists_mem_of_ne_nil _ h.nonempty
    have hin := mem_canonical.2 ⟨written, hwritten, rfl⟩
    rw [hnil] at hin
    cases hin
  · obtain ⟨written, hwritten, rfl⟩ := mem_canonical.1 hdefinition
    exact fits_withoutCompilerDirectives (h.definitions written hwritten)

/-- A document that is described has no subscription. -/
theorem printable_of_describeOperation {document : Document} {descriptor : OperationDescriptor}
    (h : describeOperation document = .ok descriptor) :
    ∀ definition ∈ (canonical document).definitions, definition.Printable := by
  obtain ⟨operation, hoperations, htype, -⟩ := describeOperation_eq_ok h
  have hkind : operation.kind ≠ .subscription := by
    intro hkind
    rw [hkind] at htype
    cases htype
  intro definition hdefinition
  cases definition with
  | shorthand | fragment => trivial
  | operation o =>
    have hin : o ∈ (canonical document).definitions.filterMap operationOf? :=
      List.mem_filterMap.2 ⟨_, hdefinition, rfl⟩
    rw [operations_canonical hoperations, List.mem_singleton] at hin
    subst hin
    exact hkind

/-! ## The published text -/

/-- A compiled operation is described by the document that its source is parsed
as. -/
theorem describeOperation_of_compile {source : String} {operation : OperationDescriptor}
    (h : compile source = .ok (some operation)) :
    ∃ document, Document.parse source = .ok document ∧
      describeOperation document = .ok operation := by
  unfold compile at h
  split at h
  · cases h
  · rename_i document hparse
    refine ⟨document, hparse, ?_⟩
    split at h
    · cases hdescribe : describeOperation document with
      | error cause => simp [hdescribe] at h
      | ok described =>
        rw [hdescribe] at h
        rw [Option.some.inj (Except.ok.inj h)]
    · cases h

/-- **The text of an operation.**  The text that is published of a compiled
operation is parsed as what is read back from the canonical form of its source,
and as that form itself exactly if all literals in it are kept: numbers have a
fraction and strings have nothing to lose in print. -/
theorem body_denotes {source : String} {operation : OperationDescriptor}
    (h : compile source = .ok (some operation)) :
    ∃ document, Document.parse source = .ok document ∧
      (Document.parse operation.body).toOption = (canonical document).readBack ∧
      (Document.parse operation.body = .ok (canonical document) ↔
        ∀ literal ∈ (canonical document).literals, literal.Kept) := by
  obtain ⟨document, hparse, hdescribe⟩ := describeOperation_of_compile h
  obtain ⟨-, -, -, -, -, hbody, -⟩ := describeOperation_eq_ok hdescribe
  have hfits := fits_canonical (GraphQL.fits_of_parse hparse)
  have hprintable := printable_of_describeOperation hdescribe
  rw [hbody]
  exact ⟨document, hparse, Document.parse_print hfits hprintable,
    Document.parse_print_eq_iff hfits hprintable⟩

/-- The text of an operation with one argument. -/
def argumentSource (literal : String) : String := "query A \x7b a(x: " ++ literal ++ ") \x7d"

/-- A number with a fraction is read back as it is; a number without one is not:
it is printed without its point. -/
theorem body_denotes_fraction :
    (∃ operation document, compile (argumentSource "1.5") = .ok (some operation) ∧
      Document.parse (argumentSource "1.5") = .ok document ∧
      Document.parse operation.body = .ok (canonical document)) ∧
    ∃ operation document, compile (argumentSource "1.0") = .ok (some operation) ∧
      Document.parse (argumentSource "1.0") = .ok document ∧
      Document.parse operation.body ≠ .ok (canonical document) := by
  have hkept (literal : String) (kept : Bool)
      (hcompile : (compile (argumentSource literal)).toOption.join.isSome = true)
      (hliterals : ∀ document ∈ (Document.parse (argumentSource literal)).toOption,
        decide (∀ literal ∈ (canonical document).literals, literal.Kept) = kept) :
      ∃ operation document, compile (argumentSource literal) = .ok (some operation) ∧
        Document.parse (argumentSource literal) = .ok document ∧
        (Document.parse operation.body = .ok (canonical document) ↔ kept = true) := by
    cases h : compile (argumentSource literal) with
    | error cause => simp [h, Except.toOption] at hcompile
    | ok compiled =>
      cases compiled with
      | none => simp [h, Except.toOption] at hcompile
      | some operation =>
        obtain ⟨document, hparse, -, hiff⟩ := body_denotes h
        refine ⟨operation, document, rfl, hparse, hiff.trans ?_⟩
        rw [← hliterals document (by simp [hparse, Except.toOption]), decide_eq_true_iff]
  obtain ⟨operation, document, hcompile, hparse, hiff⟩ := hkept "1.5" true
    (by decide +kernel) (by decide +kernel)
  obtain ⟨operation', document', hcompile', hparse', hiff'⟩ := hkept "1.0" false
    (by decide +kernel) (by decide +kernel)
  exact ⟨⟨operation, document, hcompile, hparse, hiff.2 rfl⟩,
    operation', document', hcompile', hparse', fun h => Bool.false_ne_true (hiff'.1 h)⟩

end OpManifest
