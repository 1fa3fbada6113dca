import Mathlib.Data.List.NodupEquivFin
import OpManifest.Manifest.Lookup
import OpManifest.Proofs.ManifestText
import OpManifest.Proofs.OperationText

/-!
# Which arguments are forwarded

A host calls a tool with one object of arguments, and the application sends some
of them to its server.  The names that may be sent are those that the source of
the operation declares as variables.  They are collected by the compiler and go
into the manifest, into its text and back (`forwarded_of_published`).
-/

namespace OpManifest

open GraphQL (Document VariableDefinition)

/-! ## Names -/

/-- The compiler collects the names that are declared, each once. -/
theorem contains_typesOf (definitions : List VariableDefinition) (name : String) :
    (typesOf definitions).contains name = decide (name ∈ definitions.map (·.name)) := by
  rw [typesOf, Std.ExtTreeMap.contains_ofList, List.map_map, List.contains_eq_mem]
  rfl

/-- An operation whose name occurs once is the last one with its name. -/
theorem isLastNamed_of_count {operations : List OperationDescriptor}
    {operation : OperationDescriptor} {position : Nat}
    (hposition : operations[position]? = some operation)
    (honce : (operations.map (·.name)).count operation.name = 1) :
    IsLastNamed operations operation.name position := by
  refine ⟨⟨operation, hposition, rfl⟩, ?_⟩
  intro later other hlater hother hname
  obtain ⟨hbound, hhere⟩ := List.getElem?_eq_some_iff.1 hposition
  obtain ⟨hlaterBound, hthere⟩ := List.getElem?_eq_some_iff.1 hother
  have htwice : (operations.map (·.name)).Duplicate operation.name := by
    apply List.duplicate_iff_exists_distinct_get.2
    refine ⟨⟨position, by simpa using hbound⟩, ⟨later, by simpa using hlaterBound⟩, hlater, ?_, ?_⟩
    · simp [hhere]
    · simp [hthere, hname]
  have htwo := List.duplicate_iff_two_le_count.1 htwice
  omega

/-- An operation is found by its name if no other one has it. -/
theorem Manifest.Indexed.operation?_of_count {manifest : Manifest}
    {operation : OperationDescriptor} (h : manifest.Indexed)
    (hmem : operation ∈ manifest.operations)
    (honce : (manifest.operations.map (·.name)).count operation.name = 1) :
    manifest.operation? operation.name = some operation := by
  obtain ⟨position, hposition⟩ := List.mem_iff_getElem?.1 hmem
  have hindex : manifest.index[operation.name]? = some position :=
    (h operation.name position).2 (isLastNamed_of_count hposition honce)
  rw [Manifest.operation?, hindex]
  exact hposition

/-! ## Arguments -/

/-- The operation forwards exactly the arguments with the given names. -/
structure OperationDescriptor.Forwards (operation : OperationDescriptor) (declared : List String) :
    Prop where
  /-- What is forwarded are the members with declared names, in their order and
  with their values. -/
  restricted : ∀ (α : Type) (arguments : List (String × α)),
    operation.selectVariables arguments = arguments.filter fun argument => argument.1 ∈ declared
  /-- What stands under other names is never seen. -/
  agreeing : ∀ (α : Type) (one other : Std.ExtTreeMap String α),
    (∀ name ∈ declared, one[name]? = other[name]?) →
      operation.selectVariables one.toList = operation.selectVariables other.toList
  /-- What is forwarded can be forwarded again. -/
  again : ∀ (α : Type) (arguments : List (String × α)),
    operation.selectVariables (operation.selectVariables arguments) =
      operation.selectVariables arguments

/-- Objects that agree on some names have the same members with these names. -/
theorem filter_toList_eq {α : Type} {names : List String} {one other : Std.ExtTreeMap String α}
    (h : ∀ name ∈ names, one[name]? = other[name]?) :
    one.toList.filter (fun member => member.1 ∈ names) =
      other.toList.filter (fun member => member.1 ∈ names) := by
  have hsame : one.filter (fun name _ => decide (name ∈ names)) =
      other.filter (fun name _ => decide (name ∈ names)) := by
    apply Std.ExtTreeMap.ext_getElem?
    intro name
    rw [Std.ExtTreeMap.getElem?_filter', Std.ExtTreeMap.getElem?_filter']
    by_cases hname : name ∈ names
    · rw [h name hname]
    · cases one[name]? <;> cases other[name]? <;> simp [Option.filter, hname]
  rw [← Std.ExtTreeMap.toList_filter (f := fun name _ => decide (name ∈ names)), hsame,
    Std.ExtTreeMap.toList_filter]

theorem OperationDescriptor.forwards_of_variableTypes {operation : OperationDescriptor}
    {definitions : List VariableDefinition} (h : operation.variableTypes = typesOf definitions) :
    operation.Forwards (definitions.map (·.name)) := by
  have hrestricted (α : Type) (arguments : List (String × α)) :
      operation.selectVariables arguments =
        arguments.filter fun argument => argument.1 ∈ definitions.map (·.name) := by
    simp only [selectVariables, h, contains_typesOf]
  refine ⟨hrestricted, fun α one other hagree => ?_, fun α arguments => ?_⟩
  · rw [hrestricted, hrestricted, filter_toList_eq hagree]
  · rw [hrestricted, hrestricted, List.filter_filter]
    simp only [Bool.and_self]

/-- **Only declared variables are forwarded.**  If the operation of a source is
assembled into a manifest in which its name occurs once, then whoever reads this
manifest finds the operation by its name, and it forwards the arguments that its
source declares as variables and no others. -/
theorem forwarded_of_published {source : String} {operation : OperationDescriptor}
    {operations : List OperationDescriptor} {config : ProjectConfig} {context : BuildContext}
    {time : Nat} {manifest : Manifest} (hcompile : compile source = .ok (some operation))
    (hmem : operation ∈ operations)
    (honce : (operations.map (·.name)).count operation.name = 1)
    (hassemble : assemble operations config context time = .ok manifest) :
    ∃ document written back, Document.parse source = .ok document ∧
      document.definitions.filterMap operationOf? = [written] ∧
      Manifest.ofText manifest.text = .ok back ∧
      (∀ tree path after, manifest.save tree path = (after, .ok ()) →
        Manifest.load after path = .ok back) ∧
      back.operation? operation.name = some operation ∧
      operation.Forwards (written.variableDefinitions.map (·.name)) := by
  obtain ⟨document, hparse, hdescribe⟩ := describeOperation_of_compile hcompile
  obtain ⟨written, hwritten, -, -, hvariables, -⟩ := describeOperation_eq_ok hdescribe
  have hoperations := (assembledFrom_of_assemble hassemble).operations
  rw [← hoperations] at hmem honce
  exact ⟨document, written, manifest.reindex, hparse, hwritten, manifest.ofText_text,
    fun tree path after => Manifest.load_of_save,
    manifest.indexed_reindex.operation?_of_count hmem honce,
    OperationDescriptor.forwards_of_variableTypes hvariables⟩

theorem compile_of_toOption {source : String} {operation : OperationDescriptor}
    (h : (compile source).toOption.join = some operation) :
    compile source = .ok (some operation) := by
  cases hcompile : compile source with
  | error cause => simp [hcompile, Except.toOption] at h
  | ok found => simpa [hcompile, Except.toOption] using h

/-- An operation with two variables, and a tool that asks for one more input. -/
def productSource : String :=
  "query Product($id: ID, $n: Int) @tool(name: \"T\", description: \"d\", " ++
    "extraInputs: [\x7bname: \"c\", type: \"string\", description: \"e\"\x7d]) " ++
    "\x7b p(id: $id, n: $n) \x7d"

/-- The input of the tool that is no variable is not forwarded, and other
operations may share a name. -/
theorem forwarded_of_productSource :
    ∃ operation home manifest back,
      compile productSource = .ok (some operation) ∧
      assemble [home, operation, home] { name := "x" } ⟨.build, "production", none⟩ 0 =
        .ok manifest ∧
      Manifest.ofText manifest.text = .ok back ∧
      back.operation? operation.name = some operation ∧
      operation.tools.map (fun tool => tool.extraInputs.map (·.name)) = [["c"]] ∧
      operation.selectVariables [("c", 1), ("n", 2), ("id", 3)] =
        [("n", 2), ("id", 3)] := by
  have hfacts : (compile productSource).toOption.join.any (fun operation =>
      (compile "query Home \x7b home \x7d").toOption.join.any fun home =>
        decide (([home, operation, home].map (·.name)).count operation.name = 1) &&
        (assemble [home, operation, home] { name := "x" } ⟨.build, "production", none⟩ 0).isOk &&
        decide (operation.tools.map (fun tool => tool.extraInputs.map (·.name)) =
          [["c"]])) = true := by
    decide +kernel
  have hnames : (Document.parse productSource).toOption.all (fun document =>
      decide ((document.definitions.filterMap operationOf?).map
        (·.variableDefinitions.map (·.name)) = [["id", "n"]])) = true := by
    decide +kernel
  obtain ⟨operation, hoperation, hothers⟩ := (Option.any_eq_true _ _).1 hfacts
  obtain ⟨home, -, hall⟩ := (Option.any_eq_true _ _).1 hothers
  simp only [Bool.and_eq_true, decide_eq_true_eq] at hall
  obtain ⟨⟨honce, hassembles⟩, htools⟩ := hall
  have hcompile := compile_of_toOption hoperation
  cases hmanifest : assemble [home, operation, home] { name := "x" } ⟨.build, "production", none⟩ 0
    with
  | error cause => simp [hmanifest, Except.isOk, Except.toBool] at hassembles
  | ok manifest =>
    obtain ⟨document, written, back, hparse, hwritten, hback, -, hfound, hforwards⟩ :=
      forwarded_of_published hcompile (by simp) honce hmanifest
    have hdeclared : written.variableDefinitions.map (·.name) = ["id", "n"] := by
      simpa [hparse, hwritten, Except.toOption] using hnames
    refine ⟨operation, home, manifest, back, hcompile, hmanifest, hback, hfound, htools, ?_⟩
    rw [hforwards.restricted, hdeclared]
    decide

end OpManifest
