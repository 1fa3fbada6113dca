import Mathlib.Data.List.Forall2
import OpManifest.Manifest.Lookup
import OpManifest.Proofs.ManifestText

/-!
# What is found in a manifest

A manifest may have operations that share a name, and tools that share one.  Of
operations the last is found, because a later one takes the place of an earlier
one in the index; of tools the first is found, because the search goes through
the list of all tools from its beginning.  The first of these rests on the index
(`Indexed`), which is right in every manifest that was assembled, read or loaded
(`Obtained.indexed`); the second holds of any.
-/

namespace OpManifest

namespace Manifest

variable {manifest : Manifest} {name : String}

/-! ## Operations -/

/-- The last position of a name is the last of the operations that have it. -/
theorem getElem?_of_isLastNamed {operations : List OperationDescriptor} {position : Nat}
    (h : IsLastNamed operations name position) :
    operations[position]? = (operations.filter (·.name = name)).getLast? := by
  obtain ⟨⟨operation, hoperation, hname⟩, hlater⟩ := h
  obtain ⟨hposition, hhere⟩ := List.getElem?_eq_some_iff.1 hoperation
  have hsplit : operations =
      operations.take position ++ operation :: operations.drop (position + 1) := by
    rw [← hhere, List.getElem_cons_drop hposition, List.take_append_drop]
  have hbehind : (operations.drop (position + 1)).filter (·.name = name) = [] := by
    rw [List.filter_eq_nil_iff]
    intro other hother
    obtain ⟨i, hi⟩ := List.mem_iff_getElem?.1 hother
    rw [List.getElem?_drop] at hi
    simpa using hlater _ other (by omega) hi
  rw [hoperation, hsplit, List.filter_append, List.filter_cons_of_pos (by simpa using hname),
    hbehind, List.getLast?_concat]

/-- The index has the names of the operations and no others. -/
theorem Indexed.mem_index (h : manifest.Indexed) : name ∈ manifest.index ↔
    ∃ operation ∈ manifest.operations, operation.name = name := by
  rw [Std.ExtTreeMap.mem_iff_isSome_getElem?, Option.isSome_iff_exists]
  constructor
  · rintro ⟨position, hposition⟩
    obtain ⟨⟨operation, hoperation, hname⟩, -⟩ := (h name position).1 hposition
    exact ⟨operation, List.mem_of_getElem? hoperation, hname⟩
  · intro hnamed
    obtain ⟨position, hlast⟩ := exists_isLastNamed hnamed
    exact ⟨position, (h name position).2 hlast⟩

/-- The operation with a name is the last of those that have it. -/
theorem Indexed.operation?_eq (h : manifest.Indexed) (name : String) :
    manifest.operation? name = (manifest.operations.filter (·.name = name)).getLast? := by
  rw [operation?]
  cases hindex : manifest.index[name]? with
  | some position => exact getElem?_of_isLastNamed ((h name position).1 hindex)
  | none =>
    have hnone : manifest.operations.filter (·.name = name) = [] := by
      rw [List.filter_eq_nil_iff]
      intro operation hmem hname
      have hthere := h.mem_index.2 ⟨operation, hmem, by simpa using hname⟩
      rw [Std.ExtTreeMap.mem_iff_isSome_getElem?, hindex] at hthere
      cases hthere
    rw [hnone]
    rfl

theorem Indexed.isSome_operation? (h : manifest.Indexed) (name : String) :
    (manifest.operation? name).isSome ↔
      ∃ operation ∈ manifest.operations, operation.name = name := by
  rw [h.operation?_eq, List.getLast?_isSome, Ne, List.filter_eq_nil_iff]
  simp

/-! ## Tools -/

/-- Where the tools stand: first the position of the operation, the first one at
`first`, and then that of the tool among its tools. -/
def toolPlaces (first : Nat) : List OperationDescriptor → List (Nat × Nat)
  | [] => []
  | operation :: operations =>
    (List.range operation.tools.length).map (first, ·) ++ toolPlaces (first + 1) operations

theorem mem_toolPlaces {operations : List OperationDescriptor} {first : Nat} {place : Nat × Nat} :
    place ∈ toolPlaces first operations ↔ ∃ i operation, place.1 = first + i ∧
      operations[i]? = some operation ∧ place.2 < operation.tools.length := by
  induction operations generalizing first with
  | nil => simp [toolPlaces]
  | cons operation operations ih =>
    rw [toolPlaces, List.mem_append, List.mem_map, ih]
    constructor
    · rintro (⟨j, hj, rfl⟩ | ⟨i, other, hplace, hother, hlt⟩)
      · exact ⟨0, operation, rfl, rfl, List.mem_range.1 hj⟩
      · exact ⟨i + 1, other, by omega, by simpa using hother, hlt⟩
    · rintro ⟨i, other, hplace, hother, hlt⟩
      cases i with
      | zero =>
        obtain rfl : operation = other := by simpa using hother
        exact .inl ⟨place.2, List.mem_range.2 hlt, by rw [← Nat.add_zero first, ← hplace]⟩
      | succ i => exact .inr ⟨i, other, by omega, by simpa using hother, hlt⟩

/-- The places go forward. -/
theorem pairwise_toolPlaces (operations : List OperationDescriptor) (first : Nat) :
    (toolPlaces first operations).Pairwise (Prod.Lex (· < ·) (· < ·)) := by
  induction operations generalizing first with
  | nil => exact .nil
  | cons operation operations ih =>
    rw [toolPlaces, List.pairwise_append]
    refine ⟨?_, ih (first + 1), ?_⟩
    · rw [List.pairwise_map]
      exact List.pairwise_lt_range.imp fun hlt => .right first hlt
    · intro here hhere there hthere
      obtain ⟨j, -, rfl⟩ := List.mem_map.1 hhere
      obtain ⟨i, -, hfirst, -⟩ := mem_toolPlaces.1 hthere
      obtain ⟨place, other⟩ := there
      exact .left j other (by omega)

/-- The pair of an operation and one of its tools that stands at the place. -/
def StandsAt (operations : List OperationDescriptor) (place : Nat × Nat)
    (pair : OperationDescriptor × ToolSpec) : Prop :=
  operations[place.1]? = some pair.1 ∧ pair.1.tools[place.2]? = some pair.2

theorem standsAt_tools (front operations : List OperationDescriptor) :
    List.Forall₂ (StandsAt (front ++ operations)) (toolPlaces front.length operations)
      (operations.flatMap fun operation => operation.tools.map fun tool => (operation, tool)) := by
  induction operations generalizing front with
  | nil => exact .nil
  | cons operation operations ih =>
    rw [toolPlaces, List.flatMap_cons]
    have hrest := ih (front ++ [operation])
    rw [List.append_assoc, List.singleton_append, List.length_append,
      List.length_singleton] at hrest
    refine List.rel_append ?_ hrest
    rw [List.forall₂_map_left_iff, List.forall₂_map_right_iff, List.forall₂_iff_get]
    exact ⟨List.length_range, fun j hj _ => ⟨by simp, by simp⟩⟩

/-- The pairs are those of every operation with each of its tools, in the order of
the operations and then of their tools. -/
def ListsTools (operations : List OperationDescriptor)
    (pairs : List (OperationDescriptor × ToolSpec)) : Prop :=
  ∃ places : List (Nat × Nat), places.Pairwise (Prod.Lex (· < ·) (· < ·)) ∧
    (∀ i j, (i, j) ∈ places ↔ ∃ operation, operations[i]? = some operation ∧
      j < operation.tools.length) ∧
    List.Forall₂ (StandsAt operations) places pairs

theorem listsTools_tools (manifest : Manifest) :
    ListsTools manifest.operations manifest.tools := by
  refine ⟨toolPlaces 0 manifest.operations, pairwise_toolPlaces _ 0, fun i j => ?_,
    standsAt_tools [] manifest.operations⟩
  rw [mem_toolPlaces]
  simp

theorem tool?_eq (manifest : Manifest) (name : String) :
    manifest.tool? name = manifest.tools.find? (·.2.name = name) := by
  rw [tool?, tools, List.find?_flatMap]
  congr
  funext operation
  rw [OperationDescriptor.tool?, List.find?_map]
  rfl

theorem isSome_tool? (manifest : Manifest) (name : String) : (manifest.tool? name).isSome ↔
    ∃ operation ∈ manifest.operations, ∃ tool ∈ operation.tools, tool.name = name := by
  rw [tool?_eq, List.find?_isSome, tools]
  simp [and_assoc]

/-! ## The prefetched operation -/

/-- Of at most one the first is the only one. -/
theorem filter_prefetch (h : (manifest.operations.filter (·.prefetch)).length ≤ 1) :
    manifest.operations.filter (·.prefetch) = manifest.prefetched?.toList := by
  rw [prefetched?, ← List.head?_filter]
  generalize manifest.operations.filter (·.prefetch) = marked at h ⊢
  match marked with
  | [] => rfl
  | [operation] => rfl
  | _ :: _ :: _ => simp at h

/-! ## All lookups -/

/-- What the lookups find is said by the list of operations. -/
structure AgreesWithList (manifest : Manifest) : Prop where
  /-- The index has the names of the operations and no others. -/
  names : ∀ name, name ∈ manifest.index ↔
    ∃ operation ∈ manifest.operations, operation.name = name
  /-- A name stands for the last position that has it. -/
  positions : ∀ name position, manifest.index[name]? = some position ↔
    IsLastNamed manifest.operations name position
  /-- An operation is found if one has the name, and it is the last of them. -/
  found : ∀ name, ((manifest.operation? name).isSome ↔
      ∃ operation ∈ manifest.operations, operation.name = name) ∧
    manifest.operation? name = (manifest.operations.filter (·.name = name)).getLast?
  /-- All tools are listed, each once. -/
  listed : ListsTools manifest.operations manifest.tools
  /-- A tool is found if one has the name, and it is the first that is listed. -/
  foundTool : ∀ name, ((manifest.tool? name).isSome ↔
      ∃ operation ∈ manifest.operations, ∃ tool ∈ operation.tools, tool.name = name) ∧
    manifest.tool? name = manifest.tools.find? (·.2.name = name)

theorem Indexed.agreesWithList (h : manifest.Indexed) : manifest.AgreesWithList where
  names _ := h.mem_index
  positions := h
  found name := ⟨h.isSome_operation? name, h.operation?_eq name⟩
  listed := manifest.listsTools_tools
  foundTool name := ⟨manifest.isSome_tool? name, manifest.tool?_eq name⟩

/-- The ways to come by a manifest. -/
inductive Obtained (manifest : Manifest) : Prop where
  | assembled (operations : List OperationDescriptor) (config : ProjectConfig)
    (context : BuildContext) (time : Nat)
    (h : assemble operations config context time = .ok manifest) : Obtained manifest
  | read (text : String) (h : ofText text = .ok manifest) : Obtained manifest
  | loaded (tree : FileTree) (path : Path) (h : load tree path = .ok manifest) : Obtained manifest

/-- However a manifest was come by, its index was built anew last of all. -/
theorem Obtained.indexed (h : manifest.Obtained) : manifest.Indexed := by
  cases h with
  | assembled operations config context time h => exact indexed_of_reindex (reindex_of_assemble h)
  | read text h => exact indexed_of_reindex (reindex_of_ofText h)
  | loaded tree path h =>
    obtain ⟨text, -, htext⟩ := ofText_of_load h
    exact indexed_of_reindex (reindex_of_ofText htext)

/-- **Lookups agree with the list of operations**, however the manifest was come
by and whatever names are repeated in it.  In a manifest that was assembled, what
is prefetched is the only operation that is marked so. -/
theorem lookups_agree {manifest : Manifest} (h : manifest.Obtained) : manifest.AgreesWithList ∧
    ∀ (operations : List OperationDescriptor) (config : ProjectConfig) (context : BuildContext)
      (time : Nat), assemble operations config context time = .ok manifest →
        manifest.operations.filter (·.prefetch) = manifest.prefetched?.toList := by
  refine ⟨h.indexed.agreesWithList, ?_⟩
  intro operations config context time h
  exact filter_prefetch (assembledFrom_of_assemble h).prefetched

/-- Operations that are called for twice: two share a name, and two share a
tool. -/
def repeatedOperations : List OperationDescriptor :=
  [{ id := "1", name := "Home", type := .query, body := "", tools := [⟨"T", "first", [], none⟩] },
    { id := "2", name := "Cart", type := .query, body := "", prefetch := true,
      tools := [⟨"U", "other", [], none⟩, ⟨"T", "second", [], none⟩] },
    { id := "3", name := "Home", type := .mutation, body := "" }]

theorem lookups_agree_repeatedOperations : ∃ manifest back,
    assemble repeatedOperations { name := "x" } ⟨.build, "production", none⟩ 0 = .ok manifest ∧
    ofText { manifest with index := ∅ }.text = .ok back ∧
    (manifest.operation? "Home").map (·.id) = some "3" ∧
    (back.operation? "Home").map (·.id) = some "3" ∧
    (manifest.tool? "T").map (fun pair => (pair.1.id, pair.2.description)) = some ("1", "first") ∧
    manifest.tools.map (·.2.name) = ["T", "U", "T"] ∧
    manifest.prefetched?.toList.map (·.id) = ["2"] := by
  have hassembles : (assemble repeatedOperations { name := "x" } ⟨.build, "production", none⟩
      0).isOk = true := by
    decide +kernel
  cases hmanifest : assemble repeatedOperations { name := "x" } ⟨.build, "production", none⟩ 0 with
  | error cause => simp [hmanifest, Except.isOk, Except.toBool] at hassembles
  | ok manifest =>
    have hback := ofText_text { manifest with index := ∅ }
    obtain ⟨hagrees, hprefetched⟩ := lookups_agree (.assembled _ _ _ _ hmanifest)
    obtain ⟨hagain, -⟩ := lookups_agree (.read _ hback)
    have hoperations := (assembledFrom_of_assemble hmanifest).operations
    refine ⟨manifest, _, rfl, hback, ?_, ?_, ?_, ?_, ?_⟩
    · rw [(hagrees.found "Home").2, hoperations]
      decide
    · rw [(hagain.found "Home").2, reindex, hoperations]
      decide
    · rw [(hagrees.foundTool "T").2, tools, hoperations]
      decide
    · rw [tools, hoperations]
      decide
    · rw [← hprefetched _ _ _ _ hmanifest, hoperations]
      decide

end Manifest

end OpManifest
