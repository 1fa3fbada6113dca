import Mathlib.Data.List.Induction
import OpManifest.Manifest.Assembly
import OpManifest.Proofs.Failure
import OpManifest.Source.Cache

/-!
# What a manifest is assembled from

`assembledFrom_of_assemble` reads every part of an assembled manifest off its
sources.  `indexed_reindex` says what an index that is built anew holds: the last
position of each name.  So it is in every manifest that was assembled
(`reindex_of_assemble`).  `operations_listed` says in which order a
cache lists operations.
-/

namespace OpManifest

/-! ## Assembly -/

/-- The manifest shows every setting of the configuration as it is. -/
structure Manifest.ShowsSettings (manifest : Manifest) (config : ProjectConfig) : Prop where
  connectDomains : manifest.policy.connectDomains = config.policy.connectDomains
  resourceDomains : manifest.policy.resourceDomains = config.policy.resourceDomains
  frameDomains : manifest.policy.frameDomains = config.policy.frameDomains
  redirectDomains : manifest.policy.redirectDomains = config.policy.redirectDomains
  prefersBorder : manifest.widgetSettings.prefersBorder = config.widget.prefersBorder
  domain : manifest.widgetSettings.domain = config.widget.domain
  widgetDescription : manifest.widgetSettings.description = config.widget.description
  /-- There are labels of invocations if some are configured, and they are the same. -/
  invocation :
    manifest.labels.toolInvocation.map (fun labels => (labels.invoking, labels.invoked)) =
      config.labels.toolInvocation.map fun labels => (labels.invoking, labels.invoked)

/-- The operations, the settings and the place that a manifest shows are those
that it is assembled from. -/
structure Manifest.AssembledFrom (manifest : Manifest) (operations : List OperationDescriptor)
    (config : ProjectConfig) (context : BuildContext) : Prop where
  operations : manifest.operations = operations
  name : manifest.name = config.name
  description : manifest.description = config.description
  settings : manifest.ShowsSettings config
  resource : context.resource config.entry = .ok manifest.resource
  prefetched : (manifest.operations.filter (·.prefetch)).length ≤ 1

theorem checkPrefetched_eq_ok {operations : List OperationDescriptor} :
    checkPrefetched operations = .ok () ↔ (operations.filter (·.prefetch)).length ≤ 1 := by
  simp only [checkPrefetched]
  split <;> simp_all

/-- An assembly that succeeds takes over everything as it is. -/
theorem assembledFrom_of_assemble {operations : List OperationDescriptor} {config : ProjectConfig}
    {context : BuildContext} {time : Nat} {manifest : Manifest}
    (h : assemble operations config context time = .ok manifest) :
    manifest.AssembledFrom operations config context := by
  obtain ⟨_, hcheck, h⟩ := bind_eq_ok.1 h
  obtain ⟨resource, hresource, h⟩ := bind_eq_ok.1 h
  obtain rfl := Except.ok.inj h
  have hinvocation : (config.labels.toolInvocation.map InvocationLabels.ofConfig).map
      (fun labels => (labels.invoking, labels.invoked)) =
      config.labels.toolInvocation.map fun labels => (labels.invoking, labels.invoked) := by
    rw [Option.map_map]
    rfl
  exact ⟨rfl, rfl, rfl, ⟨rfl, rfl, rfl, rfl, rfl, rfl, rfl, hinvocation⟩, hresource,
    checkPrefetched_eq_ok.1 hcheck⟩

/-! ## The index -/

/-- The operation at the position has the name, and no later one has. -/
def IsLastNamed (operations : List OperationDescriptor) (name : String) (position : Nat) : Prop :=
  (∃ operation, operations[position]? = some operation ∧ operation.name = name) ∧
    ∀ later operation, position < later → operations[later]? = some operation →
      operation.name ≠ name

theorem not_isLastNamed_nil (name : String) (position : Nat) : ¬IsLastNamed [] name position := by
  rintro ⟨⟨operation, hoperation, -⟩, -⟩
  simp at hoperation

/-- One more operation is the last one with its name, and changes nothing for
the other names. -/
theorem isLastNamed_append_singleton (operations : List OperationDescriptor)
    (last : OperationDescriptor) (name : String) (position : Nat) :
    IsLastNamed (operations ++ [last]) name position ↔
      if last.name = name then position = operations.length
      else IsLastNamed operations name position := by
  have hlast : (operations ++ [last])[operations.length]? = some last := by simp
  have hfront {i : Nat} (hi : i < operations.length) :
      (operations ++ [last])[i]? = operations[i]? := List.getElem?_append_left hi
  have hlength {i : Nat} {operation : OperationDescriptor}
      (h : (operations ++ [last])[i]? = some operation) : i < operations.length ∨
        i = operations.length ∧ operation = last := by
    obtain ⟨hi, -⟩ := List.getElem?_eq_some_iff.1 h
    rw [List.length_append, List.length_singleton] at hi
    rcases Nat.lt_or_ge i operations.length with hlt | hge
    · exact .inl hlt
    · obtain rfl : i = operations.length := by omega
      exact .inr ⟨rfl, by simpa using h.symm⟩
  split
  · rename_i hname
    constructor
    · rintro ⟨⟨operation, hoperation, -⟩, hlater⟩
      rcases hlength hoperation with hlt | ⟨heq, -⟩
      · exact absurd hname (hlater _ last hlt hlast)
      · exact heq
    · rintro rfl
      refine ⟨⟨last, hlast, hname⟩, fun later operation hlt hoperation => ?_⟩
      rcases hlength hoperation with h | ⟨h, -⟩ <;> omega
  · rename_i hname
    constructor
    · rintro ⟨⟨operation, hoperation, hsame⟩, hlater⟩
      rcases hlength hoperation with hlt | ⟨-, rfl⟩
      · refine ⟨⟨operation, (hfront hlt).symm.trans hoperation, hsame⟩, ?_⟩
        intro later other hbehind hother
        obtain ⟨hbound, -⟩ := List.getElem?_eq_some_iff.1 hother
        exact hlater later other hbehind ((hfront hbound).trans hother)
      · exact absurd hsame hname
    · rintro ⟨⟨operation, hoperation, hsame⟩, hlater⟩
      obtain ⟨hbound, -⟩ := List.getElem?_eq_some_iff.1 hoperation
      refine ⟨⟨operation, (hfront hbound).trans hoperation, hsame⟩, ?_⟩
      intro later other hbehind hother
      rcases hlength hother with hlt | ⟨-, rfl⟩
      · exact hlater later other hbehind ((hfront hlt).symm.trans hother)
      · exact hname

/-- A name that some operation has is the last at some position. -/
theorem exists_isLastNamed {operations : List OperationDescriptor} {name : String}
    (h : ∃ operation ∈ operations, operation.name = name) :
    ∃ position, IsLastNamed operations name position := by
  induction operations using List.reverseRecOn with
  | nil => simp at h
  | append_singleton operations last ih =>
    simp only [isLastNamed_append_singleton]
    split
    · exact ⟨_, rfl⟩
    · rename_i hname
      obtain ⟨operation, hmem, hnamed⟩ := h
      rcases List.mem_append.1 hmem with hfront | hlast
      · exact ih ⟨operation, hfront, hnamed⟩
      · obtain rfl := List.mem_singleton.1 hlast
        exact absurd hnamed hname

/-- The index has the last position of each name that an operation has, and no
other names. -/
def Manifest.Indexed (manifest : Manifest) : Prop :=
  ∀ name position, manifest.index[name]? = some position ↔
    IsLastNamed manifest.operations name position

/-- Building the index again changes nothing. -/
@[simp]
theorem Manifest.reindex_reindex (manifest : Manifest) :
    manifest.reindex.reindex = manifest.reindex := rfl

/-- An index that is built anew is that of the operations, whatever it was
before. -/
theorem Manifest.indexed_reindex (manifest : Manifest) : manifest.reindex.Indexed := by
  intro name position
  simp only [reindex]
  induction manifest.operations using List.reverseRecOn generalizing position with
  | nil => simpa using not_isLastNamed_nil name position
  | append_singleton operations last ih =>
    rw [isLastNamed_append_singleton, List.zipIdx_append, List.map_append,
      Std.ExtTreeMap.ofList_eq_insertMany_empty, Std.ExtTreeMap.insertMany_append,
      ← Std.ExtTreeMap.ofList_eq_insertMany_empty]
    simp only [List.zipIdx_singleton, Nat.zero_add, List.map_singleton,
      Std.ExtTreeMap.insertMany_list_singleton, Std.ExtTreeMap.getElem?_insert,
      Std.LawfulEqCmp.compare_eq_iff_eq]
    split
    · simp [eq_comm]
    · exact ih position

/-- Where building the index again would change nothing, it is that of the
operations. -/
theorem Manifest.indexed_of_reindex {manifest : Manifest} (h : manifest.reindex = manifest) :
    manifest.Indexed := by
  rw [← h]
  exact manifest.indexed_reindex

theorem Manifest.reindex_of_assemble {operations : List OperationDescriptor}
    {config : ProjectConfig} {context : BuildContext} {time : Nat} {manifest : Manifest}
    (h : assemble operations config context time = .ok manifest) : manifest.reindex = manifest := by
  obtain ⟨-, -, h⟩ := bind_eq_ok.1 h
  obtain ⟨resource, -, h⟩ := bind_eq_ok.1 h
  obtain rfl := Except.ok.inj h
  rfl

/-! ## The order of operations -/

/-- A cache lists the operations of its entries by the order of their keys, each
entry once and with its operations in their order. -/
theorem SourceCache.operations_listed (cache : SourceCache) :
    ∃ files : List (List Path.Component × CacheEntry),
      files.Pairwise (fun a b => compare a.1 b.1 = .lt) ∧
      (∀ key entry, (key, entry) ∈ files ↔ cache.entries[key]? = some entry) ∧
      cache.operations = files.flatMap (·.2.operations) :=
  ⟨cache.entries.toList, Std.ExtTreeMap.ordered_keys_toList,
    fun _ _ => Std.ExtTreeMap.mem_toList_iff_getElem?_eq_some, rfl⟩

end OpManifest
