import Mathlib.Data.List.Forall2
import OpManifest.Operation.Compile
import OpManifest.Proofs.Failure

/-!
# The canonical text of an operation

Documents that say the same in another order have one canonical form.  A stable
sort is determined by its keys: two lists that agree on the items of every key
are sorted alike (`mergeSort_eq_of_filter`).  What the compiler's directives say
is lost before that.  So the canonical text, its name and everything else that
is published of an operation, but for the tools and the prefetching, do not
depend on either (`describeOperation_rearranged`).
-/

namespace OpManifest

open GraphQL (Definition Directive Document Operation)

/-! ## Stable sorting -/

section Sorting

variable {α κ : Type} [DecidableEq κ] {key : α → κ} {le : α → α → Bool}

/-- A sorted list is determined by the items of each key, in their order. -/
theorem eq_of_pairwise_of_filter (hantisymm : ∀ a b, le a b = true → le b a = true → key a = key b)
    (hrefl : ∀ a, le a a = true) {first second : List α}
    (hfirst : first.Pairwise (le · · = true)) (hsecond : second.Pairwise (le · · = true))
    (h : ∀ k, first.filter (key · = k) = second.filter (key · = k)) : first = second := by
  have hmem {first second : List α} (h : ∀ k, first.filter (key · = k) = second.filter (key · = k))
      {a : α} (ha : a ∈ first) : a ∈ second := by
    have hin : a ∈ first.filter (key · = key a) := by simp [ha]
    rw [h] at hin
    exact (List.mem_filter.1 hin).1
  induction first generalizing second with
  | nil =>
    cases second with
    | nil => rfl
    | cons b second => exact absurd (hmem (fun k => (h k).symm) List.mem_cons_self) List.not_mem_nil
  | cons a first ih =>
    cases second with
    | nil => exact absurd (hmem h List.mem_cons_self) List.not_mem_nil
    | cons b second =>
      -- the least items have one key, and of the items of that key they are the first
      have hab : le a b = true := by
        rcases List.mem_cons.1 (hmem (fun k => (h k).symm) List.mem_cons_self) with hsame | hlater
        · rw [hsame]
          exact hrefl a
        · exact (List.pairwise_cons.1 hfirst).1 b hlater
      have hba : le b a = true := by
        rcases List.mem_cons.1 (hmem h List.mem_cons_self) with hsame | hlater
        · rw [hsame]
          exact hrefl b
        · exact (List.pairwise_cons.1 hsecond).1 a hlater
      have hkey := hantisymm a b hab hba
      have hheads := h (key a)
      rw [List.filter_cons_of_pos (by simp), List.filter_cons_of_pos (by simp [hkey])] at hheads
      have hhead : a = b := (List.cons.inj hheads).1
      subst hhead
      rw [ih (List.pairwise_cons.1 hfirst).2 (List.pairwise_cons.1 hsecond).2 fun k => ?_]
      have hall := h k
      by_cases hk : key a = k
      · rw [List.filter_cons_of_pos (by simpa using hk),
          List.filter_cons_of_pos (by simpa using hk)] at hall
        exact (List.cons.inj hall).2
      · rwa [List.filter_cons_of_neg (by simpa using hk),
          List.filter_cons_of_neg (by simpa using hk)] at hall

/-- A stable sort keeps the items of each key as they are. -/
theorem filter_mergeSort (htrans : ∀ a b c, le a b = true → le b c = true → le a c = true)
    (htotal : ∀ a b, (le a b || le b a) = true)
    (hequal : ∀ a b, key a = key b → le a b = true) (l : List α) (k : κ) :
    (l.mergeSort le).filter (key · = k) = l.filter (key · = k) := by
  have hsorted : (l.filter (key · = k)).Pairwise (le · · = true) := by
    refine List.pairwise_of_forall_mem_list fun a ha b hb => hequal a b ?_
    have hka : key a = k := by simpa using (List.mem_filter.1 ha).2
    have hkb : key b = k := by simpa using (List.mem_filter.1 hb).2
    rw [hka, hkb]
  have hsub := (List.sublist_mergeSort htrans htotal hsorted List.filter_sublist).filter (key · = k)
  rw [List.filter_filter] at hsub
  simp only [Bool.and_self] at hsub
  refine (hsub.eq_of_length ?_).symm
  exact ((List.mergeSort_perm l le).filter _).length_eq.symm

/-- Lists that agree on the items of every key are sorted alike. -/
theorem mergeSort_eq_of_filter
    (htrans : ∀ a b c, le a b = true → le b c = true → le a c = true)
    (htotal : ∀ a b, (le a b || le b a) = true)
    (hequal : ∀ a b, key a = key b → le a b = true)
    (hantisymm : ∀ a b, le a b = true → le b a = true → key a = key b) {first second : List α}
    (h : ∀ k, first.filter (key · = k) = second.filter (key · = k)) :
    first.mergeSort le = second.mergeSort le := by
  refine eq_of_pairwise_of_filter hantisymm (fun a => hequal a a rfl)
    (List.pairwise_mergeSort htrans htotal first) (List.pairwise_mergeSort htrans htotal second)
    fun k => ?_
  rw [filter_mergeSort htrans htotal hequal, filter_mergeSort htrans htotal hequal, h]

end Sorting

/-! ## The order of definitions -/

theorem precedes_iff {a b : Definition} :
    precedes a b = true ↔ (sortKey a).1 < (sortKey b).1 ∨
      (sortKey a).1 = (sortKey b).1 ∧ (sortKey a).2 ≤ (sortKey b).2 := by
  simp [precedes]

theorem precedes_trans (a b c : Definition) (hab : precedes a b = true)
    (hbc : precedes b c = true) : precedes a c = true := by
  rw [precedes_iff] at hab hbc ⊢
  rcases hab with hab | ⟨hab, hnames⟩ <;> rcases hbc with hbc | ⟨hbc, hmore⟩
  · exact .inl (by omega)
  · exact .inl (by omega)
  · exact .inl (by omega)
  · exact .inr ⟨by omega, String.le_trans hnames hmore⟩

theorem precedes_total (a b : Definition) : (precedes a b || precedes b a) = true := by
  rw [Bool.or_eq_true, precedes_iff, precedes_iff]
  rcases Nat.lt_trichotomy (sortKey a).1 (sortKey b).1 with hlt | heq | hgt
  · exact .inl (.inl hlt)
  · rcases String.le_total (sortKey a).2 (sortKey b).2 with hle | hge
    · exact .inl (.inr ⟨heq, hle⟩)
    · exact .inr (.inr ⟨heq.symm, hge⟩)
  · exact .inr (.inl hgt)

theorem precedes_of_sortKey_eq (a b : Definition) (h : sortKey a = sortKey b) :
    precedes a b = true := by
  rw [precedes_iff, h]
  exact .inr ⟨rfl, String.le_refl _⟩

theorem sortKey_eq_of_precedes (a b : Definition) (hab : precedes a b = true)
    (hba : precedes b a = true) : sortKey a = sortKey b := by
  rw [precedes_iff] at hab hba
  have hgroup : (sortKey a).1 = (sortKey b).1 := by omega
  have hname : (sortKey a).2 = (sortKey b).2 := by
    apply String.le_antisymm
    · exact (hab.resolve_left (by omega)).2
    · exact (hba.resolve_left (by omega)).2
  exact Prod.ext hgroup hname

@[simp]
theorem sortKey_withoutCompilerDirectives (definition : Definition) :
    sortKey (withoutCompilerDirectives definition) = sortKey definition := by
  cases definition <;> rfl

/-! ## Documents that say the same -/

/-- The definitions are the same, but for the compiler's directives on an
operation. -/
inductive Alike : Definition → Definition → Prop where
  | same (definition : Definition) : Alike definition definition
  | operation (a b : Operation) (hkind : a.kind = b.kind) (hname : a.name = b.name)
    (hvariables : a.variableDefinitions = b.variableDefinitions)
    (hdirectives : a.directives.filter (!isCompilerDirective ·) =
      b.directives.filter (!isCompilerDirective ·))
    (hselections : a.selections = b.selections) : Alike (.operation a) (.operation b)

theorem Alike.withoutCompilerDirectives_eq {a b : Definition} (h : Alike a b) :
    withoutCompilerDirectives a = withoutCompilerDirectives b := by
  cases h with
  | same => rfl
  | operation a b hkind hname hvariables hdirectives hselections =>
    simp [withoutCompilerDirectives, hkind, hname, hvariables, hdirectives, hselections]

/-- The second document has the definitions of the first in another order, but
for the compiler's directives.  Definitions of one group and name keep their
order. -/
def Rearranged (a b : Document) : Prop :=
  ∃ moved : List Definition, moved.Perm a.definitions ∧
    (∀ key, moved.filter (sortKey · = key) = a.definitions.filter (sortKey · = key)) ∧
    List.Forall₂ Alike moved b.definitions

/-- The canonical form of a document does not depend on the order of its
definitions, nor on the compiler's directives. -/
theorem canonical_eq_of_rearranged {a b : Document} (h : Rearranged a b) :
    canonical a = canonical b := by
  obtain ⟨moved, -, hmoved, halike⟩ := h
  have hstripped : b.definitions.map withoutCompilerDirectives =
      moved.map withoutCompilerDirectives := by
    clear hmoved
    generalize b.definitions = definitions at halike
    induction halike with
    | nil => rfl
    | cons hhead _ ih => rw [List.map_cons, List.map_cons, ih, hhead.withoutCompilerDirectives_eq]
  have hfilter (key : Nat × String) (definitions : List Definition) :
      (definitions.map withoutCompilerDirectives).filter (sortKey · = key) =
        (definitions.filter (sortKey · = key)).map withoutCompilerDirectives := by
    rw [List.filter_map]
    simp [Function.comp_def]
  rw [canonical, canonical, hstripped]
  congr 1
  refine mergeSort_eq_of_filter precedes_trans precedes_total precedes_of_sortKey_eq
    sortKey_eq_of_precedes fun key => ?_
  rw [hfilter, hfilter, hmoved]

/-! ## Descriptors -/

/-- The operation as it stands in the canonical form. -/
def canonicalOperation (o : Operation) : Operation :=
  { o with directives := o.directives.filter (!isCompilerDirective ·) }

theorem operationOf?_withoutCompilerDirectives (definition : Definition) :
    operationOf? (withoutCompilerDirectives definition) =
      (operationOf? definition).map canonicalOperation := by
  cases definition <;> rfl

/-- The operation of a document is that of its canonical form. -/
theorem operations_canonical {document : Document} {operation : Operation}
    (h : document.definitions.filterMap operationOf? = [operation]) :
    (canonical document).definitions.filterMap operationOf? = [canonicalOperation operation] := by
  have hperm := (List.mergeSort_perm (document.definitions.map withoutCompilerDirectives)
    precedes).filterMap operationOf?
  have hmap : (document.definitions.map withoutCompilerDirectives).filterMap operationOf? =
      [canonicalOperation operation] := by
    rw [List.filterMap_map]
    have hcomp : operationOf? ∘ withoutCompilerDirectives =
        fun definition => (operationOf? definition).map canonicalOperation :=
      funext operationOf?_withoutCompilerDirectives
    rw [hcomp, ← List.map_filterMap, h]
    rfl
  rw [hmap] at hperm
  exact List.perm_singleton.1 hperm

/-- The name that an operation has to have. -/
def declaredName (operation : Operation) : Except CompileError String :=
  match operation.name with
  | some name => .ok name
  | none => .error .anonymousOperation

theorem declaredName_eq_ok {operation : Operation} {name : String} :
    declaredName operation = .ok name ↔ operation.name = some name := by
  unfold declaredName
  cases operation.name <;> simp

/-- The directives of an operation that declare its tools. -/
def toolDirectives (operation : Operation) : List Directive :=
  operation.directives.filter (·.name = toolDirective)

/-- What is published of the operation of a document that passed all checks. -/
def descriptorOf (document : Document) (operation : Operation) (type : OperationType)
    (name : String) (tools : List ToolSpec) : OperationDescriptor :=
  let prefetch := operation.directives.any (·.name = prefetchDirective)
  { id := contentId (canonical document).print
    name
    type
    body := (canonical document).print
    variableTypes := typesOf operation.variableDefinitions
    prefetch
    prefetchId := if prefetch then some prefetchSlot else none
    tools }

/-- The operation of a document is checked for its kind, its name and its tools. -/
theorem describeOperation_of_operation {document : Document} {operation : Operation}
    (h : document.definitions.filterMap operationOf? = [operation]) :
    describeOperation document = (do
      let type ← publishedType operation.kind
      let name ← declaredName operation
      let tools ← (toolDirectives operation).mapM compileTool
      return descriptorOf document operation type name tools) := by
  unfold describeOperation declaredName
  simp only [h]
  cases publishedType operation.kind with
  | error cause => rfl
  | ok type => cases operation.name <;> rfl

/-- Exactly the documents with one operation that passes its checks have a
descriptor. -/
theorem describeOperation_iff {document : Document} {descriptor : OperationDescriptor} :
    describeOperation document = .ok descriptor ↔
      ∃ operation type name tools, document.definitions.filterMap operationOf? = [operation] ∧
        publishedType operation.kind = .ok type ∧ operation.name = some name ∧
        (toolDirectives operation).mapM compileTool = .ok tools ∧
        descriptor = descriptorOf document operation type name tools := by
  constructor
  · intro h
    cases hoperations : document.definitions.filterMap operationOf? with
    | nil =>
      simp only [describeOperation, hoperations] at h
      cases h
    | cons operation others =>
      cases others with
      | cons second others =>
        simp only [describeOperation, hoperations] at h
        cases h
      | nil =>
        rw [describeOperation_of_operation hoperations] at h
        obtain ⟨type, htype, h⟩ := bind_eq_ok.1 h
        obtain ⟨name, hname, h⟩ := bind_eq_ok.1 h
        obtain ⟨tools, htools, h⟩ := bind_eq_ok.1 h
        exact ⟨operation, type, name, tools, rfl, htype, declaredName_eq_ok.1 hname, htools,
          (Except.ok.inj h).symm⟩
  · rintro ⟨operation, type, name, tools, hoperations, htype, hname, htools, rfl⟩
    rw [describeOperation_of_operation hoperations]
    exact bind_eq_ok.2 ⟨type, htype, bind_eq_ok.2 ⟨name, declaredName_eq_ok.2 hname,
      bind_eq_ok.2 ⟨tools, htools, rfl⟩⟩⟩

/-- What a descriptor says of its document. -/
theorem describeOperation_eq_ok {document : Document} {descriptor : OperationDescriptor}
    (h : describeOperation document = .ok descriptor) :
    ∃ operation, document.definitions.filterMap operationOf? = [operation] ∧
      publishedType operation.kind = .ok descriptor.type ∧
      operation.name = some descriptor.name ∧
      descriptor.variableTypes = typesOf operation.variableDefinitions ∧
      descriptor.body = (canonical document).print ∧
      descriptor.id = contentId (canonical document).print := by
  obtain ⟨operation, type, name, tools, hoperations, htype, hname, -, rfl⟩ :=
    describeOperation_iff.1 h
  exact ⟨operation, hoperations, htype, hname, rfl, rfl, rfl⟩

/-- **Canonical operations.**  If two documents differ only in the order of
their definitions and in the compiler's directives, and both have a descriptor,
then these have the same canonical text and the same id, name, type and
variables. -/
theorem describeOperation_rearranged {a b : Document} {first second : OperationDescriptor}
    (h : Rearranged a b) (hfirst : describeOperation a = .ok first)
    (hsecond : describeOperation b = .ok second) :
    second.body = first.body ∧ second.id = first.id ∧ second.name = first.name ∧
      second.type = first.type ∧ second.variableTypes = first.variableTypes := by
  have hcanonical := canonical_eq_of_rearranged h
  obtain ⟨o, hin, htype, hname, hvariables, hbody, hid⟩ := describeOperation_eq_ok hfirst
  obtain ⟨o', hin', htype', hname', hvariables', hbody', hid'⟩ := describeOperation_eq_ok hsecond
  have hsame : canonicalOperation o = canonicalOperation o' := by
    have hlists := operations_canonical hin
    rw [hcanonical, operations_canonical hin'] at hlists
    exact (List.singleton_inj.1 hlists).symm
  have hkind : (canonicalOperation o).kind = (canonicalOperation o').kind := by rw [hsame]
  have hnames : (canonicalOperation o).name = (canonicalOperation o').name := by rw [hsame]
  have hdefinitions : (canonicalOperation o).variableDefinitions =
      (canonicalOperation o').variableDefinitions := by rw [hsame]
  simp only [canonicalOperation] at hkind hnames hdefinitions
  refine ⟨?_, ?_, ?_, ?_, ?_⟩
  · rw [hbody, hbody', hcanonical]
  · rw [hid, hid', hcanonical]
  · rw [hname, hname'] at hnames
    exact (Option.some.inj hnames).symm
  · rw [hkind, htype'] at htype
    exact Except.ok.inj htype
  · rw [hvariables, hvariables', hdefinitions]

/-- Two definitions that do not belong at one place may change places. -/
theorem rearranged_swap {a b other : Definition} (hkeys : sortKey a ≠ sortKey b)
    (halike : Alike b other) : Rearranged ⟨[a, b]⟩ ⟨[other, a]⟩ := by
  refine ⟨[b, a], .swap a b [], fun key => ?_, .cons halike (.cons (.same a) .nil)⟩
  by_cases ha : sortKey a = key
  · have hb : sortKey b ≠ key := fun hb => hkeys (ha.trans hb.symm)
    simp [ha, hb]
  · simp [List.filter_cons, ha]

/-- A query for products, with directives. -/
def productQuery (directives : List Directive) : Definition :=
  .operation ⟨.query, some "Products", [], directives,
    [.field none "products" [] [] [.spread "Title" []]]⟩

/-- The fragment that the query spreads. -/
def titleFragment : Definition :=
  .fragment ⟨"Title", "Product", [], [.field none "title" [] [] []]⟩

/-- A query that is prefetched after its fragment, and the query before the
fragment. -/
theorem describeOperation_productQuery :
    let a : Document := ⟨[titleFragment, productQuery [⟨prefetchDirective, []⟩, ⟨"cached", []⟩]]⟩
    let b : Document := ⟨[productQuery [⟨"cached", []⟩], titleFragment]⟩
    ∃ first second, Rearranged a b ∧ describeOperation a = .ok first ∧
      describeOperation b = .ok second ∧ second.prefetch ≠ first.prefetch ∧
      second.body = first.body ∧ second.id = first.id ∧ second.name = first.name ∧
        second.type = first.type ∧ second.variableTypes = first.variableTypes := by
  intro a b
  have hrearranged : Rearranged a b :=
    rearranged_swap (by decide) (.operation _ _ rfl rfl rfl (by simp [isCompilerDirective,
      toolDirective, prefetchDirective]) rfl)
  have hfacts : (describeOperation a).toOption.any (fun first =>
      (describeOperation b).toOption.any fun second => second.prefetch ≠ first.prefetch) =
        true := by
    decide +kernel
  cases hfirst : describeOperation a with
  | error e => simp [hfirst, Except.toOption] at hfacts
  | ok first =>
    cases hsecond : describeOperation b with
    | error e => simp [hfirst, hsecond, Except.toOption] at hfacts
    | ok second =>
      have hprefetch : second.prefetch ≠ first.prefetch := by
        simpa [hfirst, hsecond, Except.toOption] using hfacts
      exact ⟨first, second, hrearranged, rfl, rfl, hprefetch,
        describeOperation_rearranged hrearranged hfirst hsecond⟩

end OpManifest
