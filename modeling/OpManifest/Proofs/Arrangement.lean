import Mathlib.Data.String.Basic
import OpManifest.Proofs.Glob
import OpManifest.Proofs.OperationText

/-!
# How a canonical document is arranged

The canonical form of a document loses nothing of it but the directives that
speak to the compiler (`canonical_arranged`): its definitions are those of the
document, stripped of these directives and in an order that is fixed by their
groups and names.  So the canonical form of a canonical form is that form itself,
and what is published of it is what was published of the document, but for the
tools and the prefetching (`describeOperation_canonical`).
-/

namespace OpManifest

open GraphQL (Definition Directive Document Fragment Operation OperationKind Selection
  VariableDefinition)

/-! ## The order of bytes -/

namespace Glob

theorem ofNat_lt_ofNat {m n : Nat} (hm : m < 256) (hn : n < 256) :
    UInt8.ofNat m < UInt8.ofNat n ↔ m < n := by
  rw [UInt8.lt_iff_toNat_lt, UInt8.toNat_ofNat_of_lt' hm, UInt8.toNat_ofNat_of_lt' hn]

theorem ofNat_eq_ofNat {m n : Nat} (hm : m < 256) (hn : n < 256) :
    UInt8.ofNat m = UInt8.ofNat n ↔ m = n := by
  rw [← UInt8.toNat_inj, UInt8.toNat_ofNat_of_lt' hm, UInt8.toNat_ofNat_of_lt' hn]

theorem bytesOf_ne_nil (c : Char) : bytesOf c ≠ [] := by
  unfold bytesOf String.utf8EncodeChar
  dsimp only
  split_ifs <;> simp

/-- The bytes of a lesser character are less, whatever follows them. -/
theorem bytesOf_lt {c d : Char} (h : c < d) (front back : List UInt8) :
    bytesOf c ++ front < bytesOf d ++ back := by
  have hcode : c.val.toNat < d.val.toNat := h
  have hlimit : d.val.toNat < 0x110000 := by
    rcases d.valid with hlow | hhigh <;> omega
  -- the bytes are digits to the base 64, so that each place is the quotient of the next
  have hthird (code : Nat) : code / 4096 = code / 64 / 64 := by omega
  have hfourth (code : Nat) : code / 262144 = code / 64 / 64 / 64 := by omega
  unfold bytesOf String.utf8EncodeChar
  generalize c.val.toNat = m at hcode
  generalize d.val.toNat = n at hcode hlimit
  simp only [hthird, hfourth]
  split_ifs <;>
  · simp only [List.cons_append, List.nil_append, List.cons_lt_cons_iff]
    simp (disch := omega) only [ofNat_lt_ofNat, ofNat_eq_ofNat]
    omega

theorem toUTF8_lt {one two : String} (h : one < two) :
    one.toUTF8.toList < two.toUTF8.toList := by
  rw [String.lt_iff] at h
  rw [toUTF8_toList, toUTF8_toList]
  generalize one.toList = front at h
  generalize two.toList = back at h
  induction h with
  | @nil c cs =>
    obtain ⟨first, rest, hbytes⟩ := List.exists_cons_of_ne_nil (bytesOf_ne_nil c)
    rw [List.flatMap_cons, hbytes, List.flatMap_nil, List.cons_append]
    exact List.nil_lt_cons first _
  | cons _ ih =>
    rw [List.flatMap_cons, List.flatMap_cons]
    exact List.append_left_lt ih
  | rel hlt =>
    rw [List.flatMap_cons, List.flatMap_cons]
    exact bytesOf_lt hlt _ _

/-- The order of texts is that of their bytes. -/
theorem toUTF8_le {one two : String} (h : one ≤ two) :
    one.toUTF8.toList ≤ two.toUTF8.toList := by
  rcases h.lt_or_eq with hlt | rfl
  · exact List.le_of_lt (toUTF8_lt hlt)
  · exact List.le_refl _

end Glob

/-! ## Stripped definitions -/

/-- The second definition is the first without the directives `@tool` and
`@prefetch` on its operation. -/
inductive Stripped : Definition → Definition → Prop where
  | shorthand (selections : List Selection) :
    Stripped (.shorthand selections) (.shorthand selections)
  | operation (kind : OperationKind) (name : Option String) (definitions : List VariableDefinition)
    (directives : List Directive) (selections : List Selection) :
    Stripped (.operation ⟨kind, name, definitions, directives, selections⟩)
      (.operation ⟨kind, name, definitions,
        directives.filter fun directive => directive.name ∉ ["tool", "prefetch"], selections⟩)
  | fragment (fragment : Fragment) : Stripped (.fragment fragment) (.fragment fragment)

theorem stripped_withoutCompilerDirectives (definition : Definition) :
    Stripped definition (withoutCompilerDirectives definition) := by
  cases definition with
  | shorthand selections => exact .shorthand selections
  | fragment fragment => exact .fragment fragment
  | operation o =>
    have hkept : o.directives.filter (!isCompilerDirective ·) =
        o.directives.filter fun directive => directive.name ∉ ["tool", "prefetch"] := by
      refine List.filter_congr fun directive _ => ?_
      show (!(decide (directive.name = "tool") || decide (directive.name = "prefetch"))) = _
      simp
    simp only [withoutCompilerDirectives, hkept]
    exact .operation o.kind o.name o.variableDefinitions o.directives o.selections

@[simp]
theorem name?_withoutCompilerDirectives (definition : Definition) :
    (withoutCompilerDirectives definition).name? = definition.name? := by
  cases definition <;> rfl

/-! ## The order of definitions -/

/-- The first definition may stand somewhere before the second. -/
structure MayPrecede (a b : Definition) : Prop where
  /-- Operations come before fragments. -/
  group : b.isOperation = true → a.isOperation = true
  /-- The names of a group do not decrease, byte by byte. -/
  names : a.isOperation = b.isOperation → ∀ one ∈ a.name?, ∀ other ∈ b.name?,
    one.toUTF8.toList ≤ other.toUTF8.toList
  /-- Operations without a name come first. -/
  anonymous : b.isOperation = true → b.name? = none → ∀ name ∈ a.name?, name = ""

theorem sortKey_eq_iff {a : Definition} {isOperation : Bool} {name : String} :
    sortKey a = (if isOperation then 0 else 1, name) ↔
      a.isOperation = isOperation ∧ a.name?.getD "" = name := by
  rw [sortKey, Prod.mk.injEq]
  cases a.isOperation <;> cases isOperation <;> simp

theorem eq_empty_of_le {name : String} (h : name ≤ "") : name = "" := by
  by_contra hne
  apply h
  obtain ⟨first, rest, hname⟩ := List.exists_cons_of_ne_nil (String.toList_eq_nil_iff.not.2 hne)
  rw [String.lt_iff, hname]
  exact List.nil_lt_cons first rest

theorem mayPrecede_of_precedes {a b : Definition} (h : precedes a b = true) : MayPrecede a b := by
  rw [precedes_iff] at h
  simp only [sortKey] at h
  have hgroup : b.isOperation = true → a.isOperation = true := by
    intro hb
    rw [hb] at h
    cases ha : a.isOperation with
    | true => rfl
    | false => simp [ha] at h
  have hnames (hsame : a.isOperation = b.isOperation) : a.name?.getD "" ≤ b.name?.getD "" := by
    rw [hsame] at h
    exact (h.resolve_left (lt_irrefl _)).2
  refine ⟨hgroup, fun hsame one hone other hother => ?_, fun hb hnone name hname => ?_⟩
  · have hle := hnames hsame
    rw [Option.mem_def.1 hone, Option.mem_def.1 hother] at hle
    exact Glob.toUTF8_le hle
  · have hle := hnames ((hgroup hb).trans hb.symm)
    rw [hnone, Option.mem_def.1 hname] at hle
    exact eq_empty_of_le hle

theorem pairwise_canonical (document : Document) :
    (canonical document).definitions.Pairwise (precedes · · = true) :=
  List.pairwise_mergeSort precedes_trans precedes_total _

/-- The names of a document that is parsed are not empty. -/
theorem name?_ne_empty_of_parse {text : String} {document : Document}
    (h : Document.parse text = .ok document) : ∀ a ∈ document.definitions, a.name? ≠ some "" := by
  have hempty : ¬GraphQL.IsName "" := by decide
  intro a ha hname
  have hfits := (GraphQL.fits_of_parse h).definitions a ha
  cases a with
  | shorthand => cases hname
  | operation o => exact hempty (Operation.Fits.name hfits "" hname)
  | fragment f =>
    have hfragment := Fragment.Fits.name hfits
    rw [Option.some.inj hname] at hfragment
    exact hempty hfragment

/-- **The canonical form.**  Its definitions are those of the document, each
stripped of the compiler's directives on its operation and left as it was in all
else.  Operations come before fragments and each group is in the order of its
names; definitions of one group and name keep their order.  If no name is empty, as
in every document that is parsed (`name?_ne_empty_of_parse`), operations without a
name come before all others. -/
theorem canonical_arranged (document : Document) :
    ∃ stripped, List.Forall₂ Stripped document.definitions stripped ∧
      (canonical document).definitions.Perm stripped ∧
      (canonical document).definitions.Pairwise MayPrecede ∧
      (∀ (isOperation : Bool) (name : String),
        (canonical document).definitions.filter
            (fun a => a.isOperation = isOperation ∧ a.name?.getD "" = name) =
          stripped.filter fun a => a.isOperation = isOperation ∧ a.name?.getD "" = name) ∧
      ((∀ a ∈ document.definitions, a.name? ≠ some "") →
        (canonical document).definitions.Pairwise fun a b =>
          b.isOperation = true → b.name? = none → a.isOperation = true ∧ a.name? = none) := by
  have hordered : (canonical document).definitions.Pairwise MayPrecede :=
    (pairwise_canonical document).imp mayPrecede_of_precedes
  refine ⟨document.definitions.map withoutCompilerDirectives, ?_, List.mergeSort_perm _ _,
    hordered, fun isOperation name => ?_, fun hnames => ?_⟩
  · rw [List.forall₂_map_right_iff, List.forall₂_same]
    exact fun definition _ => stripped_withoutCompilerDirectives definition
  · show ((document.definitions.map withoutCompilerDirectives).mergeSort precedes).filter _ = _
    simp only [← sortKey_eq_iff]
    exact filter_mergeSort precedes_trans precedes_total precedes_of_sortKey_eq _ _
  · refine hordered.imp_of_mem fun {a b} ha _ hab hb hnone => ⟨hab.group hb, ?_⟩
    obtain ⟨written, hwritten, rfl⟩ := mem_canonical.1 ha
    cases hname : (withoutCompilerDirectives written).name? with
    | none => rfl
    | some name =>
      obtain rfl := hab.anonymous hb hnone name hname
      rw [name?_withoutCompilerDirectives] at hname
      exact absurd hname (hnames written hwritten)

/-- A document of every kind of definition. -/
def mixedDocument : Document :=
  ⟨[titleFragment, productQuery [⟨"tool", []⟩, ⟨"cached", []⟩, ⟨"prefetch", []⟩],
    .operation ⟨.mutation, some "Add", [], [], [.field none "add" [] [⟨"tool", []⟩] []]⟩,
    .fragment ⟨"Title", "Shop", [⟨"prefetch", []⟩], []⟩, .shorthand [],
    .operation ⟨.subscription, none, [], [⟨"prefetch", []⟩], []⟩]⟩

/-- The bare selections and the nameless subscription come first, the two
fragments with one name keep their order, and on fields and fragments the
directives stay. -/
theorem canonical_arranged_mixed :
    (canonical mixedDocument).definitions.Pairwise MayPrecede ∧
      ((canonical mixedDocument).definitions.Pairwise fun a b =>
        b.isOperation = true → b.name? = none → a.isOperation = true ∧ a.name? = none) ∧
      (canonical mixedDocument).definitions =
        [.shorthand [], .operation ⟨.subscription, none, [], [], []⟩,
          .operation ⟨.mutation, some "Add", [], [], [.field none "add" [] [⟨"tool", []⟩] []]⟩,
          productQuery [⟨"cached", []⟩], titleFragment,
          .fragment ⟨"Title", "Shop", [⟨"prefetch", []⟩], []⟩] := by
  obtain ⟨-, -, -, hordered, -, hanonymous⟩ := canonical_arranged mixedDocument
  have hnames : ∀ a ∈ mixedDocument.definitions, a.name? ≠ some "" := by
    simp [mixedDocument, titleFragment, productQuery, Definition.name?]
  refine ⟨hordered, hanonymous hnames, ?_⟩
  simp [canonical, mixedDocument, productQuery, titleFragment, withoutCompilerDirectives,
    isCompilerDirective, toolDirective, prefetchDirective, List.mergeSort,
    List.MergeSort.Internal.splitInTwo, precedes, sortKey, Definition.isOperation, Definition.name?]

/-! ## The canonical form of a canonical form -/

@[simp]
theorem withoutCompilerDirectives_idem (definition : Definition) :
    withoutCompilerDirectives (withoutCompilerDirectives definition) =
      withoutCompilerDirectives definition := by
  cases definition with
  | shorthand | fragment => rfl
  | operation o => simp [withoutCompilerDirectives]

theorem canonical_canonical (document : Document) :
    canonical (canonical document) = canonical document := by
  have hstripped : (canonical document).definitions.map withoutCompilerDirectives =
      (canonical document).definitions := by
    refine List.map_congr_left (fun definition hdefinition => ?_) |>.trans (List.map_id _)
    obtain ⟨written, -, rfl⟩ := mem_canonical.1 hdefinition
    exact withoutCompilerDirectives_idem written
  rw [canonical, hstripped, List.mergeSort_of_pairwise (pairwise_canonical document)]

/-- The operation of a canonical form has no tools and is not prefetched. -/
theorem toolDirectives_canonicalOperation (operation : Operation) :
    toolDirectives (canonicalOperation operation) = [] := by
  rw [toolDirectives, canonicalOperation, List.filter_filter, List.filter_eq_nil_iff]
  intro directive _
  cases htool : decide (directive.name = toolDirective) <;> simp [isCompilerDirective, htool]

theorem not_prefetch_canonicalOperation (operation : Operation) :
    (canonicalOperation operation).directives.any (·.name = prefetchDirective) = false := by
  rw [canonicalOperation, List.any_filter, List.any_eq_false]
  intro directive _
  simp [isCompilerDirective]

/-- **What is compiled again.**  The canonical form of a canonical form is that
form itself.  If a document has a descriptor then its canonical form has the same,
but that it is not prefetched and has no tools. -/
theorem describeOperation_canonical (document : Document) :
    canonical (canonical document) = canonical document ∧
      ∀ descriptor, describeOperation document = .ok descriptor →
        describeOperation (canonical document) =
          .ok { descriptor with prefetch := false, prefetchId := none, tools := [] } := by
  refine ⟨canonical_canonical document, fun descriptor h => ?_⟩
  obtain ⟨operation, type, name, tools, hoperations, htype, hname, -, rfl⟩ :=
    describeOperation_iff.1 h
  refine describeOperation_iff.2 ⟨canonicalOperation operation, type, name, [],
    operations_canonical hoperations, htype, hname, ?_, ?_⟩
  · rw [toolDirectives_canonicalOperation]
    rfl
  · simp only [descriptorOf, canonical_canonical, not_prefetch_canonicalOperation]
    rfl

/-- A query with a tool that is prefetched, after its fragment. -/
def toolDocument : Document :=
  ⟨[titleFragment, productQuery [⟨"tool", [("name", .string "list"),
    ("description", .string "List products")]⟩, ⟨"prefetch", []⟩]]⟩

theorem describeOperation_canonical_toolDocument :
    ∃ descriptor, describeOperation toolDocument = .ok descriptor ∧
      descriptor.prefetch = true ∧ descriptor.tools.map (·.name) = ["list"] ∧
      describeOperation (canonical toolDocument) =
        .ok { descriptor with prefetch := false, prefetchId := none, tools := [] } := by
  have hfacts : (describeOperation toolDocument).toOption.any (fun descriptor =>
      descriptor.prefetch ∧ descriptor.tools.map (·.name) = ["list"]) = true := by
    decide +kernel
  obtain ⟨descriptor, hdescribed, hfacts⟩ := exists_ok_of_any hfacts
  obtain ⟨hprefetch, htools⟩ := of_decide_eq_true hfacts
  exact ⟨descriptor, hdescribed, hprefetch, htools,
    (describeOperation_canonical toolDocument).2 descriptor hdescribed⟩

end OpManifest
