import Mathlib.Data.List.Perm.Basic
import Mathlib.Data.List.Sort
import OpManifest.Proofs.Call
import OpManifest.Proofs.Failure
import OpManifest.Script.Extractor

/-!
# The documents of a script

A script has a document for every literal of a tag.  They are listed by their
places, no two of them at the same, and each holds what its literal does outside
all substitutions (`documents_of_literals`).  A document is missing only if the
text of its literal cannot be cut out, and that does not happen to literals that
are complete.

All of this holds for any parser whose syntax trees are well formed, as those of
`SyntaxTree.ofText` are.
-/

namespace OpManifest.Script

open Text (IsPlace HasAt InOrder PartsAt gaps slice?)

/-- The literals of tags that a parser finds in a file. -/
def literalsOf (parse : Parser) (path : Path) (text : String) : List SyntaxTree :=
  match Language.ofPath? path with
  | none => []
  | some language => taggedLiterals text.toList (parse language text)

/-! ## The document of a literal -/

/-- The document stands where its literal begins with a delimiter, and its source is
what the gaps between the substitutions stand for, one after the other.  The gaps
are all that is outside the substitutions between the delimiters. -/
structure IsDocumentOf (text : List Char) (literal : SyntaxTree) (document : Embedded) : Prop where
  offset : document.offset = literal.start
  delimiter : ∃ c ∈ delimiters, HasAt text document.offset c
  ordered : InOrder (literal.start + 1) (literal.stop - 1) literal.substitutions
  source : ∃ parts,
    PartsAt text (gaps (literal.start + 1) (literal.stop - 1) literal.substitutions) parts ∧
      document.source.toList = parts.flatMap unescape
  outside : ∀ place, literal.start + 1 ≤ place → place < literal.stop - 1 →
    ((∃ gap ∈ gaps (literal.start + 1) (literal.stop - 1) literal.substitutions,
        gap.1 ≤ place ∧ place < gap.2) ↔
      ∀ range ∈ literal.substitutions, ¬(range.1 ≤ place ∧ place < range.2))

/-- The literal begins and ends with its delimiter, and its substitutions lie in
order between the two. -/
structure IsComplete (text : List Char) (literal : SyntaxTree) : Prop where
  delimited : ∃ c ∈ delimiters, HasAt text literal.start c ∧ HasAt text (literal.stop - 1) c
  inside : InOrder (literal.start + 1) (literal.stop - 1) literal.substitutions

instance (text : List Char) (literal : SyntaxTree) : Decidable (IsComplete text literal) :=
  decidable_of_iff
    ((delimiters.any fun c =>
        decide (HasAt text literal.start c ∧ HasAt text (literal.stop - 1) c)) = true ∧
      InOrder (literal.start + 1) (literal.stop - 1) literal.substitutions)
    ⟨fun h => ⟨by simpa using h.1, h.2⟩, fun h => ⟨by simpa using h.delimited, h.inside⟩⟩

section

variable {parse : Parser} {path : Path} {text : String} {literal : SyntaxTree}
  {document : Embedded} {documents : List Embedded}

theorem documentOf_eq_ok : documentOf path text literal = .ok document ↔
    ∃ source, literalText? text.toList literal = some source ∧
      document = ⟨.ofList source, literal.start⟩ := by
  unfold documentOf
  cases literalText? text.toList literal with
  | none => simp
  | some source => simp [eq_comm]

/-- The substitutions of a literal are parts of the text. -/
theorem places_of_substitutions (hwell : literal.WellFormed text.toList) :
    ∀ range ∈ literal.substitutions,
      IsPlace text.toList range.1 ∧ IsPlace text.toList range.2 ∧ range.1 ≤ range.2 := by
  intro range hrange
  obtain ⟨child, hchild, rfl⟩ := List.mem_map.1 hrange
  have hmem := (List.mem_filter.1 hchild).1
  have hfits := (hwell.of_mem hmem).fits
  exact ⟨hfits.start, hfits.stop, (hwell.fits.within hmem).2.1⟩

/-- What is made of a literal is its document. -/
theorem isDocumentOf_of_ok (hwell : literal.WellFormed text.toList)
    (hkind : literal.isLiteral = true) (h : documentOf path text literal = .ok document) :
    IsDocumentOf text.toList literal document := by
  obtain ⟨source, hsource, rfl⟩ := documentOf_eq_ok.1 h
  obtain ⟨parts, hparts, rfl⟩ := (hwell.fits.literalText?_eq_some hkind).1 hsource
  obtain ⟨⟨c, hc, rest, hslice⟩, -⟩ := hwell.fits.literal hkind
  have hordered := Text.inOrder_of_partsAt
    (fun range hrange => (places_of_substitutions hwell range hrange).2.2) hparts
  exact ⟨rfl, ⟨c, hc, (HasAt.of_slice? hslice).1⟩, hordered,
    ⟨parts, hparts, String.toList_ofList⟩, fun place hstart hstop =>
      Text.mem_gaps hordered hstart hstop⟩

/-- The delimiters take one byte each. -/
theorem utf8Size_of_mem_delimiters {c : Char} (hc : c ∈ delimiters) : c.utf8Size = 1 := by
  simp only [delimiters, List.mem_cons, List.not_mem_nil, or_false] at hc
  rcases hc with rfl | rfl | rfl <;> rfl

/-- Between the delimiters of a complete literal the text can be cut out. -/
theorem IsComplete.places (h : IsComplete text.toList literal) :
    IsPlace text.toList (literal.start + 1) ∧ IsPlace text.toList (literal.stop - 1) := by
  obtain ⟨c, hc, hstart, hstop⟩ := h.delimited
  have hnext := hstart.isPlace_add
  rw [utf8Size_of_mem_delimiters hc] at hnext
  exact ⟨hnext, hstop.isPlace⟩

/-- A complete literal has a document. -/
theorem IsComplete.exists_document (h : IsComplete text.toList literal)
    (hwell : literal.WellFormed text.toList) (hkind : literal.isLiteral = true) :
    ∃ document, documentOf path text literal = .ok document := by
  obtain ⟨hstart, hstop⟩ := h.places
  obtain ⟨parts, hparts⟩ := Text.exists_partsAt_gaps hstart hstop h.inside
    fun range hrange => ⟨(places_of_substitutions hwell range hrange).1,
      (places_of_substitutions hwell range hrange).2.1⟩
  exact ⟨_, documentOf_eq_ok.2
    ⟨_, (hwell.fits.literalText?_eq_some hkind).2 ⟨parts, hparts, rfl⟩, rfl⟩⟩

/-! ## The documents of a file -/

/-- The literals that are found are well formed, and no two begin at one place. -/
theorem literalsOf_wellFormed (path : Path)
    (hparse : ∀ language, (parse language text).WellFormed text.toList) :
    (∀ literal ∈ literalsOf parse path text,
        literal.WellFormed text.toList ∧ literal.isLiteral = true) ∧
      ((literalsOf parse path text).map SyntaxTree.start).Nodup := by
  unfold literalsOf
  cases Language.ofPath? path with
  | none => exact ⟨nofun, .nil⟩
  | some language =>
    refine ⟨fun literal hliteral => ?_, (hparse language).nodup_starts⟩
    obtain ⟨hwell, hkind, -⟩ := (hparse language).of_taggedLiteral hliteral
    exact ⟨hwell, hkind⟩

/-- A file has the documents of its literals, in the order of their places. -/
theorem extractWith_eq_ok : extractWith parse path text = .ok documents ↔
    ∃ found, (literalsOf parse path text).mapM (documentOf path text) = .ok found ∧
      documents = sortDocuments found := by
  unfold extractWith literalsOf
  cases Language.ofPath? path with
  | none => simp [pure, Except.pure, eq_comm, sortDocuments]
  | some language =>
    simp only [bind_eq_ok, pure, Except.pure, Except.ok.injEq]
    exact exists_congr fun found => and_congr Iff.rfl eq_comm

theorem offsets_of_forall₂ {literals : List SyntaxTree}
    (h : List.Forall₂ (IsDocumentOf text.toList) literals documents) :
    documents.map (·.offset) = literals.map SyntaxTree.start :=
  map_eq_map_of_forall₂ h fun _ _ _ hdocument => hdocument.offset

theorem insertDocument_eq (document : Embedded) (documents : List Embedded) :
    insertDocument document documents =
      documents.orderedInsert (fun a b => a.offset ≤ b.offset) document := by
  induction documents with
  | nil => rfl
  | cons other rest ih => rw [insertDocument, List.orderedInsert_cons, ih]

theorem sortDocuments_eq (documents : List Embedded) :
    sortDocuments documents = documents.insertionSort fun a b => a.offset ≤ b.offset := by
  induction documents with
  | nil => rfl
  | cons document documents ih =>
    rw [List.insertionSort_cons, ← ih, ← insertDocument_eq]
    rfl

theorem perm_sortDocuments (documents : List Embedded) :
    (sortDocuments documents).Perm documents := by
  rw [sortDocuments_eq]
  exact List.perm_insertionSort _ documents

/-- Documents at different places are listed by their places. -/
theorem pairwise_sortDocuments (h : (documents.map (·.offset)).Nodup) :
    (sortDocuments documents).Pairwise (·.offset < ·.offset) := by
  have : Std.Total fun a b : Embedded => a.offset ≤ b.offset :=
    ⟨fun a b => Nat.le_total a.offset b.offset⟩
  have : IsTrans Embedded fun a b => a.offset ≤ b.offset := ⟨fun _ _ _ => Nat.le_trans⟩
  have hsorted : (sortDocuments documents).Pairwise (·.offset ≤ ·.offset) := by
    rw [sortDocuments_eq]
    exact List.pairwise_insertionSort _ documents
  have hnodup := ((perm_sortDocuments documents).map (·.offset)).nodup_iff.2 h
  exact hsorted.imp₂ (fun a b => Nat.lt_of_le_of_ne) (List.pairwise_map.1 hnodup)

/-- What a parser makes of a file: its documents are those of the literals that the
parser finds, and their offsets increase.  If all of these literals are complete,
there are documents. -/
structure ListsLiterals (parse : Parser) (path : Path) (text : String) : Prop where
  listed : ∀ documents, extractWith parse path text = .ok documents →
    documents.Pairwise (·.offset < ·.offset) ∧
      ∃ literals, literals.Perm (literalsOf parse path text) ∧
        List.Forall₂ (IsDocumentOf text.toList) literals documents
  complete : (∀ literal ∈ literalsOf parse path text, IsComplete text.toList literal) →
    ∃ documents, extractWith parse path text = .ok documents

theorem listsLiterals_of_wellFormed (path : Path)
    (hparse : ∀ language, (parse language text).WellFormed text.toList) :
    ListsLiterals parse path text := by
  obtain ⟨hwell, hnodup⟩ := literalsOf_wellFormed path hparse
  constructor
  case listed =>
    intro documents hdocuments
    obtain ⟨found, hfound, rfl⟩ := extractWith_eq_ok.1 hdocuments
    have hall := forall₂_of_mem (mapM_eq_ok.1 hfound) fun literal hliteral document =>
      isDocumentOf_of_ok (hwell literal hliteral).1 (hwell literal hliteral).2
    rw [← offsets_of_forall₂ hall] at hnodup
    obtain ⟨literals, hlisted, hperm⟩ :=
      List.perm_comp_forall₂ (perm_sortDocuments found) hall.flip
    exact ⟨pairwise_sortDocuments hnodup, literals, hperm, hlisted.flip⟩
  case complete =>
    intro hcomplete
    have hall : ∀ literal ∈ literalsOf parse path text,
        ∃ document, documentOf path text literal = .ok document := fun literal hliteral =>
      (hcomplete literal hliteral).exists_document (hwell literal hliteral).1
        (hwell literal hliteral).2
    obtain ⟨found, hfound⟩ := exists_mapM_eq_ok.2 hall
    exact ⟨_, extractWith_eq_ok.2 ⟨found, hfound, rfl⟩⟩

end

/-- **The documents of a script.**  Those of a file are listed by the offsets of their
literals, each with the text outside all substitutions.  So it is with every other
parser whose syntax tree of the file is well formed. -/
theorem documents_of_literals :
    (∀ path text, ListsLiterals SyntaxTree.ofText path text) ∧
      ∀ (parse : Parser) (path : Path) (text : String),
        (∀ language, (parse language text).WellFormed text.toList) →
        ListsLiterals parse path text :=
  ⟨fun path text => listsLiterals_of_wellFormed path fun language =>
      SyntaxTree.wellFormed_ofText language text,
    fun _ path _ => listsLiterals_of_wellFormed path⟩

/-- A template with a string in its substitution, both of them documents. -/
def nestedText : String := "gql\x60\x7b é $\x7bgql(\"\x7b b \x7d\")\x7d c \x7d\x60"

theorem documents_of_literals_nestedText :
    (∀ literal ∈ literalsOf SyntaxTree.ofText ⟨"a.ts"⟩ nestedText,
      IsComplete nestedText.toList literal) ∧
    ∃ documents, extract ⟨"a.ts"⟩ nestedText = .ok documents ∧
      documents = [⟨"\x7b é  c \x7d", 3⟩, ⟨"\x7b b \x7d", 15⟩] ∧
      documents.Pairwise (·.offset < ·.offset) ∧
      ∃ literals, literals.Perm (literalsOf SyntaxTree.ofText ⟨"a.ts"⟩ nestedText) ∧
        List.Forall₂ (IsDocumentOf nestedText.toList) literals documents := by
  have hcomplete : ∀ literal ∈ literalsOf SyntaxTree.ofText ⟨"a.ts"⟩ nestedText,
      IsComplete nestedText.toList literal := by
    decide +kernel
  have hfound : (extract ⟨"a.ts"⟩ nestedText).toOption =
      some [⟨"\x7b é  c \x7d", 3⟩, ⟨"\x7b b \x7d", 15⟩] := by
    decide +kernel
  have hlists := documents_of_literals.2 SyntaxTree.ofText ⟨"a.ts"⟩ nestedText
    fun language => SyntaxTree.wellFormed_ofText language nestedText
  obtain ⟨documents, hextract⟩ := hlists.complete hcomplete
  obtain ⟨hordered, hliterals⟩ := hlists.listed documents hextract
  have hlist := Except.ok.inj (hextract.symm.trans (eq_ok_of_toOption hfound))
  exact ⟨hcomplete, documents, hextract, hlist, hordered, hliterals⟩

end OpManifest.Script
