import Mathlib.Data.List.Nodup
import OpManifest.Proofs.Range
import OpManifest.Script.Literal

/-!
# Literals of a syntax tree

In a syntax tree the nodes lie in their parents, one behind the other, and a
literal begins with its delimiter (`SyntaxTree.WellFormed`).  Then no two calls
of tags have the same literal (`nodup_starts`), though a literal may have calls
in its substitutions that have literals of their own.

The text that a literal stands for is that of the gaps between its substitutions
(`literalText?_eq_some`).
-/

namespace OpManifest.Script

open Text (IsPlace HasAt InOrder PartsAt gaps slice?)

/-- What a literal may begin and end with. -/
def delimiters : List Char := ['\x60', '"', '\'']

namespace SyntaxTree

/-- The bytes of a node. -/
def range (tree : SyntaxTree) : Nat × Nat := (tree.start, tree.stop)

/-- The substitutions of a literal, which are the only children with text of
their own. -/
def substitutions (tree : SyntaxTree) : List (Nat × Nat) :=
  (tree.children.filter (·.kind = .substitution)).map range

/-! ## Trees of a text -/

/-- A node stands for a part of the text and has its children in order.  A literal
begins with its delimiter, and only behind it there is a child with children.
Only a template has substitutions, and only a template or an argument list is
what a call is made with. -/
structure Fits (text : List Char) (tree : SyntaxTree) : Prop where
  start : IsPlace text tree.start
  stop : IsPlace text tree.stop
  ordered : InOrder tree.start tree.stop (tree.children.map range)
  literal : tree.isLiteral = true →
    (∃ c ∈ delimiters, ∃ rest, slice? text tree.start tree.stop = some (c :: rest)) ∧
      ∀ child ∈ tree.children, child.children = [] ∨ tree.start < child.start
  string : tree.kind = .string → ∀ child ∈ tree.children, child.kind ≠ .substitution
  arguments : ∀ child ∈ tree.children, child.field = some .arguments →
    child.kind = .arguments ∨ child.kind = .template

/-- Every node of the tree fits the text. -/
inductive WellFormed (text : List Char) : SyntaxTree → Prop where
  | intro {tree : SyntaxTree} (fits : tree.Fits text)
    (children : ∀ child ∈ tree.children, child.WellFormed text) : tree.WellFormed text

section

variable {text : List Char} {tree call literal child other : SyntaxTree} {trees : List SyntaxTree}
  {start stop : Nat}

theorem WellFormed.fits (h : tree.WellFormed text) : tree.Fits text := by
  cases h with
  | intro fits _ => exact fits

theorem WellFormed.of_mem (h : tree.WellFormed text) (hmem : child ∈ tree.children) :
    child.WellFormed text := by
  cases h with
  | intro _ children => exact children child hmem

theorem Fits.within (h : tree.Fits text) (hmem : child ∈ tree.children) :
    tree.start ≤ child.start ∧ child.start ≤ child.stop ∧ child.stop ≤ tree.stop :=
  h.ordered.of_mem (List.mem_map_of_mem hmem)

theorem Fits.start_lt_stop (h : tree.Fits text) (hliteral : tree.isLiteral = true) :
    tree.start < tree.stop := by
  obtain ⟨⟨c, -, rest, hslice⟩, -⟩ := h.literal hliteral
  exact (HasAt.of_slice? hslice).2

/-! ## Calls -/

theorem callsIn_eq (trees : List SyntaxTree) : callsIn trees = trees.flatMap calls := by
  induction trees with
  | nil => rfl
  | cons tree trees ih => rw [callsIn, ih, List.flatMap_cons]

theorem calls_eq (tree : SyntaxTree) :
    tree.calls = (if tree.kind = .call then [tree] else []) ++ tree.children.flatMap calls := by
  obtain ⟨kind, field, start, stop, children⟩ := tree
  rw [calls, callsIn_eq]

/-- The literals of a tree are its own one, if it is a call, and those of its
children. -/
theorem taggedLiterals_eq (text : List Char) (tree : SyntaxTree) :
    taggedLiterals text tree =
      (if tree.kind = .call then (taggedLiteral? text tree).toList else []) ++
        tree.children.flatMap (taggedLiterals text) := by
  rw [taggedLiterals, calls_eq, List.filterMap_append, List.filterMap_flatMap]
  congr 1
  split
  · cases htagged : taggedLiteral? text tree <;> simp [htagged]
  · rfl

theorem taggedLiterals_of_not_call (h : tree.kind ≠ .call) :
    taggedLiterals text tree = tree.children.flatMap (taggedLiterals text) := by
  rw [taggedLiterals_eq, if_neg h, List.nil_append]

theorem mem_taggedLiterals :
    literal ∈ taggedLiterals text tree ↔
      (tree.kind = .call ∧ taggedLiteral? text tree = some literal) ∨
        ∃ child ∈ tree.children, literal ∈ taggedLiterals text child := by
  rw [taggedLiterals_eq, List.mem_append, List.mem_flatMap]
  refine or_congr ?_ Iff.rfl
  split <;> simp_all

theorem isLiteral_of_template (h : tree.kind = .template) : tree.isLiteral = true := by
  simp [isLiteral, h]

theorem kind_ne_call (h : tree.isLiteral = true) : tree.kind ≠ .call := by
  intro hcall
  simp [isLiteral, hcall] at h

theorem child?_eq_some {field : SyntaxField} (h : tree.child? field = some child) :
    child ∈ tree.children ∧ child.field = some field :=
  ⟨List.mem_of_find?_eq_some h, by simpa using List.find?_some h⟩

/-- The literal of a call is its template, or it stands in its argument list. -/
theorem mem_of_taggedLiteral (h : taggedLiteral? text call = some literal) :
    literal.isLiteral = true ∧ ∃ child ∈ call.children, child.field = some .arguments ∧
      (child = literal ∨ (child.kind ≠ .template ∧ literal ∈ child.children)) := by
  unfold taggedLiteral? at h
  obtain ⟨callee, -, h⟩ := Option.bind_eq_some_iff.1 h
  obtain ⟨-, -, h⟩ := Option.bind_eq_some_iff.1 h
  obtain ⟨name, -, h⟩ := Option.bind_eq_some_iff.1 h
  obtain ⟨-, -, h⟩ := Option.bind_eq_some_iff.1 h
  obtain ⟨arguments, harguments, h⟩ := Option.bind_eq_some_iff.1 h
  obtain ⟨hmem, hfield⟩ := child?_eq_some harguments
  split at h
  · rename_i htemplate
    obtain rfl := Option.some.inj h
    exact ⟨isLiteral_of_template htemplate, arguments, hmem, hfield, .inl rfl⟩
  · rename_i htemplate
    exact ⟨List.find?_some h, arguments, hmem, hfield,
      .inr ⟨htemplate, List.mem_of_find?_eq_some h⟩⟩

/-- A call without children has no literal. -/
theorem taggedLiterals_of_childless (h : tree.children = []) :
    taggedLiterals text tree = [] := by
  have hcallee : tree.child? .callee = none := by simp [child?, h]
  have hnone : taggedLiteral? text tree = none := by
    rw [taggedLiteral?, hcallee]
    rfl
  rw [taggedLiterals_eq, hnone, h]
  split <;> rfl

/-! ## Where literals are -/

/-- The literals of a tree are well formed and lie in it. -/
theorem WellFormed.of_taggedLiteral (h : tree.WellFormed text)
    (hliteral : literal ∈ taggedLiterals text tree) :
    literal.WellFormed text ∧ literal.isLiteral = true ∧
      tree.start ≤ literal.start ∧ literal.start < tree.stop := by
  induction h with
  | @intro tree fits children ih =>
    rcases mem_taggedLiterals.1 hliteral with ⟨-, htagged⟩ | ⟨child, hchild, hmem⟩
    · obtain ⟨hkind, arguments, harguments, -, hplace⟩ := mem_of_taggedLiteral htagged
      have houter := fits.within harguments
      have harguments := children arguments harguments
      rcases hplace with rfl | ⟨-, hplace⟩
      · have := harguments.fits.start_lt_stop hkind
        exact ⟨harguments, hkind, houter.1, by omega⟩
      · have hinner := harguments.fits.within hplace
        have := (harguments.of_mem hplace).fits.start_lt_stop hkind
        exact ⟨harguments.of_mem hplace, hkind, by omega, by omega⟩
    · obtain ⟨hwell, hkind, hstart, hstop⟩ := ih child hchild hmem
      have := fits.within hchild
      exact ⟨hwell, hkind, by omega, by omega⟩

/-- The literals of calls in a literal begin behind its delimiter. -/
theorem WellFormed.start_lt_of_taggedLiteral (h : tree.WellFormed text)
    (hkind : tree.isLiteral = true) (hliteral : literal ∈ taggedLiterals text tree) :
    tree.start < literal.start := by
  rw [taggedLiterals_of_not_call (kind_ne_call hkind), List.mem_flatMap] at hliteral
  obtain ⟨child, hchild, hmem⟩ := hliteral
  rcases (h.fits.literal hkind).2 child hchild with hnil | hlt
  · rw [taggedLiterals_of_childless hnil] at hmem
    cases hmem
  · exact Nat.lt_of_lt_of_le hlt ((h.of_mem hchild).of_taggedLiteral hmem).2.2.1

/-- A literal does not begin where one of a call beside it or in it does. -/
theorem start_ne_of_ordered (h : InOrder start stop (trees.map range))
    (hwell : ∀ tree ∈ trees, tree.WellFormed text) (hmem : tree ∈ trees)
    (hkind : tree.isLiteral = true) (hother : other ∈ trees)
    (hliteral : literal ∈ taggedLiterals text other) : literal.start ≠ tree.start := by
  rcases h.apart hmem hother with rfl | hbefore | hbehind
  · exact Nat.ne_of_gt ((hwell tree hmem).start_lt_of_taggedLiteral hkind hliteral)
  · have := (hwell tree hmem).fits.start_lt_stop hkind
    have := ((hwell other hother).of_taggedLiteral hliteral).2.2.1
    simp only [range] at hbefore
    omega
  · have := ((hwell other hother).of_taggedLiteral hliteral).2.2.2
    simp only [range] at hbehind
    omega

/-- The literal of a call does not begin where one of a call inside it does. -/
theorem WellFormed.start_ne (h : call.WellFormed text)
    (hown : taggedLiteral? text call = some literal) (hchild : child ∈ call.children)
    (hother : other ∈ taggedLiterals text child) : other.start ≠ literal.start := by
  have hwell : ∀ tree ∈ call.children, tree.WellFormed text := fun tree => h.of_mem
  obtain ⟨hkind, arguments, harguments, hfield, rfl | ⟨htemplate, hplace⟩⟩ :=
    mem_of_taggedLiteral hown
  · exact start_ne_of_ordered h.fits.ordered hwell harguments hkind hchild hother
  · have hlist := h.of_mem harguments
    have hinner := hlist.fits.within hplace
    have hnonempty := (hlist.of_mem hplace).fits.start_lt_stop hkind
    rcases h.fits.ordered.apart harguments hchild with rfl | hbefore | hbehind
    · have hnotCall : arguments.kind ≠ .call := by
        rcases h.fits.arguments arguments harguments hfield with hkind | hkind <;> simp [hkind]
      rw [taggedLiterals_of_not_call hnotCall, List.mem_flatMap] at hother
      obtain ⟨sibling, hsibling, hother⟩ := hother
      exact start_ne_of_ordered hlist.fits.ordered (fun tree => hlist.of_mem) hplace hkind
        hsibling hother
    · have := ((hwell child hchild).of_taggedLiteral hother).2.2.1
      simp only [range] at hbefore
      omega
    · have := ((hwell child hchild).of_taggedLiteral hother).2.2.2
      simp only [range] at hbehind
      omega

/-- No two calls have literals that begin at the same place. -/
theorem WellFormed.nodup_starts (h : tree.WellFormed text) :
    ((taggedLiterals text tree).map SyntaxTree.start).Nodup := by
  induction h with
  | @intro tree fits children ih =>
    have hchildren :
        ((tree.children.flatMap (taggedLiterals text)).map SyntaxTree.start).Nodup := by
      rw [List.map_flatMap, List.nodup_flatMap]
      refine ⟨ih, fits.ordered.pairwise.imp_of_mem ?_⟩
      intro a b ha hb hab
      -- One child ends before the other begins, and their literals with them.
      refine List.disjoint_left.2 fun place hplace hplace' => ?_
      obtain ⟨literal, hliteral, rfl⟩ := List.mem_map.1 hplace
      obtain ⟨other, hother, hstart⟩ := List.mem_map.1 hplace'
      have := ((children a ha).of_taggedLiteral hliteral).2.2.2
      have := ((children b hb).of_taggedLiteral hother).2.2.1
      simp only [range] at hab
      omega
    rw [taggedLiterals_eq]
    split
    · cases hown : taggedLiteral? text tree with
      | none => exact hchildren
      | some literal =>
        refine List.nodup_cons.2 ⟨fun hmem => ?_, hchildren⟩
        obtain ⟨other, hother, hstart⟩ := List.mem_map.1 hmem
        obtain ⟨child, hchild, hother⟩ := List.mem_flatMap.1 hother
        exact (WellFormed.intro fits children).start_ne hown hchild hother hstart
    · exact hchildren

/-! ## The text of a literal -/

/-- The cursor takes the gaps between the substitutions, and no more. -/
theorem textAround?_eq_some {nodes : List SyntaxTree} {source : List Char} :
    textAround? text start stop nodes = some source ↔ ∃ parts,
      PartsAt text
        (gaps start stop ((nodes.filter (·.kind = .substitution)).map range)) parts ∧
      source = parts.flatMap unescape := by
  induction nodes generalizing start source with
  | nil =>
    simp only [textAround?, List.filter_nil, List.map_nil, gaps, Option.map_eq_map,
      Option.map_eq_some_iff, PartsAt, List.forall₂_cons_left_iff, List.forall₂_nil_left_iff]
    constructor
    · rintro ⟨part, hpart, rfl⟩
      exact ⟨[part], ⟨part, [], hpart, rfl, rfl⟩, by simp⟩
    · rintro ⟨_, ⟨part, _, hpart, rfl, rfl⟩, rfl⟩
      exact ⟨part, hpart, by simp⟩
  | cons node nodes ih =>
    rw [textAround?]
    split
    · rename_i hkind
      rw [List.filter_cons_of_pos (by simpa using hkind), List.map_cons, range, gaps]
      simp only [Option.bind_eq_bind, Option.bind_eq_some_iff, ih, PartsAt,
        List.forall₂_cons_left_iff]
      constructor
      · rintro ⟨part, hpart, _, ⟨parts, hparts, rfl⟩, hsource⟩
        obtain rfl := Option.some.inj hsource
        exact ⟨part :: parts, ⟨part, parts, hpart, hparts, rfl⟩, rfl⟩
      · rintro ⟨_, ⟨part, parts, hpart, hparts, rfl⟩, rfl⟩
        exact ⟨part, hpart, _, ⟨parts, hparts, rfl⟩, rfl⟩
    · rename_i hkind
      rw [List.filter_cons_of_neg (by simpa using hkind), ih]

/-- A string has no substitutions. -/
theorem Fits.substitutions_of_string (h : tree.Fits text) (hkind : tree.kind = .string) :
    tree.substitutions = [] := by
  rw [substitutions, List.map_eq_nil_iff, List.filter_eq_nil_iff]
  intro child hchild
  simpa using h.string hkind child hchild

/-- A literal stands for the text in the gaps between its substitutions. -/
theorem Fits.literalText?_eq_some (h : literal.Fits text) (hkind : literal.isLiteral = true)
    {source : List Char} :
    literalText? text literal = some source ↔ ∃ parts,
      PartsAt text
        (gaps (literal.start + 1) (literal.stop - 1) literal.substitutions) parts ∧
      source = parts.flatMap unescape := by
  have hstop : literal.stop = literal.stop - 1 + 1 := by
    have := h.start_lt_stop hkind
    omega
  have hkinds : literal.kind = .string ∨ literal.kind = .template := by
    simpa [isLiteral] using hkind
  rcases hkinds with hstring | htemplate
  · have htext : literalText? text literal =
        textAround? text (literal.start + 1) (literal.stop - 1) [] := by
      rw [literalText?, hstring, hstop]
      rfl
    rw [htext, textAround?_eq_some, h.substitutions_of_string hstring]
    rfl
  · have htext : literalText? text literal =
        textAround? text (literal.start + 1) (literal.stop - 1) literal.children := by
      rw [literalText?, htemplate, hstop]
      rfl
    rw [htext, textAround?_eq_some]
    rfl

end

end SyntaxTree

end OpManifest.Script
