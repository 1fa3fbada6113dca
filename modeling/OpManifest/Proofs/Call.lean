import OpManifest.Proofs.Scanner
import OpManifest.Script.Call

/-!
# The syntax tree of a script

The nodes of a script lie in order, and so do the pieces that they become, the
callees that calls take back from them and the trees in the end.  So the syntax
tree of every script is well formed (`wellFormed_ofText`), however far the script
is from one that can be run.
-/

namespace OpManifest.Script

open Text (IsPlace HasAt InOrder byteCount inOrder_append)

/-! ## Trees side by side -/

namespace SyntaxTree

/-- Trees that lie in order between two places and belong to no call. -/
structure Forest (text : List Char) (start stop : Nat) (trees : List SyntaxTree) : Prop where
  ordered : InOrder start stop (trees.map range)
  wellFormed : ∀ tree ∈ trees, tree.WellFormed text
  field : ∀ tree ∈ trees, tree.field = none

section

variable {text : List Char} {start stop : Nat} {kind : SyntaxKind} {field : Option SyntaxField}
  {trees : List SyntaxTree}

/-- A node that is not a literal may hold any trees. -/
theorem wellFormed_of_forest (hkind : kind ≠ .string) (htemplate : kind ≠ .template)
    (hstart : IsPlace text start) (hstop : IsPlace text stop) (h : Forest text start stop trees) :
    WellFormed text ⟨kind, field, start, stop, trees⟩ := by
  refine .intro ⟨hstart, hstop, h.ordered, ?_, ?_, ?_⟩ h.wellFormed
  · intro hliteral
    simp [isLiteral, hkind, htemplate] at hliteral
  · intro hstring
    exact absurd hstring hkind
  · intro child hchild hfield
    rw [h.field child hchild] at hfield
    cases hfield

theorem wellFormed_string {c : Char} (hc : c ∈ delimiters) (hstart : HasAt text start c)
    (hstop : IsPlace text stop) (hlt : start < stop) :
    WellFormed text ⟨.string, field, start, stop, []⟩ := by
  obtain ⟨rest, hslice⟩ := hstart.exists_slice? hstop hlt
  exact .intro ⟨hstart.isPlace, hstop, Nat.le_of_lt hlt, fun _ => ⟨⟨c, hc, rest, hslice⟩, nofun⟩,
    nofun, nofun⟩ nofun

/-- A template holds trees behind its backtick. -/
theorem wellFormed_template (hstart : HasAt text start '\x60') (hstop : IsPlace text stop)
    (h : Forest text (start + 1) stop trees) :
    WellFormed text ⟨.template, field, start, stop, trees⟩ := by
  have hle := h.ordered.le
  obtain ⟨rest, hslice⟩ := hstart.exists_slice? hstop (by omega)
  refine .intro ⟨hstart.isPlace, hstop, h.ordered.mono (by simp) (Nat.le_refl _), ?_, nofun, ?_⟩
    h.wellFormed
  · intro _
    refine ⟨⟨'\x60', by simp [delimiters], rest, hslice⟩, fun child hchild => .inr ?_⟩
    exact (h.ordered.of_mem (List.mem_map_of_mem hchild)).1
  · intro child hchild hfield
    rw [h.field child hchild] at hfield
    cases hfield

theorem wellFormed_ofLiteral {literal : SyntaxTree} (whole : Bool) (h : literal.WellFormed text)
    (hfield : literal.field = none) (hle : literal.start ≤ literal.stop) :
    (ofLiteral whole literal).WellFormed text ∧ (ofLiteral whole literal).field = none ∧
      (ofLiteral whole literal).range = literal.range := by
  unfold ofLiteral
  split
  · exact ⟨h, hfield, rfl⟩
  · refine ⟨wellFormed_of_forest nofun nofun h.fits.start h.fits.stop ⟨?_, ?_, ?_⟩, rfl, rfl⟩
    · exact ⟨Nat.le_refl _, hle, Nat.le_refl _⟩
    · simpa using h
    · simpa using hfield

end

end SyntaxTree

/-! ## Pieces -/

open SyntaxTree (Forest WellFormed)

namespace Piece

/-- The bytes of a piece; a mark is not looked for. -/
def range? : Piece → Option (Nat × Nat)
  | .word start text => some (start, start + text.utf8ByteSize)
  | .mark _ => none
  | .built tree => some tree.range

/-- A word stands at its place, and a tree is well formed and belongs to no call
yet. -/
inductive Fits (text : List Char) : Piece → Prop where
  | word {start : Nat} {word : String} (hstart : IsPlace text start)
    (hstop : IsPlace text (start + word.utf8ByteSize)) : Fits text (.word start word)
  | mark {mark : String} : Fits text (.mark mark)
  | built {tree : SyntaxTree} (hwell : tree.WellFormed text) (hfield : tree.field = none) :
    Fits text (.built tree)

end Piece

/-- Pieces that lie in order between two places, the last one first. -/
structure Laid (text : List Char) (start stop : Nat) (pieces : List Piece) : Prop where
  ordered : InOrder start stop (pieces.reverse.filterMap Piece.range?)
  pieces : ∀ piece ∈ pieces, piece.Fits text

section

variable {text : List Char} {start stop between next : Nat} {piece : Piece}
  {pieces before behind : List Piece} {trees : List SyntaxTree} {language : Language}

theorem laid_append : Laid text start stop (behind ++ before) ↔
    ∃ between, Laid text start between before ∧ Laid text between stop behind := by
  constructor
  · rintro ⟨hordered, hpieces⟩
    rw [List.reverse_append, List.filterMap_append] at hordered
    obtain ⟨between, hbefore, hbehind⟩ := inOrder_append.1 hordered
    rw [List.forall_mem_append] at hpieces
    exact ⟨between, ⟨hbefore, hpieces.2⟩, ⟨hbehind, hpieces.1⟩⟩
  · rintro ⟨between, hbefore, hbehind⟩
    refine ⟨?_, List.forall_mem_append.2 ⟨hbehind.pieces, hbefore.pieces⟩⟩
    rw [List.reverse_append, List.filterMap_append]
    exact inOrder_append.2 ⟨between, hbefore.ordered, hbehind.ordered⟩

theorem laid_cons : Laid text start stop (piece :: before) ↔
    ∃ between, Laid text start between before ∧ Laid text between stop [piece] := by
  rw [← List.singleton_append, laid_append]

theorem Laid.mono (h : Laid text start between pieces) (hle : between ≤ stop) :
    Laid text start stop pieces :=
  ⟨h.ordered.mono (Nat.le_refl _) hle, h.pieces⟩

/-- A piece that stands behind all others may join them. -/
theorem Laid.add (h : Laid text start between before) (hpiece : piece.Fits text) {a : Nat}
    (hrange : piece.range? = some (a, next)) (ha : between ≤ a) (hnext : a ≤ next) :
    Laid text start next (piece :: before) := by
  refine laid_cons.2 ⟨between, h, ?_, by simpa using hpiece⟩
  simpa [hrange] using ⟨ha, hnext, Nat.le_refl next⟩

theorem Laid.add_mark (h : Laid text start stop before) (mark : String) :
    Laid text start stop (.mark mark :: before) :=
  laid_cons.2 ⟨stop, h, Nat.le_refl stop, by simpa using Piece.Fits.mark⟩

theorem laid_of_forest (h : Forest text start stop trees) :
    Laid text start stop (trees.reverse.map .built) := by
  refine ⟨?_, ?_⟩
  · rw [← List.map_reverse, List.reverse_reverse, List.filterMap_map]
    have hranges : Piece.range? ∘ .built = some ∘ SyntaxTree.range := rfl
    rw [hranges, List.filterMap_eq_map]
    exact h.ordered
  · intro piece hpiece
    obtain ⟨tree, htree, rfl⟩ := List.mem_map.1 hpiece
    rw [List.mem_reverse] at htree
    exact .built (h.wellFormed tree htree) (h.field tree htree)

theorem mem_trees {tree : SyntaxTree} : tree ∈ Piece.trees pieces ↔ .built tree ∈ pieces := by
  simp only [Piece.trees, List.mem_filterMap]
  constructor
  · rintro ⟨piece, hpiece, htree⟩
    cases piece with
    | built other => exact Option.some.inj htree ▸ hpiece
    | word => cases htree
    | mark => cases htree
  · intro h
    exact ⟨_, h, rfl⟩

theorem trees_sublist (pieces : List Piece) :
    ((Piece.trees pieces).map SyntaxTree.range).Sublist (pieces.filterMap Piece.range?) := by
  induction pieces with
  | nil => exact .slnil
  | cons piece pieces ih =>
    cases piece with
    | word => exact ih.cons _
    | mark => exact ih
    | built => exact ih.cons_cons _

/-- The trees among pieces lie in order as the pieces do. -/
theorem Laid.forest (h : Laid text start stop pieces) :
    Forest text start stop (Piece.trees pieces.reverse) := by
  have hbuilt {tree : SyntaxTree} (htree : tree ∈ Piece.trees pieces.reverse) :
      tree.WellFormed text ∧ tree.field = none := by
    rw [mem_trees, List.mem_reverse] at htree
    cases h.pieces _ htree with
    | built hwell hfield => exact ⟨hwell, hfield⟩
  exact ⟨h.ordered.sublist (trees_sublist _), fun tree htree => (hbuilt htree).1,
    fun tree htree => (hbuilt htree).2⟩

/-! ## Callees -/

/-- Type arguments are passed over up to their opening bracket. -/
theorem passTypeArguments_eq_some {inside found : List Piece} {depth : Nat}
    (h : Piece.passTypeArguments inside depth pieces = some (found, before)) :
    ∃ between, pieces = between ++ .mark "<" :: before ∧ found = between.reverse ++ inside := by
  fun_induction Piece.passTypeArguments inside depth pieces with
  | case1 inside depth others ih =>
    obtain ⟨between, rfl, rfl⟩ := ih h
    exact ⟨.mark ">" :: between, rfl, by simp⟩
  | case2 inside others =>
    obtain ⟨rfl, rfl⟩ := Prod.mk.inj (Option.some.inj h)
    exact ⟨[], rfl, rfl⟩
  | case3 inside depth others ih =>
    obtain ⟨between, rfl, rfl⟩ := ih h
    exact ⟨.mark "<" :: between, rfl, by simp⟩
  | case4 => cases h
  | case5 inside depth piece others _ _ _ _ ih =>
    obtain ⟨between, rfl, rfl⟩ := ih h
    exact ⟨piece :: between, rfl, by simp⟩
  | case6 => cases h

theorem forest_nil : Forest text stop stop [] := ⟨Nat.le_refl stop, nofun, nofun⟩

/-- Type arguments lie behind what stands before them. -/
theorem Laid.typeArguments (h : Laid text start stop pieces) (language : Language) :
    ∃ between, Laid text start between (Piece.typeArguments language pieces).2 ∧
      Forest text between stop (Piece.trees (Piece.typeArguments language pieces).1) := by
  have hnone : ∃ between, Laid text start between pieces ∧
      Forest text between stop (Piece.trees []) := ⟨stop, h, forest_nil⟩
  unfold Piece.typeArguments
  split
  · rename_i inner
    split
    · cases hpassed : Piece.passTypeArguments [] 0 inner with
      | none => exact hnone
      | some passed =>
        obtain ⟨found, before⟩ := passed
        obtain ⟨between, rfl, rfl⟩ := passTypeArguments_eq_some hpassed
        have hsplit : Laid text start stop ((.mark ">" :: between ++ [.mark "<"]) ++ before) := by
          simpa using h
        obtain ⟨place, hbefore, hbehind⟩ := laid_append.1 hsplit
        refine ⟨place, hbefore, ?_⟩
        simpa [Piece.trees] using hbehind.forest
    · exact hnone
  · exact hnone

theorem Laid.of_mark {mark : String} (h : Laid text start stop (.mark mark :: before)) :
    Laid text start stop before := by
  obtain ⟨between, hbefore, hmark⟩ := laid_cons.1 h
  exact hbefore.mono hmark.ordered.le

theorem Laid.withoutOption (h : Laid text start stop pieces) :
    Laid text start stop (Piece.withoutOption pieces) := by
  unfold Piece.withoutOption
  split
  · exact h.of_mark
  · exact h

/-- A word at the end of pieces stands behind the others. -/
theorem Laid.of_word {place : Nat} {word : String}
    (h : Laid text start stop (.word place word :: before)) :
    Laid text start place before ∧ IsPlace text place ∧
      IsPlace text (place + word.utf8ByteSize) ∧ place + word.utf8ByteSize ≤ stop := by
  obtain ⟨between, hbefore, hword⟩ := laid_cons.1 h
  obtain ⟨hle, -, hstop⟩ := hword.ordered
  cases hword.pieces _ List.mem_cons_self with
  | word hplace hend => exact ⟨hbefore.mono hle, hplace, hend, hstop⟩

/-- The name of a callee lies behind the pieces before the call, and the type
arguments lie behind the name. -/
structure Callee.Fits (text : List Char) (start stop : Nat) (callee : Callee) : Prop where
  kind : callee.name.kind = .identifier
  field : callee.name.field = some .callee
  name : callee.name.WellFormed text
  before : Laid text start callee.name.start callee.before
  name_le : callee.name.start ≤ callee.name.stop
  typeArguments : Forest text callee.name.stop stop callee.typeArguments

theorem Laid.callee (h : Laid text start stop pieces) {inParentheses : Bool} {callee : Callee}
    (hcallee : Callee.ofPieces? language inParentheses pieces = some callee) :
    callee.Fits text start stop := by
  obtain ⟨between, hbefore, htypes⟩ := h.typeArguments language
  unfold Callee.ofPieces? at hcallee
  generalize Piece.typeArguments language pieces = passed at hbefore htypes hcallee
  obtain ⟨inside, others⟩ := passed
  have hrest : Laid text start between
      (if inParentheses then Piece.withoutOption others else others) := by
    split
    · exact hbefore.withoutOption
    · exact hbefore
  simp only at hcallee htypes
  split at hcallee
  · rename_i place word before hword
    rw [hword] at hrest
    obtain ⟨hbefore, hstart, hstop, hle⟩ := hrest.of_word
    split at hcallee
    · cases hcallee
    · obtain rfl := Option.some.inj hcallee
      have hname : SyntaxTree.WellFormed text
          ⟨.identifier, some .callee, place, place + word.utf8ByteSize, []⟩ :=
        SyntaxTree.wellFormed_of_forest nofun nofun hstart hstop
          ⟨Nat.le_add_right _ _, nofun, nofun⟩
      exact ⟨rfl, rfl, hname, hbefore, Nat.le_add_right _ _,
        ⟨htypes.ordered.mono hle (Nat.le_refl _), htypes.wellFormed, htypes.field⟩⟩
  · cases hcallee

/-- The call of a callee is well formed with arguments that stand behind it. -/
theorem Callee.Fits.call {callee : Callee} (h : callee.Fits text start stop)
    {arguments : SyntaxTree} (hwell : arguments.WellFormed text)
    (hkind : arguments.kind = .arguments ∨ arguments.kind = .template)
    (hfield : arguments.field = some .arguments) (hstart : stop ≤ arguments.start)
    (hle : arguments.start ≤ arguments.stop) : (callee.call arguments).WellFormed text := by
  have hordered : InOrder callee.name.start arguments.stop
      ((callee.name :: callee.typeArguments ++ [arguments]).map SyntaxTree.range) := by
    rw [List.cons_append, List.map_cons, List.map_append]
    exact ⟨Nat.le_refl _, h.name_le,
      inOrder_append.2 ⟨stop, h.typeArguments.ordered, hstart, hle, Nat.le_refl _⟩⟩
  refine .intro ⟨h.name.fits.start, hwell.fits.stop, hordered, nofun, nofun, ?_⟩ ?_
  · intro child hchild hchildField
    rcases List.mem_append.1 hchild with hchild | hchild
    · rcases List.mem_cons.1 hchild with rfl | hchild
      · rw [h.field] at hchildField
        cases hchildField
      · rw [h.typeArguments.field child hchild] at hchildField
        cases hchildField
    · obtain rfl := List.mem_singleton.1 hchild
      exact hkind
  · intro child hchild
    rcases List.mem_append.1 hchild with hchild | hchild
    · rcases List.mem_cons.1 hchild with rfl | hchild
      · exact h.name
      · exact h.typeArguments.wellFormed child hchild
    · obtain rfl := List.mem_singleton.1 hchild
      exact hwell

/-- The pieces with a call that they end with. -/
theorem Callee.Fits.laid_call {callee : Callee} (h : callee.Fits text start between)
    {kind : SyntaxKind} {a : Nat} (hkind : kind = .arguments ∨ kind = .template)
    (hwell : SyntaxTree.WellFormed text ⟨kind, some .arguments, a, stop, trees⟩)
    (ha : between ≤ a) (hle : a ≤ stop) :
    Laid text start stop
      (.built (callee.call ⟨kind, some .arguments, a, stop, trees⟩) :: callee.before) := by
  have := h.name_le
  have := h.typeArguments.ordered.le
  exact h.before.add (.built (h.call hwell hkind rfl ha hle) rfl) rfl (Nat.le_refl _)
    (show callee.name.start ≤ stop by omega)

/-! ## Nodes -/

theorem laid_addTemplate (h : Laid text start between before) (whole : Bool) (opening : Opening)
    {a : Nat} (ha : between ≤ a) (hat : HasAt text a '\x60') (hstop : IsPlace text stop)
    (hforest : Forest text (a + 1) stop trees) (closed : Bool) :
    Laid text start stop
      (SyntaxTree.addTemplate language before whole opening a stop trees closed) := by
  have hlt := hforest.ordered.le
  have hle : a ≤ stop := by omega
  have hinside : Forest text a stop trees :=
    ⟨hforest.ordered.mono (by simp) (Nat.le_refl _), hforest.wellFormed, hforest.field⟩
  have hother : Laid text start stop (.built ⟨.other, none, a, stop, trees⟩ :: before) :=
    h.add (.built (SyntaxTree.wellFormed_of_forest nofun nofun hat.isPlace hstop hinside) rfl) rfl
      ha hle
  unfold SyntaxTree.addTemplate
  split
  · rename_i callee hcallee
    split at hcallee
    · cases hcallee
    have hfits := h.callee hcallee
    split
    · exact hfits.laid_call (.inr rfl) (SyntaxTree.wellFormed_template hat hstop hforest) ha hle
    split
    · -- The template is only its backtick, and the substitutions stand behind it.
      have hbacktick : SyntaxTree.WellFormed text ⟨.template, some .arguments, a, a + 1, []⟩ :=
        SyntaxTree.wellFormed_template hat hat.isPlace_add forest_nil
      exact laid_append.2 ⟨a + 1, hfits.laid_call (.inr rfl) hbacktick ha (Nat.le_add_right a 1),
        laid_of_forest hforest⟩
    · exact hother
  · split
    · obtain ⟨hwell, hfield, hrange⟩ := SyntaxTree.wellFormed_ofLiteral whole
        (SyntaxTree.wellFormed_template hat hstop hforest) rfl hle
      exact h.add (.built hwell hfield) (congrArg some hrange) ha hle
    · exact hother

theorem laid_addGroup (h : Laid text start between before) (bracket : Bracket) {a : Nat}
    (ha : between ≤ a) (hplace : IsPlace text a) (hstop : IsPlace text stop)
    (hforest : Forest text a stop trees) (closed : Bool) :
    Laid text start stop (SyntaxTree.addGroup language before bracket a stop trees closed) := by
  have hle := hforest.ordered.le
  unfold SyntaxTree.addGroup
  split
  · rename_i callee hcallee
    split at hcallee
    · exact (h.callee hcallee).laid_call (.inl rfl)
        (SyntaxTree.wellFormed_of_forest nofun nofun hplace hstop hforest) ha hle
    · cases hcallee
  · have hkind :
        (if bracket = .substitution then .substitution else .other : SyntaxKind) ≠ .string ∧
        (if bracket = .substitution then .substitution else .other : SyntaxKind) ≠ .template := by
      split <;> exact ⟨nofun, nofun⟩
    exact h.add (.built (SyntaxTree.wellFormed_of_forest hkind.1 hkind.2 hplace hstop hforest) rfl)
      rfl ha hle

theorem laid_nil : Laid text start start [] := ⟨Nat.le_refl start, nofun⟩

mutual

/-- A node joins the pieces before it, and so does the call that it ends. -/
theorem laid_addNode (language : Language) (before : List Piece) (start between stop : Nat)
    (whole : Bool) :
    ∀ node : Node, node.Fits text → Laid text start between before →
      InOrder between stop ([node].filterMap Node.range?) →
      Laid text start stop (SyntaxTree.addNode language before whole node)
  | .word place word, hnode, hbefore, hordered => by
    cases hnode with
    | word hstart hstop =>
      obtain ⟨hle, hword, hend⟩ := hordered
      rw [SyntaxTree.addNode]
      exact (hbefore.add (.word hstart hstop) rfl hle hword).mono hend
  | .mark mark, hnode, hbefore, hordered => by
    rw [SyntaxTree.addNode]
    exact (hbefore.add_mark mark).mono hordered.le
  | .string a b, hnode, hbefore, hordered => by
    cases hnode with
    | string hc hstart hstop hlt =>
      obtain ⟨hle, -, hend⟩ := hordered
      obtain ⟨hwell, hfield, hrange⟩ := SyntaxTree.wellFormed_ofLiteral whole
        (SyntaxTree.wellFormed_string hc hstart hstop hlt) rfl (Nat.le_of_lt hlt)
      rw [SyntaxTree.addNode]
      exact (hbefore.add (.built hwell hfield) (congrArg some hrange) hle (Nat.le_of_lt hlt)).mono
        hend
  | .template opening a b nodes closed, hnode, hbefore, hordered => by
    cases hnode with
    | template hstart hstop hinside hnodes =>
      obtain ⟨hle, -, hend⟩ := hordered
      rw [SyntaxTree.addNode]
      have hforest :=
        (laid_addNodes language [] (a + 1) (a + 1) b nodes hnodes laid_nil hinside).forest
      exact (laid_addTemplate hbefore whole opening hle hstart hstop hforest closed).mono hend
  | .group bracket a b nodes closed, hnode, hbefore, hordered => by
    cases hnode with
    | group hstart hstop hinside hnodes =>
      obtain ⟨hle, -, hend⟩ := hordered
      rw [SyntaxTree.addNode]
      have hforest := (laid_addNodes language [] a a b nodes hnodes laid_nil hinside).forest
      exact (laid_addGroup hbefore bracket hle hstart hstop hforest closed).mono hend

/-- Nodes join the pieces before them one after the other. -/
theorem laid_addNodes (language : Language) (before : List Piece) (start between stop : Nat) :
    ∀ nodes : List Node, (∀ node ∈ nodes, node.Fits text) → Laid text start between before →
      InOrder between stop (nodes.filterMap Node.range?) →
      Laid text start stop (SyntaxTree.addNodes language before nodes)
  | [], hnodes, hbefore, hordered => by
    rw [SyntaxTree.addNodes]
    exact hbefore.mono hordered
  | node :: after, hnodes, hbefore, hordered => by
    obtain ⟨hnode, hafter⟩ := List.forall_mem_cons.1 hnodes
    rw [← List.singleton_append, List.filterMap_append] at hordered
    obtain ⟨place, hfirst, hrest⟩ := inOrder_append.1 hordered
    rw [SyntaxTree.addNodes]
    exact laid_addNodes language _ start place stop after hafter
      (laid_addNode language before start between place (SyntaxTree.isArgument before after) node
        hnode hbefore hfirst) hrest

end

end

/-- The syntax tree of every script is well formed. -/
theorem SyntaxTree.wellFormed_ofText (language : Language) (text : String) :
    (SyntaxTree.ofText language text).WellFormed text.toList := by
  obtain ⟨hordered, hnodes⟩ := Node.fits_ofText language text
  have hforest := (laid_addNodes language [] 0 0 _ _ hnodes laid_nil hordered).forest
  exact wellFormed_of_forest nofun nofun Text.isPlace_zero Text.isPlace_byteCount hforest

end OpManifest.Script
