import OpManifest.FileTree.Edit
import OpManifest.Proofs.Path

/-!
# Contents of file trees

What the operations of a file tree do, seen through the content of the file at
each place (`content?`) and the directories that are there.  There are three
groups.

* Following names.  `resolve_join` splits the way to a name in the directory
  that a base path leads to, and the lemmas on `DirectoriesKept` carry a way
  over to a tree that still has all the directories.
* Plain places.  In a well-formed tree the path of a plain place reads the
  content of that place (`readBytes_ofPlace`).
* Edits.  Every edit keeps a tree well-formed, and says at which places it
  changes the content.
-/

namespace OpManifest.FileTree

/-! ## Views -/

/-- The content of the file at a place. -/
def content? (tree : FileTree) (place : Place) : Option ByteArray :=
  match tree.node? place with
  | some (.file content) => some content
  | _ => none

/-- The tree without what stands at a place. -/
def erase (tree : FileTree) (place : Place) : FileTree :=
  { tree with nodes := tree.nodes.erase place }

/-- A name that a file or a directory can have. -/
def IsNodeName (name : String) : Prop :=
  Path.IsName name ∧ '\x00' ∉ name.toList ∧ name.utf8ByteSize ≤ maxNameLength
  deriving Decidable

/-- The tree is one that file systems can hold: files and directories stand in
directories and have names. -/
structure WellFormed (tree : FileTree) : Prop where
  parent : ∀ place name, tree.node? (place ++ [name]) ≠ none → tree.node? place = some .directory
  name : ∀ place name, tree.node? (place ++ [name]) ≠ none → IsNodeName name
  root : tree.nodes[([] : Place)]? = none

theorem wellFormed_empty : ({} : FileTree).WellFormed := by
  have hnode (place : Place) (name : String) : ({} : FileTree).node? (place ++ [name]) = none := by
    simp [node?]
  exact ⟨fun place name h => absurd (hnode place name) h,
    fun place name h => absurd (hnode place name) h, by simp⟩

/-- All directories are still there, and relative paths begin where they
began. -/
structure DirectoriesKept (before after : FileTree) : Prop where
  here : after.here = before.here
  directory : ∀ place, before.node? place = some .directory → after.node? place = some .directory

theorem DirectoriesKept.refl (tree : FileTree) : DirectoriesKept tree tree :=
  ⟨rfl, fun _ h => h⟩

theorem DirectoriesKept.trans {a b c : FileTree} (hab : DirectoriesKept a b)
    (hbc : DirectoriesKept b c) : DirectoriesKept a c :=
  ⟨hbc.here.trans hab.here, fun place h => hbc.directory place (hab.directory place h)⟩

@[simp]
theorem node?_nil (tree : FileTree) : tree.node? [] = some .directory := by simp [node?]

theorem node?_put (tree : FileTree) {place : Place} (node : FileNode) (other : Place)
    (hplace : place ≠ []) :
    (tree.put place node).node? other = if place = other then some node else tree.node? other := by
  by_cases hother : other = []
  · simp [hother, hplace]
  · simp [node?, put, hother, Std.ExtTreeMap.getElem?_insert]

theorem node?_erase (tree : FileTree) {place : Place} (other : Place) (hplace : place ≠ []) :
    (tree.erase place).node? other =
      if place = other then none else tree.node? other := by
  by_cases hother : other = []
  · simp [hother, hplace]
  · simp [node?, erase, hother, Std.ExtTreeMap.getElem?_erase]

theorem content?_congr {tree other : FileTree} {place : Place}
    (h : tree.node? place = other.node? place) : tree.content? place = other.content? place := by
  simp [content?, h]

theorem content?_eq_some {tree : FileTree} {place : Place} {content : ByteArray} :
    tree.content? place = some content ↔ tree.node? place = some (.file content) := by
  unfold content?
  split <;> simp_all

theorem content?_of_directory {tree : FileTree} {place : Place}
    (h : tree.node? place = some .directory) : tree.content? place = none := by
  simp [content?, h]

theorem content?_of_none {tree : FileTree} {place : Place} (h : tree.node? place = none) :
    tree.content? place = none := by
  simp [content?, h]

/-! ## Following names -/

theorem foldlM_cons_eq_ok {ε α β : Type} {f : β → α → Except ε β} {a : α} {as : List α} {b r : β} :
    (a :: as).foldlM f b = .ok r ↔ ∃ m, f b a = .ok m ∧ as.foldlM f m = .ok r := by
  rw [List.foldlM_cons]
  cases h : f b a <;> simp [bind, Except.bind]

/-- Names are followed from directories only, and a dot stays, two dots go up,
and every other name goes down. -/
theorem follow_eq_ok {tree : FileTree} {place next : Place} {name : String}
    (h : tree.follow place name = .ok next) :
    tree.node? place = some .directory ∧
      (name = "." ∧ next = place ∨ name = ".." ∧ next = place.dropLast ∨
        name ≠ "." ∧ name ≠ ".." ∧ name.utf8ByteSize ≤ maxNameLength ∧ next = place ++ [name]) := by
  unfold follow at h
  split at h
  · cases h
  · cases h
  · rename_i hplace
    refine ⟨hplace, ?_⟩
    split_ifs at h with hdot hup hlong
    · exact .inl ⟨hdot, (Except.ok.inj h).symm⟩
    · exact .inr (.inl ⟨hup, (Except.ok.inj h).symm⟩)
    · exact .inr (.inr ⟨hdot, hup, Nat.not_lt.1 hlong, (Except.ok.inj h).symm⟩)

theorem follow_of_directory {tree : FileTree} {place : Place} {name : String}
    (hplace : tree.node? place = some .directory) (hname : Path.IsName name)
    (hlength : name.utf8ByteSize ≤ maxNameLength) :
    tree.follow place name = .ok (place ++ [name]) := by
  simp [follow, hplace, hname.2.2.1, hname.2.2.2, Nat.not_lt.2 hlength]

theorem follow_kept {before after : FileTree} (hkept : DirectoriesKept before after)
    {place next : Place} {name : String} (h : before.follow place name = .ok next) :
    after.follow place name = .ok next := by
  have hplace := (follow_eq_ok h).1
  simp only [follow, hplace] at h
  simp only [follow, hkept.directory place hplace]
  exact h

theorem foldlM_follow_kept {before after : FileTree} (hkept : DirectoriesKept before after)
    {names : List String} {place last : Place} (h : names.foldlM before.follow place = .ok last) :
    names.foldlM after.follow place = .ok last := by
  induction names generalizing place with
  | nil => exact h
  | cons name names ih =>
    obtain ⟨next, hnext, hrest⟩ := foldlM_cons_eq_ok.1 h
    exact foldlM_cons_eq_ok.2 ⟨next, follow_kept hkept hnext, ih hrest⟩

/-- The directory that a base path leads to, as joined paths follow it. -/
def enclosing (tree : FileTree) (base : Path) : Except FileFault Place :=
  if base.text.toList.contains '\x00' then .error .invalidName
  else base.names.foldlM tree.follow (tree.start base)

/-- The way to a name in a directory: first to the directory, then to the
name. -/
theorem resolve_join (tree : FileTree) (base : Path) {name : String} (hname : IsNodeName name) :
    tree.resolve (base.join ⟨name⟩) = (tree.enclosing base).bind (tree.follow · name) := by
  obtain ⟨hplain, hzero, -⟩ := hname
  have htext := Path.text_join base (Path.isAbsolute_eq_false_of_isName hplain)
  have hne : (base.join ⟨name⟩).text ≠ "" := by
    intro hempty
    rw [hempty] at htext
    simp [hplain.1] at htext
  have hcontains : (base.join ⟨name⟩).text.toList.contains '\x00' =
      base.text.toList.contains '\x00' := by
    rw [htext, Path.lead]
    split <;> simp [hzero]
  simp only [resolve, hne, ↓reduceIte, hcontains, enclosing, start,
    Path.isAbsolute_join base hplain, Path.steps_join base hplain, List.foldlM_append]
  split
  · rfl
  · cases hwalk : base.names.foldlM tree.follow (if base.isAbsolute then [] else tree.here) with
    | error e => simp [bind, Except.bind]
    | ok place =>
      simp only [bind, Except.bind, List.foldlM_cons, List.foldlM_nil]
      cases tree.follow place name <;> rfl

theorem resolve_join_eq_ok {tree : FileTree} {base : Path} {name : String}
    (hname : IsNodeName name) {place : Place} :
    tree.resolve (base.join ⟨name⟩) = .ok place ↔
      ∃ directory, tree.enclosing base = .ok directory ∧
        tree.node? directory = some .directory ∧ place = directory ++ [name] := by
  rw [resolve_join tree base hname]
  cases hbase : tree.enclosing base with
  | error e => simp [Except.bind]
  | ok directory =>
    simp only [Except.bind, Except.ok.injEq, exists_eq_left']
    constructor
    · intro h
      obtain ⟨hdirectory, hdot | hup | ⟨-, -, -, hplace⟩⟩ := follow_eq_ok h
      · exact absurd hdot.1 hname.1.2.2.1
      · exact absurd hup.1 hname.1.2.2.2
      · exact ⟨hdirectory, hplace⟩
    · rintro ⟨hdirectory, rfl⟩
      exact follow_of_directory hdirectory hname.1 hname.2.2

theorem enclosing_kept {before after : FileTree} (hkept : DirectoriesKept before after)
    {base : Path} {directory : Place} (h : before.enclosing base = .ok directory) :
    after.enclosing base = .ok directory := by
  unfold enclosing at h ⊢
  split at h
  · cases h
  · rename_i hzero
    rw [if_neg hzero]
    simp only [start, hkept.here] at h ⊢
    exact foldlM_follow_kept hkept h

theorem resolve_join_kept {before after : FileTree} (hkept : DirectoriesKept before after)
    {base : Path} {name : String} (hname : IsNodeName name) {place : Place}
    (h : before.resolve (base.join ⟨name⟩) = .ok place) :
    after.resolve (base.join ⟨name⟩) = .ok place := by
  obtain ⟨directory, hbase, hdirectory, rfl⟩ := (resolve_join_eq_ok hname).1 h
  exact (resolve_join_eq_ok hname).2
    ⟨directory, enclosing_kept hkept hbase, hkept.directory _ hdirectory, rfl⟩

theorem resolve_kept {before after : FileTree} (hkept : DirectoriesKept before after) {p : Path}
    {place : Place} (h : before.resolve p = .ok place) : after.resolve p = .ok place := by
  unfold resolve at h ⊢
  split_ifs at h ⊢
  simp only [start, hkept.here] at h ⊢
  exact foldlM_follow_kept hkept h

theorem lookup_eq_ok {tree : FileTree} {p : Path} {node : FileNode} :
    tree.lookup p = .ok node ↔
      ∃ place, tree.resolve p = .ok place ∧ tree.node? place = some node := by
  unfold lookup
  cases hresolve : tree.resolve p with
  | error e => simp
  | ok place =>
    cases hnode : tree.node? place <;> simp [hnode]

theorem readBytes_eq_ok {tree : FileTree} {p : Path} {content : ByteArray} :
    tree.readBytes p = .ok content ↔
      ∃ place, tree.resolve p = .ok place ∧ tree.content? place = some content := by
  simp only [content?_eq_some, ← lookup_eq_ok]
  unfold readBytes
  split <;> simp_all

/-- Bytes are a text if they are the bytes that it is written as. -/
theorem fromUTF8?_eq_some {content : ByteArray} {text : String} :
    String.fromUTF8? content = some text ↔ content = text.toUTF8 := by
  constructor
  · intro h
    unfold String.fromUTF8? at h
    split at h
    · cases h
      rfl
    · cases h
  · intro h
    rw [h]
    exact dif_pos text.isValidUTF8

theorem readText_eq_ok_iff {tree : FileTree} {p : Path} {text : String} :
    tree.readText p = .ok text ↔ tree.readBytes p = .ok text.toUTF8 := by
  unfold readText
  cases tree.readBytes p with
  | error e => simp
  | ok content =>
    rw [Except.ok.injEq, ← fromUTF8?_eq_some]
    cases hutf : String.fromUTF8? content <;> simp [hutf]

/-! ## Plain places -/

theorem foldlM_follow_plain {tree : FileTree} {names : List String}
    (hnames : ∀ name ∈ names, Path.IsName name) {place last : Place}
    (h : names.foldlM tree.follow place = .ok last) : last = place ++ names := by
  induction names generalizing place with
  | nil =>
    obtain rfl := Except.ok.inj h
    simp
  | cons name names ih =>
    obtain ⟨next, hnext, hrest⟩ := foldlM_cons_eq_ok.1 h
    have hname := hnames name (by simp)
    rw [ih (fun other hother => hnames other (by simp [hother])) hrest]
    obtain ⟨-, hdot | hup | ⟨-, -, -, rfl⟩⟩ := follow_eq_ok hnext
    · exact absurd hdot.1 hname.2.2.1
    · exact absurd hup.1 hname.2.2.2
    · simp

/-- Around a place where something stands there are directories all the way. -/
theorem WellFormed.directory_of_append {tree : FileTree} (h : tree.WellFormed) {place : Place}
    {names : List String} (hne : names ≠ []) (hnode : tree.node? (place ++ names) ≠ none) :
    tree.node? place = some .directory := by
  induction names using List.reverseRecOn with
  | nil => exact absurd rfl hne
  | append_singleton names name ih =>
    have hparent := h.parent (place ++ names) name (by simpa using hnode)
    by_cases hnames : names = []
    · simpa [hnames] using hparent
    · exact ih hnames (by simp [hparent])

theorem WellFormed.isNodeName {tree : FileTree} (h : tree.WellFormed) {place : Place}
    (hnode : tree.node? place ≠ none) : ∀ name ∈ place, IsNodeName name := by
  induction place using List.reverseRecOn with
  | nil => simp
  | append_singleton front last ih =>
    have hfront := h.parent front last hnode
    intro name hname
    rcases List.mem_append.1 hname with hmem | hmem
    · exact ih (by simp [hfront]) name hmem
    · obtain rfl := List.mem_singleton.1 hmem
      exact h.name front name hnode

theorem foldlM_follow_of_node {tree : FileTree} (h : tree.WellFormed) (place : Place)
    {names : List String} (hplace : tree.node? (place ++ names) ≠ none) :
    names.foldlM tree.follow place = .ok (place ++ names) := by
  induction names generalizing place with
  | nil => simp [pure, Except.pure]
  | cons name names ih =>
    have hname := h.isNodeName hplace name (by simp)
    have hdirectory := h.directory_of_append (by simp) hplace
    have hsplit : place ++ name :: names = (place ++ [name]) ++ names := by simp
    rw [hsplit] at hplace ⊢
    exact foldlM_cons_eq_ok.2 ⟨_, follow_of_directory hdirectory hname.1 hname.2.2, ih _ hplace⟩

/-- Names of nodes spell no text that is refused. -/
theorem zero_not_mem_ofNames {names : List String} (hnames : ∀ name ∈ names, IsNodeName name) :
    '\x00' ∉ (Path.ofNames names).text.toList := by
  rw [Path.text_ofNames]
  obtain rfl | ⟨front, last, rfl⟩ := List.eq_nil_or_concat' names
  · simp
  · rw [List.map_append, Text.intercalate_append _ (by simp)]
    simp only [List.map_singleton, List.intercalate_singleton, List.mem_append, not_or,
      List.mem_flatMap, List.mem_map, not_exists, not_and]
    refine ⟨?_, (hnames last (by simp)).2.1⟩
    rintro _ ⟨name, hname, rfl⟩
    simp [(hnames name (by simp [hname])).2.1]

/-- A plain place is found by its path where something stands there. -/
theorem resolve_ofPlace {tree : FileTree} (h : tree.WellFormed) {place : Place}
    (hne : place ≠ []) (hnode : tree.node? place ≠ none) :
    tree.resolve (Path.ofPlace place) = .ok place := by
  have hnames := h.isNodeName hnode
  have hzero : (Path.ofPlace place).text.toList.contains '\x00' = false := by
    have hbody := zero_not_mem_ofNames hnames
    rw [Path.text_ofNames] at hbody
    simpa using hbody
  have hempty : (Path.ofPlace place).text ≠ "" := by simp [Path.ofPlace]
  have habsolute : (Path.ofPlace place).isAbsolute = true := (Path.spells_ofPlace place).isAbsolute
  simp only [resolve, hempty, ↓reduceIte, hzero, Bool.false_eq_true, start, habsolute,
    Path.steps_ofPlace (fun name hname => (hnames name hname).1) hne]
  simpa using foldlM_follow_of_node h [] (by simpa using hnode)

theorem place_of_resolve_ofPlace {tree : FileTree} {place last : Place}
    (hplace : ∀ name ∈ place, Path.IsName name) (hne : place ≠ [])
    (h : tree.resolve (Path.ofPlace place) = .ok last) : last = place := by
  have habsolute : (Path.ofPlace place).isAbsolute = true := (Path.spells_ofPlace place).isAbsolute
  unfold resolve at h
  split_ifs at h
  simp only [start, habsolute, ↓reduceIte, Path.steps_ofPlace hplace hne] at h
  simpa using foldlM_follow_plain hplace h

/-- The path of a plain place reads the content of the place. -/
theorem readBytes_ofPlace {tree : FileTree} (h : tree.WellFormed) {place : Place}
    (hplace : ∀ name ∈ place, Path.IsName name) (hne : place ≠ []) {content : ByteArray} :
    tree.readBytes (Path.ofPlace place) = .ok content ↔ tree.content? place = some content := by
  rw [readBytes_eq_ok]
  constructor
  · rintro ⟨last, hlast, hcontent⟩
    rwa [place_of_resolve_ofPlace hplace hne hlast] at hcontent
  · intro hcontent
    have hnode : tree.node? place ≠ none := by simp [content?_eq_some.1 hcontent]
    exact ⟨place, resolve_ofPlace h hne hnode, hcontent⟩

/-- The root directory of a tree is found. -/
theorem resolve_root (tree : FileTree) : tree.resolve (Path.ofPlace []) = .ok [] := by
  have hsteps : (Path.ofPlace []).steps = ["."] := by decide
  have hzero : (Path.ofPlace []).text.toList.contains '\x00' = false := by decide
  have habsolute : (Path.ofPlace []).isAbsolute = true := by decide
  have hne : (Path.ofPlace []).text ≠ "" := by decide
  rw [resolve, if_neg hne, hzero, hsteps, start, habsolute]
  simp [follow, bind, Except.bind, pure, Except.pure]

theorem canonical?_eq_some {tree : FileTree} {p root : Path} (h : tree.canonical? p = some root) :
    ∃ place, tree.resolve p = .ok place ∧ tree.node? place ≠ none ∧
      root = Path.ofPlace place := by
  unfold canonical? at h
  split at h
  · cases h
  · rename_i place hplace
    obtain ⟨node, hnode, rfl⟩ := Option.map_eq_some_iff.1 h
    exact ⟨place, hplace, by simp [hnode], rfl⟩

/-- A place where something stands is found by its path. -/
theorem WellFormed.resolve_of_node {tree : FileTree} (h : tree.WellFormed) {base : Place}
    (hbase : tree.node? base ≠ none) :
    tree.resolve (Path.ofPlace base) = .ok base := by
  by_cases hne : base = []
  · rw [hne, resolve_root]
  · exact resolve_ofPlace h hne hbase

theorem mem_filesBelow {tree : FileTree} (h : tree.WellFormed) {base : Place}
    {names : List String} :
    names ∈ tree.filesBelow base ↔ (tree.content? (base ++ names)).isSome := by
  have hnode {place : Place} {content : ByteArray} :
      tree.nodes[place]? = some (.file content) ↔ tree.content? place = some content := by
    rw [content?_eq_some, node?]
    split
    · rename_i hempty
      simp [hempty, h.root]
    · rfl
  simp only [filesBelow, List.mem_filterMap, Prod.exists,
    Std.ExtTreeMap.mem_toList_iff_getElem?_eq_some]
  constructor
  · rintro ⟨place, node, hmem, hnames⟩
    cases node with
    | directory => cases hnames
    | file content =>
      simp only [below?, Option.ite_none_right_eq_some, List.isPrefixOf_iff_prefix,
        Option.some.injEq] at hnames
      obtain ⟨⟨rest, rfl⟩, rfl⟩ := hnames
      rw [List.drop_left, hnode.1 hmem]
      rfl
  · intro hsome
    obtain ⟨content, hcontent⟩ := Option.isSome_iff_exists.1 hsome
    exact ⟨base ++ names, .file content, hnode.2 hcontent, by simp [below?]⟩

/-- The names that lead to a file are plain. -/
theorem WellFormed.isName {tree : FileTree} (h : tree.WellFormed) {place : Place}
    (hplace : tree.node? place ≠ none) :
    ∀ name ∈ place, Path.IsName name :=
  fun name hname => (h.isNodeName hplace name hname).1

/-- A path with a slash at its end leads to no file. -/
theorem readBytes_of_slash {tree : FileTree} {p : Path}
    (h : p.text.toList.getLast? = some '/') (content : ByteArray) :
    tree.readBytes p ≠ .ok content := by
  intro hread
  obtain ⟨place, hplace, hcontent⟩ := readBytes_eq_ok.1 hread
  unfold resolve at hplace
  split_ifs at hplace
  rw [Path.steps_eq, if_pos h, List.foldlM_append] at hplace
  cases hwalk : p.names.foldlM tree.follow (tree.start p) with
  | error e => simp [hwalk, bind, Except.bind] at hplace
  | ok last =>
    simp only [hwalk, bind, Except.bind, List.foldlM_cons, List.foldlM_nil] at hplace
    cases hlast : tree.follow last "." with
    | error e => simp [hlast] at hplace
    | ok next =>
      simp only [hlast, pure, Except.pure, Except.ok.injEq] at hplace
      subst hplace
      obtain ⟨hdirectory, ⟨-, rfl⟩ | ⟨hdot, -⟩ | ⟨hdot, -⟩⟩ := follow_eq_ok hlast
      · simp [content?_of_directory hdirectory] at hcontent
      · exact absurd hdot (by decide)
      · exact absurd rfl hdot

/-! ## Edits -/

theorem put_directoriesKept {tree : FileTree} {place : Place} {node : FileNode}
    (hne : place ≠ [])
    (hnode : tree.node? place = some .directory → node = .directory) :
    DirectoriesKept tree (tree.put place node) := by
  refine ⟨rfl, fun other hother => ?_⟩
  rw [node?_put tree node other hne]
  split
  · rename_i heq
    rw [hnode (heq ▸ hother)]
  · exact hother

theorem WellFormed.put {tree : FileTree} (h : tree.WellFormed) {parent : Place} {name : String}
    {node : FileNode} (hparent : tree.node? parent = some .directory) (hname : IsNodeName name)
    (hnode : tree.node? (parent ++ [name]) = some .directory → node = .directory) :
    (tree.put (parent ++ [name]) node).WellFormed := by
  have hkept : DirectoriesKept tree (tree.put (parent ++ [name]) node) :=
    put_directoriesKept (by simp) hnode
  refine ⟨fun place last hlast => ?_, fun place last hlast => ?_, ?_⟩
  · rw [node?_put tree node _ (by simp)] at hlast
    split at hlast
    · rename_i heq
      obtain ⟨rfl, -⟩ := List.append_inj' heq rfl
      exact hkept.directory _ hparent
    · exact hkept.directory _ (h.parent place last hlast)
  · rw [node?_put tree node _ (by simp)] at hlast
    split at hlast
    · rename_i heq
      obtain ⟨-, hnames⟩ := List.append_inj' heq rfl
      rwa [← List.singleton_inj.1 hnames]
    · exact h.name place last hlast
  · simpa [FileTree.put, Std.ExtTreeMap.getElem?_insert] using h.root

theorem erase_directoriesKept {tree : FileTree} {place : Place} {content : ByteArray}
    (hfile : tree.content? place = some content) :
    DirectoriesKept tree (tree.erase place) := by
  rw [content?_eq_some] at hfile
  have hne : place ≠ [] := by
    rintro rfl
    simp at hfile
  refine ⟨rfl, fun other hother => ?_⟩
  rw [node?_erase tree other hne, if_neg]
  · exact hother
  · rintro rfl
    simp [hfile] at hother

theorem WellFormed.erase {tree : FileTree} (h : tree.WellFormed) {place : Place}
    {content : ByteArray} (hfile : tree.content? place = some content) :
    (tree.erase place).WellFormed := by
  have hkept := erase_directoriesKept hfile
  have hne : place ≠ [] := by
    rintro rfl
    simp [content?_of_directory] at hfile
  refine ⟨fun parent name hname => ?_, fun parent name hname => ?_, ?_⟩
  · rw [node?_erase tree _ hne] at hname
    split at hname
    · exact absurd rfl hname
    · exact hkept.directory _ (h.parent parent name hname)
  · rw [node?_erase tree _ hne] at hname
    split at hname
    · exact absurd rfl hname
    · exact h.name parent name hname
  · simpa [FileTree.erase, Std.ExtTreeMap.getElem?_erase] using fun _ => h.root

/-- Where a way through a well-formed tree ends: in a directory, or at a name in
one. -/
def IsPlace (tree : FileTree) (place : Place) : Prop :=
  tree.node? place = some .directory ∨
    ∃ parent name, place = parent ++ [name] ∧ tree.node? parent = some .directory ∧
      IsNodeName name

/-- What a name has to be so that it can be followed: a dot, two dots, or the
name of a file. -/
def IsStep (name : String) : Prop :=
  name = "." ∨ name = ".." ∨ (Path.IsName name ∧ '\x00' ∉ name.toList)

theorem isStep_of_mem_steps {p : Path} (hzero : '\x00' ∉ p.text.toList) {name : String}
    (h : name ∈ p.steps) : IsStep name := by
  have hnames : name ∈ p.names ∨ name = "." := by
    rw [Path.steps_eq] at h
    split at h
    · simpa using h
    · exact .inl h
  rcases hnames with hmem | hdot
  · obtain ⟨piece, hpiece, hname⟩ := List.mem_filterMap.1 hmem
    have hslash := Text.not_mem_of_mem_split hpiece
    have hsub : '\x00' ∉ piece := fun hmem =>
      hzero ((Text.mem_split_iff (by decide)).1 ⟨piece, hpiece, hmem⟩)
    split at hname
    · cases hname
    · rename_i hempty
      obtain rfl := Option.some.inj hname
      by_cases hdots : piece ≠ ['.'] ∧ piece ≠ ['.', '.']
      · exact .inr (.inr ⟨Path.isName_ofList (by simpa using hempty) hslash hdots,
          by simpa using hsub⟩)
      · by_cases hone : piece = ['.']
        · exact .inl (by rw [hone])
        · exact .inr (.inl (by rw [show piece = ['.', '.'] by simpa [hone] using hdots]))
  · exact .inl hdot

theorem WellFormed.isPlace_follow {tree : FileTree} (h : tree.WellFormed) {place next : Place}
    {name : String} (hname : IsStep name) (hnext : tree.follow place name = .ok next) :
    tree.IsPlace next := by
  obtain ⟨hplace, ⟨rfl, rfl⟩ | ⟨rfl, rfl⟩ | ⟨hdot, hup, hlength, rfl⟩⟩ := follow_eq_ok hnext
  · exact .inl hplace
  · refine .inl ?_
    rcases List.eq_nil_or_concat' place with rfl | ⟨front, last, rfl⟩
    · simp
    · simpa using h.parent front last (by simp [hplace])
  · obtain hdot' | hup' | ⟨hplain, hzero⟩ := hname
    · exact absurd hdot' hdot
    · exact absurd hup' hup
    · exact .inr ⟨place, name, rfl, hplace, hplain, hzero, hlength⟩

theorem WellFormed.isPlace_foldlM {tree : FileTree} (h : tree.WellFormed) {names : List String}
    (hnames : ∀ name ∈ names, IsStep name) (hne : names ≠ []) {place last : Place}
    (hlast : names.foldlM tree.follow place = .ok last) : tree.IsPlace last := by
  induction names generalizing place with
  | nil => exact absurd rfl hne
  | cons name names ih =>
    obtain ⟨next, hnext, hrest⟩ := foldlM_cons_eq_ok.1 hlast
    by_cases hempty : names = []
    · subst hempty
      obtain rfl := Except.ok.inj hrest
      exact h.isPlace_follow (hnames name (by simp)) hnext
    · exact ih (fun other hother => hnames other (by simp [hother])) hempty hrest

theorem steps_ne_nil {p : Path} (h : p.text ≠ "") : p.steps ≠ [] := by
  rw [Path.steps_eq]
  split
  · simp
  · rename_i hlast
    intro hnil
    obtain ⟨front, last, htext⟩ :=
      (List.eq_nil_or_concat' p.text.toList).resolve_left (by simpa using h)
    have hslash : last ≠ '/' := by
      rintro rfl
      simp [htext] at hlast
    obtain ⟨piece, hpiece, hmem⟩ :=
      (Text.mem_split_iff hslash).2 (show last ∈ p.text.toList by simp [htext])
    have hall := List.filterMap_eq_nil_iff.1 hnil piece hpiece
    split at hall
    · rename_i hempty
      simp [List.isEmpty_iff.1 hempty] at hmem
    · cases hall

theorem WellFormed.isPlace_resolve {tree : FileTree} (h : tree.WellFormed) {p : Path}
    {place : Place} (hplace : tree.resolve p = .ok place) : tree.IsPlace place := by
  unfold resolve at hplace
  split_ifs at hplace with hempty hzero
  refine h.isPlace_foldlM (fun name hname => isStep_of_mem_steps ?_ hname)
    (steps_ne_nil hempty) hplace
  simpa using hzero

/-- What an edit leaves behind: the directories are kept, the tree is still
well-formed, and only the named places may hold other content. -/
structure EditedAt (places : Place → Prop) (before after : FileTree) : Prop where
  kept : DirectoriesKept before after
  wellFormed : before.WellFormed → after.WellFormed
  content : ∀ place, ¬places place → after.content? place = before.content? place

theorem EditedAt.refl {places : Place → Prop} (tree : FileTree) : EditedAt places tree tree :=
  ⟨.refl tree, id, fun _ _ => rfl⟩

theorem EditedAt.trans {places : Place → Prop} {a b c : FileTree} (hab : EditedAt places a b)
    (hbc : EditedAt places b c) : EditedAt places a c :=
  ⟨hab.kept.trans hbc.kept, fun h => hbc.wellFormed (hab.wellFormed h),
    fun place h => (hbc.content place h).trans (hab.content place h)⟩

theorem EditedAt.mono {places others : Place → Prop} {before after : FileTree}
    (h : EditedAt places before after) (hsub : ∀ place, places place → others place) :
    EditedAt others before after :=
  ⟨h.kept, h.wellFormed, fun place hplace => h.content place fun hp => hplace (hsub place hp)⟩

theorem content?_put {tree : FileTree} {place : Place} {node : FileNode} (hne : place ≠ [])
    {other : Place} (hother : place ≠ other) :
    (tree.put place node).content? other = tree.content? other :=
  content?_congr (by rw [node?_put tree node other hne, if_neg hother])

/-- Directories are made only where nothing stands, so no file changes. -/
theorem makeDirectories_editedAt (tree : FileTree) (place : Place) {names : List String}
    (hnames : ∀ name ∈ names, IsStep name) :
    EditedAt (fun _ => False) tree (tree.makeDirectories place names).1 := by
  induction names generalizing tree place with
  | nil => exact .refl tree
  | cons name names ih =>
    have hrest (tree : FileTree) (next : Place) :
        EditedAt (fun _ => False) tree (tree.makeDirectories next names).1 :=
      ih tree next fun other hother => hnames other (by simp [hother])
    unfold makeDirectories
    cases hfollow : tree.follow place name with
    | error e => exact .refl tree
    | ok next =>
      simp only
      split
      · rename_i hnone
        refine .trans ⟨?_, fun h => ?_, fun other _ => ?_⟩ (hrest _ next)
        · exact put_directoriesKept (by rintro rfl; simp at hnone) (by simp [hnone])
        · obtain hdirectory | ⟨parent, last, rfl, hparent, hlast⟩ :=
            h.isPlace_follow (hnames name (by simp)) hfollow
          · simp [hnone] at hdirectory
          · exact h.put hparent hlast (by simp [hnone])
        · by_cases hother : next = other
          · subst hother
            have hne : next ≠ [] := by rintro rfl; simp at hnone
            rw [content?_of_none hnone, content?_of_directory]
            rw [node?_put tree _ _ hne, if_pos rfl]
          · exact content?_put (by rintro rfl; simp at hnone) hother
      · exact hrest tree next
      · exact .refl tree

theorem createDirectories_editedAt (tree : FileTree) (p : Path) :
    EditedAt (fun _ => False) tree (tree.createDirectories p).1 := by
  unfold createDirectories
  split
  · exact .refl tree
  · rename_i hzero
    exact makeDirectories_editedAt tree _ fun name hname =>
      isStep_of_mem_steps (by simpa using hzero) hname

theorem write_eq_ok {tree after : FileTree} {p : Path} {content : ByteArray}
    (h : tree.write p content = .ok after) :
    ∃ place, tree.resolve p = .ok place ∧ tree.node? place ≠ some .directory ∧
      after = tree.put place (.file content) := by
  unfold write at h
  cases hresolve : tree.resolve p with
  | error e => simp [hresolve] at h
  | ok place =>
    simp only [hresolve] at h
    split at h
    · cases h
    · rename_i hnode
      exact ⟨place, rfl, hnode, (Except.ok.inj h).symm⟩

theorem rename_eq_ok {tree after : FileTree} {source target : Path}
    (h : tree.rename source target = .ok after) :
    ∃ old new content, tree.resolve source = .ok old ∧ tree.content? old = some content ∧
      tree.resolve target = .ok new ∧ tree.node? new ≠ some .directory ∧
      after = (tree.erase old).put new (.file content) := by
  unfold rename at h
  split at h
  · rename_i old content new hsource hread htarget
    split at h
    · cases h
    · rename_i hnode
      obtain ⟨place, hplace, hcontent⟩ := readBytes_eq_ok.1 hread
      obtain rfl := Except.ok.inj (hsource.symm.trans hplace)
      exact ⟨old, new, content, hsource, hcontent, htarget, hnode, (Except.ok.inj h).symm⟩
  all_goals cases h

/-- A file is put at a place where a file may stand. -/
theorem put_editedAt {tree : FileTree} {place : Place} {content : ByteArray}
    (hplace : tree.WellFormed → tree.IsPlace place) (hnode : tree.node? place ≠ some .directory) :
    EditedAt (· = place) tree (tree.put place (.file content)) := by
  have hne : place ≠ [] := by
    rintro rfl
    simp at hnode
  refine ⟨put_directoriesKept hne fun h => absurd h hnode, fun h => ?_, fun other hother => ?_⟩
  · obtain hdirectory | ⟨parent, name, rfl, hparent, hname⟩ := hplace h
    · exact absurd hdirectory hnode
    · exact h.put hparent hname fun h => absurd h hnode
  · exact content?_put hne fun h => hother h.symm

theorem content?_put_self {tree : FileTree} {place : Place} {content : ByteArray}
    (hnode : tree.node? place ≠ some .directory) :
    (tree.put place (.file content)).content? place = some content := by
  have hne : place ≠ [] := by
    rintro rfl
    simp at hnode
  rw [content?_eq_some, node?_put tree _ _ hne, if_pos rfl]

theorem erase_editedAt {tree : FileTree} {place : Place} {content : ByteArray}
    (hfile : tree.content? place = some content) :
    EditedAt (· = place) tree (tree.erase place) := by
  have hne : place ≠ [] := by
    rintro rfl
    simp [content?_of_directory] at hfile
  refine ⟨erase_directoriesKept hfile, fun h => h.erase hfile, fun other hother => ?_⟩
  exact content?_congr (by rw [node?_erase tree other hne, if_neg fun h => hother h.symm])

theorem content?_erase_self {tree : FileTree} {place : Place} {content : ByteArray}
    (hfile : tree.content? place = some content) :
    (tree.erase place).content? place = none := by
  have hne : place ≠ [] := by
    rintro rfl
    simp [content?_of_directory] at hfile
  exact content?_of_none (by rw [node?_erase tree place hne, if_pos rfl])

end OpManifest.FileTree
