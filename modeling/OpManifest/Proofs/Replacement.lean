import OpManifest.Proofs.FileName
import OpManifest.Proofs.Store

/-!
# Replacing any file

Any path with a file name can be written over.  Its temporary file has another name
in the same directory (`exists_steps_temporary`), so the two never stand at one place
(`resolve_temporary_ne`).  The directories that are made first are the missing ones
that the path of the parent leads through (`createParent_spared`), and what follows
changes the file and its temporary file only.  `replace_replaced_or_withheld` is the
result: a success leaves the content in the file and nothing at its temporary path,
and a failure leaves the file as it was.

A path can lead through its own file, as in `/x/../x`.  If this file is missing, it
is itself one of the directories that are made first, and nothing can be moved to its
place any more (`not_kept_through_target`).
-/

namespace OpManifest

namespace Path

/-! ## Temporary names -/

/-- The name of the file that is written before it is moved to a place. -/
def temporaryName (name : String) : String := (splitExtension name).1 ++ "." ++ "json.tmp"

/-- No name is its own temporary name: the extension of a name holds no dot. -/
theorem temporaryName_ne (name : String) : temporaryName name ≠ name := by
  unfold temporaryName
  intro heq
  obtain hsplit | ⟨stem, extension, hsplit, rfl, hextension, -⟩ := splitExtension_cases name
  · have hlength := congrArg (fun text : String => text.toList.length) heq
    simp [hsplit] at hlength
  · rw [hsplit, String.append_right_inj] at heq
    exact hextension (heq ▸ by decide)

theorem isName_temporaryName {name : String} (h : IsName name) : IsName (temporaryName name) := by
  obtain ⟨rest, hrest⟩ := exists_stem_append name
  have hslash : '/' ∉ (splitExtension name).1.toList := by
    intro hmem
    exact h.2.1 (hrest ▸ List.mem_append_left _ hmem)
  have hin : 'j' ∈ (temporaryName name).toList := by simp [temporaryName]
  refine ⟨?_, by simpa [temporaryName] using hslash, ?_, ?_⟩
  all_goals
    intro heq
    rw [heq] at hin
    exact absurd hin (by decide)

theorem toList_temporary {p : Path} {name : String} (h : p.fileName? = some name)
    {front back : List (List Char)}
    (hsplit : Text.split '/' p.text.toList = front ++ name.toList :: back)
    (hlast : p.segments.getLast? = some ⟨name, width front, width front + name.toList.length⟩) :
    p.temporary.text.toList = front.flatMap (· ++ ['/']) ++ (temporaryName name).toList := by
  obtain ⟨tail, htext⟩ := toList_of_split hsplit
  obtain ⟨rest, hrest⟩ := exists_stem_append name
  have hlength : width front + (splitExtension name).1.length =
      (front.flatMap (· ++ ['/']) ++ (splitExtension name).1.toList).length := by
    rw [List.length_append, length_flatMap_separator, String.length_toList]
  have hslice : (p.slice 0 (width front + (splitExtension name).1.length)).text.toList =
      front.flatMap (· ++ ['/']) ++ (splitExtension name).1.toList := by
    rw [slice, htext, hrest, hlength, List.append_assoc, ← List.append_assoc (front.flatMap _),
      List.take_left, List.drop_zero, String.toList_ofList]
  simp only [temporary, withExtension, h, hlast, temporaryName, String.toList_append, hslice,
    List.append_assoc]

/-- What begins a path that ends with some name decides whether it is absolute. -/
theorem isAbsolute_of_toList {p : Path} {front : List (List Char)} {name : String}
    {tail : List Char} (h : IsName name)
    (htext : p.text.toList = front.flatMap (· ++ ['/']) ++ (name.toList ++ tail)) :
    p.isAbsolute = decide ((front.flatMap (· ++ ['/'])).head? = some '/') := by
  cases front with
  | nil =>
    have hne : name.toList ≠ [] := by simpa using h.1
    have hhead : name.toList.head? ≠ some '/' := fun hslash => h.2.1 (List.mem_of_mem_head? hslash)
    simp [isAbsolute, htext, List.head?_append_of_ne_nil _ hne, hhead]
  | cons piece front =>
    have hne : (piece :: front).flatMap (· ++ ['/']) ≠ [] := by simp
    rw [isAbsolute, htext, List.head?_append_of_ne_nil _ hne]

/-- The names among pieces between slashes. -/
def namesOf (pieces : List (List Char)) : List String :=
  pieces.filterMap fun piece => if piece.isEmpty then none else some (.ofList piece)

theorem namesOf_append_cons {name : String} (h : IsName name) (front back : List (List Char)) :
    namesOf (front ++ name.toList :: back) = namesOf front ++ name :: namesOf back := by
  have hne : name.toList.isEmpty = false := by simpa using h.1
  simp only [namesOf, List.filterMap_append, List.filterMap_cons, hne, Bool.false_eq_true,
    ↓reduceIte, String.ofList_toList]

/-- Pieces that do not count are no names but dots. -/
theorem eq_dot_of_mem_namesOf {back : List (List Char)} (h : back.filter counts = [])
    {name : String} (hname : name ∈ namesOf back) : name = "." := by
  obtain ⟨piece, hpiece, hkept⟩ := List.mem_filterMap.1 hname
  have hcounts : counts piece = false := by
    simpa using List.filter_eq_nil_iff.1 h piece hpiece
  split_ifs at hkept with hempty
  obtain rfl := Option.some.inj hkept
  rw [ofList_eq_dot]
  simpa [counts, hempty] using hcounts

theorem steps_of_split {p : Path} {front back : List (List Char)} {name : String}
    (h : IsName name) (hsplit : Text.split '/' p.text.toList = front ++ name.toList :: back)
    (hback : back.filter counts = []) :
    ∃ dots, p.steps = namesOf front ++ name :: dots ∧ ∀ dot ∈ dots, dot = "." := by
  have hnames : p.names = namesOf front ++ name :: namesOf back :=
    (names_of_split hsplit).trans (namesOf_append_cons h front back)
  rw [steps_eq, hnames]
  split
  · refine ⟨namesOf back ++ ["."], by simp, fun dot hdot => ?_⟩
    obtain hmem | hmem := List.mem_append.1 hdot
    · exact eq_dot_of_mem_namesOf hback hmem
    · exact List.mem_singleton.1 hmem
  · exact ⟨namesOf back, rfl, fun dot => eq_dot_of_mem_namesOf hback⟩

/-- A text that ends with a name is followed to this name last. -/
theorem steps_of_toList {p : Path} {front : List (List Char)} {name : String} (h : IsName name)
    (hfront : ∀ piece ∈ front, '/' ∉ piece)
    (htext : p.text.toList = front.flatMap (· ++ ['/']) ++ name.toList) :
    p.steps = namesOf front ++ [name] := by
  have hslash : ∀ piece ∈ front ++ [name.toList], '/' ∉ piece := by
    intro piece hpiece
    obtain hmem | hmem := List.mem_append.1 hpiece
    · exact hfront piece hmem
    · exact List.mem_singleton.1 hmem ▸ h.2.1
  have hsplit : Text.split '/' p.text.toList = front ++ [name.toList] := by
    rw [← Text.split_intercalate (by simp) hslash, Text.intercalate_append front (by simp),
      List.intercalate_singleton, htext]
  have hlast : p.text.toList.getLast? ≠ some '/' := by
    have hne : name.toList ≠ [] := by simpa using h.1
    rw [htext, List.getLast?_append_of_ne_nil _ hne]
    exact fun hslash => h.2.1 (List.mem_of_getLast? hslash)
  rw [steps_eq, if_neg hlast]
  exact (names_of_split hsplit).trans (namesOf_append_cons h front [])

/-- The temporary file stands in the directory of the file itself. -/
theorem exists_steps_temporary {p : Path} {name : String} (h : p.fileName? = some name) :
    ∃ lead dots, p.steps = lead ++ name :: dots ∧ (∀ dot ∈ dots, dot = ".") ∧
      p.temporary.steps = lead ++ [temporaryName name] ∧
      p.temporary.isAbsolute = p.isAbsolute := by
  have hname := isName_of_fileName? h
  have htemporaryName := isName_temporaryName hname
  obtain ⟨front, back, hsplit, hback, hlast⟩ := exists_pieces_of_fileName? h
  obtain ⟨tail, htext⟩ := toList_of_split hsplit
  obtain ⟨dots, hsteps, hdots⟩ := steps_of_split hname hsplit hback
  have htemporary := toList_temporary h hsplit hlast
  have hfront : ∀ piece ∈ front, '/' ∉ piece := fun piece hpiece =>
    Text.not_mem_of_mem_split (hsplit ▸ List.mem_append_left _ hpiece)
  refine ⟨namesOf front, dots, hsteps, hdots,
    steps_of_toList htemporaryName hfront htemporary, ?_⟩
  rw [← List.append_nil (temporaryName name).toList] at htemporary
  rw [isAbsolute_of_toList htemporaryName htemporary, isAbsolute_of_toList hname htext]

theorem temporary_ne {p : Path} {name : String} (h : p.fileName? = some name) :
    p.temporary ≠ p := by
  intro heq
  obtain ⟨lead, dots, hsteps, -, hstepsTemporary, -⟩ := exists_steps_temporary h
  rw [heq, hsteps] at hstepsTemporary
  have hnames := List.append_cancel_left hstepsTemporary
  exact temporaryName_ne name (List.cons.inj hnames).1.symm

theorem filter_of_dots {dots : List String} (h : ∀ dot ∈ dots, dot = ".") :
    dots.filter (· ≠ ".") = [] := by
  rw [List.filter_eq_nil_iff]
  intro dot hdot
  simp [h dot hdot]

theorem moves_of_steps {p : Path} {lead dots : List String} {name : String} (h : IsName name)
    (hsteps : p.steps = lead ++ name :: dots) (hdots : ∀ dot ∈ dots, dot = ".") :
    p.moves = lead.filter (· ≠ ".") ++ [name] := by
  rw [← filter_steps, hsteps, List.filter_append,
    List.filter_cons_of_pos (by simpa using h.2.2.1), filter_of_dots hdots]

theorem up_mem_components {p : Path} (h : ".." ∈ p.moves) : .up ∈ p.components := by
  have hmem : Component.up ∈ p.moves.map Component.ofName := List.mem_map.2 ⟨"..", h, rfl⟩
  by_cases habsolute : p.isAbsolute = true
  · rw [components_of_isAbsolute habsolute]
    exact List.mem_cons_of_mem _ hmem
  · obtain ⟨piece, rest, hsplit⟩ := Text.exists_cons_split '/' p.text.toList
    rw [components_of_split (by simpa using habsolute) hsplit]
    exact List.mem_append_right _ hmem

end Path

namespace FileTree

/-! ## Where the two files stand -/

/-- Names without two dots lead down. -/
theorem eq_append_of_foldlM {tree : FileTree} {names : List String} (hup : ".." ∉ names)
    {place last : Place} (h : names.foldlM tree.follow place = .ok last) :
    last = place ++ names.filter (· ≠ ".") := by
  induction names generalizing place with
  | nil =>
    obtain rfl := Except.ok.inj h
    simp
  | cons name names ih =>
    obtain ⟨hfirst, hothers⟩ : ".." ≠ name ∧ ".." ∉ names := by simpa using hup
    obtain ⟨next, hnext, hrest⟩ := foldlM_cons_eq_ok.1 h
    rw [ih hothers hrest]
    obtain ⟨-, ⟨rfl, rfl⟩ | ⟨rfl, -⟩ | ⟨hdot, -, -, rfl⟩⟩ := follow_eq_ok hnext
    · simp
    · exact absurd rfl hfirst
    · simp [hdot]

theorem foldlM_of_resolve {tree : FileTree} {p : Path} {place : Place}
    (h : tree.resolve p = .ok place) : p.steps.foldlM tree.follow (tree.start p) = .ok place := by
  unfold resolve at h
  split_ifs at h
  exact h

/-- A path that ends with a name leads to this name in the directory that the steps
before it lead to. -/
theorem exists_directory_of_resolve {tree : FileTree} {p : Path} {lead dots : List String}
    {name : String} (hname : Path.IsName name) (hsteps : p.steps = lead ++ name :: dots)
    (hdots : ∀ dot ∈ dots, dot = ".") {place : Place} (h : tree.resolve p = .ok place) :
    ∃ directory, lead.foldlM tree.follow (tree.start p) = .ok directory ∧
      place = directory ++ [name] := by
  have hwalk := foldlM_of_resolve h
  rw [hsteps, List.foldlM_append] at hwalk
  cases hlead : lead.foldlM tree.follow (tree.start p) with
  | error e => simp [hlead, bind, Except.bind] at hwalk
  | ok directory =>
    rw [hlead] at hwalk
    obtain ⟨next, hnext, hrest⟩ := foldlM_cons_eq_ok.1 hwalk
    obtain ⟨-, ⟨rfl, -⟩ | ⟨rfl, -⟩ | ⟨-, -, -, rfl⟩⟩ := follow_eq_ok hnext
    · exact absurd rfl hname.2.2.1
    · exact absurd rfl hname.2.2.2
    · refine ⟨directory, rfl, ?_⟩
      have hup : ".." ∉ dots := fun hmem => absurd (hdots _ hmem) (by decide)
      rw [eq_append_of_foldlM hup hrest, Path.filter_of_dots hdots, List.append_nil]

/-- A file and its temporary file never stand at one place. -/
theorem resolve_temporary_ne {tree : FileTree} {path : Path} {name : String}
    (hname : path.fileName? = some name) {place : Place} (h : tree.resolve path = .ok place) :
    tree.resolve path.temporary ≠ .ok place := by
  intro htemporary
  have hplain := Path.isName_of_fileName? hname
  obtain ⟨lead, dots, hsteps, hdots, hstepsTemporary, -⟩ := Path.exists_steps_temporary hname
  obtain ⟨_, -, hplace⟩ := exists_directory_of_resolve hplain hsteps hdots h
  obtain ⟨_, -, hother⟩ := exists_directory_of_resolve (Path.isName_temporaryName hplain)
    hstepsTemporary (by simp) htemporary
  have hnames := (List.append_inj' (hother.symm.trans hplace) rfl).2
  exact Path.temporaryName_ne name (List.singleton_inj.1 hnames)

/-! ## Directories on the way -/

/-- The place is one that the path of the parent leads through. -/
def OnTheWay (tree : FileTree) (path : Path) (place : Place) : Prop :=
  ∃ parent front, path.parent? = some parent ∧ front <+: parent.steps ∧
    front.foldlM tree.follow (tree.start parent) = .ok place

/-- Everything is as before at the place, or a directory was made there that was
missing on the way to the parent of the path. -/
def Spared (before after : FileTree) (path : Path) (place : Place) : Prop :=
  after.node? place = before.node? place ∨
    before.node? place = none ∧ after.node? place = some .directory ∧ after.OnTheWay path place

theorem start_kept {before after : FileTree} (hkept : DirectoriesKept before after) (p : Path) :
    after.start p = before.start p := by
  rw [start, start, hkept.here]

theorem Spared.trans_eq {before between after : FileTree} {path : Path} {place : Place}
    (h : Spared before between path place) (hkept : DirectoriesKept between after)
    (hsame : after.node? place = between.node? place) : Spared before after path place := by
  obtain heq | ⟨hnone, hmade, parent, front, hparent, hfront, hway⟩ := h
  · exact .inl (hsame.trans heq)
  · refine .inr ⟨hnone, hsame.trans hmade, parent, front, hparent, hfront, ?_⟩
    rw [start_kept hkept]
    exact foldlM_follow_kept hkept hway

theorem Spared.eq_of_some {before after : FileTree} {path : Path} {place : Place}
    (h : Spared before after path place) (hnode : before.node? place ≠ none) :
    after.node? place = before.node? place :=
  h.resolve_right fun hmade => hnode hmade.1

/-- Whatever way directories are made, they are made where the names lead through
and nothing stood before. -/
theorem makeDirectories_spared (tree : FileTree) (place : Place) {names : List String}
    (hnames : ∀ name ∈ names, IsStep name) (other : Place) :
    (tree.makeDirectories place names).1.node? other = tree.node? other ∨
      tree.node? other = none ∧
        (tree.makeDirectories place names).1.node? other = some .directory ∧
        ∃ front, front <+: names ∧
          front.foldlM (tree.makeDirectories place names).1.follow place = .ok other := by
  induction names generalizing tree place with
  | nil => exact .inl rfl
  | cons name names ih =>
    have hrest : ∀ name ∈ names, IsStep name := fun name hmem => hnames name (by simp [hmem])
    have hkept := (makeDirectories_editedAt tree place hnames).kept
    unfold makeDirectories at hkept ⊢
    cases hfollow : tree.follow place name with
    | error e => exact .inl rfl
    | ok next =>
      simp only [hfollow] at hkept ⊢
      -- what is made further on is also on the way from here
      have hlater {after : FileTree} (hkept : DirectoriesKept tree after) {front : List String}
          (hfront : front <+: names) (hway : front.foldlM after.follow next = .ok other) :
          ∃ front, front <+: name :: names ∧ front.foldlM after.follow place = .ok other :=
        ⟨name :: front, List.cons_prefix_cons.2 ⟨rfl, hfront⟩,
          foldlM_cons_eq_ok.2 ⟨next, follow_kept hkept hfollow, hway⟩⟩
      cases hnext : tree.node? next with
      | none =>
        simp only [hnext] at hkept ⊢
        have hne : next ≠ [] := by
          rintro rfl
          simp at hnext
        have hput := node?_put tree .directory other hne
        obtain hsame | ⟨hnone, hmade, front, hfront, hway⟩ :=
          ih (tree.put next .directory) next hrest
        · by_cases heq : next = other
          · subst heq
            rw [if_pos rfl] at hput
            exact .inr ⟨hnext, hsame.trans hput, hlater hkept (List.nil_prefix) rfl⟩
          · rw [if_neg heq] at hput
            exact .inl (hsame.trans hput)
        · have hnone : tree.node? other = none := by
            rw [hput] at hnone
            split at hnone
            · cases hnone
            · exact hnone
          exact .inr ⟨hnone, hmade, hlater hkept hfront hway⟩
      | some node =>
        simp only [hnext] at hkept ⊢
        cases node with
        | directory =>
          exact (ih tree next hrest).imp_right fun ⟨hnone, hmade, _, hfront, hway⟩ =>
            ⟨hnone, hmade, hlater hkept hfront hway⟩
        | file content => exact .inl rfl

theorem createDirectories_spared (tree : FileTree) {path parent : Path}
    (hparent : path.parent? = some parent) (place : Place) :
    Spared tree (tree.createDirectories parent).1 path place := by
  unfold createDirectories
  split
  · exact .inl rfl
  · rename_i hzero
    have hsteps : ∀ name ∈ parent.steps, IsStep name := fun name hmem =>
      isStep_of_mem_steps (by simpa using hzero) hmem
    have hkept := (makeDirectories_editedAt tree (tree.start parent) hsteps).kept
    refine (makeDirectories_spared tree (tree.start parent) hsteps place).imp_right ?_
    rintro ⟨hnone, hmade, front, hfront, hway⟩
    refine ⟨hnone, hmade, parent, front, hparent, hfront, ?_⟩
    rwa [start_kept hkept]

theorem createParent_spared (tree : FileTree) (path : Path) (place : Place) :
    Spared tree (tree.createParent path).1 path place := by
  unfold createParent
  split
  · exact .inl rfl
  · rename_i parent hparent
    have hspared := createDirectories_spared tree hparent place
    split
    all_goals
      rename_i hmade
      rwa [hmade] at hspared

/-- The way to the parent leads through the file itself only if it leads up again. -/
theorem up_mem_of_onTheWay {tree : FileTree} {path : Path} {name : String}
    (hname : path.fileName? = some name) {place : Place} (hplace : tree.resolve path = .ok place)
    (h : tree.OnTheWay path place) : .up ∈ path.components := by
  obtain ⟨parent, front, hparent, hfront, hway⟩ := h
  by_contra hup
  have hplain := Path.isName_of_fileName? hname
  obtain ⟨lead, dots, hsteps, hdots, -⟩ := Path.exists_steps_temporary hname
  have hmoves := Path.moves_of_fileName? hparent hname
  have hstart : tree.start parent = tree.start path := by
    rw [start, start, (Path.moves_of_parent? hparent).2]
  have hupMoves : ".." ∉ path.moves := fun hmem => hup (Path.up_mem_components hmem)
  rw [hmoves] at hupMoves
  -- without two dots both ways lead down, and the one to the file is longer
  have hleadMoves : lead.filter (· ≠ ".") = parent.moves :=
    List.append_cancel_right ((Path.moves_of_steps hplain hsteps hdots).symm.trans hmoves)
  have hupLead : ".." ∉ lead := fun hmem => hupMoves (List.mem_append_left _ (hleadMoves ▸
    List.mem_filter.2 ⟨hmem, by decide⟩))
  have hupFront : ".." ∉ front := fun hmem => hupMoves (List.mem_append_left _
    (Path.filter_steps parent ▸ List.mem_filter.2 ⟨hfront.subset hmem, by decide⟩))
  obtain ⟨directory, hdirectory, rfl⟩ :=
    exists_directory_of_resolve hplain hsteps hdots hplace
  have hdown := eq_append_of_foldlM hupFront hway
  rw [eq_append_of_foldlM hupLead hdirectory, hleadMoves, hstart] at hdown
  have hlength := congrArg List.length hdown
  have hle : (front.filter (· ≠ ".")).length ≤ parent.moves.length := by
    rw [← Path.filter_steps]
    exact (hfront.sublist.filter _).length_le
  simp only [List.length_append, List.length_singleton] at hlength
  omega

/-! ## The replacement -/

theorem ne_nil_of_node? {tree : FileTree} {place : Place}
    (h : tree.node? place ≠ some .directory) : place ≠ [] := by
  rintro rfl
  simp at h

/-- What is written stands at the place that its path leads to, and nothing else has
changed. -/
theorem node?_of_write {made written : FileTree} {source : Path} {content : ByteArray}
    (h : made.write source content = .ok written) :
    DirectoriesKept made written ∧ ∃ old, written.resolve source = .ok old ∧
      ∀ place, old ≠ place → written.node? place = made.node? place := by
  obtain ⟨old, hold, hfree, rfl⟩ := write_eq_ok h
  have hput : EditedAt (· = old) made (made.put old (.file content)) :=
    put_editedAt (fun hw => hw.isPlace_resolve hold) hfree
  refine ⟨hput.kept, old, resolve_kept hput.kept hold, fun place hplace => ?_⟩
  rw [node?_put _ _ _ (ne_nil_of_node? hfree), if_neg hplace]

/-- What is written and then moved is gone from its first place, and nothing has
changed but at the two places. -/
theorem node?_of_moved {made written moved : FileTree} {source target : Path}
    {content : ByteArray} (hwrite : made.write source content = .ok written)
    (hrename : written.rename source target = .ok moved) :
    DirectoriesKept made moved ∧ ∃ old new, moved.resolve source = .ok old ∧
      moved.resolve target = .ok new ∧ (new ≠ old → moved.node? old = none) ∧
      ∀ place, old ≠ place → new ≠ place → moved.node? place = made.node? place := by
  obtain ⟨hkept, -⟩ := node?_of_write hwrite
  obtain ⟨old, new, hold, hfree, rfl, hnew, hfreeNew, rfl⟩ := moved_of_write hwrite hrename
  have hcontent : (made.put old (.file content)).content? old = some content :=
    content?_put_self hfree
  have hedited := (erase_put_editedAt hcontent hnew hfreeNew).2
  have hnode (place : Place) (hplace : new ≠ place) :
      (((made.put old (.file content)).erase old).put new (.file content)).node? place =
        ((made.put old (.file content)).erase old).node? place := by
    rw [node?_put _ _ _ (ne_nil_of_node? hfreeNew), if_neg hplace]
  refine ⟨hkept.trans hedited.kept, old, new, resolve_kept hedited.kept (resolve_kept hkept hold),
    resolve_kept hedited.kept hnew, fun hne => ?_, fun place holdPlace hnewPlace => ?_⟩
  · rw [hnode old hne, node?_erase _ _ (ne_nil_of_node? hfree), if_pos rfl]
  · rw [hnode place hnewPlace, node?_erase _ _ (ne_nil_of_node? hfree), if_neg holdPlace,
      node?_put _ _ _ (ne_nil_of_node? hfree), if_neg holdPlace]

/-- What a replacement that succeeds leaves behind. -/
structure Replaced (before after : FileTree) (path : Path) (content : ByteArray) : Prop where
  /-- The file holds the content. -/
  content : after.readBytes path = .ok content
  /-- Nothing is left at the temporary path. -/
  temporary : after.lookup path.temporary = .error .notFound
  /-- Everywhere else at most a missing directory was made. -/
  others : ∀ place, after.resolve path ≠ .ok place → after.resolve path.temporary ≠ .ok place →
    Spared before after path place

/-- What a replacement that fails leaves behind. -/
structure Withheld (before after : FileTree) (path : Path) : Prop where
  /-- What could be found under the path is still found there. -/
  kept : ∀ node, before.lookup path = .ok node → after.lookup path = .ok node
  /-- The place of the file is as before, or the path leads through it and up again,
  so that a directory was made where nothing stood. -/
  target : ∀ place, after.resolve path = .ok place →
    after.node? place = before.node? place ∨
      .up ∈ path.components ∧ before.node? place = none ∧
        after.node? place = some .directory ∧ after.OnTheWay path place
  /-- Everywhere but at the temporary path at most a missing directory was made. -/
  others : ∀ place, after.resolve path.temporary ≠ .ok place → Spared before after path place

theorem Withheld.of_spared {before after : FileTree} {path : Path} {name : String}
    (hname : path.fileName? = some name) (hkept : DirectoriesKept before after)
    (h : ∀ place, after.resolve path.temporary ≠ .ok place → Spared before after path place) :
    Withheld before after path := by
  refine ⟨fun node hnode => ?_, fun place hplace => ?_, h⟩
  · obtain ⟨place, hplace, hfound⟩ := lookup_eq_ok.1 hnode
    have hafter := resolve_kept hkept hplace
    have hspared := h place (resolve_temporary_ne hname hafter)
    exact lookup_eq_ok.2 ⟨place, hafter, (hspared.eq_of_some (by simp [hfound])).trans hfound⟩
  · obtain hsame | ⟨hnone, hmade, hway⟩ := h place (resolve_temporary_ne hname hplace)
    · exact .inl hsame
    · exact .inr ⟨up_mem_of_onTheWay hname hplace hway, hnone, hmade, hway⟩

theorem Replaced.of_moved {before made written moved : FileTree} {path : Path} {name : String}
    {content : ByteArray} (hname : path.fileName? = some name)
    (hspared : ∀ place, Spared before made path place)
    (hwrite : made.write path.temporary content = .ok written)
    (hrename : written.rename path.temporary path = .ok moved)
    (hread : moved.readBytes path = .ok content) : Replaced before moved path content := by
  obtain ⟨hkept, old, new, hold, hnew, hgone, hsame⟩ := node?_of_moved hwrite hrename
  have hne : new ≠ old := by
    rintro rfl
    exact resolve_temporary_ne hname hnew hold
  refine ⟨hread, ?_, fun place hplace htemporary => ?_⟩
  · simp only [lookup, hold, hgone hne]
  · have holdPlace : old ≠ place := by
      rintro rfl
      exact htemporary hold
    have hnewPlace : new ≠ place := by
      rintro rfl
      exact hplace hnew
    exact (hspared place).trans_eq hkept (hsame place holdPlace hnewPlace)

/-- **Replacing a file** at any path with a file name does not tear it.  The temporary
path is another one and never leads to the same place.  If the replacement succeeds,
the file holds the content, nothing is left at the temporary path, and at most missing
directories were added elsewhere.  If it fails, at whichever step, no file but the
temporary one has changed, what stood at the path still stands there, and where nothing
stood there is nothing, unless the path leads through it and up again. -/
theorem replace_replaced_or_withheld {path : Path} {name : String}
    (hname : path.fileName? = some name) (content : ByteArray) :
    path.temporary ≠ path ∧
      (∀ (tree : FileTree) place, tree.resolve path = .ok place →
        tree.resolve path.temporary ≠ .ok place) ∧
      ∀ tree after : FileTree,
        (tree.replace path content = (after, .ok ()) → Replaced tree after path content) ∧
        ∀ e, tree.replace path content = (after, .error e) → Withheld tree after path := by
  refine ⟨Path.temporary_ne hname, fun tree place => resolve_temporary_ne hname,
    fun tree after => ?_⟩
  have hspared := createParent_spared tree path
  have hparent := (createParent_editedAt tree path).kept
  obtain ⟨made, cause, hmade, hstop⟩ | ⟨made, hmade, ⟨cause, -, hstop⟩ | ⟨written, hwrite,
    ⟨cause, -, hstop⟩ | ⟨moved, hrename, hmoved⟩⟩⟩ := replace_cases tree path content
  all_goals
    rw [hmade] at hspared hparent
  -- no parent, or no temporary file: at most directories were made
  iterate 2
    refine ⟨fun h => by simp [hstop] at h, fun e h => ?_⟩
    obtain rfl : made = after := congrArg Prod.fst (hstop.symm.trans h)
    exact .of_spared hname hparent fun place _ => hspared place
  · refine ⟨fun h => by simp [hstop] at h, fun e h => ?_⟩
    obtain rfl : written = after := congrArg Prod.fst (hstop.symm.trans h)
    obtain ⟨hkept, old, hold, hsame⟩ := node?_of_write hwrite
    refine .of_spared hname (hparent.trans hkept) fun place htemporary => ?_
    have hplace : old ≠ place := by
      rintro rfl
      exact htemporary hold
    exact (hspared place).trans_eq hkept (hsame place hplace)
  · refine ⟨fun h => ?_, fun e h => by simp [hmoved] at h⟩
    obtain rfl : moved = after := congrArg Prod.fst (hmoved.symm.trans h)
    exact .of_moved hname hspared hwrite hrename (readBytes_of_replace hmoved)

/-- A name with three dots, in a directory that is made first, and below a file. -/
theorem replace_siteFile :
    let path : Path := ⟨"/site/.app.v2.json"⟩
    let content := "new".toUTF8
    let blocked := ({} : FileTree).put ["site"] (.file "old".toUTF8)
    path.fileName? = some ".app.v2.json" ∧ path.temporary ≠ path ∧
      (∃ after, ({} : FileTree).replace path content = (after, .ok ()) ∧
        Replaced {} after path content) ∧
      ∃ after e, blocked.replace path content = (after, .error e) ∧
        Withheld blocked after path := by
  intro path content blocked
  have hname : path.fileName? = some ".app.v2.json" := by decide +kernel
  have hdone : (({} : FileTree).replace path content).2.isOk = true := by decide +kernel
  have hstopped : (blocked.replace path content).2.isOk = false := by decide +kernel
  obtain ⟨hne, -, hreplace⟩ := replace_replaced_or_withheld hname content
  refine ⟨hname, hne, ?_, ?_⟩
  · rcases hresult : ({} : FileTree).replace path content with ⟨after, e | ⟨⟩⟩
    · rw [hresult] at hdone
      cases hdone
    · exact ⟨after, rfl, (hreplace {} after).1 hresult⟩
  · rcases hresult : blocked.replace path content with ⟨after, e | ⟨⟩⟩
    · exact ⟨after, e, rfl, (hreplace blocked after).2 e hresult⟩
    · rw [hresult] at hstopped
      cases hstopped

/-- The place of a file is not as before if the path leads through it and up again,
and it was missing: a directory is made there, so the file cannot be moved to it. -/
theorem not_kept_through_target :
    ¬∀ (tree after : FileTree) (path : Path) (name : String) (content : ByteArray)
      (e : ManifestError) (place : Place), path.fileName? = some name →
      tree.replace path content = (after, .error e) → after.resolve path = .ok place →
      after.node? place = tree.node? place := by
  intro hall
  have hname : Path.fileName? ⟨"/x/../x"⟩ = some "x" := by decide +kernel
  have hfacts :
      let result := ({} : FileTree).replace ⟨"/x/../x"⟩ "new".toUTF8
      result.2.isOk = false ∧ (result.1.resolve ⟨"/x/../x"⟩).toOption = some ["x"] ∧
        result.1.node? ["x"] ≠ ({} : FileTree).node? ["x"] := by
    decide +kernel
  rcases hresult : ({} : FileTree).replace ⟨"/x/../x"⟩ "new".toUTF8 with ⟨after, e | ⟨⟩⟩
  · rw [hresult] at hfacts
    obtain ⟨-, hplace, hchanged⟩ := hfacts
    cases hresolve : after.resolve ⟨"/x/../x"⟩ with
    | error cause => simp [hresolve, Except.toOption] at hplace
    | ok place =>
      obtain rfl : place = ["x"] := by simpa [hresolve, Except.toOption] using hplace
      exact hchanged (hall {} after _ "x" _ e _ hname hresult hresolve)
  · rw [hresult] at hfacts
    cases hfacts.1

end FileTree

end OpManifest
