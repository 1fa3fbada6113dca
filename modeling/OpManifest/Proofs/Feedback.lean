import OpManifest.Proofs.Deletion
import OpManifest.Proofs.FailedChange
import OpManifest.Proofs.Spelling

/-!
# No feedback

A server that watches its project is told of what it writes itself.  Nothing comes
of this, wherever the output goes and whatever the glob selects (`no_feedback`): a
trigger touches the files of manifests, which are known by their names
(`isOwnOutput_of_resolve`), and directories that it makes on the way, which can be
told as a source or as the configuration but can be neither (`quiet_of_directory`).
-/

namespace OpManifest

open FileTree

/-! ## Paths to output -/

namespace Path

/-- A path that is followed to a plain name at last has this file name. -/
theorem fileName?_of_steps {p : Path} {name : String} (h : p.steps.getLast? = some name)
    (hname : IsName name) : p.fileName? = some name := by
  obtain ⟨front, hsteps⟩ := List.getLast?_eq_some_iff.1 h
  have hmoves : p.moves.map Component.ofName =
      (front.filter (· ≠ ".")).map Component.ofName ++ [.name name] := by
    rw [← filter_steps, hsteps, List.filter_append,
      List.filter_cons_of_pos (by simpa using hname.2.2.1), List.filter_nil, List.map_append,
      List.map_singleton, ofName_of_isName hname]
  have hlast : p.components.getLast? = some (.name name) := by
    by_cases habsolute : p.isAbsolute = true
    · rw [components_of_isAbsolute habsolute, hmoves, ← List.cons_append, List.getLast?_concat]
    · obtain ⟨piece, rest, hsplit⟩ := Text.exists_cons_split '/' p.text.toList
      rw [components_of_split (by simpa using habsolute) hsplit, hmoves, ← List.append_assoc,
        List.getLast?_concat]
  rw [fileName?_eq, hlast]
  rfl

/-- Behind an absolute path, a path is followed to the same name at last, or to a
directory. -/
theorem getLast?_steps_join {root : Path} (hroot : root.isAbsolute = true) (p : Path) :
    (root.join p).steps.getLast? = p.steps.getLast? ∨
      (root.join p).steps.getLast? = some "." := by
  by_cases habsolute : p.isAbsolute = true
  · rw [join, if_pos habsolute]
    exact .inl rfl
  have hrelative : p.isAbsolute = false := by simpa using habsolute
  by_cases hempty : p.text = ""
  · right
    rw [steps_eq, if_pos (getLast?_join_of_empty hroot hempty), List.getLast?_concat]
  · left
    have hne : p.steps ≠ [] := steps_ne_nil hempty
    rw [steps_join_of_ne root hrelative hempty, List.getLast?_append_of_ne_nil _ hne]

end Path

namespace FileTree

variable {tree : FileTree} {place : Place}

/-- Files are told apart by their content. -/
theorem node?_eq_of_content? {other : FileTree} (hnode : tree.node? place ≠ some .directory)
    (hother : other.node? place ≠ some .directory)
    (h : tree.content? place = other.content? place) : tree.node? place = other.node? place := by
  unfold content? at h
  rcases hone : tree.node? place with _ | _ | content
  · rcases htwo : other.node? place with _ | _ | content
    · rfl
    · exact absurd htwo hother
    · simp [hone, htwo] at h
  · exact absurd hone hnode
  · rcases htwo : other.node? place with _ | _ | content'
    · simp [hone, htwo] at h
    · exact absurd htwo hother
    · simp only [hone, htwo, Option.some.injEq] at h
      rw [h]

/-- What is not a directory is found at the end of plain names. -/
theorem WellFormed.getLast?_steps (h : tree.WellFormed) {p : Path}
    (hplace : tree.resolve p = .ok place) (hnode : tree.node? place ≠ some .directory) :
    ∃ name, p.steps.getLast? = some name ∧ Path.IsName name ∧ place.getLast? = some name := by
  unfold resolve at hplace
  split_ifs at hplace with hempty hzero
  have hzero : '\x00' ∉ p.text.toList := by simpa using hzero
  obtain hnil | ⟨front, last, hsteps⟩ := List.eq_nil_or_concat' p.steps
  · exact absurd hnil (steps_ne_nil hempty)
  rw [hsteps, List.foldlM_append] at hplace
  cases hdirectory : front.foldlM tree.follow (tree.start p) with
  | error e => simp [hdirectory, bind, Except.bind] at hplace
  | ok directory =>
    rw [hdirectory] at hplace
    obtain ⟨next, hnext, hlast⟩ := foldlM_cons_eq_ok.1 hplace
    obtain rfl := Except.ok.inj hlast
    have hstep := isStep_of_mem_steps hzero (hsteps ▸ List.mem_append_right front
      (List.mem_singleton_self last))
    obtain ⟨hhere, ⟨-, rfl⟩ | ⟨-, rfl⟩ | ⟨hdot, hup, -, rfl⟩⟩ := follow_eq_ok hnext
    · exact absurd hhere hnode
    · refine absurd ?_ hnode
      obtain rfl | ⟨above, name, rfl⟩ := List.eq_nil_or_concat' directory
      · exact hhere
      · rw [List.dropLast_concat]
        exact h.parent above name (by simp [hhere])
    · obtain heq | heq | ⟨hname, -⟩ := hstep
      · exact absurd heq hdot
      · exact absurd heq hup
      · exact ⟨last, by simp [hsteps], hname, by simp⟩

end FileTree

/-- The output of a session is known by its name. -/
theorem isOwnOutput_of_resolve {tree : FileTree} {root path : Path} {place : Place}
    (hwell : tree.WellFormed) (hroot : root.isAbsolute = true)
    (hplace : tree.resolve (root.join path) = .ok place)
    (hnode : tree.node? place ≠ some .directory) (houtput : Manifest.IsOutput place) :
    Session.isOwnOutput path = true := by
  obtain ⟨name, hsteps, hname, hlast⟩ := hwell.getLast?_steps hplace hnode
  have hown : path.steps.getLast? = some name := by
    obtain hsame | hdot := Path.getLast?_steps_join hroot path
    · exact hsame ▸ hsteps
    · obtain rfl := Option.some.inj (hsteps.symm.trans hdot)
      exact absurd rfl hname.2.2.1
  rw [Session.isOwnOutput, Path.fileName?_of_steps hown hname]
  obtain hmanifest | htemporary := houtput
  · obtain rfl := Option.some.inj (hlast.symm.trans hmanifest)
    decide
  · obtain rfl := Option.some.inj (hlast.symm.trans htemporary)
    decide

/-! ## Directories -/

theorem loadProject_of_directory {tree : FileTree} {path : Path} {place : Place}
    (hplace : tree.resolve path = .ok place) (hnode : tree.node? place = some .directory)
    (loaded : ProjectConfig × Glob) : loadProject tree path ≠ .ok loaded := by
  intro hload
  have hfile := isFile_of_loadProject hload
  have hlookup : tree.lookup path = .ok .directory := lookup_eq_ok.2 ⟨place, hplace, hnode⟩
  simp [isFile, hlookup] at hfile

/-- A directory is no source. -/
theorem SourceCache.process_of_directory {cache : SourceCache} {extractor : Script.Extractor}
    {tree : FileTree} {root path : Path} {place : Place}
    (hplace : tree.resolve (root.join (sourceKey root path)) = .ok place)
    (hnode : tree.node? place = some .directory) (outcome : FileOutcome) :
    (cache.process extractor tree root path).result ≠ .ok outcome := by
  have hlookup : tree.lookup (root.join (sourceKey root path)) = .ok .directory :=
    lookup_eq_ok.2 ⟨place, hplace, hnode⟩
  have hread : tree.readText (root.join (sourceKey root path)) = .error .isDirectory := by
    simp [readText, readBytes, hlookup]
  have hworked : Worked cache extractor tree root (sourceKey root path) _ :=
    .unreadable .isDirectory hread (by simp)
  rw [← hworked.eq_process]
  simp

namespace Session

/-- Nothing comes of telling the session of the path, at any time. -/
def Quiet (session : Session) (tree : FileTree) (path : Path) : Prop :=
  ∀ time, ∃ log, session.applyChange tree path time = (session, tree, false, log)

variable {session : Session} {tree : FileTree} {path : Path} {base place : Place}

theorem quiet_of_isOwnOutput (h : isOwnOutput path = true) : session.Quiet tree path := by
  intro time
  obtain ⟨log, heq⟩ := session.applyChange_eq tree path time
  rw [if_pos h] at heq
  exact ⟨log, heq⟩

/-- Nothing comes of a change that cannot be taken in or does not matter. -/
theorem quiet_of_absorb (h : ∀ ready, session.absorb tree path ≠ .ok (some ready)) :
    session.Quiet tree path := by
  intro time
  obtain ⟨log, heq⟩ := session.applyChange_eq tree path time
  have hrun := session.fileChanged_run tree path time
  generalize session.absorb tree path = asked at h hrun
  generalize session.fileChanged tree path time = run at heq hrun
  have hquiet : run.1 = session ∧ run.2.tree = tree ∧
      run.2.result.toOption.any (· ≠ .ignored) = false := by
    cases hrun with
    | refused e log extractions => exact ⟨rfl, rfl, rfl⟩
    | ignored => exact ⟨rfl, rfl, rfl⟩
    | published ready => exact absurd rfl (h ready)
  obtain ⟨hsession, htree, hresult⟩ := hquiet
  rw [hsession, htree, hresult, ite_self] at heq
  exact ⟨log, heq⟩

/-- A directory is located at its place. -/
theorem resolve_locate (hwell : tree.WellFormed) (hroot : session.root.isAbsolute = true)
    (hplace : tree.resolve (session.root.join path) = .ok place)
    (hnode : tree.node? place = some .directory) :
    (session.locate tree path).isAbsolute = true ∧
      tree.resolve (session.locate tree path) = .ok place := by
  have habsolute := Path.isAbsolute_join_of_isAbsolute hroot path
  obtain htold | ⟨parent, name, directory, hparent, hname, hdirectory, hnames, hlocated⟩ :=
    session.locate_cases hwell path
  · rw [htold]
    exact ⟨habsolute, hplace⟩
  · have hcomponents := Path.components_of_parent? habsolute hparent hname
    have hparentAbsolute : parent.isAbsolute = true :=
      Path.isAbsolute_of_components (Path.components_parent habsolute hparent)
    -- both paths lead where their components lead
    have hsame : place = directory ++ [name] := by
      rw [resolve_eq_target habsolute hplace, Path.target, hcomponents, List.foldl_append,
        resolve_eq_target hparentAbsolute hdirectory]
      rfl
    rw [hlocated, ← hsame]
    exact ⟨(Path.spells_ofPlace place).isAbsolute, hwell.resolve_of_node (by simp [hnode])⟩

/-- A directory is neither a configuration nor a source. -/
theorem quiet_of_directory (hwell : tree.WellFormed)
    (hserve : session.context.command = .serve) (hroot : session.root = Path.ofPlace base)
    (hbase : ∀ name ∈ base, Path.IsName name)
    (hplace : tree.resolve (session.root.join path) = .ok place)
    (hnode : tree.node? place = some .directory) : session.Quiet tree path := by
  have habsolute : session.root.isAbsolute = true := hroot ▸ (Path.spells_ofPlace base).isAbsolute
  obtain ⟨hlocatedAbsolute, hlocated⟩ := resolve_locate hwell habsolute hplace hnode
  apply quiet_of_absorb
  intro ready hready
  cases hsubject : session.subject tree path with
  | nothing => simp [absorb_of_nothing hserve hsubject] at hready
  | configuration =>
    have hconfig := resolve_congr_of_directory hlocatedAbsolute (components_of_subject hsubject)
      hnode hlocated
    rw [absorb_of_configuration hserve hsubject] at hready
    cases hload : loadProject tree session.configPath with
    | error e => simp [hload, Except.map] at hready
    | ok loaded => exact loadProject_of_directory hconfig hnode loaded hload
  | source file =>
    obtain ⟨hstrip, -⟩ := source_of_subject hsubject
    obtain ⟨hcomponents, htrimmed⟩ :=
      Path.components_of_stripPrefix?_of_isAbsolute habsolute hstrip
    have hjoined : (session.locate tree path).components =
        (session.root.join (sourceKey session.root file)).components := by
      rw [sourceKey_of_relative habsolute htrimmed.isAbsolute, hcomponents, hroot,
        Path.components_join htrimmed.isAbsolute hbase, htrimmed.components]
    have hkey := resolve_congr_of_directory hlocatedAbsolute hjoined hnode hlocated
    rw [absorb_of_source hserve hsubject rfl] at hready
    cases hresult : (session.cache.process session.extractor tree session.root file).result with
    | error cause => simp [hresult, Except.mapError, Except.map] at hready
    | ok outcome => exact SourceCache.process_of_directory hkey hnode outcome hresult

/-! ## What a trigger touches -/

/-- The path leads to what a trigger has touched: something else stands there than
before, or a manifest or its temporary file is written there. -/
def Touched (session : Session) (before after : FileTree) (path : Path) : Prop :=
  ∃ place, after.resolve (session.root.join path) = .ok place ∧
    (before.node? place ≠ after.node? place ∨ ∃ base : Path,
      (base = session.root ∨ base = session.outDir) ∧
        (after.resolve (base.join ⟨manifestFileName⟩) = .ok place ∨
          after.resolve (base.join ⟨manifestFileName⟩).temporary = .ok place))

/-- Where a manifest or its temporary file is written is the place of an output. -/
theorem isOutput_of_resolve {base : Path}
    (h : tree.resolve (base.join ⟨manifestFileName⟩) = .ok place ∨
      tree.resolve (base.join ⟨manifestFileName⟩).temporary = .ok place) :
    Manifest.IsOutput place := by
  obtain hmanifest | htemporary := h
  · obtain ⟨directory, -, -, rfl⟩ := (resolve_join_eq_ok isNodeName_manifestFileName).1 hmanifest
    exact .inl (by simp)
  · rw [temporary_join] at htemporary
    obtain ⟨directory, -, -, rfl⟩ := (resolve_join_eq_ok isNodeName_temporaryFileName).1 htemporary
    exact .inr (isTemporary_append directory)

/-- What has changed is the place of an output, or a directory that is new. -/
theorem isOutput_of_node?_ne {before after : FileTree}
    (hedited : EditedAt Manifest.IsOutput before after)
    (h : before.node? place ≠ after.node? place) (hnode : after.node? place ≠ some .directory) :
    Manifest.IsOutput place := by
  by_contra hother
  have hbefore : before.node? place ≠ some .directory := fun hdirectory =>
    hnode (hedited.kept.directory place hdirectory)
  exact h (node?_eq_of_content? hbefore hnode (hedited.content place hother).symm)

theorem quiet_of_touched {before after : FileTree} (hwell : after.WellFormed)
    (hserve : session.context.command = .serve) (hroot : session.root = Path.ofPlace base)
    (hbase : ∀ name ∈ base, Path.IsName name)
    (hedited : EditedAt Manifest.IsOutput before after) (h : session.Touched before after path) :
    session.Quiet after path := by
  obtain ⟨place, hplace, hwhy⟩ := h
  by_cases hnode : after.node? place = some .directory
  · exact quiet_of_directory hwell hserve hroot hbase hplace hnode
  · apply quiet_of_isOwnOutput
    have habsolute : session.root.isAbsolute = true :=
      hroot ▸ (Path.spells_ofPlace base).isAbsolute
    refine isOwnOutput_of_resolve hwell habsolute hplace hnode ?_
    obtain hchanged | ⟨_, -, hwritten⟩ := hwhy
    · exact isOutput_of_node?_ne hedited hchanged hnode
    · exact isOutput_of_resolve hwritten

/-! ## Changes that are told one after the other -/

/-- Tells the session of changes, each at its time, and reports of each whether
the manifest was published again. -/
def applyAll (session : Session) (tree : FileTree) :
    List (Path × Nat) → Session × FileTree × List Bool
  | [] => (session, tree, [])
  | (path, time) :: changes =>
    let (next, after, rewritten, _) := session.applyChange tree path time
    let (last, final, others) := next.applyAll after changes
    (last, final, rewritten :: others)

theorem applyAll_of_quiet {changes : List (Path × Nat)}
    (h : ∀ told ∈ changes, session.Quiet tree told.1) :
    session.applyAll tree changes = (session, tree, changes.map fun _ => false) := by
  induction changes with
  | nil => rfl
  | cons told changes ih =>
    obtain ⟨path, time⟩ := told
    obtain ⟨log, hquiet⟩ := h (path, time) (by simp) time
    rw [applyAll, hquiet]
    simp only [ih fun other hother => h other (List.mem_cons_of_mem _ hother), List.map_cons]

/-- **No feedback.**  After the start of a server, and after every change that it
is told of in any state that it can come to, it can be told of what this trigger
has touched, in any order and as often as one likes: nothing is published again,
and the session and all files stay as they are. -/
theorem no_feedback {options : SessionOptions} {tree : FileTree} {time : Nat} {session : Session}
    (hwell : tree.WellFormed) (hstart : (start options tree time).result = .ok session)
    (hserve : options.context.command = .serve) :
    (∀ changes : List (Path × Nat),
      (∀ told ∈ changes, session.Touched tree (start options tree time).tree told.1) →
        session.applyAll (start options tree time).tree changes =
          (session, (start options tree time).tree, changes.map fun _ => false)) ∧
    ∀ (calls : List Call) (now : FileTree) (path : Path) (later : Nat), now.WellFormed →
      let last := ((session.afterAll calls).fileChanged now path later).1
      let after := ((session.afterAll calls).fileChanged now path later).2.tree
      ∀ changes : List (Path × Nat), (∀ told ∈ changes, last.Touched now after told.1) →
        last.applyAll after changes = (last, after, changes.map fun _ => false) := by
  have hcommand : session.context.command = .serve := by
    rw [context_of_start hstart]
    exact hserve
  obtain ⟨base, hstarted⟩ := World.startedIn_of_start hwell hstart hcommand
  have hbase := World.isName_base hstarted
  constructor
  · intro changes htouched
    obtain ⟨first, written, -, hpublish⟩ := publish_of_start hstart hcommand
    have hedited := first.publish_editedAt tree time
    rw [hpublish] at hedited
    exact applyAll_of_quiet fun told htold =>
      quiet_of_touched hstarted.wellFormed hcommand hstarted.root hbase hedited
        (htouched told htold)
  · intro calls now path later hnow last after changes htouched
    have hsame : World.SameProject session last := (session.sameProject_afterAll calls).trans
      ((session.afterAll calls).sameProject_after (.fileChanged now path later))
    have hedited := World.fileChanged_editedAt (session.afterAll calls) now path later
    refine applyAll_of_quiet fun told htold => ?_
    exact quiet_of_touched (hedited.wellFormed hnow) (hsame.context ▸ hcommand)
      (hsame.root.trans hstarted.root) hbase hedited (htouched told htold)

/-- A project whose glob selects everything. -/
def greedyProject : FileTree :=
  ({} : FileTree).saveFile ⟨"/p/toolgraph.toml"⟩ "name = \"x\"\ninclude = \"**\"\n".toUTF8

/-- Paths to what a publication in the project touches, with their places: the
directory of the output in two spellings, the two manifests, and a temporary
file. -/
def greedyPaths : List (Path × Place) :=
  [(⟨"/p/dist"⟩, ["p", "dist"]), (⟨"dist/../dist/"⟩, ["p", "dist"]),
    (⟨".application-manifest.json"⟩, ["p", ".application-manifest.json"]),
    (⟨"/p/dist/.application-manifest.json"⟩, ["p", "dist", ".application-manifest.json"]),
    (⟨"dist/.application-manifest.json.tmp"⟩, ["p", "dist", ".application-manifest.json.tmp"])]

/-- The paths lead to their places, which are changed or written to. -/
def TouchesGreedy (session : Session) (after : FileTree) : Prop :=
  ∀ told ∈ greedyPaths, (after.resolve (session.root.join told.1)).toOption = some told.2 ∧
    (greedyProject.node? told.2 ≠ after.node? told.2 ∨
      (after.resolve (session.outDir.join ⟨manifestFileName⟩).temporary).toOption = some told.2)
  deriving Decidable

theorem TouchesGreedy.touched {after : FileTree} (h : session.TouchesGreedy after) :
    ∀ told ∈ greedyPaths.map fun told => (told.1, 1),
      session.Touched greedyProject after told.1 := by
  intro told hmem
  obtain ⟨⟨path, place⟩, hpath, rfl⟩ := List.mem_map.1 hmem
  obtain ⟨hplace, hchanged | hwritten⟩ := h _ hpath
  · exact ⟨place, eq_ok_of_toOption hplace, .inl hchanged⟩
  · exact ⟨place, eq_ok_of_toOption hplace, .inr ⟨session.outDir, .inr rfl,
      .inr (eq_ok_of_toOption hwritten)⟩⟩

/-- Nothing is published again after the start of the project, nor after its
configuration has changed. -/
theorem no_feedback_in_greedyProject :
    ∃ session, (start (bareOptions .serve) greedyProject 0).result = .ok session ∧
      session.glob.selects "dist" = true ∧
      session.applyAll (start (bareOptions .serve) greedyProject 0).tree
          (greedyPaths.map fun told => (told.1, 1)) =
        (session, (start (bareOptions .serve) greedyProject 0).tree,
          [false, false, false, false, false]) ∧
      let run := session.fileChanged greedyProject ⟨"toolgraph.toml"⟩ 1
      run.2.result.isOk = true ∧
        run.1.applyAll run.2.tree (greedyPaths.map fun told => (told.1, 1)) =
          (run.1, run.2.tree, [false, false, false, false, false]) := by
  have hfacts : (start (bareOptions .serve) greedyProject 0).result.toOption.any (fun session =>
      let run := session.fileChanged greedyProject ⟨"toolgraph.toml"⟩ 1
      session.glob.selects "dist" = true ∧ run.2.result.isOk = true ∧
        session.TouchesGreedy (start (bareOptions .serve) greedyProject 0).tree ∧
        run.1.TouchesGreedy run.2.tree) = true := by
    decide +kernel
  obtain ⟨session, hsession, hall⟩ := exists_ok_of_any hfacts
  obtain ⟨hselects, hok, hstarted, hchanged⟩ := of_decide_eq_true hall
  have hwell : greedyProject.WellFormed := (saveFile_editedAt _ _ _).wellFormed wellFormed_empty
  obtain ⟨hafterStart, hafterChange⟩ := no_feedback hwell hsession rfl
  exact ⟨session, hsession, hselects, hafterStart _ hstarted.touched, hok,
    hafterChange [] greedyProject ⟨"toolgraph.toml"⟩ 1 hwell _ hchanged.touched⟩

end Session

end OpManifest
