import OpManifest.Proofs.SourceCache
import OpManifest.Proofs.Store
import OpManifest.Session.Basic

/-!
# What a trigger does

Every trigger takes in what has happened and then publishes the manifest.  The
first part is a function of its own, `scanned` for the start of a session and
`absorb` for the change of a file, and the second is `publish`.  So what is true
of a publication is true of all triggers, and the theorems below say of each
trigger which session it publishes, in which tree.
-/

namespace OpManifest

open FileTree

/-- The error arose before a manifest was being put together: the change could
not be taken in. -/
def SessionError.beforePublication : SessionError → Bool
  | .manifest _ => false
  | _ => true

namespace Session

/-! ## Publishing -/

/-- A publication stops where the manifest cannot be assembled or written;
otherwise the session remembers the manifest. -/
theorem publish_cases (session : Session) (tree : FileTree) (time : Nat) :
    (∃ cause, assemble session.cache.operations session.config session.context time =
        .error cause ∧
      session.publish tree time = (session, tree, .error (.manifest cause))) ∨
    ∃ manifest, assemble session.cache.operations session.config session.context time =
        .ok manifest ∧
      ((∃ after cause, manifest.publish tree session.root session.outDir = (after, .error cause) ∧
          session.publish tree time = (session, after, .error (.manifest cause))) ∨
        ∃ after written, manifest.publish tree session.root session.outDir = (after, .ok written) ∧
          session.publish tree time =
            ({ session with manifest := some manifest }, after, .ok written)) := by
  unfold publish
  cases hassemble : assemble session.cache.operations session.config session.context time with
  | error cause => exact .inl ⟨cause, rfl, rfl⟩
  | ok manifest =>
    refine .inr ⟨manifest, rfl, ?_⟩
    rcases hpublish : manifest.publish tree session.root session.outDir with
      ⟨after, cause | written⟩
    · exact .inl ⟨after, cause, rfl, by simp only [hpublish]⟩
    · exact .inr ⟨after, written, rfl, by simp only [hpublish]⟩

/-- A publication changes of the session only the manifest that it remembers. -/
theorem publish_fst (session : Session) (tree : FileTree) (time : Nat) :
    (session.publish tree time).1 =
      { session with manifest := (session.publish tree time).1.manifest } := by
  obtain ⟨_, -, h⟩ | ⟨_, -, ⟨_, _, -, h⟩ | ⟨_, _, -, h⟩⟩ := session.publish_cases tree time <;>
    simp [h]

/-- A publication that fails leaves the session as it is. -/
theorem publish_fst_of_error {session last : Session} {tree after : FileTree} {time : Nat}
    {e : SessionError} (h : session.publish tree time = (last, after, .error e)) :
    last = session := by
  obtain ⟨_, -, hstop⟩ | ⟨_, -, ⟨_, _, -, hstop⟩ | ⟨_, _, -, hstop⟩⟩ :=
    session.publish_cases tree time
  · exact congrArg Prod.fst (h.symm.trans hstop)
  · exact congrArg Prod.fst (h.symm.trans hstop)
  · simp [hstop] at h

/-- A publication touches the files of manifests only. -/
theorem publish_editedAt (session : Session) (tree : FileTree) (time : Nat) :
    EditedAt Manifest.IsOutput tree (session.publish tree time).2.1 := by
  obtain ⟨_, -, h⟩ | ⟨manifest, -, ⟨after, _, hpublish, h⟩ | ⟨after, _, hpublish, h⟩⟩ :=
    session.publish_cases tree time
  · rw [h]
    exact .refl tree
  · rw [h]
    exact Manifest.editedAt_of_error hpublish
  · rw [h]
    exact (Manifest.publish_of_ok hpublish).2.2.2

/-! ## Start -/

/-- A new session after its first scan. -/
def scanned (options : SessionOptions) (tree : FileTree) : Except SessionError Session :=
  match tree.canonical? options.root with
  | none => .error .rootMissing
  | some root =>
    let path := ProjectConfig.pathIn root options.configFile
    match loadProject tree path with
    | .error e => .error e
    | .ok (config, glob) =>
      let run := ({} : SourceCache).scan options.extractor tree root glob
      match run.result with
      | .error cause => .error (.compile cause)
      | .ok _ => .ok {
          root, config, glob
          configPath := (tree.canonical? path).getD path
          outDirOverride := options.outDir
          context := options.context
          extractor := options.extractor
          cache := run.cache
          finalized := false
          manifest := none }

/-- A start is a scan, and for a server a publication behind it. -/
theorem start_eq (options : SessionOptions) (tree : FileTree) (time : Nat) :
    ((start options tree time).result, (start options tree time).tree) =
      match scanned options tree with
      | .error e => (.error e, tree)
      | .ok session =>
        match session.context.command with
        | .build => (.ok session, tree)
        | .serve =>
          ((session.publish tree time).2.2.map fun _ => (session.publish tree time).1,
            (session.publish tree time).2.1) := by
  unfold scanned start
  cases hroot : tree.canonical? options.root with
  | none => simp
  | some root =>
    cases hload : loadProject tree (ProjectConfig.pathIn root options.configFile) with
    | error e => simp [hload]
    | ok loaded =>
      obtain ⟨config, glob⟩ := loaded
      simp only [hload, begin]
      cases hscan : (({} : SourceCache).scan options.extractor tree root glob).result with
      | error cause => simp
      | ok summary =>
        simp only
        cases hcommand : options.context.command with
        | build => simp
        | serve =>
          simp only
          split <;> simp_all [Except.map]

/-- A server that starts has published its first scan. -/
theorem publish_of_start {options : SessionOptions} {tree : FileTree} {time : Nat}
    {session : Session} (h : (start options tree time).result = .ok session)
    (hserve : session.context.command = .serve) :
    ∃ first written, scanned options tree = .ok first ∧
      first.publish tree time = (session, (start options tree time).tree, .ok written) := by
  have heq := start_eq options tree time
  cases hscanned : scanned options tree with
  | error e => simp [hscanned, h] at heq
  | ok first =>
    simp only [hscanned, h] at heq
    cases hcommand : first.context.command with
    | build =>
      simp only [hcommand, Prod.mk.injEq, Except.ok.injEq] at heq
      rw [heq.1, hcommand] at hserve
      cases hserve
    | serve =>
      simp only [hcommand, Prod.mk.injEq] at heq
      obtain ⟨hresult, htree⟩ := heq
      rcases hpublish : first.publish tree time with ⟨last, after, e | written⟩
      · simp [hpublish, Except.map] at hresult
      · simp only [hpublish, Except.map, Except.ok.injEq] at hresult htree
        exact ⟨first, written, rfl, by rw [hpublish, hresult, htree]⟩

/-! ## Changes -/

/-- A file is located under the path that was told, or else under the place of the
directory that this path puts it in. -/
theorem locate_cases (session : Session) {tree : FileTree} (hwell : tree.WellFormed)
    (path : Path) :
    session.locate tree path = session.root.join path ∨ ∃ parent name place,
      (session.root.join path).parent? = some parent ∧
      (session.root.join path).fileName? = some name ∧ tree.resolve parent = .ok place ∧
      (∀ other ∈ place ++ [name], Path.IsName other) ∧
      session.locate tree path = Path.ofPlace (place ++ [name]) := by
  unfold locate
  simp only
  split
  · exact .inl rfl
  · split
    · rename_i parent name hparent hname
      cases hcanonical : tree.canonical? parent with
      | none => exact .inl rfl
      | some found =>
        obtain ⟨place, hresolve, hnode, rfl⟩ := canonical?_eq_some hcanonical
        have hplace := hwell.isName hnode
        have hlast : ∀ other ∈ [name], Path.IsName other := by
          simpa using Path.isName_of_fileName? hname
        have hsame : Path.ofNames [name] = ⟨name⟩ := by simp [Path.ofNames]
        refine .inr ⟨parent, name, place, hparent, hname, hresolve, fun other hother => ?_, ?_⟩
        · exact (List.mem_append.1 hother).elim (hplace other) (hlast other)
        · simp only
          rw [← hsame, Path.join_ofNames hplace hlast (by simp)]
    · exact .inl rfl

/-- What the change of a path is to a session. -/
inductive Subject where
  | configuration
  | source (file : Path)
  | nothing
  deriving DecidableEq, Repr

/-- What the change of a path is to the session: the file of the configuration
comes first, and of the rest those that the glob selects. -/
def subject (session : Session) (tree : FileTree) (path : Path) : Subject :=
  let absolute := session.locate tree path
  if absolute.components = session.configPath.components then .configuration
  else
    match absolute.stripPrefix? session.root with
    | none => .nothing
    | some file => if session.glob.selects file.text then .source file else .nothing

theorem components_of_subject {session : Session} {tree : FileTree} {path : Path}
    (h : session.subject tree path = .configuration) :
    (session.locate tree path).components = session.configPath.components := by
  unfold subject at h
  simp only at h
  split at h
  · assumption
  · split at h
    · cases h
    · split at h <;> cases h

theorem source_of_subject {session : Session} {tree : FileTree} {path file : Path}
    (h : session.subject tree path = .source file) :
    (session.locate tree path).stripPrefix? session.root = some file ∧
      session.glob.selects file.text = true := by
  unfold subject at h
  simp only at h
  split at h
  · cases h
  · split at h
    · cases h
    · rename_i found hstrip
      split at h
      · rename_i hselects
        obtain rfl := Subject.source.inj h
        exact ⟨hstrip, hselects⟩
      · cases h

/-- The session that a change asks to publish, if it asks for that. -/
def absorb (session : Session) (tree : FileTree) (path : Path) :
    Except SessionError (Option Session) :=
  if session.context.command ≠ .serve then
    .error (.wrongCommand .fileChanged session.context.command)
  else
    match session.subject tree path with
    | .nothing => .ok none
    | .configuration =>
      match loadProject tree session.configPath with
      | .error e => .error e
      | .ok (config, glob) => .ok (some { session with config, glob })
    | .source file =>
      let run := session.cache.process session.extractor tree session.root file
      match run.result with
      | .error cause => .error (.compile cause)
      | .ok _ => .ok (some { session with cache := run.cache })

theorem absorb_of_refused {session : Session} {tree : FileTree} {path : Path}
    (hcommand : session.context.command ≠ .serve) : session.absorb tree path =
      .error (.wrongCommand .fileChanged session.context.command) := by
  unfold absorb
  rw [if_pos hcommand]

theorem absorb_of_nothing {session : Session} {tree : FileTree} {path : Path}
    (hserve : session.context.command = .serve) (hsubject : session.subject tree path = .nothing) :
    session.absorb tree path = .ok none := by
  unfold absorb
  rw [if_neg (not_not.2 hserve), hsubject]

theorem absorb_of_configuration {session : Session} {tree : FileTree} {path : Path}
    (hserve : session.context.command = .serve)
    (hsubject : session.subject tree path = .configuration) :
    session.absorb tree path = (loadProject tree session.configPath).map fun loaded =>
      some { session with config := loaded.1, glob := loaded.2 } := by
  unfold absorb
  rw [if_neg (not_not.2 hserve), hsubject]
  simp only
  cases loadProject tree session.configPath <;> rfl

theorem absorb_of_source {session : Session} {tree : FileTree} {path file : Path}
    {run : CacheRun FileOutcome} (hserve : session.context.command = .serve)
    (hsubject : session.subject tree path = .source file)
    (hrun : session.cache.process session.extractor tree session.root file = run) :
    session.absorb tree path = (run.result.mapError .compile).map fun _ =>
      some { session with cache := run.cache } := by
  unfold absorb
  rw [if_neg (not_not.2 hserve), hsubject]
  simp only [hrun]
  obtain ⟨cache, cause | outcome, extractions⟩ := run <;> rfl

/-- What an outcome says of the session that was published: with a reloaded
configuration it is the one that the file holds now, and with an updated source
the entry of that file was brought up to date. -/
def Tells (session : Session) (tree : FileTree) (ready : Session) : ChangeOutcome → Prop
  | .ignored => False
  | .configReloaded _ => ∃ config glob, loadProject tree session.configPath = .ok (config, glob) ∧
      ready = { session with config, glob }
  | .sourceUpdated file outcome _ => ∃ extractions cache,
      session.cache.process session.extractor tree session.root file =
        ⟨cache, .ok outcome, extractions⟩ ∧
      ready = { session with cache }

/-- What comes of a change after it was taken in. -/
inductive ChangeRun (session : Session) (tree : FileTree) (time : Nat) :
    Except SessionError (Option Session) → Session × TriggerRun ChangeOutcome → Prop where
  | refused (e : SessionError) (log : List LogRecord) (extractions : Nat) :
    ChangeRun session tree time (.error e) (session, ⟨.error e, tree, log, extractions⟩)
  | ignored :
    ChangeRun session tree time (.ok none) (session, ⟨.ok .ignored, tree, [], 0⟩)
  | published (ready : Session) (outcome : Path × Path → ChangeOutcome) (log : List LogRecord)
    (extractions : Nat) (htells : ∀ written, session.Tells tree ready (outcome written)) :
    ChangeRun session tree time (.ok (some ready)) ((ready.publish tree time).1,
      ⟨(ready.publish tree time).2.2.map outcome, (ready.publish tree time).2.1, log, extractions⟩)

theorem fileChanged_run_of_configuration {session : Session} {tree : FileTree} {path : Path}
    (hserve : session.context.command = .serve)
    (hconfig : (session.locate tree path).components = session.configPath.components) (time : Nat) :
    ChangeRun session tree time (session.absorb tree path)
      (session.fileChanged tree path time) := by
  have hsubject : session.subject tree path = .configuration := by simp [subject, hconfig]
  have hcommand : ¬session.context.command ≠ .serve := not_not.2 hserve
  unfold fileChanged
  simp only [hcommand, hconfig, ↓reduceIte, absorb_of_configuration hserve hsubject, reload]
  cases hload : loadProject tree session.configPath with
  | error e => exact .refused e [] 0
  | ok loaded =>
    obtain ⟨config, glob⟩ := loaded
    have hrun : ChangeRun session tree time _ _ := .published { session with config, glob }
      .configReloaded [⟨.debug, "Reloaded " ++ session.configPath.text, none⟩] 0
      fun _ => ⟨config, glob, hload, rfl⟩
    rcases hpublish : ({ session with config, glob } : Session).publish tree time with
      ⟨after, last, e | written⟩ <;>
    · simp only [hpublish] at hrun ⊢
      exact hrun

theorem fileChanged_run_of_source {session : Session} {tree : FileTree} {path file : Path}
    (hserve : session.context.command = .serve)
    (hconfig : (session.locate tree path).components ≠ session.configPath.components)
    (hstrip : (session.locate tree path).stripPrefix? session.root = some file)
    (hselects : session.glob.selects file.text = true) (time : Nat) :
    ChangeRun session tree time (session.absorb tree path)
      (session.fileChanged tree path time) := by
  have hsubject : session.subject tree path = .source file := by
    simp [subject, hconfig, hstrip, hselects]
  have hcommand : ¬session.context.command ≠ .serve := not_not.2 hserve
  unfold fileChanged
  simp only [hcommand, hconfig, ↓reduceIte, hstrip, hselects, update]
  rcases hrun : session.cache.process session.extractor tree session.root file with
    ⟨cache, cause | outcome, extractions⟩
  · have hcache : cache = session.cache := by
      have hkept := SourceCache.cache_of_process_error (congrArg CacheRun.result hrun)
      rwa [hrun] at hkept
    rw [absorb_of_source hserve hsubject hrun, hcache]
    exact .refused (.compile cause) [] extractions
  · have hchange : ChangeRun session tree time _ _ := .published { session with cache }
      (.sourceUpdated file outcome) [⟨.step, file.text ++ ": " ++ outcome.text, none⟩]
      extractions fun _ => ⟨extractions, cache, hrun, rfl⟩
    rw [absorb_of_source hserve hsubject hrun]
    rcases hpublish : ({ session with cache } : Session).publish tree time with
      ⟨after, last, e | written⟩ <;>
    · simp only [hpublish] at hchange ⊢
      exact hchange

/-- A change is taken in, and then the manifest is published if the change asks
for that.  A change that cannot be taken in leaves everything as it is. -/
theorem fileChanged_run (session : Session) (tree : FileTree) (path : Path) (time : Nat) :
    ChangeRun session tree time (session.absorb tree path)
      (session.fileChanged tree path time) := by
  by_cases hcommand : session.context.command ≠ .serve
  · unfold fileChanged
    rw [if_pos hcommand, absorb_of_refused hcommand]
    exact .refused _ [] 0
  have hserve := not_not.1 hcommand
  by_cases hconfig : (session.locate tree path).components = session.configPath.components
  · exact fileChanged_run_of_configuration hserve hconfig time
  -- what is left are the changes that are no source of the session
  have hnothing (hsubject : session.subject tree path = .nothing)
      (hrun : session.fileChanged tree path time = (session, ⟨.ok .ignored, tree, [], 0⟩)) :
      ChangeRun session tree time (session.absorb tree path)
        (session.fileChanged tree path time) := by
    rw [hrun, absorb_of_nothing hserve hsubject]
    exact .ignored
  cases hstrip : (session.locate tree path).stripPrefix? session.root with
  | none =>
    exact hnothing (by simp [subject, hconfig, hstrip])
      (by simp [fileChanged, hserve, hconfig, hstrip])
  | some file =>
    by_cases hselects : session.glob.selects file.text = true
    · exact fileChanged_run_of_source hserve hconfig hstrip hselects time
    · exact hnothing (by simp [subject, hconfig, hstrip, hselects])
        (by simp [fileChanged, hserve, hconfig, hstrip, hselects])

theorem loadProject_beforePublication {tree : FileTree} {path : Path} {e : SessionError}
    (h : loadProject tree path = .error e) : e.beforePublication := by
  unfold loadProject at h
  split at h
  · exact Except.error.inj h ▸ rfl
  · split at h
    · exact Except.error.inj h ▸ rfl
    · cases h

/-- A change is refused, does not matter, brings another configuration, or
brings the entry of a source file up to date. -/
theorem absorb_cases (session : Session) (tree : FileTree) (path : Path) :
    (∃ e, e.beforePublication ∧ session.absorb tree path = .error e) ∨
    session.absorb tree path = .ok none ∨
    (∃ config glob, loadProject tree session.configPath = .ok (config, glob) ∧
      session.absorb tree path = .ok (some { session with config, glob })) ∨
    ∃ file outcome, session.context.command = .serve ∧ session.subject tree path = .source file ∧
      (session.cache.process session.extractor tree session.root file).result = .ok outcome ∧
      session.absorb tree path = .ok (some { session with
        cache := (session.cache.process session.extractor tree session.root file).cache }) := by
  by_cases hserve : session.context.command = .serve
  swap
  · exact .inl ⟨_, by simp [SessionError.beforePublication], absorb_of_refused hserve⟩
  cases hsubject : session.subject tree path with
  | nothing => exact .inr (.inl (absorb_of_nothing hserve hsubject))
  | configuration =>
    rw [absorb_of_configuration hserve hsubject]
    cases hload : loadProject tree session.configPath with
    | error e => exact .inl ⟨e, loadProject_beforePublication hload, rfl⟩
    | ok loaded =>
      obtain ⟨config, glob⟩ := loaded
      exact .inr (.inr (.inl ⟨config, glob, rfl, rfl⟩))
  | source file =>
    rw [absorb_of_source hserve hsubject rfl]
    rcases hrun : session.cache.process session.extractor tree session.root file with
      ⟨cache, cause | outcome, extractions⟩
    · exact .inl ⟨.compile cause, by simp [SessionError.beforePublication], rfl⟩
    · exact .inr (.inr (.inr ⟨file, outcome, hserve, rfl, by rw [hrun], by rw [hrun]; rfl⟩))

theorem absorb_beforePublication {session : Session} {tree : FileTree} {path : Path}
    {e : SessionError} (h : session.absorb tree path = .error e) : e.beforePublication := by
  obtain ⟨cause, hbefore, heq⟩ | heq | ⟨_, _, -, heq⟩ | ⟨_, _, -, -, -, heq⟩ :=
    session.absorb_cases tree path
  · exact Except.error.inj (h.symm.trans heq) ▸ hbefore
  all_goals simp [heq] at h

/-- A change that does not matter leaves all files as they are. -/
theorem tree_of_ignored {session : Session} {tree : FileTree} {path : Path} {time : Nat}
    (h : (session.fileChanged tree path time).2.result = .ok .ignored) :
    (session.fileChanged tree path time).2.tree = tree := by
  have hrun := session.fileChanged_run tree path time
  generalize session.absorb tree path = asked at hrun
  generalize session.fileChanged tree path time = run at h hrun ⊢
  cases hrun with
  | refused e => rfl
  | ignored => rfl
  | published ready explain log extractions htells =>
    rcases hpublish : ready.publish tree time with ⟨last, after, e | written⟩
    · simp [hpublish, Except.map] at h
    · simp only [hpublish, Except.map, Except.ok.injEq] at h
      exact (h ▸ htells written : session.Tells tree ready .ignored).elim

/-! ## The end of a build, and reports of changes -/

/-- The end of a build is refused, or it is a publication. -/
theorem bundleFinalized_cases (session : Session) (tree : FileTree) (time : Nat) :
    (∃ e, e.beforePublication ∧
      session.bundleFinalized tree time = (session, { result := .error e, tree })) ∨
    (∃ last after e, session.publish tree time = (last, after, .error e) ∧
      session.bundleFinalized tree time = (last, { result := .error e, tree := after })) ∨
    ∃ last after written, session.publish tree time = (last, after, .ok written) ∧
      session.bundleFinalized tree time =
        ({ last with finalized := true }, { result := .ok written, tree := after }) := by
  unfold bundleFinalized
  by_cases hcommand : session.context.command ≠ .build
  · rw [if_pos hcommand]
    exact .inl ⟨_, by simp [SessionError.beforePublication], rfl⟩
  rw [if_neg hcommand]
  by_cases hfinalized : session.finalized = true
  · rw [if_pos hfinalized]
    exact .inl ⟨_, by simp [SessionError.beforePublication], rfl⟩
  rw [if_neg hfinalized]
  rcases session.publish tree time with ⟨last, after, e | written⟩
  · exact .inr (.inl ⟨last, after, e, rfl, rfl⟩)
  · exact .inr (.inr ⟨last, after, written, rfl, rfl⟩)

/-- A report of a change tells whether the change was published; the session's
own output is no change. -/
theorem applyChange_eq (session : Session) (tree : FileTree) (path : Path) (time : Nat) :
    ∃ log, session.applyChange tree path time =
      if isOwnOutput path then (session, tree, false, log)
      else ((session.fileChanged tree path time).1, (session.fileChanged tree path time).2.tree,
        (session.fileChanged tree path time).2.result.toOption.any (· ≠ .ignored), log) := by
  unfold applyChange
  split
  · exact ⟨[], rfl⟩
  · rcases session.fileChanged tree path time with ⟨last, e | outcome, after, log, extractions⟩
    · exact ⟨_, rfl⟩
    · cases outcome <;> exact ⟨_, rfl⟩

end Session

end OpManifest
