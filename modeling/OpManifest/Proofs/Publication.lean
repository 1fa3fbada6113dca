import OpManifest.Proofs.Assembly
import OpManifest.Proofs.Trigger

/-!
# What triggers publish

Two facts hold of a publication, and therefore of every trigger, in every
session and file tree, whatever happened before.

* If it succeeds, both files hold the manifest that the session remembers, and
  that manifest shows what the session knows (`Published`).
* If it fails, no file but a temporary one has changed, with one exception: if
  only the second of the two files cannot be written, the first one has been
  replaced (`FailsWith`).
-/

namespace OpManifest

open FileTree

namespace Session

/-- The manifest is published: the session remembers it, both of its files hold
it, and it shows what the session knows. -/
structure Published (session : Session) (tree : FileTree) (manifest : Manifest) : Prop where
  last : session.manifest = some manifest
  inRoot : tree.readBytes (session.root.join ⟨manifestFileName⟩) = .ok manifest.text.toUTF8
  inOutput : tree.readBytes
    ((session.root.join (session.outDirOverride.getD session.config.outDir)).join
      ⟨manifestFileName⟩) = .ok manifest.text.toUTF8
  assembled : manifest.AssembledFrom session.cache.operations session.config session.context
  listed : ∃ files : List (List Path.Component × CacheEntry),
    files.Pairwise (fun a b => compare a.1 b.1 = .lt) ∧
    (∀ key entry, (key, entry) ∈ files ↔ session.cache.entries[key]? = some entry) ∧
    manifest.operations = files.flatMap (·.2.operations)
  indexed : manifest.Indexed

/-- The manifest can be assembled and saved in the root, but after that not in
the output directory. -/
def HalfPublishes (session : Session) (tree : FileTree) (time : Nat) : Prop :=
  (assemble session.cache.operations session.config session.context time).toOption.any
    (fun manifest => manifest.HalfPublished tree session.root session.outDir) = true
  deriving Decidable

/-- What a failure leaves of the files.  Only a publication that stops between
its two files has changed one that is not temporary: the manifest in the
root. -/
structure FailsWith (session : Session) (tree : FileTree) (time : Nat) (e : SessionError)
    (after : FileTree) : Prop where
  unchanged : e.beforePublication ∨ ¬session.HalfPublishes tree time →
    EditedAt IsTemporary tree after
  replaced : ¬e.beforePublication → session.HalfPublishes tree time →
    ∃ manifest place,
      assemble session.cache.operations session.config session.context time = .ok manifest ∧
      after.resolve (session.root.join ⟨manifestFileName⟩) = .ok place ∧
      after.content? place = some manifest.text.toUTF8 ∧
      EditedAt (fun other => other = place ∨ IsTemporary other) tree after

/-! ## One publication -/

theorem outDir_eq (session : Session) :
    session.outDir = session.root.join (session.outDirOverride.getD session.config.outDir) := by
  unfold outDir
  cases session.outDirOverride <;> rfl

theorem published_of_publish {session last : Session} {tree after : FileTree} {time : Nat}
    {written : Path × Path} (h : session.publish tree time = (last, after, .ok written)) :
    ∃ manifest, last.Published after manifest := by
  obtain ⟨_, -, hstop⟩ | ⟨manifest, hassemble, ⟨_, _, -, hstop⟩ | ⟨_, _, hpublish, hlast⟩⟩ :=
    session.publish_cases tree time
  · simp [hstop] at h
  · simp [hstop] at h
  · obtain ⟨rfl, rfl, rfl⟩ : _ = last ∧ _ = after ∧ _ = written := by simpa [hlast] using h
    obtain ⟨-, hroot, houtput, -⟩ := Manifest.publish_of_ok hpublish
    rw [outDir_eq] at houtput
    have hassembled := assembledFrom_of_assemble hassemble
    obtain ⟨files, hsorted, hfiles, hoperations⟩ := session.cache.operations_listed
    exact ⟨manifest, rfl, hroot, houtput, hassembled,
      ⟨files, hsorted, hfiles, hassembled.operations.trans hoperations⟩,
      Manifest.indexed_of_reindex (Manifest.reindex_of_assemble hassemble)⟩

theorem failsWith_of_publish {session last : Session} {tree after : FileTree} {time : Nat}
    {e : SessionError} (h : session.publish tree time = (last, after, .error e)) :
    last.FailsWith tree time e after := by
  obtain ⟨_, hassemble, hstop⟩ |
      ⟨manifest, hassemble, ⟨_, _, hpublish, hstop⟩ | ⟨_, _, -, hstop⟩⟩ :=
    session.publish_cases tree time
  · obtain ⟨rfl, rfl, rfl⟩ : session = last ∧ tree = after ∧ _ = e := by simpa [hstop] using h
    refine ⟨fun _ => .refl tree, fun _ hhalf => ?_⟩
    simp [HalfPublishes, hassemble, Except.toOption] at hhalf
  · obtain ⟨rfl, rfl, rfl⟩ : session = last ∧ _ = after ∧ _ = e := by simpa [hstop] using h
    have hiff : session.HalfPublishes tree time ↔
        manifest.HalfPublished tree session.root session.outDir := by
      simp [HalfPublishes, hassemble, Except.toOption]
    obtain ⟨hwhole, hedited⟩ | ⟨hhalf, place, hplace, hcontent, hedited⟩ :=
      Manifest.publish_of_error hpublish
    · exact ⟨fun _ => hedited, fun _ h => absurd (hiff.1 h) hwhole⟩
    · refine ⟨fun hnot => ?_, fun _ _ => ⟨manifest, place, hassemble, hplace, hcontent, hedited⟩⟩
      obtain hbefore | hnone := hnot
      · cases hbefore
      · exact absurd (hiff.2 hhalf) hnone
  · simp [hstop] at h

theorem failsWith_of_beforePublication (session : Session) (tree : FileTree) (time : Nat)
    {e : SessionError} (h : e.beforePublication) : session.FailsWith tree time e tree :=
  ⟨fun _ => .refl tree, fun hnot => absurd h hnot⟩

/-- Where a publication stopped between its two files, the first one is read
back. -/
theorem FailsWith.readBytes {session : Session} {tree after : FileTree} {time : Nat}
    {e : SessionError} (h : session.FailsWith tree time e after) (hnot : ¬e.beforePublication)
    (hhalf : session.HalfPublishes tree time) :
    ∃ manifest : Manifest, after.readBytes (session.root.join ⟨manifestFileName⟩) =
      .ok manifest.text.toUTF8 := by
  obtain ⟨manifest, place, -, hplace, hcontent, -⟩ := h.replaced hnot hhalf
  exact ⟨manifest, readBytes_eq_ok.2 ⟨place, hplace, hcontent⟩⟩

/-! ## Triggers that succeed -/

theorem published_of_start {options : SessionOptions} {tree : FileTree} {time : Nat}
    {session : Session} (h : (start options tree time).result = .ok session)
    (hserve : session.context.command = .serve) :
    ∃ manifest, session.Published (start options tree time).tree manifest := by
  obtain ⟨first, written, -, hpublish⟩ := publish_of_start h hserve
  exact published_of_publish hpublish

theorem published_of_fileChanged {session : Session} {tree : FileTree} {path : Path} {time : Nat}
    {outcome : ChangeOutcome} (h : (session.fileChanged tree path time).2.result = .ok outcome)
    (hnot : outcome ≠ .ignored) :
    ∃ ready manifest, session.Tells tree ready outcome ∧
      (session.fileChanged tree path time).1 = { ready with manifest := some manifest } ∧
      (session.fileChanged tree path time).1.Published
        (session.fileChanged tree path time).2.tree manifest := by
  have hrun := session.fileChanged_run tree path time
  generalize session.absorb tree path = asked at hrun
  generalize session.fileChanged tree path time = run at h hrun ⊢
  cases hrun with
  | refused e => cases h
  | ignored => exact absurd (Except.ok.inj h).symm hnot
  | published ready explain log extractions htells =>
    rcases hpublish : ready.publish tree time with ⟨last, after, e | written⟩
    · simp [hpublish, Except.map] at h
    · simp only [hpublish, Except.map, Except.ok.injEq] at h ⊢
      obtain ⟨manifest, hpublished⟩ := published_of_publish hpublish
      have hlast := ready.publish_fst tree time
      simp only [hpublish, hpublished.last] at hlast
      exact ⟨ready, manifest, h ▸ htells written, hlast, hpublished⟩

theorem published_of_bundleFinalized {session : Session} {tree : FileTree} {time : Nat}
    {written : Path × Path} (h : (session.bundleFinalized tree time).2.result = .ok written) :
    ∃ manifest, (session.bundleFinalized tree time).1.Published
      (session.bundleFinalized tree time).2.tree manifest := by
  obtain ⟨_, -, heq⟩ | ⟨_, _, _, -, heq⟩ | ⟨last, after, _, hpublish, heq⟩ :=
    session.bundleFinalized_cases tree time
  · simp [heq] at h
  · simp [heq] at h
  · rw [heq]
    obtain ⟨manifest, hlast, hroot, houtput, hassembled, hlisted, hindex⟩ :=
      published_of_publish hpublish
    exact ⟨manifest, hlast, hroot, houtput, hassembled, hlisted, hindex⟩

/-- **Publication.**  After every trigger that publishes and succeeds, both
files hold the manifest that the session remembers, and this manifest shows the
operations of the cache and the settings of the configuration as they are
now. -/
theorem published_of_trigger (options : SessionOptions) (session : Session) (tree : FileTree)
    (path : Path) (time : Nat) :
    (∀ started, (start options tree time).result = .ok started →
      started.context.command = .serve →
      ∃ manifest, started.Published (start options tree time).tree manifest) ∧
    (∀ outcome, (session.fileChanged tree path time).2.result = .ok outcome →
      outcome ≠ .ignored →
      ∃ ready manifest, session.Tells tree ready outcome ∧
        (session.fileChanged tree path time).1 = { ready with manifest := some manifest } ∧
        (session.fileChanged tree path time).1.Published
          (session.fileChanged tree path time).2.tree manifest) ∧
    ∀ written, (session.bundleFinalized tree time).2.result = .ok written →
      ∃ manifest, (session.bundleFinalized tree time).1.Published
        (session.bundleFinalized tree time).2.tree manifest :=
  ⟨fun _ => published_of_start, fun _ => published_of_fileChanged,
    fun _ => published_of_bundleFinalized⟩

/-- A project that has nothing but its configuration. -/
def bareProject : FileTree :=
  { nodes := .ofList [(["p"], FileNode.directory),
      (["p", "toolgraph.toml"], FileNode.file "name = \"x\"\n".toUTF8)] }

/-- How the bare project is started. -/
def bareOptions (command : Command) : SessionOptions where
  root := ⟨"/p"⟩
  context := ⟨command, BuildContext.productionMode, some ⟨"http", "localhost", 5173⟩⟩

theorem published_of_bareProject :
    ∃ server builder : Session,
      (start (bareOptions .serve) bareProject 0).result = .ok server ∧
      (start (bareOptions .build) bareProject 0).result = .ok builder ∧
      (∃ manifest, server.Published (start (bareOptions .serve) bareProject 0).tree manifest) ∧
      (∃ manifest, (server.fileChanged bareProject ⟨"toolgraph.toml"⟩ 0).1.Published
        (server.fileChanged bareProject ⟨"toolgraph.toml"⟩ 0).2.tree manifest) ∧
      ∃ manifest, (builder.bundleFinalized bareProject 0).1.Published
        (builder.bundleFinalized bareProject 0).2.tree manifest := by
  have hserve : (start (bareOptions .serve) bareProject 0).result.toOption.any (fun session =>
      session.context.command = Command.serve ∧ (session.fileChanged bareProject
        ⟨"toolgraph.toml"⟩ 0).2.result.toOption.any (· ≠ .ignored) = true) = true := by
    decide +kernel
  have hbuild : (start (bareOptions .build) bareProject 0).result.toOption.any (fun session =>
      (session.bundleFinalized bareProject 0).2.result.toOption.any fun _ => true) = true := by
    decide +kernel
  obtain ⟨server, hserver, hfacts⟩ := exists_ok_of_any hserve
  obtain ⟨hcommand, hchange⟩ := of_decide_eq_true hfacts
  obtain ⟨outcome, houtcome, hnot⟩ := exists_ok_of_any hchange
  obtain ⟨builder, hbuilder, hfinal⟩ := exists_ok_of_any hbuild
  obtain ⟨written, hwritten, -⟩ := exists_ok_of_any hfinal
  obtain ⟨hstart, hchanged, -⟩ :=
    published_of_trigger (bareOptions .serve) server bareProject ⟨"toolgraph.toml"⟩ 0
  obtain ⟨-, -, hfinalized⟩ :=
    published_of_trigger (bareOptions .build) builder bareProject ⟨"toolgraph.toml"⟩ 0
  obtain ⟨_, manifest, -, -, hpublished⟩ := hchanged outcome houtcome (of_decide_eq_true hnot)
  exact ⟨server, builder, hserver, hbuilder, hstart server hserver hcommand,
    ⟨manifest, hpublished⟩, hfinalized written hwritten⟩

/-! ## Triggers that fail -/

theorem failsWith_of_start {options : SessionOptions} {tree : FileTree} {time : Nat}
    {e : SessionError} (h : (start options tree time).result = .error e) :
    (scanned options tree = .error e ∧ (start options tree time).tree = tree) ∨
      ∃ session, scanned options tree = .ok session ∧
        session.FailsWith tree time e (start options tree time).tree := by
  have heq := start_eq options tree time
  rw [h] at heq
  cases hscanned : scanned options tree with
  | error cause =>
    simp only [hscanned, Prod.mk.injEq, Except.error.injEq] at heq
    exact .inl ⟨by rw [heq.1], heq.2⟩
  | ok session =>
    simp only [hscanned] at heq
    cases hcommand : session.context.command with
    | build => simp [hcommand] at heq
    | serve =>
      simp only [hcommand, Prod.mk.injEq] at heq
      obtain ⟨hresult, htree⟩ := heq
      rcases hpublish : session.publish tree time with ⟨last, after, cause | written⟩
      · simp only [hpublish, Except.map, Except.error.injEq] at hresult
        have hlast : last = session := publish_fst_of_error hpublish
        rw [htree, hpublish, hresult]
        exact .inr ⟨session, rfl, hlast ▸ failsWith_of_publish hpublish⟩
      · simp [hpublish, Except.map] at hresult

theorem failsWith_of_fileChanged {session : Session} {tree : FileTree} {path : Path} {time : Nat}
    {e : SessionError} (h : (session.fileChanged tree path time).2.result = .error e) :
    (session.fileChanged tree path time).1.FailsWith tree time e
      (session.fileChanged tree path time).2.tree := by
  have hrun := session.fileChanged_run tree path time
  have hbefore {cause : SessionError} (hcause : session.absorb tree path = .error cause) :
      cause.beforePublication := absorb_beforePublication hcause
  generalize session.absorb tree path = asked at hrun hbefore
  generalize session.fileChanged tree path time = run at h hrun ⊢
  cases hrun with
  | refused cause =>
    obtain rfl := Except.error.inj h
    exact failsWith_of_beforePublication session tree time (hbefore rfl)
  | ignored => cases h
  | published ready explain log extractions htells =>
    rcases hpublish : ready.publish tree time with ⟨last, after, cause | written⟩
    · simp only [hpublish, Except.map, Except.error.injEq] at h ⊢
      exact h ▸ failsWith_of_publish hpublish
    · simp [hpublish, Except.map] at h

theorem failsWith_of_bundleFinalized {session : Session} {tree : FileTree} {time : Nat}
    {e : SessionError} (h : (session.bundleFinalized tree time).2.result = .error e) :
    (session.bundleFinalized tree time).1.FailsWith tree time e
      (session.bundleFinalized tree time).2.tree := by
  obtain ⟨cause, hbefore, heq⟩ | ⟨last, after, cause, hpublish, heq⟩ | ⟨_, _, _, -, heq⟩ :=
    session.bundleFinalized_cases tree time
  · rw [heq] at h ⊢
    exact Except.error.inj h ▸ failsWith_of_beforePublication session tree time hbefore
  · rw [heq] at h ⊢
    exact Except.error.inj h ▸ failsWith_of_publish hpublish
  · simp [heq] at h

theorem files_of_applyChange {session : Session} {tree : FileTree} {path : Path} {time : Nat}
    (h : (session.applyChange tree path time).2.2.1 = false) :
    (session.applyChange tree path time).2.1 = tree ∨
      ∃ e, (session.fileChanged tree path time).2.result = .error e ∧
        (session.applyChange tree path time).1.FailsWith tree time e
          (session.applyChange tree path time).2.1 := by
  obtain ⟨log, heq⟩ := session.applyChange_eq tree path time
  rw [heq] at h ⊢
  split
  · exact .inl rfl
  · rename_i howner
    simp only [howner] at h
    cases hresult : (session.fileChanged tree path time).2.result with
    | error e => exact .inr ⟨e, rfl, failsWith_of_fileChanged hresult⟩
    | ok outcome =>
      have hignored : outcome = .ignored := by simpa [hresult, Except.toOption] using h
      exact .inl (tree_of_ignored (hignored ▸ hresult))

/-- **Failure.**  A trigger that fails, and a report that says that nothing was
rewritten, leaves all files but temporary ones as they are, with one exception:
a manifest that can be saved in the root and then not in the output directory
has been replaced in the root. -/
theorem files_of_failed_trigger (options : SessionOptions) (session : Session) (tree : FileTree)
    (path : Path) (time : Nat) :
    (∀ e, (start options tree time).result = .error e →
      (scanned options tree = .error e ∧ (start options tree time).tree = tree) ∨
        ∃ first, scanned options tree = .ok first ∧
          first.FailsWith tree time e (start options tree time).tree) ∧
    (∀ e, (session.fileChanged tree path time).2.result = .error e →
      (session.fileChanged tree path time).1.FailsWith tree time e
        (session.fileChanged tree path time).2.tree) ∧
    (∀ e, (session.bundleFinalized tree time).2.result = .error e →
      (session.bundleFinalized tree time).1.FailsWith tree time e
        (session.bundleFinalized tree time).2.tree) ∧
    ((session.applyChange tree path time).2.2.1 = false →
      (session.applyChange tree path time).2.1 = tree ∨
        ∃ e, (session.fileChanged tree path time).2.result = .error e ∧
          (session.applyChange tree path time).1.FailsWith tree time e
            (session.applyChange tree path time).2.1) :=
  ⟨fun _ => failsWith_of_start, fun _ => failsWith_of_fileChanged,
    fun _ => failsWith_of_bundleFinalized, files_of_applyChange⟩

/-- The bare project with a file in the place of the output directory. -/
def blockedProject : FileTree := bareProject.put ["p", "dist"] (.file "x".toUTF8)

/-- The trigger failed while the manifest was put together or written. -/
def failsToPublish {α : Type} (result : Except SessionError α) : Bool :=
  match result with
  | .error e => !e.beforePublication
  | .ok _ => false

theorem exists_error_of_failsToPublish {α : Type} {result : Except SessionError α}
    (h : failsToPublish result = true) : ∃ e, result = .error e ∧ ¬e.beforePublication := by
  cases result with
  | error e => exact ⟨e, rfl, by simpa [failsToPublish] using h⟩
  | ok a => cases h

/-- Every trigger can stop between the two files: before it there was no
manifest in the root, and after it there is one. -/
theorem replaced_in_blockedProject :
    blockedProject.content? ["p", manifestFileName] = none ∧
      ∃ first server builder : Session,
        (∃ (e : SessionError) (manifest : Manifest),
          (start (bareOptions .serve) blockedProject 0).result = .error e ∧
          (start (bareOptions .serve) blockedProject 0).tree.readBytes
            (first.root.join ⟨manifestFileName⟩) = .ok manifest.text.toUTF8) ∧
        (∃ (e : SessionError) (manifest : Manifest),
          (server.fileChanged blockedProject ⟨"toolgraph.toml"⟩ 0).2.result = .error e ∧
          (server.fileChanged blockedProject ⟨"toolgraph.toml"⟩ 0).2.tree.readBytes
            ((server.fileChanged blockedProject ⟨"toolgraph.toml"⟩ 0).1.root.join
              ⟨manifestFileName⟩) = .ok manifest.text.toUTF8) ∧
        (∃ (e : SessionError) (manifest : Manifest),
          (builder.bundleFinalized blockedProject 0).2.result = .error e ∧
          (builder.bundleFinalized blockedProject 0).2.tree.readBytes
            ((builder.bundleFinalized blockedProject 0).1.root.join ⟨manifestFileName⟩) =
              .ok manifest.text.toUTF8) ∧
        (server.applyChange blockedProject ⟨"toolgraph.toml"⟩ 0).2.2.1 = false ∧
        ∃ manifest : Manifest,
          (server.applyChange blockedProject ⟨"toolgraph.toml"⟩ 0).2.1.readBytes
            ((server.applyChange blockedProject ⟨"toolgraph.toml"⟩ 0).1.root.join
              ⟨manifestFileName⟩) = .ok manifest.text.toUTF8 := by
  have hscanned : (scanned (bareOptions .serve) blockedProject).toOption.any (fun session =>
      session.HalfPublishes blockedProject 0) = true := by
    decide +kernel
  have hstart : failsToPublish (start (bareOptions .serve) blockedProject 0).result = true := by
    decide +kernel
  have hserver : (start (bareOptions .serve) bareProject 0).result.toOption.any (fun session =>
      let run := session.fileChanged blockedProject ⟨"toolgraph.toml"⟩ 0
      let report := session.applyChange blockedProject ⟨"toolgraph.toml"⟩ 0
      failsToPublish run.2.result = true ∧ run.1.HalfPublishes blockedProject 0 ∧
        report.2.2.1 = false ∧ report.1.HalfPublishes blockedProject 0 ∧
        report.2.1.nodes ≠ blockedProject.nodes) = true := by
    decide +kernel
  have hbuilder : (start (bareOptions .build) bareProject 0).result.toOption.any (fun session =>
      let run := session.bundleFinalized blockedProject 0
      failsToPublish run.2.result = true ∧ run.1.HalfPublishes blockedProject 0) = true := by
    decide +kernel
  obtain ⟨first, hfirst, hhalf⟩ := exists_ok_of_any hscanned
  obtain ⟨e, he, hnot⟩ := exists_error_of_failsToPublish hstart
  obtain ⟨server, -, hfacts⟩ := exists_ok_of_any hserver
  obtain ⟨hrun, hrunHalf, hreport, hreportHalf, htree⟩ := of_decide_eq_true hfacts
  obtain ⟨cause, hcause, hcauseNot⟩ := exists_error_of_failsToPublish hrun
  obtain ⟨builder, -, hbuilderFacts⟩ := exists_ok_of_any hbuilder
  obtain ⟨hfinal, hfinalHalf⟩ := of_decide_eq_true hbuilderFacts
  obtain ⟨stop, hstop, hstopNot⟩ := exists_error_of_failsToPublish hfinal
  obtain ⟨hstarted, hchanged, -, hreported⟩ :=
    files_of_failed_trigger (bareOptions .serve) server blockedProject ⟨"toolgraph.toml"⟩ 0
  obtain ⟨-, -, hfinalized, -⟩ :=
    files_of_failed_trigger (bareOptions .build) builder blockedProject ⟨"toolgraph.toml"⟩ 0
  refine ⟨by decide +kernel, first, server, builder, ⟨e, ?_⟩, ⟨cause, ?_⟩, ⟨stop, ?_⟩, hreport, ?_⟩
  · obtain ⟨hnone, -⟩ | ⟨session, hsession, hfails⟩ := hstarted e he
    · simp [hnone] at hfirst
    · obtain rfl := Except.ok.inj (hfirst.symm.trans hsession)
      obtain ⟨manifest, hmanifest⟩ := hfails.readBytes hnot (of_decide_eq_true hhalf)
      exact ⟨manifest, he, hmanifest⟩
  · obtain ⟨manifest, hmanifest⟩ := (hchanged cause hcause).readBytes hcauseNot hrunHalf
    exact ⟨manifest, hcause, hmanifest⟩
  · obtain ⟨manifest, hmanifest⟩ := (hfinalized stop hstop).readBytes hstopNot hfinalHalf
    exact ⟨manifest, hstop, hmanifest⟩
  · obtain hsame | ⟨other, hother, hfails⟩ := hreported hreport
    · exact absurd (congrArg FileTree.nodes hsame) htree
    · obtain rfl := Except.error.inj (hcause.symm.trans hother)
      exact hfails.readBytes hcauseNot hreportHalf

end Session

end OpManifest
