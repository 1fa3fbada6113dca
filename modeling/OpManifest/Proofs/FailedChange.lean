import OpManifest.Proofs.Calls

/-!
# What a failed change leaves behind

A change goes through steps each of which can fail: the configuration is read or
a source is compiled, then a manifest is assembled and written.  What a server
has taken in by then stays, and nothing else changes (`FailedChange`); it never
forgets the manifest that it has published last.
-/

namespace OpManifest

/-- The manifest could not be put together, so that nothing was written. -/
def ManifestError.inAssembly : ManifestError → Bool
  | .manyPrefetched _ | .missingEntryPoint _ | .serverUnavailable => true
  | .file _ | .malformed .. => false

/-! ## Where a publication fails -/

theorem FileTree.not_inAssembly_of_createParent {tree after : FileTree} {path : Path}
    {e : ManifestError} (h : tree.createParent path = (after, .error e)) :
    e.inAssembly = false := by
  unfold createParent at h
  split at h
  · simp at h
  · split at h
    · simp at h
    · obtain ⟨-, rfl⟩ : _ ∧ _ = e := by simpa using h
      rfl

theorem FileTree.not_inAssembly_of_replace {tree after : FileTree} {path : Path}
    {content : ByteArray} {e : ManifestError} (h : tree.replace path content = (after, .error e)) :
    e.inAssembly = false := by
  obtain ⟨made, cause, hmade, hstop⟩ | ⟨made, -, ⟨_, -, hstop⟩ | ⟨_, -, ⟨_, -, hstop⟩ |
    ⟨_, -, hstop⟩⟩⟩ := replace_cases tree path content
  · obtain ⟨-, rfl⟩ : made = after ∧ cause = e := by simpa [hstop] using h
    exact not_inAssembly_of_createParent hmade
  · obtain ⟨-, rfl⟩ : _ = after ∧ _ = e := by simpa [hstop] using h
    rfl
  · obtain ⟨-, rfl⟩ : _ = after ∧ _ = e := by simpa [hstop] using h
    rfl
  · simp [hstop] at h

theorem Manifest.not_inAssembly_of_publish {manifest : Manifest} {tree after : FileTree}
    {root outDir : Path} {e : ManifestError}
    (h : manifest.publish tree root outDir = (after, .error e)) : e.inAssembly = false := by
  unfold Manifest.publish at h
  split at h
  rename_i first second _
  rcases hfirst : manifest.save tree first with ⟨between, cause | ⟨⟩⟩
  · obtain ⟨-, rfl⟩ : between = after ∧ cause = e := by simpa [hfirst] using h
    exact FileTree.not_inAssembly_of_replace hfirst
  · rcases hsecond : manifest.save between second with ⟨last, cause | ⟨⟩⟩
    · obtain ⟨-, rfl⟩ : last = after ∧ cause = e := by simpa [hfirst, hsecond] using h
      exact FileTree.not_inAssembly_of_replace hsecond
    · simp [hfirst, hsecond] at h

namespace Session

/-- A publication that fails leaves the session as it is, and all files if the
manifest could not be put together. -/
theorem failed_publish {session : Session} {tree : FileTree} {time : Nat} {e : SessionError}
    (h : (session.publish tree time).2.2 = .error e) :
    (session.publish tree time).1 = session ∧ ∃ cause, e = .manifest cause ∧
      (cause.inAssembly → (session.publish tree time).2.1 = tree) := by
  obtain ⟨cause, -, heq⟩ | ⟨manifest, -, ⟨after, cause, hpublish, heq⟩ | ⟨_, _, -, heq⟩⟩ :=
    session.publish_cases tree time
  · rw [heq] at h ⊢
    exact ⟨rfl, cause, (Except.error.inj h).symm, fun _ => rfl⟩
  · rw [heq] at h ⊢
    refine ⟨rfl, cause, (Except.error.inj h).symm, fun hassembly => ?_⟩
    rw [Manifest.not_inAssembly_of_publish hpublish] at hassembly
    cases hassembly
  · simp [heq] at h

/-! ## A change that fails -/

/-- What has become of a session and its files after a change failed, by the
error.  With an error of the configuration or of a source nothing has changed.
With one of the manifest the session has the configuration that it has just read
or the entry of the source that it has just compiled. -/
inductive FailedChange (session : Session) (tree : FileTree) (path : Path) :
    SessionError → Session → FileTree → Prop where
  | config (cause : ConfigError) : FailedChange session tree path (.config cause) session tree
  | compile (cause : CompileError) : FailedChange session tree path (.compile cause) session tree
  | configuration (cause : ManifestError) (config : ProjectConfig) (glob : Glob) (after : FileTree)
    (hsubject : session.subject tree path = .configuration)
    (hload : loadProject tree session.configPath = .ok (config, glob))
    (hafter : cause.inAssembly → after = tree) :
    FailedChange session tree path (.manifest cause) { session with config, glob } after
  | sourceFile (cause : ManifestError) (file : Path) (cache : SourceCache) (after : FileTree)
    (hsubject : session.subject tree path = .source file)
    (hothers : ∀ key : Path, key.components ≠ (sourceKey session.root file).components →
      cache.entry? key = session.cache.entry? key)
    (hafter : cause.inAssembly → after = tree) :
    FailedChange session tree path (.manifest cause) { session with cache } after

theorem failedChange_of_loadProject {session : Session} {tree : FileTree} {path : Path}
    {e : SessionError} (h : loadProject tree session.configPath = .error e) :
    session.FailedChange tree path e session tree := by
  unfold loadProject at h
  split at h
  · exact Except.error.inj h ▸ .config _
  · split at h
    · exact Except.error.inj h ▸ .compile _
    · cases h

/-- The session that a change asks to publish could not be published. -/
theorem failedChange_of_publish {session ready : Session} {tree : FileTree} {path : Path}
    {time : Nat} {e : SessionError} (h : (ready.publish tree time).2.2 = .error e)
    (hready : ∀ cause after, (ManifestError.inAssembly cause → after = tree) →
      session.FailedChange tree path (.manifest cause) ready after) :
    session.FailedChange tree path e (ready.publish tree time).1
      (ready.publish tree time).2.1 := by
  obtain ⟨hfirst, cause, rfl, htree⟩ := failed_publish h
  rw [hfirst]
  exact hready cause _ htree

theorem failedChange_of_error {session : Session} (hserve : session.context.command = .serve)
    {tree : FileTree} {path : Path} {time : Nat} {e : SessionError}
    (h : (session.fileChanged tree path time).2.result = .error e) :
    session.FailedChange tree path e (session.fileChanged tree path time).1
      (session.fileChanged tree path time).2.tree := by
  have hrun := session.fileChanged_run tree path time
  generalize session.fileChanged tree path time = run at h hrun ⊢
  cases hsubject : session.subject tree path with
  | nothing =>
    rw [absorb_of_nothing hserve hsubject] at hrun
    cases hrun
    cases h
  | configuration =>
    rw [absorb_of_configuration hserve hsubject] at hrun
    cases hload : loadProject tree session.configPath with
    | error cause =>
      simp only [hload, Except.map] at hrun
      cases hrun
      obtain rfl := Except.error.inj h
      exact failedChange_of_loadProject hload
    | ok loaded =>
      simp only [hload, Except.map] at hrun
      cases hrun with
      | published ready outcome =>
        refine failedChange_of_publish (map_eq_error.1 h) fun cause after hafter => ?_
        exact .configuration cause loaded.1 loaded.2 after hsubject hload hafter
  | source file =>
    rcases hprocess : session.cache.process session.extractor tree session.root file with
      ⟨cache, cause | outcome, extractions⟩
    · simp only [absorb_of_source hserve hsubject hprocess, Except.mapError, Except.map] at hrun
      cases hrun
      obtain rfl := Except.error.inj h
      exact .compile cause
    · have hresult := congrArg CacheRun.result hprocess
      have hprocessed := SourceCache.processed_of_process hresult
      rw [hprocess] at hprocessed
      simp only [absorb_of_source hserve hsubject hprocess, Except.mapError, Except.map] at hrun
      cases hrun with
      | published ready outcome =>
        refine failedChange_of_publish (map_eq_error.1 h) fun cause after hafter => ?_
        exact .sourceFile cause file cache after hsubject
          (fun key hkey => hprocessed.entries_of_ne (Ne.symm hkey)) hafter

theorem FailedChange.manifest_eq {session last : Session} {tree after : FileTree} {path : Path}
    {e : SessionError} (h : session.FailedChange tree path e last after) :
    last.manifest = session.manifest := by
  cases h <;> rfl

/-- The glob of a session is that of its configuration, after every call. -/
theorem globOfConfig_after (session : Session) (call : Call) (h : World.GlobOfConfig session) :
    World.GlobOfConfig (session.after call) := by
  cases call with
  | fileChanged tree path time =>
    have hstep : World.GlobOfConfig (World.step ⟨session, tree⟩ (.changed path time)).session :=
      World.step_globOfConfig _ h
    exact hstep
  | bundleFinalized tree time =>
    obtain ⟨_, hlast⟩ | ⟨_, _, -, -, -, hlast⟩ := session.bundleFinalized_of_waiting tree time
    · rw [after, hlast.2]
      exact h
    · rw [after, hlast]
      exact h

/-- A session stays one of its project, after every call. -/
theorem sameProject_after (session : Session) (call : Call) :
    World.SameProject session (session.after call) := by
  cases call with
  | fileChanged tree path time => exact World.step_sameProject ⟨session, tree⟩ (.changed path time)
  | bundleFinalized tree time =>
    obtain ⟨_, hlast⟩ | ⟨_, _, -, -, -, hlast⟩ := session.bundleFinalized_of_waiting tree time
    · rw [after, hlast.2]
      exact .refl session
    · rw [after, hlast]
      exact ⟨rfl, rfl, rfl, rfl⟩

theorem sameProject_afterAll (session : Session) (calls : List Call) :
    World.SameProject session (session.afterAll calls) :=
  afterAll_of_after (fun last call hlast => hlast.trans (last.sameProject_after call))
    (.refl session) calls

theorem context_afterAll (session : Session) (calls : List Call) :
    (session.afterAll calls).context = session.context :=
  (session.sameProject_afterAll calls).context

/-- **Failure of a change.**  In every state that a server can come to, the glob
is that of the configuration, and a change that fails there leaves the manifest
as it is and everything else as the error says. -/
theorem failed_change {options : SessionOptions} {tree : FileTree} {time : Nat} {session : Session}
    (h : (start options tree time).result = .ok session)
    (hserve : options.context.command = .serve) (calls : List Call) :
    Glob.ofPattern (session.afterAll calls).config.sources = .ok (session.afterAll calls).glob ∧
    ∀ tree path time e, ((session.afterAll calls).fileChanged tree path time).2.result = .error e →
      ((session.afterAll calls).fileChanged tree path time).1.manifest =
        (session.afterAll calls).manifest ∧
      (session.afterAll calls).FailedChange tree path e
        ((session.afterAll calls).fileChanged tree path time).1
        ((session.afterAll calls).fileChanged tree path time).2.tree := by
  obtain ⟨first, hscanned, hfirst⟩ := scanned_of_start h
  obtain ⟨-, -, -, hglob, -⟩ := World.scanned_eq_ok hscanned
  have hstart : World.GlobOfConfig session := by
    rw [hfirst]
    exact hglob
  have hcommand : (session.afterAll calls).context.command = .serve := by
    rw [context_afterAll, context_of_start h]
    exact hserve
  refine ⟨afterAll_of_after globOfConfig_after hstart calls, fun tree path time e he => ?_⟩
  have hfailed := failedChange_of_error hcommand he
  exact ⟨hfailed.manifest_eq, hfailed⟩

/-- The project with one source after this source was edited: it prefetches two
operations. -/
def prefetchProject : FileTree :=
  queryProject.saveFile ⟨"/p/src/a.ts"⟩
    "gql\x60query B @prefetch \x7b b \x7d\x60 gql\x60query C @prefetch \x7b c \x7d\x60".toUTF8

/-- The operations that are refused are cached all the same. -/
theorem failed_change_in_prefetchProject :
    ∃ server e, (start (bareOptions .serve) queryProject 0).result = .ok server ∧
      let last := (server.afterAll [.bundleFinalized queryProject 1])
      let run := last.fileChanged prefetchProject ⟨"src/a.ts"⟩ 2
      run.2.result = .error e ∧ run.1.cache.operations.map (·.name) = ["B", "C"] ∧
        run.1.manifest = last.manifest ∧
        last.FailedChange prefetchProject ⟨"src/a.ts"⟩ e run.1 run.2.tree := by
  have hfacts : (start (bareOptions .serve) queryProject 0).result.toOption.any (fun server =>
      let last := (server.afterAll [.bundleFinalized queryProject 1])
      let run := last.fileChanged prefetchProject ⟨"src/a.ts"⟩ 2
      failsToPublish run.2.result = true ∧
        run.1.cache.operations.map (·.name) = ["B", "C"]) = true := by
    decide +kernel
  obtain ⟨server, hserver, hserves⟩ := exists_ok_of_any hfacts
  obtain ⟨hfails, hcached⟩ := of_decide_eq_true hserves
  obtain ⟨e, he, -⟩ := exists_error_of_failsToPublish hfails
  obtain ⟨hmanifest, hfailed⟩ := (failed_change hserver rfl _).2 _ _ _ e he
  exact ⟨server, e, hserver, he, hcached, hmanifest, hfailed⟩

end Session

end OpManifest
