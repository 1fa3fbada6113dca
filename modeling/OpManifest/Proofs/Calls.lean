import OpManifest.Proofs.Run

/-!
# The two commands

A session is called when a file has changed and when a bundle is final; between
two calls its files may be edited in any way.  The command that it was started
with says which of the two triggers is open.

* A build refuses every change.  It is as it was started until one of its
  bundles is published, and after that it refuses everything (`BuildState`).
* A server refuses every bundle, and it always remembers a manifest.
-/

namespace OpManifest

open FileTree

/-- A call of a session.  It meets the files as they are then, whatever was
edited since the call before it. -/
inductive Call where
  | fileChanged (tree : FileTree) (path : Path) (time : Nat)
  | bundleFinalized (tree : FileTree) (time : Nat)

namespace Session

/-! ## Calls -/

/-- The session after a call. -/
def after (session : Session) : Call → Session
  | .fileChanged tree path time => (session.fileChanged tree path time).1
  | .bundleFinalized tree time => (session.bundleFinalized tree time).1

/-- The session after a list of calls. -/
def afterAll (session : Session) (calls : List Call) : Session := calls.foldl after session

/-- What every call keeps is there after all calls. -/
theorem afterAll_of_after {holds : Session → Prop}
    (hstep : ∀ session call, holds session → holds (session.after call)) {session : Session}
    (h : holds session) (calls : List Call) : holds (session.afterAll calls) := by
  induction calls generalizing session with
  | nil => exact h
  | cons call calls ih => exact ih (hstep session call h)

/-- The call publishes the manifest of a build. -/
def finalizes (session : Session) : Call → Bool
  | .fileChanged .. => false
  | .bundleFinalized tree time => (session.bundleFinalized tree time).2.result.isOk

/-- How many of the calls publish the manifest of a build. -/
def finalizations (session : Session) : List Call → Nat
  | [] => 0
  | call :: calls =>
    (if session.finalizes call then 1 else 0) + (session.after call).finalizations calls

/-! ## How a session begins -/

/-- A new session is as it was asked for and has published nothing. -/
theorem new_of_scanned {options : SessionOptions} {tree : FileTree} {session : Session}
    (h : scanned options tree = .ok session) : session.context = options.context ∧
      session.finalized = false ∧ session.manifest = none := by
  unfold scanned at h
  split at h
  · cases h
  · simp only at h
    split at h
    · cases h
    · split at h
      · cases h
      · obtain rfl := Except.ok.inj h
        exact ⟨rfl, rfl, rfl⟩

/-- The start of a build is its scan, and it writes nothing. -/
theorem start_of_build {options : SessionOptions} (hbuild : options.context.command = .build)
    (tree : FileTree) (time : Nat) :
    (start options tree time).result = scanned options tree ∧
      (start options tree time).tree = tree := by
  have heq := start_eq options tree time
  cases hscanned : scanned options tree with
  | error e =>
    rw [hscanned] at heq
    exact Prod.mk.inj heq
  | ok session =>
    have hcommand : session.context.command = .build := by
      rw [(new_of_scanned hscanned).1]
      exact hbuild
    simp only [hscanned, hcommand] at heq
    exact Prod.mk.inj heq

/-- A session that has started is the one that was scanned, but for the manifest
that it remembers. -/
theorem scanned_of_start {options : SessionOptions} {tree : FileTree} {time : Nat}
    {session : Session} (h : (start options tree time).result = .ok session) :
    ∃ first, scanned options tree = .ok first ∧
      session = { first with manifest := session.manifest } := by
  cases hcommand : options.context.command with
  | build => exact ⟨session, (start_of_build hcommand tree time).1 ▸ h, rfl⟩
  | serve =>
    have heq := start_eq options tree time
    rw [h] at heq
    cases hscanned : scanned options tree with
    | error e => simp [hscanned] at heq
    | ok first =>
      have hserve : first.context.command = .serve := by
        rw [(new_of_scanned hscanned).1]
        exact hcommand
      simp only [hscanned, hserve, Prod.mk.injEq] at heq
      rcases hpublish : first.publish tree time with ⟨last, after, e | written⟩
      · simp [hpublish, Except.map] at heq
      · have hlast := first.publish_fst tree time
        simp only [hpublish, Except.map, Except.ok.injEq] at heq hlast
        rw [heq.1]
        exact ⟨first, rfl, hlast⟩

theorem context_of_start {options : SessionOptions} {tree : FileTree} {time : Nat}
    {session : Session} (h : (start options tree time).result = .ok session) :
    session.context = options.context := by
  obtain ⟨first, hscanned, heq⟩ := scanned_of_start h
  rw [heq]
  exact (new_of_scanned hscanned).1

/-! ## A server -/

/-- A bundle is nothing to a server. -/
theorem bundleFinalized_of_serve {session : Session} (hserve : session.context.command = .serve)
    (tree : FileTree) (time : Nat) : session.bundleFinalized tree time =
      (session, { result := .error (.wrongCommand .bundleFinalized .serve), tree }) := by
  simp [bundleFinalized, hserve]

/-- A publication never forgets a manifest. -/
theorem manifest_isSome_of_publish {session : Session} (h : session.manifest.isSome)
    (tree : FileTree) (time : Nat) : (session.publish tree time).1.manifest.isSome := by
  obtain ⟨_, -, heq⟩ | ⟨_, -, ⟨_, _, -, heq⟩ | ⟨_, _, -, heq⟩⟩ := session.publish_cases tree time
  · rwa [heq]
  · rwa [heq]
  · rw [heq]
    rfl

theorem manifest_isSome_after (session : Session) (call : Call)
    (h : session.context.command = .serve ∧ session.manifest.isSome) :
    (session.after call).context.command = .serve ∧ (session.after call).manifest.isSome := by
  cases call with
  | bundleFinalized tree time =>
    rw [after, bundleFinalized_of_serve h.1]
    exact h
  | fileChanged tree path time =>
    rw [after, World.fileChanged_fst]
    obtain ⟨_, -, habsorb⟩ | habsorb | ⟨config, glob, -, habsorb⟩ | ⟨_, _, -, -, -, habsorb⟩ :=
      session.absorb_cases tree path
    · simpa only [habsorb] using h
    · simpa only [habsorb] using h
    · simp only [habsorb]
      exact ⟨by rw [publish_fst]; exact h.1, manifest_isSome_of_publish (by exact h.2) tree time⟩
    · simp only [habsorb]
      exact ⟨by rw [publish_fst]; exact h.1, manifest_isSome_of_publish (by exact h.2) tree time⟩

/-! ## A build -/

/-- A change is nothing to a build. -/
theorem fileChanged_of_build {session : Session} (hbuild : session.context.command = .build)
    (tree : FileTree) (path : Path) (time : Nat) : session.fileChanged tree path time =
      (session, { result := .error (.wrongCommand .fileChanged .build), tree }) := by
  simp [fileChanged, hbuild]

/-- A build that is final and remembers what it has published. -/
def finalWith (session : Session) (manifest : Manifest) : Session :=
  { session with finalized := true, manifest := some manifest }

/-- What a build has come to after some calls, by the number of those that
published its manifest: it is as it was started, or it is final. -/
inductive BuildState (session : Session) : Nat → Session → Prop where
  | waiting : BuildState session 0 session
  | final (manifest : Manifest) (h : manifest.operations = session.cache.operations) :
    BuildState session 1 (session.finalWith manifest)

/-- A build that is final publishes nothing more. -/
theorem bundleFinalized_of_final {session : Session} (hbuild : session.context.command = .build)
    (hfinal : session.finalized = true) (tree : FileTree) (time : Nat) :
    session.bundleFinalized tree time =
      (session, { result := .error .alreadyFinalized, tree }) := by
  simp [bundleFinalized, hbuild, hfinal]

/-- The end of a bundle either fails and leaves the build as it is, or it
publishes what the build has scanned, and then the build is final. -/
theorem bundleFinalized_of_waiting (session : Session) (tree : FileTree) (time : Nat) :
    (∃ e, (session.bundleFinalized tree time).2.result = .error e ∧
      (session.bundleFinalized tree time).1 = session) ∨
    ∃ written manifest, (session.bundleFinalized tree time).2.result = .ok written ∧
      (session.bundleFinalized tree time).1.Published
        (session.bundleFinalized tree time).2.tree manifest ∧
      manifest.operations = session.cache.operations ∧
      (session.bundleFinalized tree time).1 = session.finalWith manifest := by
  obtain ⟨e, -, heq⟩ | ⟨last, after, e, hpublish, heq⟩ | ⟨last, after, written, hpublish, heq⟩ :=
    session.bundleFinalized_cases tree time
  · exact .inl ⟨e, by rw [heq], by rw [heq]⟩
  · exact .inl ⟨e, by rw [heq], by rw [heq]; exact publish_fst_of_error hpublish⟩
  · have hresult : (session.bundleFinalized tree time).2.result = .ok written := by rw [heq]
    obtain ⟨manifest, hpublished⟩ := published_of_bundleFinalized hresult
    have hlast := session.publish_fst tree time
    have hmanifest : last.manifest = some manifest := by simpa [heq] using hpublished.last
    simp only [hpublish, hmanifest] at hlast
    have hoperations := hpublished.assembled.operations
    simp only [heq, hlast] at hoperations
    exact .inr ⟨written, manifest, hresult, hpublished, hoperations, by rw [heq, hlast, finalWith]⟩

theorem buildState_after {session last : Session} {n : Nat}
    (hbuild : session.context.command = .build) (h : session.BuildState n last) (call : Call) :
    session.BuildState (n + if last.finalizes call then 1 else 0) (last.after call) := by
  cases call with
  | fileChanged tree path time =>
    have hlast : last.context.command = .build := by cases h <;> exact hbuild
    simpa [after, finalizes, fileChanged_of_build hlast] using h
  | bundleFinalized tree time =>
    cases h with
    | waiting =>
      obtain ⟨e, hresult, hfirst⟩ | ⟨written, manifest, hresult, -, hoperations, hfirst⟩ :=
        session.bundleFinalized_of_waiting tree time
      · simpa [after, finalizes, hresult, hfirst, Except.isOk, Except.toBool] using .waiting
      · simpa [after, finalizes, hresult, hfirst, Except.isOk, Except.toBool] using
          .final manifest hoperations
    | final manifest hoperations =>
      have hlast : (session.finalWith manifest).context.command = .build := hbuild
      simpa [after, finalizes, bundleFinalized_of_final hlast rfl tree time, Except.isOk,
        Except.toBool] using .final manifest hoperations

theorem buildState_afterAll {session last : Session} {n : Nat}
    (hbuild : session.context.command = .build) (h : session.BuildState n last)
    (calls : List Call) :
    session.BuildState (n + last.finalizations calls) (last.afterAll calls) := by
  induction calls generalizing n last with
  | nil => exact h
  | cons call calls ih =>
    have hnext := ih (buildState_after hbuild h call)
    rwa [Nat.add_assoc] at hnext

/-! ## The discipline of both -/

/-- What holds of a build after some calls, by the number of those that published
its manifest. -/
structure BuildLaw (session : Session) (published : Nat) (last : Session) : Prop where
  /-- A change is refused, and nothing changes. -/
  changes : ∀ tree path time, last.fileChanged tree path time =
    (last, { result := .error (.wrongCommand .fileChanged .build), tree })
  atMostOnce : published ≤ 1
  /-- After a bundle was published every other one is refused, and nothing
  changes. -/
  afterwards : published = 1 → ∀ tree time, last.bundleFinalized tree time =
    (last, { result := .error .alreadyFinalized, tree })
  /-- Until then the build is as it was started. -/
  waiting : published = 0 → last = session
  /-- A bundle that cannot be published leaves the build as it is. -/
  failed : ∀ tree time e, (last.bundleFinalized tree time).2.result = .error e →
    (last.bundleFinalized tree time).1 = last
  manifest : last.manifest.isSome ↔ published = 1
  /-- What is published are the operations that the build was started with. -/
  written : ∀ tree time paths, (last.bundleFinalized tree time).2.result = .ok paths →
    ∃ manifest, (last.bundleFinalized tree time).1.Published
        (last.bundleFinalized tree time).2.tree manifest ∧
      manifest.operations = session.cache.operations

/-- What holds of a server after some calls. -/
structure ServeLaw (last : Session) : Prop where
  /-- A bundle is refused, and nothing changes. -/
  bundles : ∀ tree time, last.bundleFinalized tree time =
    (last, { result := .error (.wrongCommand .bundleFinalized .serve), tree })
  manifest : last.manifest.isSome

theorem BuildState.law {session last : Session} {published : Nat}
    (h : session.BuildState published last) (hbuild : session.context.command = .build)
    (hnone : session.manifest = none) : session.BuildLaw published last := by
  cases h with
  | waiting =>
    refine ⟨fileChanged_of_build hbuild, by omega, by omega, fun _ => rfl, ?_, by simp [hnone], ?_⟩
    · intro tree time e he
      obtain ⟨_, -, hfirst⟩ | ⟨paths, _, hpaths, -⟩ := session.bundleFinalized_of_waiting tree time
      · exact hfirst
      · simp [hpaths] at he
    · intro tree time paths hpaths
      obtain ⟨e, he, -⟩ | ⟨_, manifest, -, hpublished, hoperations, -⟩ :=
        session.bundleFinalized_of_waiting tree time
      · simp [he] at hpaths
      · exact ⟨manifest, hpublished, hoperations⟩
  | final manifest hoperations =>
    have hlast : (session.finalWith manifest).context.command = .build := hbuild
    have hrefused := bundleFinalized_of_final hlast rfl
    refine ⟨fileChanged_of_build hlast, by omega, fun _ => hrefused, by omega, ?_,
      by simp [finalWith], ?_⟩
    · intro tree time e _
      rw [hrefused]
    · intro tree time paths hpaths
      simp [hrefused] at hpaths

/-- **The two commands.**  A build writes nothing at its start.  Whatever it is
called with after that and whatever is edited between the calls, it refuses
changes, publishes one bundle at most, and that with the operations of its
start; one that fails may be tried again.  A server refuses bundles and always
remembers a manifest. -/
theorem laws_of_start (options : SessionOptions) (tree : FileTree) (time : Nat) :
    (options.context.command = .build → (start options tree time).tree = tree) ∧
    ∀ session, (start options tree time).result = .ok session → ∀ calls,
      (options.context.command = .build →
        session.BuildLaw (session.finalizations calls) (session.afterAll calls)) ∧
      (options.context.command = .serve → (session.afterAll calls).ServeLaw) := by
  refine ⟨fun hbuild => (start_of_build hbuild tree time).2, fun session hsession calls => ⟨?_, ?_⟩⟩
  · intro hbuild
    have hscanned := (start_of_build hbuild tree time).1 ▸ hsession
    obtain ⟨hcontext, -, hnone⟩ := new_of_scanned hscanned
    have hcommand : session.context.command = .build := by
      rw [hcontext]
      exact hbuild
    have hstate := buildState_afterAll hcommand .waiting calls
    rw [Nat.zero_add] at hstate
    exact hstate.law hcommand hnone
  · intro hserve
    have hcommand : session.context.command = .serve := by
      rw [context_of_start hsession]
      exact hserve
    obtain ⟨manifest, hpublished⟩ := published_of_start hsession hcommand
    have hfirst : session.context.command = .serve ∧ session.manifest.isSome :=
      ⟨hcommand, by simp [hpublished.last]⟩
    obtain ⟨hlast, hmanifest⟩ := afterAll_of_after manifest_isSome_after hfirst calls
    exact ⟨bundleFinalized_of_serve hlast, hmanifest⟩

/-- The bare project with one source. -/
def queryProject : FileTree :=
  bareProject.saveFile ⟨"/p/src/a.ts"⟩ "gql\x60query A \x7b a \x7d\x60".toUTF8

/-- A change, a bundle whose output directory is a file, and then two bundles
without the source. -/
def queryCalls : List Call :=
  [.fileChanged bareProject ⟨"src/a.ts"⟩ 1, .bundleFinalized blockedProject 2,
    .bundleFinalized bareProject 3, .bundleFinalized queryProject 4]

theorem laws_of_queryProject :
    (start (bareOptions .build) queryProject 0).tree = queryProject ∧
    ∃ builder server,
      (start (bareOptions .build) queryProject 0).result = .ok builder ∧
      (start (bareOptions .serve) queryProject 0).result = .ok server ∧
      builder.BuildLaw 1 (builder.afterAll queryCalls) ∧
      ((builder.afterAll queryCalls).manifest.map fun manifest =>
        manifest.operations.map (·.name)) = some ["A"] ∧
      (server.afterAll queryCalls).ServeLaw := by
  have hbuild : (start (bareOptions .build) queryProject 0).result.toOption.any (fun builder =>
      builder.finalizations queryCalls = 1 ∧
        ((builder.afterAll queryCalls).manifest.map fun manifest =>
          manifest.operations.map (·.name)) = some ["A"]) = true := by
    decide +kernel
  have hserve : (start (bareOptions .serve) queryProject 0).result.toOption.any
      (fun _ => true) = true := by
    decide +kernel
  obtain ⟨builder, hbuilder, hfacts⟩ := exists_ok_of_any hbuild
  obtain ⟨hcount, hnames⟩ := of_decide_eq_true hfacts
  obtain ⟨server, hserver, -⟩ := exists_ok_of_any hserve
  obtain ⟨htree, hlaws⟩ := laws_of_start (bareOptions .build) queryProject 0
  have hlaw := (hlaws builder hbuilder queryCalls).1 rfl
  rw [hcount] at hlaw
  obtain ⟨-, hserveLaws⟩ := laws_of_start (bareOptions .serve) queryProject 0
  exact ⟨htree rfl, builder, server, hbuilder, hserver, hlaw, hnames,
    (hserveLaws server hserver queryCalls).2 rfl⟩

end Session

end OpManifest
