import OpManifest.Proofs.Assembly
import OpManifest.Proofs.Failure

/-!
# When a manifest is assembled

Two things can be in the way of a manifest: too many operations that are to be
prefetched, and an application that is not found anywhere.  The operations are
looked at first.  Where the application is found is said by `BuildContext.Offers`
and why it is not by `BuildContext.Lacks`; one of them holds, and each of one
answer only (`resource_eq_ok`, `resource_eq_error`).
-/

namespace OpManifest

namespace BuildContext

/-- The application is found at a place: at the entry of the mode, or without one
at the address of the server, or in the standard place of a production build. -/
inductive Offers (context : BuildContext) (entry : Dictionary) : String → Prop where
  | entry (place : String) (hentry : entry[context.mode]? = some place) :
    Offers context entry place
  | server (address : ServerAddress) (hentry : entry[context.mode]? = none)
    (hcommand : context.command = .serve) (hserver : context.server = some address) :
    Offers context entry
      (address.protocol ++ "://" ++ address.host ++ ":" ++ toString address.portNumber)
  | standard (hentry : entry[context.mode]? = none) (hcommand : context.command = .build)
    (hmode : context.mode = "production") : Offers context entry "index.html"

/-- The application is not found: there is no entry of the mode, and the server
does not listen yet or the build is one for another mode than production. -/
inductive Lacks (context : BuildContext) (entry : Dictionary) : ManifestError → Prop where
  | server (hentry : entry[context.mode]? = none) (hcommand : context.command = .serve)
    (hserver : context.server = none) : Lacks context entry .serverUnavailable
  | entry (hentry : entry[context.mode]? = none) (hcommand : context.command = .build)
    (hmode : context.mode ≠ "production") : Lacks context entry (.missingEntryPoint context.mode)

variable {context : BuildContext} {entry : Dictionary}

theorem resource_eq_ok {place : String} :
    context.resource entry = .ok place ↔ context.Offers entry place := by
  constructor
  · intro h
    unfold resource at h
    split at h
    · rename_i found hentry
      obtain rfl := Except.ok.inj h
      exact .entry found hentry
    · rename_i address hentry hcommand hserver
      obtain rfl := Except.ok.inj h
      exact .server address hentry hcommand hserver
    · cases h
    · rename_i hentry hcommand
      split at h
      · rename_i hmode
        obtain rfl := Except.ok.inj h
        exact .standard hentry hcommand hmode
      · cases h
  · intro h
    unfold resource
    cases h with
    | entry place hentry => simp only [hentry]
    | server address hentry hcommand hserver =>
      simp only [hentry, hcommand, hserver]
      rfl
    | standard hentry hcommand hmode =>
      simp only [hentry, hcommand]
      exact if_pos hmode

theorem resource_eq_error {cause : ManifestError} :
    context.resource entry = .error cause ↔ context.Lacks entry cause := by
  constructor
  · intro h
    unfold resource at h
    split at h
    · cases h
    · cases h
    · rename_i hentry hcommand hserver
      obtain rfl := Except.error.inj h
      exact .server hentry hcommand hserver
    · rename_i hentry hcommand
      split at h
      · cases h
      · rename_i hmode
        obtain rfl := Except.error.inj h
        exact .entry hentry hcommand hmode
  · intro h
    unfold resource
    cases h with
    | server hentry hcommand hserver => simp only [hentry, hcommand, hserver]
    | entry hentry hcommand hmode =>
      simp only [hentry, hcommand]
      exact if_neg hmode

end BuildContext

variable {operations : List OperationDescriptor} {config : ProjectConfig} {context : BuildContext}
  {time : Nat}

theorem checkPrefetched_eq_error {cause : ManifestError} :
    checkPrefetched operations = .error cause ↔ 2 ≤ (operations.filter (·.prefetch)).length ∧
      cause = .manyPrefetched ((operations.filter (·.prefetch)).map (·.name)) := by
  simp only [checkPrefetched]
  split
  · rename_i hmany
    rw [Except.error.injEq, eq_comm]
    exact (and_iff_right hmany).symm
  · rename_i hfew
    constructor
    · intro h
      cases h
    · intro h
      exact absurd h.1 hfew

/-- An assembly succeeds if both of its checks do. -/
theorem exists_assemble_eq_ok :
    (∃ manifest, assemble operations config context time = .ok manifest) ↔
      (operations.filter (·.prefetch)).length ≤ 1 ∧
        ∃ place, context.Offers config.entry place := by
  constructor
  · rintro ⟨manifest, h⟩
    have hparts := assembledFrom_of_assemble h
    rw [← hparts.operations]
    exact ⟨hparts.prefetched, manifest.resource, BuildContext.resource_eq_ok.1 hparts.resource⟩
  · rintro ⟨hfew, place, hplace⟩
    unfold assemble
    rw [checkPrefetched_eq_ok.2 hfew, BuildContext.resource_eq_ok.2 hplace]
    exact ⟨_, rfl⟩

/-- An assembly fails by the operations first, and then by the application. -/
theorem assemble_eq_error {cause : ManifestError} :
    assemble operations config context time = .error cause ↔
      (2 ≤ (operations.filter (·.prefetch)).length ∧
        cause = .manyPrefetched ((operations.filter (·.prefetch)).map (·.name))) ∨
      (operations.filter (·.prefetch)).length ≤ 1 ∧ context.Lacks config.entry cause := by
  unfold assemble
  rw [bind_eq_error, checkPrefetched_eq_error]
  refine or_congr_right ?_
  constructor
  · rintro ⟨_, hchecked, h⟩
    obtain hlacks | ⟨_, -, h⟩ := bind_eq_error.1 h
    · exact ⟨checkPrefetched_eq_ok.1 hchecked, BuildContext.resource_eq_error.1 hlacks⟩
    · cases h
  · rintro ⟨hfew, hlacks⟩
    refine ⟨(), checkPrefetched_eq_ok.2 hfew, ?_⟩
    rw [BuildContext.resource_eq_error.2 hlacks]
    rfl

/-- **When a manifest is assembled:** if at most one operation is to be prefetched
and the application is found somewhere.  Otherwise the error names the marked
operations, whatever is known of the application, and only if there are not too
many of them what the application lacks.  The manifest takes over the operations
and the settings as they are. -/
theorem assemble_verdict (operations : List OperationDescriptor) (config : ProjectConfig)
    (context : BuildContext) (time : Nat) :
    let marked := operations.filter (·.prefetch)
    let result := assemble operations config context time
    ((∃ manifest, result = .ok manifest) ↔
      marked.length ≤ 1 ∧ ∃ place, context.Offers config.entry place) ∧
    (∀ cause, result = .error cause ↔
      2 ≤ marked.length ∧ cause = .manyPrefetched (marked.map (·.name)) ∨
      marked.length ≤ 1 ∧ context.Lacks config.entry cause) ∧
    ∀ manifest, result = .ok manifest →
      context.Offers config.entry manifest.resource ∧
      manifest.operations = operations ∧ manifest.ShowsSettings config := by
  refine ⟨exists_assemble_eq_ok, fun cause => assemble_eq_error, fun manifest h => ?_⟩
  have hparts := assembledFrom_of_assemble h
  exact ⟨BuildContext.resource_eq_ok.1 hparts.resource, hparts.operations, hparts.settings⟩

/-- An operation with the given name and mark. -/
def markedOperation (name : String) (prefetch : Bool) : OperationDescriptor :=
  { id := "", name, type := .query, body := "", prefetch }

/-- Marked operations are refused before anybody asks for the application, and
the entry of a mode stands before the address of a server. -/
theorem assemble_verdict_marked :
    assemble [markedOperation "B" true, markedOperation "C" false, markedOperation "A" true]
        { name := "x" } ⟨.build, "staging", none⟩ 0 = .error (.manyPrefetched ["B", "A"]) ∧
      assemble [markedOperation "B" true] { name := "x" } ⟨.build, "staging", none⟩ 0 =
        .error (.missingEntryPoint "staging") ∧
      ∃ manifest, assemble [markedOperation "B" true]
          { name := "x", entry := .ofList [("dev", "tunnel")] }
          ⟨.serve, "dev", some ⟨"http", "localhost", 5173⟩⟩ 0 = .ok manifest ∧
        manifest.resource = "tunnel" ∧ manifest.operations.map (·.name) = ["B"] := by
  refine ⟨?_, ?_, ?_⟩
  · exact ((assemble_verdict _ _ _ _).2.1 _).2 (.inl ⟨by decide, rfl⟩)
  · exact ((assemble_verdict _ _ _ _).2.1 _).2
      (.inr ⟨by decide, .entry (by simp) rfl (by decide)⟩)
  · obtain ⟨manifest, hmanifest⟩ := (assemble_verdict [markedOperation "B" true]
      { name := "x", entry := .ofList [("dev", "tunnel")] }
      ⟨.serve, "dev", some ⟨"http", "localhost", 5173⟩⟩ 0).1.2
        ⟨by decide, "tunnel", .entry "tunnel" (by simp)⟩
    obtain ⟨hoffers, hoperations, -⟩ := (assemble_verdict _ _ _ _).2.2 manifest hmanifest
    refine ⟨manifest, hmanifest, ?_, by rw [hoperations]; rfl⟩
    exact Except.ok.inj ((BuildContext.resource_eq_ok.2 hoffers).symm.trans
      (BuildContext.resource_eq_ok.2 (.entry "tunnel" (by simp))))

end OpManifest
