import OpManifest.Proofs.Verdict
import OpManifest.Proofs.WarmScan

/-!
# Work on one file

What is told of a file by the outcome of work on it (`outcome_of_process`).

* The operations of a text are those of its documents that have one, and its
  error is that of the extractor or of its first document that is at fault
  (`compileText_eq_ok`, `compileText_eq_error`).
* The compiler knows no files, so the error of a document is not told with one
  (`file?_eq_none_of_compile`).  An extractor can tell its error with any file, and
  then the result tells two (`not_outcome_of_process`).
* A path below the root and the rest of it are worked on alike
  (`process_sourceKey`).
* Work on a file sees the cache through the entry of the file
  (`process_agree`).
-/

namespace OpManifest

open GraphQL (Directive Document)
open Script (Embedded Extractor)

/-! ## The errors of a document -/

/-- The file that the error is told with. -/
def CompileError.file? : CompileError → Option Path
  | .inFile file _ => some file
  | _ => none

theorem file?_eq_none_of_toolChecks {directive : Directive} {check : Check}
    (hmem : check ∈ toolChecks directive) {error : CompileError} (h : check error) :
    error.file? = none := by
  have hmissing {argument : String} (h : missing directive argument error) :
      error.file? = none := by
    obtain ⟨-, rfl⟩ := h
    rfl
  have hkind {argument : String} {expected : LiteralKind}
      (h : otherKind directive argument expected error) : error.file? = none := by
    obtain ⟨literal, -, -, rfl⟩ := h
    rfl
  have hblank (h : blankName directive error) : error.file? = none := by
    obtain ⟨literal, -, name, -, -, rfl⟩ := h
    rfl
  have hrefused {argument : String} (h : refusedLiteral directive argument error) :
      error.file? = none := by
    obtain ⟨literal, -, kind, -, rfl⟩ := h
    rfl
  have hshape {α : Type} {argument : String} {reader : Data.Reader α}
      (h : otherShape directive argument reader error) : error.file? = none := by
    obtain ⟨literal, -, value, cause, -, -, rfl⟩ := h
    rfl
  simp only [toolChecks, List.mem_cons, List.not_mem_nil, or_false] at hmem
  rcases hmem with rfl | rfl | rfl | rfl | rfl | rfl | rfl | rfl | rfl | rfl | rfl
  exacts [hmissing h, hkind h, hblank h, hmissing h, hkind h, hkind h, hrefused h, hshape h,
    hkind h, hrefused h, hshape h]

theorem file?_eq_none_of_publicationChecks {document : Document} {check : Check}
    (hmem : check ∈ publicationChecks document) {error : CompileError} (h : check error) :
    error.file? = none := by
  rcases List.mem_append.1 hmem with hdocument | htool
  · simp only [List.mem_cons, List.not_mem_nil, or_false] at hdocument
    rcases hdocument with rfl | rfl | rfl
    · obtain ⟨-, rfl⟩ := h
      rfl
    · obtain ⟨operation, -, -, rfl⟩ := h
      rfl
    · obtain ⟨operation, -, -, rfl⟩ := h
      rfl
  · obtain ⟨directive, -, hcheck⟩ := List.mem_flatMap.1 htool
    exact file?_eq_none_of_toolChecks hcheck h

/-- The compiler does not know which file a document is from. -/
theorem file?_eq_none_of_compile {source : String} {error : CompileError}
    (h : compile source = .error error) : error.file? = none := by
  cases hparse : Document.parse source with
  | error position =>
    rw [compile, hparse] at h
    obtain rfl := Except.error.inj h
    rfl
  | ok document =>
    obtain ⟨check, hmem, hraised⟩ := exists_mem_of_firstRaised ((enforces_compile hparse error).1 h)
    exact file?_eq_none_of_publicationChecks hmem hraised

/-! ## The documents of a text -/

/-- The operation of a document that compiles to one. -/
def operationIn (document : Embedded) : Option OperationDescriptor :=
  (compile document.source).toOption.join

/-- Why a text cannot be compiled: this is what the extractor says, or the error of
the first document that is at fault. -/
inductive CompileError.Arises (extractor : Extractor) (path : Path) (text : String) :
    CompileError → Prop where
  | extraction (cause : CompileError) (hcause : extractor path text = .error cause) :
    Arises extractor path text cause
  | document (front : List Embedded) (document : Embedded) (rest : List Embedded)
    (cause : CompileError) (hdocuments : extractor path text = .ok (front ++ document :: rest))
    (hfront : ∀ earlier ∈ front, ∃ found, compile earlier.source = .ok found)
    (hcause : compile document.source = .error cause) :
    Arises extractor path text cause

/-- Only an extractor can tell an error with a file. -/
theorem CompileError.Arises.extractor_of_file? {extractor : Extractor} {path : Path}
    {text : String} {cause : CompileError} (h : cause.Arises extractor path text)
    (hfile : cause.file? ≠ none) : extractor path text = .error cause := by
  cases h with
  | extraction _ hcause => exact hcause
  | document front document rest _ hdocuments hfront hcause =>
    exact absurd (file?_eq_none_of_compile hcause) hfile

/-- Documents that all compile have the operations that they have one by one. -/
theorem filterMap_of_mapM {documents : List Embedded} {found : List (Option OperationDescriptor)}
    (h : (documents.mapM fun document => compile document.source) = .ok found) :
    (∀ document ∈ documents, ∃ operation, compile document.source = .ok operation) ∧
      found.filterMap id = documents.filterMap operationIn := by
  induction documents generalizing found with
  | nil =>
    obtain rfl := Except.ok.inj h
    simp
  | cons document documents ih =>
    cases hfirst : compile document.source with
    | error cause =>
      rw [List.mapM_cons, hfirst] at h
      cases h
    | ok operation =>
      cases hrest : documents.mapM fun document => compile document.source with
      | error cause =>
        rw [List.mapM_cons, hfirst, hrest] at h
        cases h
      | ok operations =>
        rw [List.mapM_cons, hfirst, hrest] at h
        obtain rfl := Except.ok.inj h
        obtain ⟨hall, hsame⟩ := ih hrest
        refine ⟨fun other hother => ?_, ?_⟩
        · obtain rfl | hmem := List.mem_cons.1 hother
          · exact ⟨operation, hfirst⟩
          · exact hall other hmem
        · rw [List.filterMap_cons, List.filterMap_cons, hsame, operationIn, hfirst]
          rfl

theorem compileText_eq_ok {extractor : Extractor} {path : Path} {text : String}
    {operations : List OperationDescriptor} (h : compileText extractor path text = .ok operations) :
    ∃ documents, extractor path text = .ok documents ∧
      (∀ document ∈ documents, ∃ found, compile document.source = .ok found) ∧
      operations = documents.filterMap operationIn := by
  unfold compileText at h
  obtain ⟨documents, hdocuments, h⟩ := bind_eq_ok.1 h
  obtain ⟨found, hfound, h⟩ := bind_eq_ok.1 h
  obtain ⟨hall, hsame⟩ := filterMap_of_mapM hfound
  exact ⟨documents, hdocuments, hall, (Except.ok.inj h).symm.trans hsame⟩

theorem compileText_eq_error {extractor : Extractor} {path : Path} {text : String}
    {cause : CompileError} (h : compileText extractor path text = .error cause) :
    cause.Arises extractor path text := by
  unfold compileText at h
  obtain hcause | ⟨documents, hdocuments, h⟩ := bind_eq_error.1 h
  · exact .extraction cause hcause
  · obtain hfault | ⟨found, -, h⟩ := bind_eq_error.1 h
    · obtain ⟨front, document, rest, rfl, hfront, hcause⟩ := exists_of_mapM_error hfault
      exact .document front document rest cause hdocuments hfront hcause
    · cases h

namespace SourceCache

variable {cache : SourceCache} {extractor : Extractor} {tree : FileTree} {root path : Path}

/-! ## The key of a file -/

theorem process_congr {other : Path} (h : sourceKey root path = sourceKey root other) :
    cache.process extractor tree root path = cache.process extractor tree root other := by
  unfold process
  rw [h]

/-- A path below the root has the components of the root and then those of its
key. -/
theorem components_sourceKey (hroot : root.isAbsolute = true)
    (hstarts : path.startsWith root = true) :
    path.components = root.components ++ (sourceKey root path).components ∧
      (sourceKey root path).isAbsolute = false := by
  cases hstrip : path.stripPrefix? root with
  | none =>
    unfold Path.stripPrefix? at hstrip
    rw [if_pos hstarts] at hstrip
    split at hstrip
    · cases hstrip
    · split at hstrip <;> cases hstrip
  | some key =>
    obtain ⟨hcomponents, htrimmed⟩ :=
      Path.components_of_stripPrefix?_of_isAbsolute hroot hstrip
    rw [sourceKey, hstrip, Option.getD_some]
    exact ⟨hcomponents, htrimmed.isAbsolute⟩

/-- A path below the root is worked on as its key is, and a relative path that
spells the rest of it has the same key. -/
theorem process_sourceKey (hroot : root.isAbsolute = true) {clean : Path}
    (hclean : clean.isAbsolute = false)
    (hcomponents : path.components = root.components ++ clean.components) :
    (sourceKey root path).components = (sourceKey root clean).components ∧
      cache.process extractor tree root (sourceKey root path) =
        cache.process extractor tree root path := by
  have hstarts : path.startsWith root = true := by simp [Path.startsWith, hcomponents]
  obtain ⟨hbelow, hrelative⟩ := components_sourceKey hroot hstarts
  constructor
  · rw [sourceKey_of_relative hroot hclean]
    exact List.append_cancel_left (hbelow.symm.trans hcomponents)
  · exact process_congr (sourceKey_of_relative hroot hrelative)

/-! ## The outcome -/

/-- What the result of work on a file tells of the cache and of the file. -/
def OutcomeLaw (cache : SourceCache) (extractor : Extractor) (tree : FileTree) (root key : Path)
    (run : CacheRun FileOutcome) : Prop :=
  match run.result with
  | .ok .skipped => cache.entry? key = none ∧ run.cache = cache
  | .ok .removed => cache.entry? key ≠ none ∧ run.cache.entry? key = none
  | .ok .unchanged => run.cache = cache ∧ run.extractions = 0 ∧ ∃ text entry,
      tree.readText (root.join key) = .ok text ∧ cache.entry? key = some entry ∧
        entry.hash = Digest.blake3 text
  | .ok (.updated count) => ∃ text documents, tree.readText (root.join key) = .ok text ∧
      extractor (root.join key) text = .ok documents ∧
      (∀ document ∈ documents, ∃ found, compile document.source = .ok found) ∧
      run.cache.entry? key =
        some ⟨key, Digest.blake3 text, documents.filterMap operationIn⟩ ∧
      count = (documents.filterMap operationIn).length
  | .error e => run.cache = cache ∧ (e = .unreadable (root.join key) ∨
      ∃ text cause, tree.readText (root.join key) = .ok text ∧ e = .inFile key cause ∧
        cause.Arises extractor (root.join key) text ∧
        (cause.file? ≠ none → extractor (root.join key) text = .error cause))

theorem Worked.outcomeLaw {key : Path} {run : CacheRun FileOutcome}
    (h : Worked cache extractor tree root key run) :
    OutcomeLaw cache extractor tree root key run := by
  cases h with
  | skipped hblank hentry => exact ⟨hentry, rfl⟩
  | removed hblank hentry => exact ⟨hentry, by simp [SourceCache.entry?, entries_erase]⟩
  | unreadable fault hread hfault => exact ⟨rfl, .inl rfl⟩
  | unchanged text entry htext hmarker hentry hhash =>
    exact ⟨rfl, rfl, text, entry, FileTree.readText_eq_ok.2 htext, hentry, hhash⟩
  | broken text cause htext hmarker hnew hcompile =>
    have harises := compileText_eq_error hcompile
    exact ⟨rfl, .inr ⟨text, cause, FileTree.readText_eq_ok.2 htext, rfl, harises,
      harises.extractor_of_file?⟩⟩
  | updated text operations htext hmarker hnew hcompile =>
    obtain ⟨documents, hdocuments, hall, rfl⟩ := compileText_eq_ok hcompile
    refine ⟨text, documents, FileTree.readText_eq_ok.2 htext, hdocuments, hall, ?_, rfl⟩
    simp [SourceCache.entry?, entries_insert]

/-- No other entry changes. -/
theorem Worked.entries_of_ne {key : Path} {run : CacheRun FileOutcome}
    (h : Worked cache extractor tree root key run) {k : List Path.Component}
    (hother : key.components ≠ k) : run.cache.entries[k]? = cache.entries[k]? := by
  cases h with
  | skipped | unreadable | unchanged | broken => rfl
  | removed => rw [entries_erase, if_neg hother]
  | updated => rw [entries_insert, if_neg hother]

/-- What is found of the file and its own entry decide the result and what becomes
of the entry. -/
theorem Worked.congr {key : Path} {run : CacheRun FileOutcome} {other : SourceCache}
    (h : Worked cache extractor tree root key run) (hsame : other.entry? key = cache.entry? key) :
    ∃ again, Worked other extractor tree root key again ∧ again.result = run.result ∧
      again.cache.entry? key = run.cache.entry? key := by
  cases h with
  | skipped hblank hentry => exact ⟨_, .skipped hblank (hsame.trans hentry), rfl, hsame⟩
  | removed hblank hentry =>
    exact ⟨_, .removed hblank (hsame ▸ hentry), rfl, by simp [SourceCache.entry?, entries_erase]⟩
  | unreadable fault hread hfault => exact ⟨_, .unreadable fault hread hfault, rfl, hsame⟩
  | unchanged text entry htext hmarker hentry hhash =>
    exact ⟨_, .unchanged text entry htext hmarker (hsame.trans hentry) hhash, rfl, hsame⟩
  | broken text cause htext hmarker hnew hcompile =>
    exact ⟨_, .broken text cause htext hmarker (hsame ▸ hnew) hcompile, rfl, hsame⟩
  | updated text operations htext hmarker hnew hcompile =>
    exact ⟨_, .updated text operations htext hmarker (hsame ▸ hnew) hcompile, rfl,
      by simp [SourceCache.entry?, entries_insert]⟩

/-- Caches with one entry for the file are worked on alike. -/
theorem process_agree {other : SourceCache} {key : Path} (hkey : sourceKey root path = key)
    (hsame : other.entry? key = cache.entry? key) :
    (other.process extractor tree root path).result =
        (cache.process extractor tree root path).result ∧
      (other.process extractor tree root path).cache.entry? key =
        (cache.process extractor tree root path).cache.entry? key := by
  subst hkey
  obtain ⟨again, hagain, hresult, hentry⟩ :=
    (worked_process cache extractor tree root path).congr hsame
  rw [← hagain.eq_process]
  exact ⟨hresult, hentry⟩

/-- Where no documents are extracted, it does not matter how they would be. -/
theorem Worked.of_extractions {key : Path} {run : CacheRun FileOutcome}
    (h : Worked cache extractor tree root key run) (hnone : run.extractions = 0)
    (other : Extractor) : Worked cache other tree root key run := by
  cases h with
  | skipped hblank hentry => exact .skipped hblank hentry
  | removed hblank hentry => exact .removed hblank hentry
  | unreadable fault hread hfault => exact .unreadable fault hread hfault
  | unchanged text entry htext hmarker hentry hhash =>
    exact .unchanged text entry htext hmarker hentry hhash
  | broken | updated => cases hnone

/-- **Work on one file does what its outcome says.**  What is found at the key
decides the run, and its result tells what became of the entry; all other entries
stay, and where the file has not changed the extractor is not asked. -/
theorem outcome_of_process (cache : SourceCache) (extractor : Extractor) (tree : FileTree)
    {root : Path} (hroot : root.isAbsolute = true) (path : Path) :
    let key := sourceKey root path
    let run := cache.process extractor tree root path
    (path.isAbsolute = false → key = path) ∧
    (∀ clean : Path, clean.isAbsolute = false →
      path.components = root.components ++ clean.components →
      key.components = (sourceKey root clean).components ∧
        cache.process extractor tree root key = run) ∧
    (∀ found, Worked cache extractor tree root key found ↔ found = run) ∧
    OutcomeLaw cache extractor tree root key run ∧
    (∀ other : Path, other.components ≠ key.components →
      run.cache.entry? other = cache.entry? other) ∧
    (run.extractions = 0 → ∀ other, cache.process other tree root path = run) := by
  intro key run
  have hworked : Worked cache extractor tree root key run :=
    worked_process cache extractor tree root path
  refine ⟨sourceKey_of_relative hroot, fun clean hclean hcomponents =>
    process_sourceKey hroot hclean hcomponents, fun found => ⟨Worked.eq_process, ?_⟩,
    hworked.outcomeLaw, fun other hother => hworked.entries_of_ne hother.symm,
    fun hnone other => ?_⟩
  · rintro rfl
    exact hworked
  · exact ((hworked.of_extractions hnone other).eq_process).symm

/-- A file is told under its place with an empty step, and then under its key by a
caller that cannot extract anything. -/
theorem outcome_of_process_spelled :
    let first := ({} : SourceCache).process Script.extract oneSource ⟨"/p"⟩ ⟨"/p//src/a.ts"⟩
    let again := first.cache.process Script.extract oneSource ⟨"/p"⟩ ⟨"src/a.ts"⟩
    (first.result = .ok (.updated 1) ∧ ∃ operations,
      first.cache.entry? ⟨"src/a.ts"⟩ = some ⟨⟨"src/a.ts"⟩, Digest.blake3 textA, operations⟩ ∧
        operations.map (·.name) = ["A"]) ∧
    first.cache.entry? ⟨"src/b.ts"⟩ = none ∧
    again.result = .ok .unchanged ∧ again.cache = first.cache ∧
    first.cache.process (fun _ _ => .error (.extraction "")) oneSource ⟨"/p"⟩ ⟨"src/a.ts"⟩ =
      again := by
  intro first again
  have hroot : (⟨"/p"⟩ : Path).isAbsolute = true := by decide
  have hkey : sourceKey ⟨"/p"⟩ ⟨"/p//src/a.ts"⟩ = ⟨"src/a.ts"⟩ := by decide +kernel
  have hread : oneSource.readText ((⟨"/p"⟩ : Path).join ⟨"src/a.ts"⟩) = .ok textA :=
    eq_ok_of_toOption (by decide +kernel)
  have hfirst : first.result = .ok (.updated 1) := eq_ok_of_toOption (by decide +kernel)
  have hagain : again.result = .ok .unchanged := eq_ok_of_toOption (by decide +kernel)
  have hnames : (first.cache.entry? ⟨"src/a.ts"⟩).map (·.operations.map (·.name)) =
      some ["A"] := by decide +kernel
  obtain ⟨-, -, -, hupdated, hothers, -⟩ :=
    outcome_of_process {} Script.extract oneSource hroot ⟨"/p//src/a.ts"⟩
  obtain ⟨-, -, -, hunchanged, -, hasked⟩ :=
    outcome_of_process first.cache Script.extract oneSource hroot ⟨"src/a.ts"⟩
  rw [OutcomeLaw, hfirst, hkey] at hupdated
  obtain ⟨text, documents, htext, -, -, hentry, -⟩ := hupdated
  obtain rfl := Except.ok.inj (hread.symm.trans htext)
  rw [OutcomeLaw, hagain] at hunchanged
  obtain ⟨hcache, hextractions, -⟩ := hunchanged
  refine ⟨⟨hfirst, _, hentry, ?_⟩, ?_, hagain, hcache, hasked hextractions _⟩
  · rw [hentry] at hnames
    exact Option.some.inj hnames
  · exact hothers ⟨"src/b.ts"⟩ (by decide +kernel)

/-- The error of a text may be told with another file, if the extractor tells it so;
and a path that goes up again is below the root but not worked on as the file that
it leads to. -/
theorem not_outcome_of_process :
    (¬∀ (cache : SourceCache) (extractor : Extractor) (tree : FileTree) (root path : Path)
      (e : CompileError), root.isAbsolute = true →
      (cache.process extractor tree root path).result = .error e →
      e = .unreadable (root.join (sourceKey root path)) ∨
        ∃ cause, e = .inFile (sourceKey root path) cause ∧ cause.file? = none) ∧
    ¬∀ (cache : SourceCache) (extractor : Extractor) (tree : FileTree) (root path : Path)
      (names : List String), root.isAbsolute = true → path.startsWith root = true →
      (tree.resolve path).toOption = (tree.resolve (root.join (.ofNames names))).toOption →
      (cache.process extractor tree root path).cache.entry? (.ofNames names) =
        (cache.process extractor tree root (.ofNames names)).cache.entry? (.ofNames names) := by
  constructor
  · intro hall
    have hkey : sourceKey ⟨"/p"⟩ ⟨"src/a.ts"⟩ = ⟨"src/a.ts"⟩ := by decide +kernel
    have hread : oneSource.readText ((⟨"/p"⟩ : Path).join ⟨"src/a.ts"⟩) = .ok textA :=
      eq_ok_of_toOption (by decide +kernel)
    have hmarker : Script.hasMarker textA = true := by decide +kernel
    have hworked : Worked {} (fun _ _ => .error (.inFile ⟨"b.ts"⟩ (.extraction ""))) oneSource
        ⟨"/p"⟩ (sourceKey ⟨"/p"⟩ ⟨"src/a.ts"⟩) _ :=
      .broken textA (.inFile ⟨"b.ts"⟩ (.extraction "")) (hkey ▸ FileTree.readText_eq_ok.1 hread)
        hmarker (by simp [SourceCache.entry?]) rfl
    obtain hio | ⟨cause, hcause, hplain⟩ := hall _ _ _ _ ⟨"src/a.ts"⟩ _ (by decide)
      (congrArg CacheRun.result hworked.eq_process.symm)
    · cases hio
    · obtain ⟨-, rfl⟩ := CompileError.inFile.inj hcause
      cases hplain
  · intro hall
    have hresolve : (oneSource.resolve ⟨"/p/src/../src/a.ts"⟩).toOption =
        (oneSource.resolve ((⟨"/p"⟩ : Path).join (.ofNames ["src", "a.ts"]))).toOption := by
      decide +kernel
    have hdiffers : (({} : SourceCache).process Script.extract oneSource ⟨"/p"⟩
          ⟨"/p/src/../src/a.ts"⟩).cache.entry? (.ofNames ["src", "a.ts"]) ≠
        (({} : SourceCache).process Script.extract oneSource ⟨"/p"⟩
          (.ofNames ["src", "a.ts"])).cache.entry? (.ofNames ["src", "a.ts"]) := by
      decide +kernel
    exact hdiffers (hall {} Script.extract oneSource ⟨"/p"⟩ ⟨"/p/src/../src/a.ts"⟩ ["src", "a.ts"]
      (by decide) (by decide +kernel) hresolve)

end SourceCache

end OpManifest
