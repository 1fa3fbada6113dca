import OpManifest.Proofs.Failure
import OpManifest.Proofs.FileTree
import OpManifest.Source.Scan

/-!
# Entries of source files

What is found of a file decides what work on it comes to (`worked_process`), and
if it succeeds what it does to the cache (`processed_of_process`).  Which entry a
file with a given content has in a cache that is up to date is `freshEntry`.
A cache is synced with the content of a file if it holds that entry.  Work that
succeeds makes a cache synced (`Processed.synced`), and work on a file that is
already synced keeps it so (`Processed.synced_again`).
-/

namespace OpManifest

open FileTree
open Script (Extractor)

/-- What can be read at the key of a file below a root. -/
def FileTree.source? (tree : FileTree) (root key : Path) : Option ByteArray :=
  (tree.readBytes (root.join key)).toOption

/-- The text below a root that can be read at the key of a file. -/
def FileTree.sourceText? (tree : FileTree) (root key : Path) : Option String :=
  (tree.source? root key).bind String.fromUTF8?

theorem FileTree.readText_eq_ok {tree : FileTree} {root key : Path} {text : String} :
    tree.readText (root.join key) = .ok text ↔ tree.sourceText? root key = some text := by
  unfold FileTree.readText FileTree.sourceText? FileTree.source?
  cases tree.readBytes (root.join key) with
  | error e => simp [Except.toOption]
  | ok content =>
    simp only [Except.toOption, Option.bind_some]
    cases String.fromUTF8? content <;> simp

theorem FileTree.source?_of_notFound {tree : FileTree} {root key : Path}
    (h : tree.readText (root.join key) = .error .notFound) : tree.source? root key = none := by
  unfold FileTree.readText at h
  unfold FileTree.source?
  cases hread : tree.readBytes (root.join key) with
  | error e => rfl
  | ok content =>
    simp only [hread] at h
    split at h <;> cases h

/-- What was wrong, if the work failed. -/
def CacheRun.fault? {α : Type} (run : CacheRun α) : Option CompileError :=
  match run.result with
  | .ok _ => none
  | .error cause => some cause

theorem CacheRun.fault?_eq_some {α : Type} {run : CacheRun α} {cause : CompileError} :
    run.fault? = some cause ↔ run.result = .error cause := by
  unfold CacheRun.fault?
  cases run.result <;> simp

namespace SourceCache

variable {cache : SourceCache} {extractor : Extractor} {tree : FileTree} {root key path : Path}

/-! ## Entries -/

theorem entries_insert (cache : SourceCache) (key : Path) (entry : CacheEntry)
    (k : List Path.Component) :
    (cache.insert key entry).entries[k]? =
      if key.components = k then some entry else cache.entries[k]? := by
  simp [insert, Std.ExtTreeMap.getElem?_insert]

/-- Caches are told apart by their entries. -/
theorem ext_entries {cache other : SourceCache}
    (h : ∀ k : List Path.Component, cache.entries[k]? = other.entries[k]?) : cache = other := by
  cases cache
  cases other
  exact congrArg SourceCache.mk (Std.ExtTreeMap.ext_getElem? h)

/-- The cache without the entry of a file. -/
def erase (cache : SourceCache) (key : Path) : SourceCache := ⟨cache.entries.erase key.components⟩

theorem entries_erase (cache : SourceCache) (key : Path) (k : List Path.Component) :
    (cache.erase key).entries[k]? = if key.components = k then none else cache.entries[k]? := by
  simp [erase, Std.ExtTreeMap.getElem?_erase]

/-- Nothing is to be compiled at the key: there is no file, or its text has no
documents. -/
def Blank (tree : FileTree) (root key : Path) : Prop :=
  tree.readText (root.join key) = .error .notFound ∨
    ∃ text, tree.sourceText? root key = some text ∧ Script.hasMarker text = false

/-- The entry was compiled from the text. -/
def CompiledFrom (extractor : Extractor) (root key : Path) (text : String) (entry : CacheEntry) :
    Prop :=
  Script.hasMarker text = true ∧
    ∃ operations, compileText extractor (root.join key) text = .ok operations ∧
      entry = ⟨key, Digest.blake3 text, operations⟩

/-- What work on one file does to a cache if it succeeds, by its outcome. -/
inductive Processed (cache : SourceCache) (extractor : Extractor) (tree : FileTree)
    (root key : Path) : FileOutcome → SourceCache → Prop where
  | skipped (hentry : cache.entry? key = none) (hblank : Blank tree root key) :
    Processed cache extractor tree root key .skipped cache
  | removed (hentry : cache.entry? key ≠ none) (hblank : Blank tree root key) :
    Processed cache extractor tree root key .removed (cache.erase key)
  | unchanged (text : String) (entry : CacheEntry)
    (htext : tree.sourceText? root key = some text) (hmarker : Script.hasMarker text = true)
    (hentry : cache.entry? key = some entry) (hhash : entry.hash = Digest.blake3 text) :
    Processed cache extractor tree root key .unchanged cache
  | updated (text : String) (entry : CacheEntry)
    (htext : tree.sourceText? root key = some text)
    (hcompiled : CompiledFrom extractor root key text entry) :
    Processed cache extractor tree root key (.updated entry.operations.length)
      (cache.insert key entry)

/-- What work on one file comes to, by what is found at the key: the cache that is
left, the result, and whether documents were extracted. -/
inductive Worked (cache : SourceCache) (extractor : Extractor) (tree : FileTree)
    (root key : Path) : CacheRun FileOutcome → Prop where
  | skipped (hblank : Blank tree root key) (hentry : cache.entry? key = none) :
    Worked cache extractor tree root key ⟨cache, .ok .skipped, 0⟩
  | removed (hblank : Blank tree root key) (hentry : cache.entry? key ≠ none) :
    Worked cache extractor tree root key ⟨cache.erase key, .ok .removed, 0⟩
  | unreadable (fault : FileFault) (hread : tree.readText (root.join key) = .error fault)
    (hfault : fault ≠ .notFound) :
    Worked cache extractor tree root key ⟨cache, .error (.unreadable (root.join key)), 0⟩
  | unchanged (text : String) (entry : CacheEntry)
    (htext : tree.sourceText? root key = some text) (hmarker : Script.hasMarker text = true)
    (hentry : cache.entry? key = some entry) (hhash : entry.hash = Digest.blake3 text) :
    Worked cache extractor tree root key ⟨cache, .ok .unchanged, 0⟩
  | broken (text : String) (cause : CompileError)
    (htext : tree.sourceText? root key = some text) (hmarker : Script.hasMarker text = true)
    (hnew : ∀ entry, cache.entry? key = some entry → entry.hash ≠ Digest.blake3 text)
    (hcompile : compileText extractor (root.join key) text = .error cause) :
    Worked cache extractor tree root key ⟨cache, .error (.inFile key cause), 1⟩
  | updated (text : String) (operations : List OperationDescriptor)
    (htext : tree.sourceText? root key = some text) (hmarker : Script.hasMarker text = true)
    (hnew : ∀ entry, cache.entry? key = some entry → entry.hash ≠ Digest.blake3 text)
    (hcompile : compileText extractor (root.join key) text = .ok operations) :
    Worked cache extractor tree root key
      ⟨cache.insert key ⟨key, Digest.blake3 text, operations⟩, .ok (.updated operations.length), 1⟩

theorem worked_drop (hblank : Blank tree root key) :
    Worked cache extractor tree root key (cache.drop key) := by
  unfold drop
  split
  · rename_i hentry
    exact .removed hblank (Option.isSome_iff_ne_none.1 hentry)
  · rename_i hentry
    exact .skipped hblank (by simpa using hentry)

/-- Work on one file comes to one of six things. -/
theorem worked_process (cache : SourceCache) (extractor : Extractor) (tree : FileTree)
    (root path : Path) : Worked cache extractor tree root (sourceKey root path)
      (cache.process extractor tree root path) := by
  unfold process
  simp only
  split
  · rename_i hread
    exact worked_drop (.inl hread)
  · rename_i fault hfault hread
    exact .unreadable fault hread hfault
  · rename_i text hread
    have htext := readText_eq_ok.1 hread
    split
    · rename_i hmarker
      exact worked_drop (.inr ⟨text, htext, by simpa using hmarker⟩)
    · rename_i hmarker
      have hmarker : Script.hasMarker text = true := by simpa using hmarker
      split
      · rename_i hsame
        obtain ⟨entry, hentry, hhash⟩ := (Option.any_eq_true _ _).1 hsame
        exact .unchanged text entry htext hmarker hentry (of_decide_eq_true hhash)
      · rename_i hdiffers
        have hnew : ∀ entry, cache.entry? (sourceKey root path) = some entry →
            entry.hash ≠ Digest.blake3 text := by
          intro entry hentry hhash
          apply hdiffers
          rw [hentry, Option.any_some, hhash, decide_eq_true_iff]
        split
        · rename_i cause hcompile
          exact .broken text cause htext hmarker hnew hcompile
        · rename_i operations hcompile
          exact .updated text operations htext hmarker hnew hcompile

theorem process_of_blank (hblank : Blank tree root (sourceKey root path)) :
    cache.process extractor tree root path = cache.drop (sourceKey root path) := by
  unfold process
  obtain hread | ⟨text, htext, hmarker⟩ := hblank
  · simp only [hread]
  · simp only [readText_eq_ok.2 htext, hmarker, Bool.not_false, ↓reduceIte]

theorem any_hash_eq_false {text : String}
    (hnew : ∀ entry, cache.entry? key = some entry → entry.hash ≠ Digest.blake3 text) :
    (cache.entry? key).any (·.hash = Digest.blake3 text) = false := by
  simpa [Option.any_eq_false] using hnew

/-- What is found decides what work on one file comes to. -/
theorem Worked.eq_process {run : CacheRun FileOutcome}
    (h : Worked cache extractor tree root (sourceKey root path) run) :
    run = cache.process extractor tree root path := by
  cases h with
  | skipped hblank hentry => simp [process_of_blank hblank, drop, hentry]
  | removed hblank hentry =>
    simp [process_of_blank hblank, drop, Option.isSome_iff_ne_none.2 hentry, erase]
  | unreadable fault hread hfault =>
    unfold process
    cases fault <;> simp_all
  | unchanged text entry htext hmarker hentry hhash =>
    unfold process
    simp [readText_eq_ok.2 htext, hmarker, hentry, hhash]
  | broken text cause htext hmarker hnew hcompile =>
    unfold process
    simp [readText_eq_ok.2 htext, hmarker, any_hash_eq_false hnew, hcompile]
  | updated text operations htext hmarker hnew hcompile =>
    unfold process
    simp [readText_eq_ok.2 htext, hmarker, any_hash_eq_false hnew, hcompile]

/-- Where work on one file fails, the cache is as before. -/
theorem cache_of_process_error {cause : CompileError}
    (h : (cache.process extractor tree root path).result = .error cause) :
    (cache.process extractor tree root path).cache = cache := by
  have hworked := worked_process cache extractor tree root path
  generalize cache.process extractor tree root path = run at h hworked
  cases hworked with
  | skipped | removed | unchanged | updated => cases h
  | unreadable | broken => rfl

/-- Work on one file that succeeds is one of four things. -/
theorem processed_of_process {outcome : FileOutcome}
    (h : (cache.process extractor tree root path).result = .ok outcome) :
    Processed cache extractor tree root (sourceKey root path) outcome
      (cache.process extractor tree root path).cache := by
  have hworked := worked_process cache extractor tree root path
  generalize cache.process extractor tree root path = run at h hworked
  cases hworked with
  | skipped hblank hentry =>
    obtain rfl := Except.ok.inj h
    exact .skipped hentry hblank
  | removed hblank hentry =>
    obtain rfl := Except.ok.inj h
    exact .removed hentry hblank
  | unchanged text entry htext hmarker hentry hhash =>
    obtain rfl := Except.ok.inj h
    exact .unchanged text entry htext hmarker hentry hhash
  | updated text operations htext hmarker hnew hcompile =>
    obtain rfl := Except.ok.inj h
    exact .updated text ⟨_, _, operations⟩ htext ⟨hmarker, operations, hcompile, rfl⟩
  | unreadable | broken => cases h

/-- The entry that a file with the given content has in a cache that is up to
date.  There is no answer for content that cannot be compiled. -/
def freshEntry (extractor : Extractor) (root key : Path) :
    Option ByteArray → Option (Option CacheEntry)
  | none => some none
  | some content =>
    match String.fromUTF8? content with
    | none => none
    | some text =>
      if !Script.hasMarker text then some none
      else
        match compileText extractor (root.join key) text with
        | .error _ => none
        | .ok operations => some (some ⟨key, Digest.blake3 text, operations⟩)

/-- The cache holds the entry that the file has with this content. -/
def Synced (cache : SourceCache) (extractor : Extractor) (root key : Path)
    (content : Option ByteArray) : Prop :=
  freshEntry extractor root key content = some (cache.entry? key)

theorem freshEntry_of_blank (h : Blank tree root key) :
    freshEntry extractor root key (tree.source? root key) = some none := by
  obtain hnone | ⟨text, htext, hmarker⟩ := h
  · rw [source?_of_notFound hnone, freshEntry]
  · obtain ⟨content, hcontent, hutf⟩ := Option.bind_eq_some_iff.1 htext
    simp [freshEntry, hcontent, hutf, hmarker]

theorem freshEntry_of_compiledFrom {text : String} {entry : CacheEntry}
    (htext : tree.sourceText? root key = some text)
    (h : CompiledFrom extractor root key text entry) :
    freshEntry extractor root key (tree.source? root key) = some (some entry) := by
  obtain ⟨hmarker, operations, hcompile, rfl⟩ := h
  obtain ⟨content, hcontent, hutf⟩ := Option.bind_eq_some_iff.1 htext
  simp [freshEntry, hcontent, hutf, hmarker, hcompile]

/-- An entry that a file with some content has was compiled from the text of
that content. -/
theorem compiledFrom_of_freshEntry {entry : CacheEntry}
    (h : freshEntry extractor root key (tree.source? root key) = some (some entry)) :
    ∃ text, tree.sourceText? root key = some text ∧
      CompiledFrom extractor root key text entry := by
  unfold sourceText?
  cases hcontent : tree.source? root key with
  | none => simp [hcontent, freshEntry] at h
  | some content =>
    rw [hcontent, freshEntry] at h
    cases hutf : String.fromUTF8? content with
    | none => simp [hutf] at h
    | some text =>
      simp only [hutf] at h
      by_cases hmarker : Script.hasMarker text = true
      · simp only [hmarker, Bool.not_true, Bool.false_eq_true, ↓reduceIte] at h
        cases hcompile : compileText extractor (root.join key) text with
        | error cause => simp [hcompile] at h
        | ok operations =>
          simp only [hcompile, Option.some.injEq] at h
          exact ⟨text, hutf, hmarker, operations, hcompile, h.symm⟩
      · simp [hmarker] at h

/-! ## Work on one file -/

section

variable {outcome : FileOutcome} {after : SourceCache}

/-- Work on a file changes no other entry. -/
theorem Processed.entries_of_ne (h : Processed cache extractor tree root key outcome after)
    {k : List Path.Component} (hother : key.components ≠ k) :
    after.entries[k]? = cache.entries[k]? := by
  cases h with
  | skipped => rfl
  | removed => rw [entries_erase, if_neg hother]
  | unchanged => rfl
  | updated => rw [entries_insert, if_neg hother]

/-- Work on a file whose entry was compiled from some text makes the entry that
of the text that is there now, provided that the two texts are not taken for
each other. -/
theorem Processed.synced (h : Processed cache extractor tree root key outcome after)
    (hentry : ∀ entry, cache.entry? key = some entry →
      ∃ old, CompiledFrom extractor root key old entry ∧
        ∀ text, tree.sourceText? root key = some text → Digest.blake3 text = Digest.blake3 old →
          text = old) :
    Synced after extractor root key (tree.source? root key) := by
  cases h with
  | skipped hnone hblank => rw [Synced, freshEntry_of_blank hblank, hnone]
  | removed hsome hblank =>
    rw [Synced, freshEntry_of_blank hblank, entry?, entries_erase, if_pos rfl]
  | unchanged text entry htext hmarker hcached hhash =>
    obtain ⟨old, hcompiled, hold⟩ := hentry entry hcached
    obtain ⟨_, _, _, rfl⟩ := id hcompiled
    obtain rfl := hold text htext hhash.symm
    rw [Synced, freshEntry_of_compiledFrom htext hcompiled, hcached]
  | updated text entry htext hcompiled =>
    rw [Synced, freshEntry_of_compiledFrom htext hcompiled, entry?, entries_insert, if_pos rfl]

/-- A synced entry stays synced when the file is worked on again. -/
theorem Processed.synced_again (h : Processed cache extractor tree root key outcome after)
    (hsynced : Synced cache extractor root key (tree.source? root key)) :
    Synced after extractor root key (tree.source? root key) := by
  refine h.synced fun entry hentry => ?_
  rw [Synced, hentry] at hsynced
  obtain ⟨text, htext, hcompiled⟩ := compiledFrom_of_freshEntry hsynced
  refine ⟨text, hcompiled, fun other hother _ => ?_⟩
  exact Option.some.inj (hother.symm.trans htext)

end

/-- A file that is there and has an entry to have is worked on with success. -/
theorem process_of_freshEntry {content : ByteArray} {entry : Option CacheEntry}
    (hkey : sourceKey root key = key) (hcontent : tree.source? root key = some content)
    (h : freshEntry extractor root key (some content) = some entry) :
    ∃ outcome, (cache.process extractor tree root key).result = .ok outcome := by
  have hworked := worked_process cache extractor tree root key
  rw [hkey] at hworked
  generalize cache.process extractor tree root key = run at hworked
  cases hworked with
  | skipped | removed | unchanged | updated => exact ⟨_, rfl⟩
  | unreadable fault hread hfault =>
    cases hutf : String.fromUTF8? content with
    | none => simp [freshEntry, hutf] at h
    | some text =>
      rw [readText_eq_ok.2 (by rw [sourceText?, hcontent, Option.bind_some, hutf])] at hread
      cases hread
  | broken text cause htext hmarker hnew hcompile =>
    have hutf : String.fromUTF8? content = some text := by
      rwa [sourceText?, hcontent, Option.bind_some] at htext
    simp [freshEntry, hutf, hmarker, hcompile] at h

end SourceCache

end OpManifest
