import OpManifest.Proofs.Assembly
import OpManifest.Proofs.FileWork

/-!
# Scans that fail

A scan fails exactly if a file that it looks at is at fault, and its error is that
of the first of them in the order of paths (`first_fault_of_scan`).  Files before
that one have been worked on, and all other entries are as before.

Work on a file sees no entry but its own (`process_agree`) and a walk tells each
file once, so that what a file comes to in a scan is what it comes to in the cache
that the scan began with (`processAll_cases`).
-/

namespace OpManifest

open FileTree
open Script (Extractor RespectsPaths)

namespace SourceCache

variable {cache : SourceCache} {extractor : Extractor} {tree : FileTree} {root key : Path}
  {glob : Glob} {held : String → Prop}

/-- The path spells the names of a file below the root that lies in no ignored
directory and that the glob selects. -/
def IsScanned (tree : FileTree) (root : Path) (glob : Glob) (key : Path) : Prop :=
  ∃ base names, tree.resolve root = .ok base ∧ key = Path.ofNames names ∧
    (tree.content? (base ++ names)).isSome ∧ isIgnored names = false ∧
    glob.selects key.text = true

/-- The file cannot be read as text, or it has documents that do not compile. -/
inductive AtFault (extractor : Extractor) (tree : FileTree) (root key : Path) :
    CompileError → Prop where
  | unreadable (hread : ∀ text, tree.readText (root.join key) ≠ .ok text) :
    AtFault extractor tree root key (.unreadable (root.join key))
  | broken (text : String) (cause : CompileError)
    (hread : tree.readText (root.join key) = .ok text) (hmarker : Script.hasMarker text = true)
    (hcompile : compileText extractor (root.join key) text = .error cause) :
    AtFault extractor tree root key (.inFile key cause)

/-- The path comes before the other in the order in which a cache lists its
files. -/
def Precedes (key other : Path) : Prop := compare key.components other.components = .lt

theorem Precedes.asymm {other : Path} (h : Precedes key other) : ¬Precedes other key := by
  intro hback
  rw [Precedes, Std.OrientedOrd.eq_swap, h] at hback
  cases hback

/-! ## Faults -/

theorem mem_sourceKeys_iff (hwell : tree.WellFormed) :
    key ∈ sourceKeys tree root glob ↔ IsScanned tree root glob key := by
  cases hresolve : tree.resolve root with
  | error e => simp [sourceKeys, IsScanned, hresolve]
  | ok base =>
    rw [mem_sourceKeys_of_resolve hwell hresolve]
    constructor
    · rintro ⟨names, rfl, hcontent, hignored, hselects⟩
      exact ⟨base, names, hresolve, rfl, hcontent, hignored, hselects⟩
    · rintro ⟨base', names, hresolve', rfl, hcontent, hignored, hselects⟩
      obtain rfl := Except.ok.inj (hresolve.symm.trans hresolve')
      exact ⟨names, rfl, hcontent, hignored, hselects⟩

/-- What a walk answers is there. -/
theorem readText_ne_notFound (hwell : tree.WellFormed) (hroot : root.isAbsolute = true)
    (hkey : key ∈ sourceKeys tree root glob) :
    tree.readText (root.join key) ≠ .error .notFound := by
  obtain ⟨base, names, content, hresolve, hnames, rfl, hcontent, -⟩ :=
    exists_of_mem_sourceKeys hwell hkey
  intro hread
  by_cases hne : names = []
  · subst hne
    rw [List.append_nil] at hcontent
    rw [readText_join_nil hroot hresolve hcontent] at hread
    cases hread
  · have hbytes := readBytes_join_ofNames hwell hroot hresolve hne hcontent
    simp only [readText, hbytes] at hread
    split at hread <;> cases hread

/-- Work on a file that is there fails with its fault. -/
theorem process_eq_error_iff {e : CompileError} (hwell : tree.WellFormed)
    (hroot : root.isAbsolute = true) (hpaths : RespectsPaths extractor)
    (hsound : cache.Sound extractor root held) (htexts : tree.TextsIn held)
    (hdigests : ∀ a b, held a → held b → Digest.blake3 a = Digest.blake3 b → a = b)
    (hkey : key ∈ sourceKeys tree root glob) :
    (cache.process extractor tree root key).result = .error e ↔
      AtFault extractor tree root key e := by
  have hsame := sourceKey_of_mem_sourceKeys hwell hroot glob key hkey
  constructor
  · intro h
    have hworked := worked_process cache extractor tree root key
    rw [hsame] at hworked
    generalize cache.process extractor tree root key = run at h hworked
    cases hworked with
    | skipped | removed | unchanged | updated => cases h
    | unreadable fault hread =>
      obtain rfl := Except.error.inj h
      refine .unreadable fun text htext => ?_
      rw [hread] at htext
      cases htext
    | broken text cause htext hmarker hnew hcompile =>
      obtain rfl := Except.error.inj h
      exact .broken text cause (FileTree.readText_eq_ok.2 htext) hmarker hcompile
  · intro hfault
    have hworked : ∃ count, Worked cache extractor tree root key ⟨cache, .error e, count⟩ := by
      cases hfault with
      | unreadable hread =>
        cases hfault : tree.readText (root.join key) with
        | ok text => exact absurd hfault (hread text)
        | error fault =>
          refine ⟨0, .unreadable fault hfault ?_⟩
          rintro rfl
          exact readText_ne_notFound hwell hroot hkey hfault
      | broken text cause hread hmarker hcompile =>
        refine ⟨1, .broken text cause (FileTree.readText_eq_ok.1 hread) hmarker ?_ hcompile⟩
        intro entry hentry hhash
        obtain ⟨⟨-, operations, hok, -⟩, -⟩ := hsound.compiledFrom htexts hroot hpaths hdigests
          (FileTree.readText_eq_ok.1 hread) hentry hhash
        rw [hcompile] at hok
        cases hok
    obtain ⟨count, hworked⟩ := hworked
    rw [← hsame] at hworked
    rw [← hworked.eq_process]

/-! ## Work on many files -/

variable {keys : List Path}

/-- Work on a list of files stops at one of them: it fails with the error of that
file, those before it are worked on as they would be one by one, and nothing else
changes. -/
structure StopsAt (cache : SourceCache) (extractor : Extractor) (tree : FileTree) (root : Path)
    (front : List Path) (key : Path) (run : CacheRun ScanSummary) (e : CompileError) : Prop where
  result : run.result = .error e
  fault : (cache.process extractor tree root key).result = .error e
  worked : ∀ other ∈ front,
    (∃ outcome, (cache.process extractor tree root other).result = .ok outcome) ∧
      run.cache.entry? other = (cache.process extractor tree root other).cache.entry? other
  kept : ∀ k : List Path.Component, k ∉ front.map Path.components →
    run.cache.entries[k]? = cache.entries[k]?

/-- What becomes of a file does not depend on work on another one before it. -/
theorem process_after_other (cache : SourceCache) (extractor : Extractor) (tree : FileTree)
    {first : Path} (hfirst : sourceKey root first = first) (hkey : sourceKey root key = key)
    (hne : first.components ≠ key.components) :
    let next := (cache.process extractor tree root first).cache
    (next.process extractor tree root key).result =
        (cache.process extractor tree root key).result ∧
      (next.process extractor tree root key).cache.entry? key =
        (cache.process extractor tree root key).cache.entry? key := by
  have hworked := worked_process cache extractor tree root first
  rw [hfirst] at hworked
  exact process_agree hkey (hworked.entries_of_ne hne)

/-- Work on a list of files succeeds if work on each of them does, and else stops
at the first one that fails. -/
theorem processAll_cases (hkeys : ∀ key ∈ keys, sourceKey root key = key)
    (hnodup : (keys.map Path.components).Nodup) (cache : SourceCache) (extractor : Extractor)
    (tree : FileTree) (summary : ScanSummary) (count : Nat) :
    ((∃ found, (cache.processAll extractor tree root summary count keys).result = .ok found) ∧
        ∀ key ∈ keys, ∃ outcome,
          (cache.process extractor tree root key).result = .ok outcome) ∨
      ∃ front key rest e, keys = front ++ key :: rest ∧ StopsAt cache extractor tree root front key
        (cache.processAll extractor tree root summary count keys) e := by
  induction keys generalizing cache summary count with
  | nil => exact .inl ⟨⟨summary, rfl⟩, by simp⟩
  | cons first keys ih =>
    have hfirst := hkeys first (by simp)
    have hrest : ∀ key ∈ keys, sourceKey root key = key := fun key hkey =>
      hkeys key (List.mem_cons_of_mem first hkey)
    rw [List.map_cons, List.nodup_cons] at hnodup
    obtain ⟨hnew, hnodup⟩ := hnodup
    cases hresult : (cache.process extractor tree root first).result with
    | error e =>
      rw [processAll_cons_of_error hresult summary count keys]
      exact .inr ⟨[], first, keys, e, rfl, rfl, hresult, by simp, fun _ _ => rfl⟩
    | ok outcome =>
      rw [processAll_cons_of_ok hresult summary count keys]
      -- in the rest the cache with the first file worked on is as good as this one
      have hagree {key : Path} (hkey : key ∈ keys) := process_after_other cache extractor tree
        hfirst (hrest key hkey) fun hsame => hnew (hsame ▸ List.mem_map_of_mem hkey)
      obtain ⟨hfound, hall⟩ | ⟨front, key, rest, e, rfl, hstops⟩ := ih hrest hnodup
        (cache.process extractor tree root first).cache (summary.count outcome)
        (count + (cache.process extractor tree root first).extractions)
      · refine .inl ⟨hfound, fun key hkey => ?_⟩
        obtain rfl | hmem := List.mem_cons.1 hkey
        · exact ⟨outcome, hresult⟩
        · rw [← (hagree hmem).1]
          exact hall key hmem
      · rw [List.map_append, List.mem_append, not_or] at hnew
        refine .inr ⟨first :: front, key, rest, e, rfl, hstops.result, ?_, ?_, ?_⟩
        · rw [← (hagree (by simp)).1]
          exact hstops.fault
        · intro other hother
          obtain rfl | hmem := List.mem_cons.1 hother
          · exact ⟨⟨outcome, hresult⟩, hstops.kept _ hnew.1⟩
          · obtain ⟨hsame, hentry⟩ := hagree (List.mem_append_left _ hmem)
            rw [← hsame, ← hentry]
            exact hstops.worked other hmem
        · intro k hk
          rw [List.map_cons, List.mem_cons, not_or] at hk
          have hworked := worked_process cache extractor tree root first
          rw [hfirst] at hworked
          exact (hstops.kept k hk.2).trans (hworked.entries_of_ne (Ne.symm hk.1))

/-! ## Scans -/

/-- The scan fails at the file: it is the first one at fault.  The files before it
have been worked on, and all other entries are as before. -/
structure FailsAt (before : SourceCache) (extractor : Extractor) (tree : FileTree) (root : Path)
    (glob : Glob) (key : Path) (e : CompileError) (after : SourceCache) : Prop where
  scanned : IsScanned tree root glob key
  fault : AtFault extractor tree root key e
  first : ∀ other cause, IsScanned tree root glob other →
    AtFault extractor tree root other cause → other = key ∨ Precedes key other
  worked : ∀ other, IsScanned tree root glob other → Precedes other key →
    (∃ outcome, (before.process extractor tree root other).result = .ok outcome) ∧
      after.entry? other = (before.process extractor tree root other).cache.entry? other
  kept : ∀ k : List Path.Component,
    (∀ other, IsScanned tree root glob other → Precedes other key → other.components ≠ k) →
      after.entries[k]? = before.entries[k]?

/-- Work on the files that a scan looks at stops at the first one at fault. -/
theorem StopsAt.failsAt {front rest : List Path} {run : CacheRun ScanSummary} {e : CompileError}
    (h : StopsAt cache extractor tree root front key run e) (hwell : tree.WellFormed)
    (hfault : ∀ {other cause}, other ∈ sourceKeys tree root glob →
      ((cache.process extractor tree root other).result = .error cause ↔
        AtFault extractor tree root other cause))
    (hsplit : sourceKeys tree root glob = front ++ key :: rest) :
    FailsAt cache extractor tree root glob key e run.cache := by
  have hsorted := pairwise_sourceKeys hwell root glob
  rw [hsplit, List.pairwise_append, List.pairwise_cons] at hsorted
  obtain ⟨-, ⟨hafter, -⟩, hbefore⟩ := hsorted
  have hkey : key ∈ sourceKeys tree root glob := by simp [hsplit]
  have hcases {other : Path} (hother : IsScanned tree root glob other) :
      other ∈ front ∨ other = key ∨ Precedes key other := by
    have hmem := (mem_sourceKeys_iff hwell).2 hother
    rw [hsplit, List.mem_append, List.mem_cons] at hmem
    exact hmem.imp_right (Or.imp_right (hafter other))
  have hfront {other : Path} (hother : IsScanned tree root glob other)
      (hlt : Precedes other key) : other ∈ front := by
    obtain hmem | rfl | hgt := hcases hother
    · exact hmem
    · exact absurd hlt hlt.asymm
    · exact absurd hlt hgt.asymm
  refine ⟨(mem_sourceKeys_iff hwell).1 hkey, (hfault hkey).1 h.fault, ?_, ?_, ?_⟩
  · intro other cause hother hcause
    refine (hcases hother).resolve_left fun hmem => ?_
    obtain ⟨⟨outcome, hok⟩, -⟩ := h.worked other hmem
    rw [(hfault ((mem_sourceKeys_iff hwell).2 hother)).2 hcause] at hok
    cases hok
  · intro other hother hlt
    exact h.worked other (hfront hother hlt)
  · intro k hk
    refine h.kept k fun hmem => ?_
    obtain ⟨other, hother, rfl⟩ := List.mem_map.1 hmem
    have hscanned : other ∈ sourceKeys tree root glob := by simp [hsplit, hother]
    exact hk other ((mem_sourceKeys_iff hwell).1 hscanned) (hbefore other hother key (by simp)) rfl

/-- **Scans that fail.**  Whatever the cache was called for before, a scan fails
exactly if a file that it looks at is at fault, and then at the first of them in
the order in which the cache lists its files.  Texts that were met on the way have
to be told apart by their hashes. -/
theorem first_fault_of_scan {extractor : Extractor} {root : Path} {tree : FileTree} {glob : Glob}
    (calls : List CacheCall) (hwell : tree.WellFormed) (hroot : root.isAbsolute = true)
    (hpaths : RespectsPaths extractor)
    (hdigests : ∀ a b, TextOf (tree :: calls.map CacheCall.tree) a →
      TextOf (tree :: calls.map CacheCall.tree) b → Digest.blake3 a = Digest.blake3 b → a = b) :
    let before := ({} : SourceCache).afterAll extractor root calls
    let run := before.scan extractor tree root glob
    ((∃ e, run.result = .error e) ↔
      ∃ key e, IsScanned tree root glob key ∧ AtFault extractor tree root key e) ∧
    (∀ e, run.result = .error e →
      ∃ key, FailsAt before extractor tree root glob key e run.cache) ∧
    ∃ files : List (List Path.Component × CacheEntry),
      files.Pairwise (fun a b => compare a.1 b.1 = .lt) ∧
      (∀ k entry, (k, entry) ∈ files ↔ run.cache.entries[k]? = some entry) ∧
      run.cache.operations = files.flatMap (·.2.operations) := by
  intro before run
  have hkeys := sourceKey_of_mem_sourceKeys hwell hroot glob
  obtain ⟨hsound, htexts⟩ := sound_of_calls extractor root tree calls
  have hfault {key : Path} {e : CompileError} (hkey : key ∈ sourceKeys tree root glob) :
      (before.process extractor tree root key).result = .error e ↔
        AtFault extractor tree root key e :=
    process_eq_error_iff hwell hroot hpaths hsound htexts hdigests hkey
  obtain ⟨hfound, hall⟩ | ⟨front, key, rest, e, hsplit, hstops⟩ :=
    processAll_cases hkeys (nodup_sourceKeys hwell root glob) before extractor tree {} 0
  · obtain ⟨found, hrun⟩ := scan_of_processAll_ok hfound
    have hok (e : CompileError) : run.result ≠ .error e := by
      rw [hrun]
      simp
    have hnone (key : Path) (e : CompileError) (hscanned : IsScanned tree root glob key) :
        ¬AtFault extractor tree root key e := by
      intro hbad
      have hkey := (mem_sourceKeys_iff hwell).2 hscanned
      obtain ⟨outcome, houtcome⟩ := hall key hkey
      rw [(hfault hkey).2 hbad] at houtcome
      cases houtcome
    refine ⟨⟨?_, ?_⟩, fun e h => absurd h (hok e), run.cache.operations_listed⟩
    · rintro ⟨e, h⟩
      exact absurd h (hok e)
    · rintro ⟨key, e, hscanned, hbad⟩
      exact absurd hbad (hnone key e hscanned)
  · have hrun : run = before.processAll extractor tree root {} 0 (sourceKeys tree root glob) :=
      scan_of_processAll_error hstops.result
    have hfails := hstops.failsAt hwell hfault hsplit
    rw [← hrun] at hstops hfails
    refine ⟨⟨fun _ => ⟨key, e, hfails.scanned, hfails.fault⟩, fun _ => ⟨e, hstops.result⟩⟩, ?_,
      run.cache.operations_listed⟩
    intro cause hcause
    obtain rfl := Except.error.inj (hstops.result.symm.trans hcause)
    exact ⟨key, hfails⟩

/-! ## A broken source -/

/-- A text with a document that cannot be read. -/
def brokenText : String := "gql\x60query B \x7b\x60"

/-- The project with two files side by side whose names begin alike: the one in the
directory comes first, and the other one is broken. -/
def brokenSource : FileTree :=
  ((oneSource.put ["p", "src", "a.ts"] (.file brokenText.toUTF8)).put ["p", "src", "a"]
    .directory).put ["p", "src", "a", "x.ts"] (.file textA.toUTF8)

theorem wellFormed_brokenSource : brokenSource.WellFormed := by
  have hbroken : (oneSource.put (["p", "src"] ++ ["a.ts"]) (.file brokenText.toUTF8)).WellFormed :=
    wellFormed_oneSource.put (by decide +kernel) (by decide) (by decide +kernel)
  have hdirectory : ((oneSource.put (["p", "src"] ++ ["a.ts"]) (.file brokenText.toUTF8)).put
      (["p", "src"] ++ ["a"]) .directory).WellFormed :=
    hbroken.put (by decide +kernel) (by decide) (by simp)
  have hfile : (((oneSource.put ["p", "src", "a.ts"] (.file brokenText.toUTF8)).put
      ["p", "src", "a"] .directory).put (["p", "src", "a"] ++ ["x.ts"])
      (.file textA.toUTF8)).WellFormed :=
    hdirectory.put (by decide +kernel) (by decide) (by decide +kernel)
  exact hfile

theorem holds_brokenSource {texts : List String} (hA : textA ∈ texts)
    (hbroken : brokenText ∈ texts) : brokenSource.Holds texts :=
  (((holds_oneSource hA).put_file (by simp) hbroken).put_directory (by simp)).put_file (by simp) hA

/-- The broken source keeps the entry that it had. -/
theorem first_fault_of_brokenSource : ∃ glob e, Glob.ofPattern "**/*.ts" = .ok glob ∧
    let before := ({} : SourceCache).afterAll Script.extract ⟨"/p"⟩
      [.process oneSource ⟨"src/a.ts"⟩]
    let run := before.scan Script.extract brokenSource ⟨"/p"⟩ glob
    run.result = .error e ∧
      FailsAt before Script.extract brokenSource ⟨"/p"⟩ glob ⟨"src/a.ts"⟩ e run.cache ∧
      before.size = 1 ∧ run.cache.size = 2 := by
  have hfacts : (Glob.ofPattern "**/*.ts").toOption.any (fun glob =>
      let before := ({} : SourceCache).afterAll Script.extract ⟨"/p"⟩
        [.process oneSource ⟨"src/a.ts"⟩]
      let run := before.scan Script.extract brokenSource ⟨"/p"⟩ glob
      run.fault?.bind CompileError.file? = some ⟨"src/a.ts"⟩ && before.size = 1 &&
        run.cache.size = 2) = true := by
    decide +kernel
  have hdigests := eq_of_blake3 [brokenSource, oneSource] [textA, brokenText]
    (by simp [holds_brokenSource, holds_oneSource]) (by decide +kernel)
  have hroot : (⟨"/p"⟩ : Path).isAbsolute = true := by decide
  obtain ⟨glob, hglob, hrun⟩ := exists_ok_of_any hfacts
  simp only [Bool.and_eq_true, decide_eq_true_eq] at hrun
  obtain ⟨⟨hnamed, hbefore⟩, hafter⟩ := hrun
  obtain ⟨e, hfault, hfile⟩ := Option.bind_eq_some_iff.1 hnamed
  have hresult := CacheRun.fault?_eq_some.1 hfault
  obtain ⟨-, hfails, -⟩ := first_fault_of_scan [.process oneSource ⟨"src/a.ts"⟩]
    wellFormed_brokenSource hroot Script.extract_respectsPaths hdigests
  obtain ⟨key, hkey⟩ := hfails _ hresult
  -- the error names the file
  have hsame : key = ⟨"src/a.ts"⟩ := by
    cases hkey.fault with
    | unreadable => cases hfile
    | broken => exact Option.some.inj hfile
  rw [hsame] at hkey
  exact ⟨glob, _, hglob, hresult, hkey, hbefore, hafter⟩

end SourceCache

end OpManifest
