import OpManifest.Proofs.WarmScan

/-!
# The check for a marker

A text in which no tag occurs is not parsed at all.  Nothing is lost by that: a
callee is a tag only if its part of the text is, so without a tag in the text
there are no documents, whatever the parser finds (`extractWith_of_unmarked`).

For a cache it makes a difference, because a file without documents has no entry
where the check is made, and an entry without operations where it is not.  Caches
that differ in nothing else list the same operations (`Agrees`), and all work on
them keeps it so.
-/

namespace OpManifest

open FileTree
open Script (Extractor Parser extractWith hasMarker)

/-! ## Texts without a tag -/

namespace Script

/-- The callee of a tagged literal is a part of the text. -/
theorem hasMarker_of_taggedLiteral {text : String} {call literal : SyntaxTree}
    (h : taggedLiteral? text.toList call = some literal) : hasMarker text = true := by
  unfold taggedLiteral? at h
  obtain ⟨callee, -, h⟩ := Option.bind_eq_some_iff.1 h
  obtain ⟨-, -, h⟩ := Option.bind_eq_some_iff.1 h
  obtain ⟨name, hname, h⟩ := Option.bind_eq_some_iff.1 h
  obtain ⟨_, htag, -⟩ := Option.bind_eq_some_iff.1 h
  obtain ⟨front, back, htext, -⟩ := Text.slice?_eq_some.1 hname
  have htag : String.ofList name ∈ tags := by
    unfold guard at htag
    split at htag
    · rename_i hcontains
      exact List.contains_iff_mem.1 hcontains
    · cases htag
  refine List.any_eq_true.2 ⟨.ofList name, htag, Text.hasInfix_iff.2 ?_⟩
  rw [String.toList_ofList, htext]
  exact ⟨front, back, by simp⟩

/-- Without a marker there are no documents. -/
theorem extractWith_of_unmarked (parse : Parser) (path : Path) {text : String}
    (h : hasMarker text = false) : extractWith parse path text = .ok [] := by
  unfold extractWith
  cases Language.ofPath? path with
  | none => rfl
  | some language =>
    have hnone : taggedLiterals text.toList (parse language text) = [] := by
      rw [taggedLiterals, List.filterMap_eq_nil_iff]
      intro call _
      cases hliteral : taggedLiteral? text.toList call with
      | none => rfl
      | some literal => simp [hasMarker_of_taggedLiteral hliteral] at h
    simp [hnone, pure, Except.pure, bind, Except.bind, sortDocuments]

end Script

theorem compileText_of_unmarked (parse : Parser) (path : Path) {text : String}
    (h : hasMarker text = false) : compileText (extractWith parse) path text = .ok [] := by
  unfold compileText
  rw [Script.extractWith_of_unmarked parse path h]
  rfl

namespace SourceCache

/-- What is wrong with a call, if anything is. -/
def fault? (cache : SourceCache) (extractor : Extractor) (root : Path) :
    CacheCall → Option CompileError
  | .process tree path => (cache.process extractor tree root path).fault?
  | .scan tree glob => (cache.scan extractor tree root glob).fault?

/-! ## Work behind another check -/

/-- Work on one file behind any check of its text. -/
@[irreducible]
def processBehind (check : String → Bool) (cache : SourceCache) (extractor : Extractor)
    (tree : FileTree) (root path : Path) : CacheRun FileOutcome :=
  let key := sourceKey root path
  let absolute := root.join key
  match tree.readText absolute with
  | .error .notFound => cache.drop key
  | .error _ => ⟨cache, .error (.unreadable absolute), 0⟩
  | .ok text =>
    if !check text then cache.drop key
    else
      let hash := Digest.blake3 text
      if (cache.entry? key).any (·.hash = hash) then ⟨cache, .ok .unchanged, 0⟩
      else
        match compileText extractor absolute text with
        | .error cause => ⟨cache, .error (.inFile key cause), 1⟩
        | .ok operations =>
          ⟨cache.insert key ⟨key, hash, operations⟩, .ok (.updated operations.length), 1⟩

/-- Work on many files behind any check of their texts. -/
def processAllBehind (check : String → Bool) (extractor : Extractor) (tree : FileTree)
    (root : Path) : SourceCache → ScanSummary → Nat → List Path → CacheRun ScanSummary
  | cache, summary, extractions, [] => ⟨cache, .ok summary, extractions⟩
  | cache, summary, extractions, key :: keys =>
    let run := cache.processBehind check extractor tree root key
    let extractions := extractions + run.extractions
    match run.result with
    | .error e => ⟨run.cache, .error e, extractions⟩
    | .ok outcome =>
      processAllBehind check extractor tree root run.cache (summary.count outcome) extractions keys

/-- A scan behind any check of the texts. -/
def scanBehind (check : String → Bool) (cache : SourceCache) (extractor : Extractor)
    (tree : FileTree) (root : Path) (glob : Glob) : CacheRun ScanSummary :=
  let keys := sourceKeys tree root glob
  let run := processAllBehind check extractor tree root cache {} 0 keys
  match run.result with
  | .error _ => run
  | .ok summary =>
    let pruned := run.cache.prune keys
    ⟨pruned, .ok { summary with pruned := run.cache.size - pruned.size }, run.extractions⟩

/-- What is wrong with a call, behind any check of the texts. -/
def faultBehind (check : String → Bool) (cache : SourceCache) (extractor : Extractor)
    (root : Path) : CacheCall → Option CompileError
  | .process tree path => (cache.processBehind check extractor tree root path).fault?
  | .scan tree glob => (cache.scanBehind check extractor tree root glob).fault?

/-- The cache after a call, behind any check of the texts. -/
def afterBehind (check : String → Bool) (cache : SourceCache) (extractor : Extractor)
    (root : Path) : CacheCall → SourceCache
  | .process tree path => (cache.processBehind check extractor tree root path).cache
  | .scan tree glob => (cache.scanBehind check extractor tree root glob).cache

/-- The cache after a list of calls, behind any check of the texts. -/
def afterAllBehind (check : String → Bool) (cache : SourceCache) (extractor : Extractor)
    (root : Path) (calls : List CacheCall) : SourceCache :=
  calls.foldl (fun cache call => cache.afterBehind check extractor root call) cache

section

variable (cache : SourceCache) (extractor : Extractor) (tree : FileTree) (root : Path)

theorem process_eq_behind (path : Path) : cache.process extractor tree root path =
    cache.processBehind hasMarker extractor tree root path := by
  unfold process processBehind
  rfl

theorem processAll_eq_behind (summary : ScanSummary) (count : Nat) (keys : List Path) :
    cache.processAll extractor tree root summary count keys =
      processAllBehind hasMarker extractor tree root cache summary count keys := by
  induction keys generalizing cache summary count with
  | nil => rw [processAll, processAllBehind]
  | cons key keys ih =>
    simp only [processAll, processAllBehind, ← process_eq_behind]
    cases (cache.process extractor tree root key).result with
    | error e => rfl
    | ok outcome => exact ih _ _ _

theorem scan_eq_behind (glob : Glob) : cache.scan extractor tree root glob =
    cache.scanBehind hasMarker extractor tree root glob := by
  have hall := processAll_eq_behind cache extractor tree root {} 0 (sourceKeys tree root glob)
  cases hresult : (processAllBehind hasMarker extractor tree root cache {} 0
      (sourceKeys tree root glob)).result with
  | error e => simp only [scan, scanBehind, hall, hresult]
  | ok summary => simp only [scan, scanBehind, hall, hresult]

theorem after_eq_behind (call : CacheCall) :
    cache.after extractor root call = cache.afterBehind hasMarker extractor root call := by
  cases call with
  | process tree path => rw [after, afterBehind, process_eq_behind]
  | scan tree glob => rw [after, afterBehind, scan_eq_behind]

theorem fault?_eq_behind (call : CacheCall) :
    cache.fault? extractor root call = cache.faultBehind hasMarker extractor root call := by
  cases call with
  | process tree path => rw [fault?, faultBehind, process_eq_behind]
  | scan tree glob => rw [fault?, faultBehind, scan_eq_behind]

end

/-! ## Caches that list the same operations -/

/-- The entries of a file with the check and without it.  They are the same entry
of a text with a marker, or there is none with the check and at most one without
operations otherwise. -/
inductive EntriesAgree (held : String → Prop) : Option CacheEntry → Option CacheEntry → Prop where
  | absent : EntriesAgree held none none
  | marked (entry : CacheEntry) (text : String) (hheld : held text)
    (hmarker : hasMarker text = true) (hhash : entry.hash = Digest.blake3 text) :
    EntriesAgree held (some entry) (some entry)
  | silent (entry : CacheEntry) (text : String) (hheld : held text)
    (hmarker : hasMarker text = false) (hhash : entry.hash = Digest.blake3 text)
    (hnone : entry.operations = []) : EntriesAgree held none (some entry)

/-- The caches agree on the entries of all files. -/
def Agrees (held : String → Prop) (checked plain : SourceCache) : Prop :=
  ∀ k : List Path.Component, EntriesAgree held checked.entries[k]? plain.entries[k]?

/-- A text that is held and has a marker does not have the hash of one that has
none. -/
def ToldApart (held : String → Prop) : Prop :=
  ∀ a b, held a → held b → hasMarker a = true → hasMarker b = false →
    Digest.blake3 a ≠ Digest.blake3 b

section

variable {held : String → Prop} {checked plain cache : SourceCache} {extractor : Extractor}
  {tree : FileTree} {root key path : Path} {text : String} {check : String → Bool}

theorem agrees_empty : Agrees held {} {} := by
  intro k
  simpa using EntriesAgree.absent

/-- An entry without operations is never taken for that of a text with a
marker. -/
theorem EntriesAgree.any_hash {a b : Option CacheEntry} (h : EntriesAgree held a b)
    (hdigests : ToldApart held) (htext : held text) (hmarker : hasMarker text = true) :
    b.any (·.hash = Digest.blake3 text) = a.any (·.hash = Digest.blake3 text) := by
  cases h with
  | absent => rfl
  | marked => rfl
  | silent entry old hold hunmarked hhash =>
    have hne := hdigests text old htext hold hmarker hunmarked
    simp [hhash, hne.symm]

/-- The entry of a text with a marker is not taken for that of a text without
one. -/
theorem EntriesAgree.silent_of_hash {a b : Option CacheEntry} (h : EntriesAgree held a b)
    (hdigests : ToldApart held) (htext : held text) (hmarker : hasMarker text = false)
    (hhash : b.any (·.hash = Digest.blake3 text) = true) : EntriesAgree held none b := by
  cases h with
  | absent => cases hhash
  | silent entry old hold hunmarked hold' hnone =>
    exact .silent entry old hold hunmarked hold' hnone
  | marked entry old hold hmarked hold' =>
    rw [Option.any_some, decide_eq_true_iff, hold'] at hhash
    exact absurd hhash (hdigests old text hold htext hmarked hmarker)

theorem entries_drop (cache : SourceCache) (key : Path) (k : List Path.Component) :
    (cache.drop key).cache.entries[k]? =
      if key.components = k then none else cache.entries[k]? := by
  unfold drop
  split
  · exact entries_erase cache key k
  · rename_i hnone
    split
    · rename_i hk
      rw [← hk]
      simpa [SourceCache.entry?] using hnone
    · rfl

theorem Agrees.drop (h : Agrees held checked plain) (key : Path) :
    Agrees held (checked.drop key).cache (plain.drop key).cache := by
  intro k
  rw [entries_drop, entries_drop]
  split
  · exact .absent
  · exact h k

theorem Agrees.drop_insert (h : Agrees held checked plain) {entry : CacheEntry}
    (hentry : EntriesAgree held none (some entry)) :
    Agrees held (checked.drop key).cache (plain.insert key entry) := by
  intro k
  rw [entries_drop, entries_insert]
  split
  · exact hentry
  · exact h k

theorem Agrees.drop_left (h : Agrees held checked plain)
    (hentry : EntriesAgree held none (plain.entry? key)) :
    Agrees held (checked.drop key).cache plain := by
  intro k
  rw [entries_drop]
  split
  · rename_i hk
    rwa [SourceCache.entry?, hk] at hentry
  · exact h k

theorem Agrees.insert (h : Agrees held checked plain) {entry : CacheEntry}
    (hentry : EntriesAgree held (some entry) (some entry)) :
    Agrees held (checked.insert key entry) (plain.insert key entry) := by
  intro k
  rw [entries_insert, entries_insert]
  split
  · exact hentry
  · exact h k

theorem Agrees.prune (h : Agrees held checked plain) (keys : List Path) :
    Agrees held (checked.prune keys) (plain.prune keys) := by
  intro k
  rw [entries_prune, entries_prune]
  split
  · exact h k
  · exact .absent

theorem flatMap_filter_operations (entries : List (List Path.Component × CacheEntry)) :
    (entries.filter fun entry => !entry.2.operations.isEmpty).flatMap (·.2.operations) =
      entries.flatMap (·.2.operations) := by
  induction entries with
  | nil => rfl
  | cons entry entries ih =>
    rw [List.filter_cons, List.flatMap_cons]
    split
    · rw [List.flatMap_cons, ih]
    · rename_i hnone
      have hnone : entry.2.operations = [] := by simpa using hnone
      rw [ih, hnone, List.nil_append]

/-- Entries without operations do not show in the list of all operations. -/
theorem Agrees.operations_eq (h : Agrees held checked plain) :
    checked.operations = plain.operations := by
  have hlisted (cache : SourceCache) : cache.operations =
      (cache.entries.filter fun _ entry => !entry.operations.isEmpty).toList.flatMap
        (·.2.operations) := by
    rw [Std.ExtTreeMap.toList_filter, flatMap_filter_operations]
    rfl
  rw [hlisted, hlisted]
  congr 2
  apply Std.ExtTreeMap.ext_getElem?
  intro k
  rw [Std.ExtTreeMap.getElem?_filter', Std.ExtTreeMap.getElem?_filter']
  have hk := h k
  generalize checked.entries[k]? = a at hk ⊢
  generalize plain.entries[k]? = b at hk ⊢
  cases hk with
  | absent => rfl
  | marked => rfl
  | silent entry _ _ _ _ hnone => simp [Option.filter, hnone]

/-! ## Work on caches that agree -/

theorem fault?_drop (cache : SourceCache) (key : Path) : (cache.drop key).fault? = none := by
  unfold drop
  split <;> rfl

theorem processBehind_of_notFound
    (hread : tree.readText (root.join (sourceKey root path)) = .error .notFound) :
    cache.processBehind check extractor tree root path = cache.drop (sourceKey root path) := by
  unfold processBehind
  simp only [hread]

theorem processBehind_of_fault {fault : FileFault}
    (hread : tree.readText (root.join (sourceKey root path)) = .error fault)
    (hfault : fault ≠ .notFound) :
    cache.processBehind check extractor tree root path =
      ⟨cache, .error (.unreadable (root.join (sourceKey root path))), 0⟩ := by
  unfold processBehind
  cases fault <;> simp_all

theorem processBehind_of_refused
    (hread : tree.readText (root.join (sourceKey root path)) = .ok text)
    (hcheck : check text = false) :
    cache.processBehind check extractor tree root path = cache.drop (sourceKey root path) := by
  unfold processBehind
  simp only [hread, hcheck, Bool.not_false, ↓reduceIte]

theorem processBehind_of_passed (check : String → Bool)
    (hread : tree.readText (root.join (sourceKey root path)) = .ok text)
    (hcheck : check text = true) :
    cache.processBehind check extractor tree root path =
      if (cache.entry? (sourceKey root path)).any (·.hash = Digest.blake3 text) then
        ⟨cache, .ok .unchanged, 0⟩
      else
        match compileText extractor (root.join (sourceKey root path)) text with
        | .error cause => ⟨cache, .error (.inFile (sourceKey root path) cause), 1⟩
        | .ok operations =>
          ⟨cache.insert (sourceKey root path)
            ⟨sourceKey root path, Digest.blake3 text, operations⟩,
            .ok (.updated operations.length), 1⟩ := by
  unfold processBehind
  simp only [hread, hcheck, Bool.not_true, Bool.false_eq_true, ↓reduceIte]

variable (parse : Parser)

/-- Work on one file keeps caches in agreement, and what is wrong is wrong with
the check and without it. -/
theorem Agrees.process (h : Agrees held checked plain) (hdigests : ToldApart held)
    (htexts : tree.TextsIn held) (root path : Path) :
    (checked.processBehind hasMarker (extractWith parse) tree root path).fault? =
        (plain.processBehind (fun _ => true) (extractWith parse) tree root path).fault? ∧
      Agrees held (checked.processBehind hasMarker (extractWith parse) tree root path).cache
        (plain.processBehind (fun _ => true) (extractWith parse) tree root path).cache := by
  have hkey : EntriesAgree held (checked.entry? (sourceKey root path))
      (plain.entry? (sourceKey root path)) := h _
  cases hread : tree.readText (root.join (sourceKey root path)) with
  | error fault =>
    by_cases hfault : fault = .notFound
    · subst hfault
      rw [processBehind_of_notFound hread, processBehind_of_notFound hread, fault?_drop,
        fault?_drop]
      exact ⟨rfl, h.drop _⟩
    · rw [processBehind_of_fault hread hfault, processBehind_of_fault hread hfault]
      exact ⟨rfl, h⟩
  | ok text =>
    have hheld := htexts _ text hread
    rw [processBehind_of_passed (fun _ => true) hread rfl]
    cases hmarker : hasMarker text with
    | false =>
      -- The text is compiled to nothing, unless that was done before.
      rw [processBehind_of_refused hread hmarker, fault?_drop,
        compileText_of_unmarked parse _ hmarker]
      split
      · rename_i hhash
        exact ⟨rfl, h.drop_left (hkey.silent_of_hash hdigests hheld hmarker hhash)⟩
      · exact ⟨rfl, h.drop_insert (.silent _ text hheld hmarker rfl rfl)⟩
    | true =>
      rw [processBehind_of_passed hasMarker hread hmarker, hkey.any_hash hdigests hheld hmarker]
      split
      · exact ⟨rfl, h⟩
      · cases compileText (extractWith parse) (root.join (sourceKey root path)) text with
        | error cause => exact ⟨rfl, h⟩
        | ok operations => exact ⟨rfl, h.insert (.marked _ text hheld hmarker rfl)⟩

theorem Agrees.processAll (h : Agrees held checked plain) (hdigests : ToldApart held)
    (htexts : tree.TextsIn held) (root : Path) (summary other : ScanSummary) (count counted : Nat)
    (keys : List Path) :
    (processAllBehind hasMarker (extractWith parse) tree root checked summary count keys).fault? =
        (processAllBehind (fun _ => true) (extractWith parse) tree root plain other counted
          keys).fault? ∧
      Agrees held
        (processAllBehind hasMarker (extractWith parse) tree root checked summary count keys).cache
        (processAllBehind (fun _ => true) (extractWith parse) tree root plain other counted
          keys).cache := by
  induction keys generalizing checked plain summary other count counted with
  | nil => exact ⟨rfl, h⟩
  | cons key keys ih =>
    obtain ⟨hfault, hnext⟩ := h.process parse hdigests htexts root key
    simp only [processAllBehind]
    generalize checked.processBehind hasMarker (extractWith parse) tree root key = run
      at hfault hnext ⊢
    generalize plain.processBehind (fun _ => true) (extractWith parse) tree root key = free
      at hfault hnext ⊢
    obtain ⟨cache, cause | outcome, extractions⟩ := run <;>
      obtain ⟨cache', cause' | outcome', extractions'⟩ := free
    · exact ⟨hfault, hnext⟩
    · cases hfault
    · cases hfault
    · exact ih hnext _ _ _ _

theorem Agrees.scan (h : Agrees held checked plain) (hdigests : ToldApart held)
    (htexts : tree.TextsIn held) (root : Path) (glob : Glob) :
    (checked.scanBehind hasMarker (extractWith parse) tree root glob).fault? =
        (plain.scanBehind (fun _ => true) (extractWith parse) tree root glob).fault? ∧
      Agrees held (checked.scanBehind hasMarker (extractWith parse) tree root glob).cache
        (plain.scanBehind (fun _ => true) (extractWith parse) tree root glob).cache := by
  obtain ⟨hfault, hnext⟩ := h.processAll parse hdigests htexts root {} {} 0 0
    (sourceKeys tree root glob)
  simp only [scanBehind]
  generalize processAllBehind hasMarker (extractWith parse) tree root checked {} 0
    (sourceKeys tree root glob) = run at hfault hnext ⊢
  generalize processAllBehind (fun _ => true) (extractWith parse) tree root plain {} 0
    (sourceKeys tree root glob) = free at hfault hnext ⊢
  obtain ⟨cache, cause | summary, extractions⟩ := run <;>
    obtain ⟨cache', cause' | summary', extractions'⟩ := free
  · exact ⟨hfault, hnext⟩
  · cases hfault
  · cases hfault
  · exact ⟨rfl, hnext.prune _⟩

/-- What a call finds wrong it finds wrong with the check and without it, and
caches stay in agreement. -/
theorem Agrees.after (h : Agrees held checked plain) (hdigests : ToldApart held) (root : Path)
    {call : CacheCall} (htexts : call.tree.TextsIn held) :
    checked.fault? (extractWith parse) root call =
        plain.faultBehind (fun _ => true) (extractWith parse) root call ∧
      Agrees held (checked.after (extractWith parse) root call)
        (plain.afterBehind (fun _ => true) (extractWith parse) root call) := by
  rw [fault?_eq_behind, after_eq_behind]
  cases call with
  | process tree path => exact h.process parse hdigests htexts root path
  | scan tree glob => exact h.scan parse hdigests htexts root glob

theorem Agrees.afterAll (h : Agrees held checked plain) (hdigests : ToldApart held) (root : Path)
    {calls : List CacheCall} (htexts : ∀ call ∈ calls, call.tree.TextsIn held) :
    Agrees held (checked.afterAll (extractWith parse) root calls)
      (plain.afterAllBehind (fun _ => true) (extractWith parse) root calls) := by
  induction calls generalizing checked plain with
  | nil => exact h
  | cons call calls ih =>
    obtain ⟨-, hnext⟩ := h.after parse hdigests root (htexts call (by simp))
    exact ih hnext fun other hother => htexts other (by simp [hother])

end

/-! ## What the check leaves out -/

/-- Every text of the calls is held. -/
theorem textsIn_of_mem {calls : List CacheCall} {call : CacheCall} (h : call ∈ calls) :
    call.tree.TextsIn (TextOf (calls.map CacheCall.tree)) :=
  fun path _ htext => ⟨call.tree, List.mem_map_of_mem h, path, htext⟩

/-- **The check for a marker hides nothing.**  Whatever the parser makes of it, a
text without a marker has no documents.  So after any calls a cache lists the
operations that it would list without the check, and the next call finds wrong
what it would find wrong without it.  The hash of a text with a marker must not
be that of a text without one. -/
theorem marker_hides_nothing (parse : Parser) :
    (∀ path text, hasMarker text = false → extractWith parse path text = .ok []) ∧
    ∀ (root : Path) (calls : List CacheCall) (next : CacheCall),
      ToldApart (TextOf ((next :: calls).map CacheCall.tree)) →
      let checked := ({} : SourceCache).afterAll (extractWith parse) root calls
      let plain := ({} : SourceCache).afterAllBehind (fun _ => true) (extractWith parse) root calls
      checked.operations = plain.operations ∧
      checked.fault? (extractWith parse) root next =
        plain.faultBehind (fun _ => true) (extractWith parse) root next ∧
      (checked.after (extractWith parse) root next).operations =
        (plain.afterBehind (fun _ => true) (extractWith parse) root next).operations := by
  refine ⟨fun path text => Script.extractWith_of_unmarked parse path, ?_⟩
  intro root calls next hdigests checked plain
  have hcalls : Agrees (TextOf ((next :: calls).map CacheCall.tree)) checked plain :=
    agrees_empty.afterAll parse hdigests root fun call hcall =>
      textsIn_of_mem (List.mem_cons_of_mem next hcall)
  obtain ⟨hfault, hnext⟩ :=
    hcalls.after parse hdigests root (textsIn_of_mem List.mem_cons_self)
  exact ⟨hcalls.operations_eq, hfault, hnext.operations_eq⟩

/-- A project whose second source has no documents. -/
def plainText : String := "export const b = 1;"

def plainSource : FileTree := oneSource.put ["p", "src", "b.ts"] (.file plainText.toUTF8)

theorem holds_plainSource : plainSource.Holds [textA, textB, plainText] :=
  (holds_oneSource (by simp)).put_file (by simp) (by simp)

/-- The entry of the source that has lost its document goes, while without the
check it would stay and list nothing. -/
theorem marker_hides_nothing_plainSource :
    hasMarker plainText = false ∧
    Script.extract ⟨"/p/src/b.ts"⟩ plainText = .ok [] ∧
    let checked := ({} : SourceCache).afterAll Script.extract ⟨"/p"⟩ sourceCalls
    let plain := ({} : SourceCache).afterAllBehind (fun _ => true) Script.extract ⟨"/p"⟩ sourceCalls
    let next : CacheCall := .process plainSource ⟨"src/b.ts"⟩
    (checked.after Script.extract ⟨"/p"⟩ next).size = 1 ∧
    (plain.afterBehind (fun _ => true) Script.extract ⟨"/p"⟩ next).size = 2 ∧
    (checked.after Script.extract ⟨"/p"⟩ next).operations =
      (plain.afterBehind (fun _ => true) Script.extract ⟨"/p"⟩ next).operations := by
  have hdigests : ToldApart (TextOf
      ((CacheCall.process plainSource ⟨"src/b.ts"⟩ :: sourceCalls).map CacheCall.tree)) := by
    intro a b ha hb hmarked hunmarked hsame
    obtain rfl := eq_of_blake3 _ [textA, textB, plainText]
      (by simp [sourceCalls, CacheCall.tree, holds_twoSources, holds_plainSource])
      (by decide +kernel) a b ha hb hsame
    simp [hmarked] at hunmarked
  obtain ⟨hsilent, hcalls⟩ := marker_hides_nothing Script.SyntaxTree.ofText
  have hmarker : hasMarker plainText = false := by decide +kernel
  obtain ⟨-, -, hsame⟩ := hcalls ⟨"/p"⟩ sourceCalls (.process plainSource ⟨"src/b.ts"⟩) hdigests
  exact ⟨hmarker, hsilent _ _ hmarker, by decide +kernel, by decide +kernel, hsame⟩

end SourceCache

end OpManifest
