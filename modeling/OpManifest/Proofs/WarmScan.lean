import Mathlib.Data.List.Nodup
import OpManifest.Proofs.Spelling

/-!
# Warm scans

A cache that was worked on before has entries of files that have changed, have
gone or are no longer selected, under whatever spelling they were told with.
None of this can be seen after a scan that succeeds: its entries are those of a
scan of a new cache (`scan_of_calls`).

The invariant is that every entry was compiled from a text that was there
(`Sound`), so that an entry with the hash of a text has its operations.
-/

namespace OpManifest

open FileTree
open Script (Extractor RespectsPaths)

/-- A call of a cache.  It meets the files as they are then, whatever was edited
since the call before it. -/
inductive CacheCall where
  | process (tree : FileTree) (path : Path)
  | scan (tree : FileTree) (glob : Glob)

/-- The files that a call meets. -/
def CacheCall.tree : CacheCall → FileTree
  | .process tree _ => tree
  | .scan tree _ => tree

/-- What an entry says of its file, which may be spelled in many ways. -/
def CacheEntry.facts (entry : CacheEntry) :
    List Path.Component × String × List OperationDescriptor :=
  (entry.file.components, entry.hash, entry.operations)

/-- The outcome leaves an entry. -/
def FileOutcome.keeps : FileOutcome → Bool
  | .unchanged | .updated _ => true
  | .skipped | .removed => false

/-- All texts of the tree are held. -/
def FileTree.TextsIn (tree : FileTree) (held : String → Prop) : Prop :=
  ∀ path text, tree.readText path = .ok text → held text

/-- The text of a file in one of the trees. -/
def TextOf (trees : List FileTree) (text : String) : Prop :=
  ∃ tree ∈ trees, ∃ path, tree.readText path = .ok text

/-- The texts of all files of the tree are among these. -/
def FileTree.Holds (tree : FileTree) (texts : List String) : Prop :=
  ∀ place text, tree.node? place = some (.file text.toUTF8) → text ∈ texts

namespace FileTree

variable {tree : FileTree} {texts : List String} {place : Place}

theorem holds_empty : ({} : FileTree).Holds texts := by
  intro place text h
  unfold node? at h
  split at h <;> simp at h

theorem Holds.put_directory (h : tree.Holds texts) (hplace : place ≠ []) :
    (tree.put place .directory).Holds texts := by
  intro other text hnode
  rw [node?_put _ _ _ hplace] at hnode
  split at hnode
  · cases hnode
  · exact h other text hnode

theorem Holds.put_file (h : tree.Holds texts) (hplace : place ≠ []) {text : String}
    (htext : text ∈ texts) : (tree.put place (.file text.toUTF8)).Holds texts := by
  intro other found hnode
  rw [node?_put _ _ _ hplace] at hnode
  split at hnode
  · rwa [← String.toByteArray_inj.1 (FileNode.file.inj (Option.some.inj hnode))]
  · exact h other found hnode

theorem mem_of_textOf {trees : List FileTree} (h : ∀ tree ∈ trees, tree.Holds texts)
    {text : String} (htext : TextOf trees text) : text ∈ texts := by
  obtain ⟨tree, htree, path, hread⟩ := htext
  obtain ⟨place, -, hplace⟩ := readBytes_eq_ok.1 (readText_eq_ok_iff.1 hread)
  exact h tree htree place text (content?_eq_some.1 hplace)

/-- Texts are told apart by their hashes if those that the trees hold are. -/
theorem eq_of_blake3 (trees : List FileTree) (texts : List String)
    (h : ∀ tree ∈ trees, tree.Holds texts)
    (hdigests : (texts.map Digest.blake3).Nodup) (a b : String) (ha : TextOf trees a)
    (hb : TextOf trees b) (hsame : Digest.blake3 a = Digest.blake3 b) : a = b :=
  List.inj_on_of_nodup_map hdigests (mem_of_textOf h ha) (mem_of_textOf h hb) hsame

end FileTree

namespace SourceCache

variable {cache next : SourceCache} {extractor : Extractor} {tree : FileTree} {root key : Path}
  {held : String → Prop} {outcome : FileOutcome}

/-- The cache after a call. -/
def after (cache : SourceCache) (extractor : Extractor) (root : Path) : CacheCall → SourceCache
  | .process tree path => (cache.process extractor tree root path).cache
  | .scan tree glob => (cache.scan extractor tree root glob).cache

/-- The cache after a list of calls. -/
def afterAll (cache : SourceCache) (extractor : Extractor) (root : Path)
    (calls : List CacheCall) : SourceCache := calls.foldl (·.after extractor root ·) cache

/-! ## Entries that were compiled -/

/-- Every entry was compiled from a text that was held, in some spelling of its
file. -/
def Sound (cache : SourceCache) (extractor : Extractor) (root : Path) (held : String → Prop) :
    Prop :=
  ∀ (k : List Path.Component) (entry : CacheEntry), cache.entries[k]? = some entry →
    ∃ key text, key.components = k ∧ held text ∧ CompiledFrom extractor root key text entry

theorem sound_empty : ({} : SourceCache).Sound extractor root held := by
  intro k entry hentry
  simp at hentry

theorem Processed.sound (h : Processed cache extractor tree root key outcome next)
    (hsound : cache.Sound extractor root held) (htexts : tree.TextsIn held) :
    next.Sound extractor root held := by
  cases h with
  | skipped => exact hsound
  | unchanged => exact hsound
  | removed =>
    intro k entry hentry
    rw [entries_erase] at hentry
    split at hentry
    · cases hentry
    · exact hsound k entry hentry
  | updated text compiled htext hcompiled =>
    intro k entry hentry
    rw [entries_insert] at hentry
    split at hentry
    · rename_i hk
      obtain rfl := Option.some.inj hentry
      exact ⟨key, text, hk, htexts _ text (readText_eq_ok.2 htext), hcompiled⟩
    · exact hsound k entry hentry

theorem sound_process (hsound : cache.Sound extractor root held) (htexts : tree.TextsIn held)
    (path : Path) : (cache.process extractor tree root path).cache.Sound extractor root held := by
  cases hresult : (cache.process extractor tree root path).result with
  | error cause => rwa [cache_of_process_error hresult]
  | ok outcome => exact (processed_of_process hresult).sound hsound htexts

theorem sound_processAll (hsound : cache.Sound extractor root held) (htexts : tree.TextsIn held)
    (summary : ScanSummary) (count : Nat) (keys : List Path) :
    (cache.processAll extractor tree root summary count keys).cache.Sound extractor root held := by
  induction keys generalizing cache summary count with
  | nil => exact hsound
  | cons key keys ih =>
    have hnext := sound_process hsound htexts key
    simp only [processAll]
    split
    · exact hnext
    · exact ih hnext _ _

/-- A scan that succeeds has worked on all files that it looks at and has dropped
the others. -/
theorem scan_eq_ok {glob : Glob} {found : ScanSummary}
    (h : (cache.scan extractor tree root glob).result = .ok found) :
    ∃ summary, (cache.processAll extractor tree root {} 0 (sourceKeys tree root glob)).result =
        .ok summary ∧
      let worked := (cache.processAll extractor tree root {} 0 (sourceKeys tree root glob)).cache
      (cache.scan extractor tree root glob).cache = worked.prune (sourceKeys tree root glob) ∧
      found = { summary with
        pruned := worked.size - (worked.prune (sourceKeys tree root glob)).size } := by
  unfold scan at h ⊢
  simp only at h ⊢
  cases hresult : (cache.processAll extractor tree root {} 0
      (sourceKeys tree root glob)).result with
  | error e => simp [hresult] at h
  | ok summary =>
    simp only [hresult, Except.ok.injEq] at h
    exact ⟨summary, rfl, rfl, h.symm⟩

theorem sound_scan (hsound : cache.Sound extractor root held) (htexts : tree.TextsIn held)
    (glob : Glob) : (cache.scan extractor tree root glob).cache.Sound extractor root held := by
  have hworked := sound_processAll hsound htexts {} 0 (sourceKeys tree root glob)
  unfold scan
  simp only
  split
  · exact hworked
  · intro k entry hentry
    simp only [entries_prune] at hentry
    split at hentry
    · exact hworked k entry hentry
    · cases hentry

theorem sound_afterAll (hsound : cache.Sound extractor root held) {calls : List CacheCall}
    (htexts : ∀ call ∈ calls, call.tree.TextsIn held) :
    (cache.afterAll extractor root calls).Sound extractor root held := by
  induction calls generalizing cache with
  | nil => exact hsound
  | cons call calls ih =>
    have hhere := htexts call (by simp)
    have hnext : (cache.after extractor root call).Sound extractor root held := by
      cases call with
      | process tree path => exact sound_process hsound hhere path
      | scan tree glob => exact sound_scan hsound hhere glob
    exact ih hnext fun call hcall => htexts call (by simp [hcall])

/-- A cache that was called in some trees was compiled from their texts. -/
theorem sound_of_calls (extractor : Extractor) (root : Path) (tree : FileTree)
    (calls : List CacheCall) :
    (({} : SourceCache).afterAll extractor root calls).Sound extractor root
        (TextOf (tree :: calls.map CacheCall.tree)) ∧
      tree.TextsIn (TextOf (tree :: calls.map CacheCall.tree)) := by
  refine ⟨sound_afterAll sound_empty fun call hcall path text htext => ?_,
    fun path text htext => ⟨tree, by simp, path, htext⟩⟩
  exact ⟨call.tree, List.mem_cons_of_mem tree (List.mem_map_of_mem hcall), path, htext⟩

/-! ## Entries that are up to date -/

/-- The entry says of the file what there is to say of its content now. -/
def Current (extractor : Extractor) (tree : FileTree) (root key : Path)
    (entry : Option CacheEntry) : Prop :=
  ∃ fresh, freshEntry extractor root key (tree.source? root key) = some fresh ∧
    entry.map CacheEntry.facts = fresh.map CacheEntry.facts

/-- An entry with the hash of a text was compiled from that text, if texts that are
held are told apart by their hashes. -/
theorem Sound.compiledFrom (hsound : cache.Sound extractor root held)
    (htexts : tree.TextsIn held) (hroot : root.isAbsolute = true)
    (hpaths : RespectsPaths extractor)
    (hdigests : ∀ a b, held a → held b → Digest.blake3 a = Digest.blake3 b → a = b)
    {text : String} {entry : CacheEntry} (htext : tree.sourceText? root key = some text)
    (hentry : cache.entry? key = some entry) (hhash : entry.hash = Digest.blake3 text) :
    CompiledFrom extractor root key text ⟨key, Digest.blake3 text, entry.operations⟩ ∧
      entry.file.components = key.components := by
  obtain ⟨told, old, hspelled, hold, hmarker, operations, hcompile, rfl⟩ := hsound _ entry hentry
  obtain rfl := hdigests text old (htexts _ text (readText_eq_ok.2 htext)) hold hhash.symm
  have hjoined := Path.components_join_congr hroot hspelled
  exact ⟨⟨hmarker, operations, compileText_congr hpaths hjoined hcompile, rfl⟩, hspelled⟩

/-- Work on a file that succeeds makes its entry current, if texts that are held
are told apart by their hashes. -/
theorem Processed.current (h : Processed cache extractor tree root key outcome next)
    (hroot : root.isAbsolute = true) (hpaths : RespectsPaths extractor)
    (hsound : cache.Sound extractor root held) (htexts : tree.TextsIn held)
    (hdigests : ∀ a b, held a → held b → Digest.blake3 a = Digest.blake3 b → a = b) :
    Current extractor tree root key (next.entry? key) := by
  cases h with
  | skipped hnone hblank => exact ⟨none, freshEntry_of_blank hblank, by rw [hnone]⟩
  | removed hsome hblank =>
    exact ⟨none, freshEntry_of_blank hblank, by rw [SourceCache.entry?, entries_erase, if_pos rfl]⟩
  | updated text entry htext hcompiled =>
    refine ⟨some entry, freshEntry_of_compiledFrom htext hcompiled, ?_⟩
    rw [SourceCache.entry?, entries_insert, if_pos rfl]
  | unchanged text entry htext hmarker hentry hhash =>
    obtain ⟨hnow, hfile⟩ := hsound.compiledFrom htexts hroot hpaths hdigests htext hentry hhash
    refine ⟨some _, freshEntry_of_compiledFrom htext hnow, ?_⟩
    rw [hentry]
    simp [CacheEntry.facts, hfile, hhash]

theorem Processed.isSome (h : Processed cache extractor tree root key outcome next) :
    (next.entry? key).isSome = outcome.keeps := by
  cases h with
  | skipped hnone => simp [hnone, FileOutcome.keeps]
  | removed => simp [SourceCache.entry?, entries_erase, FileOutcome.keeps]
  | unchanged _ _ _ _ hentry => simp [hentry, FileOutcome.keeps]
  | updated => simp [SourceCache.entry?, entries_insert, FileOutcome.keeps]

/-! ## Work on many files -/

variable {keys : List Path} {found summary : ScanSummary} {count : Nat}

theorem count_kept (summary : ScanSummary) (outcome : FileOutcome) :
    (summary.count outcome).updated + (summary.count outcome).unchanged =
      summary.updated + summary.unchanged + if outcome.keeps then 1 else 0 := by
  cases outcome with
  | skipped => rfl
  | removed => rfl
  | unchanged => rfl
  | updated operations =>
    simp only [ScanSummary.count, FileOutcome.keeps, if_true]
    omega

theorem current_processAll (hroot : root.isAbsolute = true) (hpaths : RespectsPaths extractor)
    (hsound : cache.Sound extractor root held) (htexts : tree.TextsIn held)
    (hdigests : ∀ a b, held a → held b → Digest.blake3 a = Digest.blake3 b → a = b)
    (hkeys : ∀ key ∈ keys, sourceKey root key = key) (hnodup : (keys.map Path.components).Nodup)
    (h : (cache.processAll extractor tree root summary count keys).result = .ok found) :
    ∀ key ∈ keys, Current extractor tree root key
      ((cache.processAll extractor tree root summary count keys).cache.entry? key) := by
  induction keys generalizing cache summary count with
  | nil => simp
  | cons key keys ih =>
    obtain ⟨outcome, next, counted, hprocessed, heq⟩ := processAll_cons h
    have hrest : ∀ key ∈ keys, sourceKey root key = key := fun k hk => hkeys k (by simp [hk])
    rw [hkeys key (by simp)] at hprocessed
    rw [List.map_cons, List.nodup_cons] at hnodup
    rw [heq] at h ⊢
    intro other hother
    obtain rfl | hmem := List.mem_cons.1 hother
    · rw [SourceCache.entry?, entries_processAll_of_ne hrest hnodup.1 h]
      exact hprocessed.current hroot hpaths hsound htexts hdigests
    · exact ih (hprocessed.sound hsound htexts) hrest hnodup.2 h other hmem

/-- The summary counts the files that have an entry in the end. -/
theorem kept_processAll (hkeys : ∀ key ∈ keys, sourceKey root key = key)
    (hnodup : (keys.map Path.components).Nodup)
    (h : (cache.processAll extractor tree root summary count keys).result = .ok found) :
    found.updated + found.unchanged = summary.updated + summary.unchanged +
      keys.countP fun key => ((cache.processAll extractor tree root summary count
        keys).cache.entry? key).isSome := by
  induction keys generalizing cache summary count with
  | nil =>
    obtain rfl := Except.ok.inj h
    rfl
  | cons key keys ih =>
    obtain ⟨outcome, next, counted, hprocessed, heq⟩ := processAll_cons h
    have hrest : ∀ key ∈ keys, sourceKey root key = key := fun k hk => hkeys k (by simp [hk])
    rw [hkeys key (by simp)] at hprocessed
    rw [List.map_cons, List.nodup_cons] at hnodup
    rw [heq] at h ⊢
    have hhere : ((next.processAll extractor tree root (summary.count outcome) counted
        keys).cache.entry? key).isSome = outcome.keeps := by
      rw [SourceCache.entry?, entries_processAll_of_ne hrest hnodup.1 h]
      exact hprocessed.isSome
    rw [ih hrest hnodup.2 h, count_kept, List.countP_cons, hhere]
    omega

/-! ## Sizes -/

theorem mem_keys_iff {k : List Path.Component} :
    k ∈ cache.entries.keys ↔ cache.entries[k]? ≠ none := by
  rw [Std.ExtTreeMap.mem_keys, Std.ExtTreeMap.mem_iff_isSome_getElem?, Option.isSome_iff_ne_none]

theorem size_prune (cache : SourceCache) (keys : List Path) : (cache.prune keys).size =
    (cache.entries.keys.filter (keys.map Path.components).contains).length := by
  rw [size, ← Std.ExtTreeMap.length_keys, prune, Std.ExtTreeMap.keys_filter_key]

theorem size_sub_prune (cache : SourceCache) (keys : List Path) :
    cache.size - (cache.prune keys).size =
      (cache.entries.keys.filter (!(keys.map Path.components).contains ·)).length := by
  have hall := List.length_eq_length_filter_add (l := cache.entries.keys)
    (keys.map Path.components).contains
  rw [size_prune, size, ← Std.ExtTreeMap.length_keys]
  omega

/-- A pruned cache has an entry for each of the files that had one. -/
theorem size_prune_of_nodup (hnodup : (keys.map Path.components).Nodup) :
    (cache.prune keys).size = keys.countP fun key => (cache.entry? key).isSome := by
  have hperm : (cache.entries.keys.filter (keys.map Path.components).contains).Perm
      ((keys.filter fun key => (cache.entry? key).isSome).map Path.components) := by
    rw [List.perm_ext_iff_of_nodup (Std.ExtTreeMap.nodup_keys.filter _)
      (hnodup.sublist (List.filter_sublist.map _))]
    intro k
    simp only [List.mem_filter, mem_keys_iff, List.contains_iff_mem, List.mem_map]
    constructor
    · intro hk
      obtain ⟨hentry, key, hkey, rfl⟩ := hk
      exact ⟨key, ⟨hkey, Option.isSome_iff_ne_none.2 hentry⟩, rfl⟩
    · intro hk
      obtain ⟨key, ⟨hkey, hentry⟩, rfl⟩ := hk
      exact ⟨Option.isSome_iff_ne_none.1 hentry, key, hkey, rfl⟩
  rw [size_prune, hperm.length_eq, List.length_map, List.countP_eq_length_filter]

/-- What is dropped was there before the work began. -/
theorem length_dropped (hkeys : ∀ key ∈ keys, sourceKey root key = key)
    (h : (cache.processAll extractor tree root summary count keys).result = .ok found) :
    ((cache.processAll extractor tree root summary count keys).cache.entries.keys.filter
        (!(keys.map Path.components).contains ·)).length =
      (cache.entries.keys.filter (!(keys.map Path.components).contains ·)).length := by
  refine List.Perm.length_eq ((List.perm_ext_iff_of_nodup (Std.ExtTreeMap.nodup_keys.filter _)
    (Std.ExtTreeMap.nodup_keys.filter _)).2 fun k => ?_)
  simp only [List.mem_filter, mem_keys_iff, Bool.not_eq_true', List.contains_eq_mem,
    decide_eq_false_iff_not]
  constructor
  · intro hk
    rwa [entries_processAll_of_ne hkeys hk.2 h] at hk
  · intro hk
    rwa [entries_processAll_of_ne hkeys hk.2 h]

/-! ## Scans -/

variable {glob : Glob}

theorem exists_processed_of_mem (hkeys : ∀ key ∈ keys, sourceKey root key = key)
    (h : (cache.processAll extractor tree root summary count keys).result = .ok found)
    (hmem : key ∈ keys) :
    ∃ before outcome next, Processed before extractor tree root key outcome next := by
  induction keys generalizing cache summary count with
  | nil => cases hmem
  | cons first keys ih =>
    obtain ⟨outcome, next, counted, hprocessed, heq⟩ := processAll_cons h
    obtain rfl | hrest := List.mem_cons.1 hmem
    · rw [hkeys key (by simp)] at hprocessed
      exact ⟨cache, outcome, next, hprocessed⟩
    · rw [heq] at h
      exact ih (fun k hk => hkeys k (by simp [hk])) h hrest

theorem Processed.readText_ne (h : Processed cache extractor tree root key outcome next)
    {e : FileFault} (hread : tree.readText (root.join key) = .error e) : e = .notFound := by
  have htexts {text : String} (htext : tree.sourceText? root key = some text) : e = .notFound := by
    rw [readText_eq_ok.2 htext] at hread
    cases hread
  have hblanks (hblank : Blank tree root key) : e = .notFound := by
    obtain hnone | ⟨text, htext, -⟩ := hblank
    · exact Except.error.inj (hread.symm.trans hnone)
    · exact htexts htext
  cases h with
  | skipped _ hblank => exact hblanks hblank
  | removed _ hblank => exact hblanks hblank
  | unchanged text _ htext => exact htexts htext
  | updated text _ htext => exact htexts htext

/-- A scan that succeeds has read all files that it looks at, each by its
names. -/
theorem exists_of_mem_scanned (hwell : tree.WellFormed) (hroot : root.isAbsolute = true)
    (h : (cache.scan extractor tree root glob).result = .ok found)
    (hkey : key ∈ sourceKeys tree root glob) : ∃ base names content,
      tree.resolve root = .ok base ∧ (∀ name ∈ names, Path.IsName name) ∧
        key = Path.ofNames names ∧ tree.content? (base ++ names) = some content ∧
        tree.source? root key = some content ∧ isIgnored names = false ∧
        glob.selects key.text = true := by
  obtain ⟨base, names, content, hresolve, hnames, rfl, hcontent, hignored, hselects⟩ :=
    exists_of_mem_sourceKeys hwell hkey
  have hkeys := sourceKey_of_mem_sourceKeys hwell hroot glob
  have hne : names ≠ [] := by
    intro hnil
    obtain ⟨summary, hsummary, -⟩ := scan_eq_ok h
    obtain ⟨_, _, _, hprocessed⟩ := exists_processed_of_mem hkeys hsummary hkey
    rw [hnil, List.append_nil] at hcontent
    rw [hnil] at hprocessed
    cases hprocessed.readText_ne (readText_join_nil hroot hresolve hcontent)
  have hread := readBytes_join_ofNames hwell hroot hresolve hne hcontent
  refine ⟨base, names, content, hresolve, fun name hname => (hnames name hname).1, rfl, hcontent,
    ?_, hignored, hselects⟩
  rw [source?, hread]
  rfl

theorem current_scan (hwell : tree.WellFormed) (hroot : root.isAbsolute = true)
    (hpaths : RespectsPaths extractor) (hsound : cache.Sound extractor root held)
    (htexts : tree.TextsIn held)
    (hdigests : ∀ a b, held a → held b → Digest.blake3 a = Digest.blake3 b → a = b)
    (h : (cache.scan extractor tree root glob).result = .ok found)
    (hkey : key ∈ sourceKeys tree root glob) :
    Current extractor tree root key
      ((cache.scan extractor tree root glob).cache.entry? key) := by
  obtain ⟨summary, hsummary, hcache, -⟩ := scan_eq_ok h
  rw [hcache, entry?, entries_prune, if_pos (List.mem_map_of_mem hkey)]
  exact current_processAll hroot hpaths hsound htexts hdigests
    (sourceKey_of_mem_sourceKeys hwell hroot glob) (nodup_sourceKeys hwell root glob) hsummary
    key hkey

/-- What the entries of a cache say. -/
def facts (cache : SourceCache) :
    Std.ExtTreeMap (List Path.Component)
      (List Path.Component × String × List OperationDescriptor) :=
  cache.entries.map fun _ entry => entry.facts

theorem operations_eq (cache : SourceCache) :
    cache.operations = cache.facts.toList.flatMap (·.2.2.2) := by
  rw [operations, facts, Std.ExtTreeMap.toList_map, List.flatMap_map]
  rfl

theorem facts_getElem? (cache : SourceCache) (k : List Path.Component) :
    cache.facts[k]? = cache.entries[k]?.map CacheEntry.facts := by
  rw [facts, Std.ExtTreeMap.getElem?_map]

/-- The entry that a source has says what its text says. -/
theorem Current.describes {entry : Option CacheEntry} (h : Current extractor tree root key entry)
    {text : String} (htext : tree.sourceText? root key = some text)
    (hmarker : Script.hasMarker text = true) :
    ∃ found, entry = some found ∧ found.file.components = key.components ∧
      found.hash = Digest.blake3 text ∧
      compileText extractor (root.join key) text = .ok found.operations := by
  obtain ⟨fresh, hfresh, hsame⟩ := h
  obtain ⟨content, hcontent, hutf⟩ := Option.bind_eq_some_iff.1 htext
  rw [hcontent, freshEntry] at hfresh
  simp only [hutf, hmarker, Bool.not_true, Bool.false_eq_true, ↓reduceIte] at hfresh
  cases hcompile : compileText extractor (root.join key) text with
  | error cause => simp [hcompile] at hfresh
  | ok operations =>
    simp only [hcompile, Option.some.injEq] at hfresh
    rw [← hfresh] at hsame
    cases entry with
    | none => cases hsame
    | some found =>
      obtain ⟨hfile, hhash, hoperations⟩ : found.file.components = key.components ∧
          found.hash = Digest.blake3 text ∧ found.operations = operations := by
        simpa [CacheEntry.facts] using hsame
      exact ⟨found, rfl, hfile, hhash, by rw [hoperations]⟩

/-- What has an entry has a text with documents. -/
theorem Current.marked {entry : CacheEntry} (h : Current extractor tree root key (some entry)) :
    ∃ text, tree.sourceText? root key = some text ∧ Script.hasMarker text = true := by
  obtain ⟨fresh, hfresh, hsame⟩ := h
  cases fresh with
  | none => cases hsame
  | some found =>
    obtain ⟨text, htext, hcompiled⟩ := compiledFrom_of_freshEntry hfresh
    exact ⟨text, htext, hcompiled.1⟩

/-- The names lead to a file below the root that the glob selects, and the file
has a text with documents. -/
structure IsSource (tree : FileTree) (root : Path) (glob : Glob) (names : List String)
    (text : String) : Prop where
  file : ∃ base, tree.resolve root = .ok base ∧ tree.content? (base ++ names) = some text.toUTF8
  notIgnored : isIgnored names = false
  selected : glob.selects (Path.ofNames names).text = true
  marked : Script.hasMarker text = true

/-- The entry says what there is to say of a source. -/
structure Describes (entry : CacheEntry) (extractor : Extractor) (root : Path)
    (names : List String) (text : String) : Prop where
  file : entry.file.components = names.map .name
  hash : entry.hash = Digest.blake3 text
  operations : compileText extractor (root.join (Path.ofNames names)) text = .ok entry.operations

theorem describes_of_current (hwell : tree.WellFormed) (hroot : root.isAbsolute = true)
    (h : (cache.scan extractor tree root glob).result = .ok found)
    (hcurrent : ∀ key ∈ sourceKeys tree root glob, Current extractor tree root key
      ((cache.scan extractor tree root glob).cache.entry? key)) :
    (∀ (k : List Path.Component) entry,
      (cache.scan extractor tree root glob).cache.entries[k]? = some entry →
      ∃ names text, IsSource tree root glob names text ∧ k = names.map .name ∧
        Describes entry extractor root names text) ∧
    ∀ names text, IsSource tree root glob names text → ∃ entry,
      (cache.scan extractor tree root glob).cache.entries[names.map Path.Component.name]? =
        some entry ∧ Describes entry extractor root names text := by
  constructor
  · intro k entry hentry
    have hk : k ∈ (sourceKeys tree root glob).map Path.components :=
      mem_keys_of_scan h (by rw [hentry]; simp)
    obtain ⟨key, hkey, rfl⟩ := List.mem_map.1 hk
    obtain ⟨base, names, content, hresolve, hnames, rfl, hcontent, hsource, hignored, hselects⟩ :=
      exists_of_mem_scanned hwell hroot h hkey
    have hhere := hcurrent _ hkey
    rw [SourceCache.entry?, hentry] at hhere
    obtain ⟨text, htext, hmarker⟩ := hhere.marked
    obtain ⟨found, hfound, hfile, hhash, hoperations⟩ := hhere.describes htext hmarker
    obtain rfl := Option.some.inj hfound
    have hcomponents := Path.components_ofNames hnames
    refine ⟨names, text, ⟨⟨base, hresolve, ?_⟩, hignored, hselects, hmarker⟩, hcomponents,
      hfile.trans hcomponents, hhash, hoperations⟩
    rw [sourceText?, hsource] at htext
    rw [hcontent, fromUTF8?_eq_some.1 htext]
  · intro names text hsource
    obtain ⟨⟨base, hresolve, hcontent⟩, hignored, hselects, hmarker⟩ := hsource
    have hkey : Path.ofNames names ∈ sourceKeys tree root glob :=
      (mem_sourceKeys_of_resolve hwell hresolve).2 ⟨names, rfl, by simp [hcontent], hignored,
        hselects⟩
    have hplain : ∀ name ∈ names, Path.IsName name := fun name hname =>
      hwell.isName (by simp [content?_eq_some.1 hcontent]) name (List.mem_append_right base hname)
    obtain ⟨base', names', content, hresolve', hnames', heq, hcontent', hread, -⟩ :=
      exists_of_mem_scanned hwell hroot h hkey
    obtain rfl := Path.eq_of_components_ofNames hplain hnames' (congrArg Path.components heq)
    obtain rfl := Except.ok.inj (hresolve.symm.trans hresolve')
    obtain rfl := Option.some.inj (hcontent.symm.trans hcontent')
    have htext : tree.sourceText? root (Path.ofNames names) = some text := by
      rw [sourceText?, hread]
      exact fromUTF8?_eq_some.2 rfl
    obtain ⟨entry, hentry, hfile, hhash, hoperations⟩ :=
      (hcurrent _ hkey).describes htext hmarker
    have hcomponents := Path.components_ofNames hplain
    rw [SourceCache.entry?, hcomponents] at hentry
    exact ⟨entry, hentry, hfile.trans hcomponents, hhash, hoperations⟩

/-- Scans of one tree that succeed agree on every file, whatever the caches
were. -/
theorem facts_scan_eq {other : SourceCache} {first : ScanSummary}
    (h : (cache.scan extractor tree root glob).result = .ok found)
    (hfirst : (other.scan extractor tree root glob).result = .ok first)
    (hcurrent : ∀ key ∈ sourceKeys tree root glob, Current extractor tree root key
      ((cache.scan extractor tree root glob).cache.entry? key))
    (hother : ∀ key ∈ sourceKeys tree root glob, Current extractor tree root key
      ((other.scan extractor tree root glob).cache.entry? key)) :
    (cache.scan extractor tree root glob).cache.facts =
      (other.scan extractor tree root glob).cache.facts := by
  apply Std.ExtTreeMap.ext_getElem?
  intro k
  rw [facts_getElem?, facts_getElem?]
  by_cases hk : k ∈ (sourceKeys tree root glob).map Path.components
  · obtain ⟨key, hkey, rfl⟩ := List.mem_map.1 hk
    obtain ⟨fresh, hfresh, hsame⟩ := hcurrent key hkey
    obtain ⟨fresh', hfresh', hsame'⟩ := hother key hkey
    obtain rfl := Option.some.inj (hfresh.symm.trans hfresh')
    exact hsame.trans hsame'.symm
  · have hnone : (cache.scan extractor tree root glob).cache.entries[k]? = none := by
      by_contra hentry
      exact hk (mem_keys_of_scan h hentry)
    have hnone' : (other.scan extractor tree root glob).cache.entries[k]? = none := by
      by_contra hentry
      exact hk (mem_keys_of_scan hfirst hentry)
    rw [hnone, hnone']

/-- The counts of a scan: the files that have an entry in the end, and those that
had one before and are not looked at any more. -/
theorem counts_of_scan (hwell : tree.WellFormed) (hroot : root.isAbsolute = true)
    (h : (cache.scan extractor tree root glob).result = .ok found) :
    (cache.scan extractor tree root glob).cache.size = found.updated + found.unchanged ∧
      found.pruned = (cache.entries.keys.filter
        (!((sourceKeys tree root glob).map Path.components).contains ·)).length := by
  have hkeys := sourceKey_of_mem_sourceKeys hwell hroot glob
  have hnodup := nodup_sourceKeys hwell root glob
  obtain ⟨summary, hsummary, hcache, hfound⟩ := scan_eq_ok h
  have hkept := kept_processAll hkeys hnodup hsummary
  rw [hcache, hfound]
  constructor
  · rw [size_prune_of_nodup hnodup]
    simpa using hkept.symm
  · simp only [size_sub_prune]
    exact length_dropped hkeys hsummary

/-- **Warm scans.**  A scan that succeeds leaves what a scan of a new cache leaves,
whatever the cache was called for before: an entry for every source with
documents, and no other.  Texts that were met on the way have to be told apart by
their hashes. -/
theorem scan_of_calls {extractor : Extractor} {root : Path} {tree : FileTree} {glob : Glob}
    {found : ScanSummary} (calls : List CacheCall)
    (hwell : tree.WellFormed) (hroot : root.isAbsolute = true) (hpaths : RespectsPaths extractor)
    (hdigests : ∀ a b, TextOf (tree :: calls.map CacheCall.tree) a →
      TextOf (tree :: calls.map CacheCall.tree) b → Digest.blake3 a = Digest.blake3 b → a = b)
    (h : ((({} : SourceCache).afterAll extractor root calls).scan extractor tree root glob).result =
      .ok found) :
    let before := ({} : SourceCache).afterAll extractor root calls
    let warm := before.scan extractor tree root glob
    let cold := ({} : SourceCache).scan extractor tree root glob
    ((∃ first, cold.result = .ok first) ∧ warm.cache.facts = cold.cache.facts ∧
      warm.cache.operations = cold.cache.operations) ∧
    ((∀ (k : List Path.Component) entry, warm.cache.entries[k]? = some entry →
        ∃ names text, IsSource tree root glob names text ∧ k = names.map .name ∧
          Describes entry extractor root names text) ∧
      ∀ names text, IsSource tree root glob names text → ∃ entry,
        warm.cache.entries[names.map Path.Component.name]? = some entry ∧
          Describes entry extractor root names text) ∧
    warm.cache.size = found.updated + found.unchanged ∧
    found.pruned = (before.entries.keys.filter
      (!((sourceKeys tree root glob).map Path.components).contains ·)).length := by
  intro before warm cold
  obtain ⟨hsound, htexts⟩ := sound_of_calls extractor root tree calls
  have hcurrent : ∀ key ∈ sourceKeys tree root glob,
      Current extractor tree root key (warm.cache.entry? key) := fun key hkey =>
    current_scan hwell hroot hpaths hsound htexts hdigests h hkey
  have hcold : ∃ first, cold.result = .ok first := by
    apply scan_of_freshEntry (sourceKey_of_mem_sourceKeys hwell hroot glob)
    intro key hkey
    obtain ⟨_, _, content, -, -, -, -, hcontent, -⟩ := exists_of_mem_scanned hwell hroot h hkey
    obtain ⟨fresh, hfresh, -⟩ := hcurrent key hkey
    rw [hcontent] at hfresh
    exact ⟨content, fresh, hcontent, hfresh⟩
  obtain ⟨first, hfirst⟩ := hcold
  have hfacts : warm.cache.facts = cold.cache.facts :=
    facts_scan_eq h hfirst hcurrent fun key hkey =>
      current_scan hwell hroot hpaths sound_empty htexts hdigests hfirst hkey
  have hoperations : warm.cache.operations = cold.cache.operations := by
    rw [operations_eq, operations_eq, hfacts]
  exact ⟨⟨⟨first, hfirst⟩, hfacts, hoperations⟩, describes_of_current hwell hroot h hcurrent,
    counts_of_scan hwell hroot h⟩

/-! ## Two sources -/

def textA : String := "gql\x60query A \x7b a \x7d\x60"

def textB : String := "gql\x60query B \x7b b \x7d\x60"

/-- A project with one source. -/
def oneSource : FileTree :=
  ((({} : FileTree).put ["p"] .directory).put ["p", "src"] .directory).put ["p", "src", "a.ts"]
    (.file textA.toUTF8)

/-- The project with a second source. -/
def twoSources : FileTree := oneSource.put ["p", "src", "b.ts"] (.file textB.toUTF8)

theorem wellFormed_oneSource : oneSource.WellFormed := by
  have hproject : (({} : FileTree).put ([] ++ ["p"]) .directory).WellFormed :=
    wellFormed_empty.put (node?_nil _) (by decide) (by simp)
  have hsources : ((({} : FileTree).put ["p"] .directory).put (["p"] ++ ["src"])
      .directory).WellFormed :=
    hproject.put (by decide +kernel) (by decide) (by simp)
  have hfile : (((({} : FileTree).put ["p"] .directory).put ["p", "src"] .directory).put
      (["p", "src"] ++ ["a.ts"]) (.file textA.toUTF8)).WellFormed :=
    hsources.put (by decide +kernel) (by decide) (by decide +kernel)
  exact hfile

theorem holds_oneSource {texts : List String} (h : textA ∈ texts) : oneSource.Holds texts :=
  ((holds_empty.put_directory (by simp)).put_directory (by simp)).put_file (by simp) h

theorem holds_twoSources {texts : List String} (hA : textA ∈ texts) (hB : textB ∈ texts) :
    twoSources.Holds texts :=
  (holds_oneSource hA).put_file (by simp) hB

/-- One source is told under another spelling, and the other one goes. -/
def sourceCalls : List CacheCall :=
  [.process twoSources ⟨"src//a.ts"⟩, .process twoSources ⟨"src/b.ts"⟩]

theorem scan_of_sourceCalls : ∃ glob found,
    Glob.ofPattern "**/*.ts" = .ok glob ∧
    let before := ({} : SourceCache).afterAll Script.extract ⟨"/p"⟩ sourceCalls
    let warm := before.scan Script.extract oneSource ⟨"/p"⟩ glob
    let cold := ({} : SourceCache).scan Script.extract oneSource ⟨"/p"⟩ glob
    warm.result = .ok found ∧ warm.extractions = 0 ∧ warm.cache.size = 1 ∧ found.pruned = 1 ∧
      warm.cache.facts = cold.cache.facts := by
  have hfacts : (Glob.ofPattern "**/*.ts").toOption.any (fun glob =>
      let before := ({} : SourceCache).afterAll Script.extract ⟨"/p"⟩ sourceCalls
      let warm := before.scan Script.extract oneSource ⟨"/p"⟩ glob
      warm.result.toOption.any (fun found => found.unchanged = 1 && found.updated = 0 &&
        found.pruned = 1) && warm.extractions = 0) = true := by
    decide +kernel
  have hdigests := eq_of_blake3 (oneSource :: sourceCalls.map CacheCall.tree) [textA, textB]
    (by simp [sourceCalls, CacheCall.tree, holds_oneSource, holds_twoSources])
    (by decide +kernel)
  cases hglob : Glob.ofPattern "**/*.ts" with
  | error e => simp [hglob, Except.toOption] at hfacts
  | ok glob =>
    simp only [hglob, Except.toOption, Option.any_some, Bool.and_eq_true, decide_eq_true_eq]
      at hfacts
    obtain ⟨hfound, hextractions⟩ := hfacts
    cases hresult : ((({} : SourceCache).afterAll Script.extract ⟨"/p"⟩ sourceCalls).scan
        Script.extract oneSource ⟨"/p"⟩ glob).result with
    | error e => simp [hresult] at hfound
    | ok found =>
      simp only [hresult, Option.any_some, Bool.and_eq_true, decide_eq_true_eq] at hfound
      obtain ⟨⟨hunchanged, hupdated⟩, hpruned⟩ := hfound
      obtain ⟨⟨-, hsame, -⟩, -, hsize, -⟩ := scan_of_calls sourceCalls wellFormed_oneSource
        (by decide) Script.extract_respectsPaths hdigests hresult
      rw [hunchanged, hupdated] at hsize
      exact ⟨glob, found, rfl, hresult, hextractions, hsize, hpruned, hsame⟩

end SourceCache

end OpManifest
