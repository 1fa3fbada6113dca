import OpManifest.Proofs.SourceCache

/-!
# Scans

Which files a scan looks at (`mem_sourceKeys`), and what it leaves: a scan that
succeeds makes an empty cache synced with every file that it looks at
(`synced_of_scan`), and it succeeds where all of these have an entry to have
(`scan_of_freshEntry`).
-/

namespace OpManifest

open FileTree
open Script (Extractor)

namespace SourceCache

variable {cache : SourceCache} {extractor : Extractor} {tree : FileTree} {root key : Path}

/-! ## Work on many files -/

variable {keys : List Path} {found summary : ScanSummary} {count : Nat}

theorem processAll_cons_of_ok {outcome : FileOutcome}
    (h : (cache.process extractor tree root key).result = .ok outcome) (summary : ScanSummary)
    (count : Nat) (keys : List Path) :
    cache.processAll extractor tree root summary count (key :: keys) =
      (cache.process extractor tree root key).cache.processAll extractor tree root
        (summary.count outcome) (count + (cache.process extractor tree root key).extractions)
        keys := by
  simp only [processAll, h]

theorem processAll_cons_of_error {e : CompileError}
    (h : (cache.process extractor tree root key).result = .error e) (summary : ScanSummary)
    (count : Nat) (keys : List Path) :
    cache.processAll extractor tree root summary count (key :: keys) =
      ⟨cache, .error e, count + (cache.process extractor tree root key).extractions⟩ := by
  simp only [processAll, h, cache_of_process_error h]

/-- The files were worked on one after the other, each with success. -/
theorem processAll_cons (h : (cache.processAll extractor tree root summary count
      (key :: keys)).result = .ok found) :
    ∃ outcome next counted, Processed cache extractor tree root (sourceKey root key) outcome next ∧
      cache.processAll extractor tree root summary count (key :: keys) =
        next.processAll extractor tree root (summary.count outcome) counted keys := by
  cases hresult : (cache.process extractor tree root key).result with
  | error e =>
    rw [processAll_cons_of_error hresult summary count keys] at h
    cases h
  | ok outcome =>
    exact ⟨outcome, _, _, processed_of_process hresult,
      processAll_cons_of_ok hresult summary count keys⟩

/-- The entries of all other files stay. -/
theorem entries_processAll_of_ne (hkeys : ∀ key ∈ keys, sourceKey root key = key)
    {k : List Path.Component} (hother : k ∉ keys.map Path.components)
    (h : (cache.processAll extractor tree root summary count keys).result = .ok found) :
    (cache.processAll extractor tree root summary count keys).cache.entries[k]? =
      cache.entries[k]? := by
  induction keys generalizing cache summary count with
  | nil => rfl
  | cons key keys ih =>
    obtain ⟨outcome, next, counted, hprocessed, heq⟩ := processAll_cons h
    rw [hkeys key (by simp)] at hprocessed
    rw [List.map_cons, List.mem_cons, not_or] at hother
    rw [heq] at h ⊢
    rw [ih (fun k hk => hkeys k (by simp [hk])) hother.2 h]
    exact hprocessed.entries_of_ne (Ne.symm hother.1)

theorem synced_processAll (hkeys : ∀ key ∈ keys, sourceKey root key = key) {other : Path}
    (hinj : ∀ key ∈ keys, key.components = other.components → key = other)
    (hsynced : Synced cache extractor root other (tree.source? root other))
    (h : (cache.processAll extractor tree root summary count keys).result = .ok found) :
    Synced (cache.processAll extractor tree root summary count keys).cache extractor root other
      (tree.source? root other) := by
  induction keys generalizing cache summary count with
  | nil => exact hsynced
  | cons key keys ih =>
    obtain ⟨outcome, next, counted, hprocessed, heq⟩ := processAll_cons h
    rw [hkeys key (by simp)] at hprocessed
    rw [heq] at h ⊢
    refine ih (fun k hk => hkeys k (by simp [hk])) (fun k hk => hinj k (by simp [hk])) ?_ h
    by_cases hsame : key.components = other.components
    · obtain rfl := hinj key (by simp) hsame
      exact hprocessed.synced_again hsynced
    · rwa [Synced, entry?, hprocessed.entries_of_ne hsame]

/-- A file that had no entry has one that is up to date after it was worked
on. -/
theorem synced_of_processAll (hkeys : ∀ key ∈ keys, sourceKey root key = key) {other : Path}
    (hinj : ∀ key ∈ keys, key.components = other.components → key = other)
    (hmem : other ∈ keys) (hnone : cache.entry? other = none)
    (h : (cache.processAll extractor tree root summary count keys).result = .ok found) :
    Synced (cache.processAll extractor tree root summary count keys).cache extractor root other
      (tree.source? root other) := by
  induction keys generalizing cache summary count with
  | nil => cases hmem
  | cons key keys ih =>
    obtain ⟨outcome, next, counted, hprocessed, heq⟩ := processAll_cons h
    have hrest : ∀ k ∈ keys, sourceKey root k = k := fun k hk => hkeys k (by simp [hk])
    have hinjRest : ∀ k ∈ keys, k.components = other.components → k = other :=
      fun k hk => hinj k (by simp [hk])
    rw [hkeys key (by simp)] at hprocessed
    rw [heq] at h ⊢
    by_cases hsame : key.components = other.components
    · obtain rfl := hinj key (by simp) hsame
      exact synced_processAll hrest hinjRest (hprocessed.synced (by simp [hnone])) h
    · have hne : other ≠ key := fun heq => hsame (congrArg Path.components heq).symm
      refine ih hrest hinjRest ((List.mem_cons.1 hmem).resolve_left hne) ?_ h
      exact (hprocessed.entries_of_ne hsame).trans hnone

/-- Work on files that are there, and that have entries to have, succeeds. -/
theorem processAll_of_freshEntry (hkeys : ∀ key ∈ keys, sourceKey root key = key)
    (hfresh : ∀ key ∈ keys, ∃ content entry, tree.source? root key = some content ∧
      freshEntry extractor root key (some content) = some entry) :
    ∃ found, (cache.processAll extractor tree root summary count keys).result = .ok found := by
  induction keys generalizing cache summary count with
  | nil => exact ⟨summary, rfl⟩
  | cons key keys ih =>
    obtain ⟨content, entry, hcontent, hentry⟩ := hfresh key (by simp)
    have hone : ∃ outcome, (cache.process extractor tree root key).result = .ok outcome :=
      process_of_freshEntry (hkeys key (by simp)) hcontent hentry
    obtain ⟨outcome, houtcome⟩ := hone
    simp only [processAll]
    rcases hrun : cache.process extractor tree root key with ⟨next, e | done, extractions⟩
    · simp [hrun] at houtcome
    · exact ih (fun k hk => hkeys k (by simp [hk])) fun k hk => hfresh k (by simp [hk])

/-! ## Scans -/

theorem entries_prune (cache : SourceCache) (keys : List Path) (k : List Path.Component) :
    (cache.prune keys).entries[k]? =
      if k ∈ keys.map Path.components then cache.entries[k]? else none := by
  simp only [prune, Std.ExtTreeMap.getElem?_filter']
  cases cache.entries[k]? <;> simp [Option.filter]

/-- What has an entry after a scan is the key of a file that the scan looks
at. -/
theorem mem_keys_of_scan {glob : Glob} {k : List Path.Component}
    (h : (cache.scan extractor tree root glob).result = .ok found)
    (hentry : (cache.scan extractor tree root glob).cache.entries[k]? ≠ none) :
    k ∈ (sourceKeys tree root glob).map Path.components := by
  unfold scan at h hentry
  simp only at h hentry
  split at h
  · rename_i hresult
    simp [hresult] at h
  · rename_i hresult
    simp only [hresult, entries_prune] at hentry
    by_contra hnot
    rw [if_neg hnot] at hentry
    exact hentry rfl

/-- A scan into an empty cache makes it synced with every file that it looks
at. -/
theorem synced_of_scan {glob : Glob}
    (hkeys : ∀ key ∈ sourceKeys tree root glob, sourceKey root key = key)
    (hinj : ∀ key ∈ sourceKeys tree root glob, ∀ other ∈ sourceKeys tree root glob,
      key.components = other.components → key = other)
    (hmem : key ∈ sourceKeys tree root glob)
    (h : (({} : SourceCache).scan extractor tree root glob).result = .ok found) :
    Synced (({} : SourceCache).scan extractor tree root glob).cache extractor root key
      (tree.source? root key) := by
  unfold scan at h ⊢
  simp only at h ⊢
  split at h
  · rename_i hresult
    simp [hresult] at h
  · rename_i hresult
    have hsynced := synced_of_processAll hkeys (fun other hother => hinj other hother key hmem)
      hmem (by simp [SourceCache.entry?]) hresult
    simp only
    rwa [Synced, SourceCache.entry?, entries_prune, if_pos (List.mem_map_of_mem hmem)]

/-- A scan succeeds where work on the files that it looks at does. -/
theorem scan_of_processAll_ok {glob : Glob} (h : ∃ found, (cache.processAll extractor tree root {} 0
      (sourceKeys tree root glob)).result = .ok found) :
    ∃ found, (cache.scan extractor tree root glob).result = .ok found := by
  obtain ⟨found, hfound⟩ := h
  unfold scan
  simp only [hfound]
  exact ⟨_, rfl⟩

/-- A scan that stops drops no entry. -/
theorem scan_of_processAll_error {glob : Glob} {e : CompileError}
    (h : (cache.processAll extractor tree root {} 0 (sourceKeys tree root glob)).result =
      .error e) :
    cache.scan extractor tree root glob =
      cache.processAll extractor tree root {} 0 (sourceKeys tree root glob) := by
  unfold scan
  simp only [h]

/-- A scan succeeds where every file that it looks at has an entry to have. -/
theorem scan_of_freshEntry {glob : Glob}
    (hkeys : ∀ key ∈ sourceKeys tree root glob, sourceKey root key = key)
    (hfresh : ∀ key ∈ sourceKeys tree root glob, ∃ content entry,
      tree.source? root key = some content ∧
        freshEntry extractor root key (some content) = some entry) :
    ∃ found, (cache.scan extractor tree root glob).result = .ok found :=
  scan_of_processAll_ok (processAll_of_freshEntry hkeys hfresh)

end SourceCache

/-! ## Which files a scan looks at -/

namespace FileTree

variable {tree : FileTree} {base : Place}

/-- A scan looks at the files below the root that lie in no ignored directory
and that the glob selects. -/
theorem mem_sourceKeys_of_resolve (h : tree.WellFormed) {root : Path}
    (hroot : tree.resolve root = .ok base) {glob : Glob} {key : Path} :
    key ∈ sourceKeys tree root glob ↔ ∃ names, key = Path.ofNames names ∧
      (tree.content? (base ++ names)).isSome ∧ isIgnored names = false ∧
      glob.selects (Path.ofNames names).text = true := by
  simp only [sourceKeys, hroot, List.mem_filterMap, List.mem_filter,
    mem_filesBelow h, Bool.not_eq_true', Option.ite_none_right_eq_some, Option.some.injEq]
  constructor
  · rintro ⟨names, ⟨hcontent, hignored⟩, hselects, rfl⟩
    exact ⟨names, rfl, hcontent, hignored, hselects⟩
  · rintro ⟨names, rfl, hcontent, hignored, hselects⟩
    exact ⟨names, ⟨hcontent, hignored⟩, hselects, rfl⟩

theorem mem_sourceKeys (h : tree.WellFormed) (hbase : tree.node? base ≠ none) {glob : Glob}
    {key : Path} :
    key ∈ sourceKeys tree (Path.ofPlace base) glob ↔ ∃ names, key = Path.ofNames names ∧
      (tree.content? (base ++ names)).isSome ∧ isIgnored names = false ∧
      glob.selects (Path.ofNames names).text = true :=
  mem_sourceKeys_of_resolve h (h.resolve_of_node hbase)

/-- The keys of the files that a scan looks at spell plain names. -/
theorem isName_of_mem_sourceKeys {tree : FileTree} (h : tree.WellFormed) {base : Place}
    (hbase : tree.node? base ≠ none) {glob : Glob} {key : Path}
    (hkey : key ∈ sourceKeys tree (Path.ofPlace base) glob) :
    ∃ names, (∀ name ∈ names, Path.IsName name) ∧ key = Path.ofNames names ∧
      (tree.content? (base ++ names)).isSome ∧ isIgnored names = false ∧
      glob.selects (Path.ofNames names).text = true := by
  obtain ⟨names, hsame, hcontent, hrest⟩ := (mem_sourceKeys h hbase).1 hkey
  obtain ⟨content, hsome⟩ := Option.isSome_iff_exists.1 hcontent
  refine ⟨names, fun name hname => ?_, hsame, hcontent, hrest⟩
  exact h.isName (by simp [content?_eq_some.1 hsome]) name (List.mem_append_right base hname)

/-- Below a root that spells plain names, plain names read the content of the
place that they lead to; no names ask for a directory. -/
theorem WellFormed.source?_ofNames (h : tree.WellFormed) (hbase : tree.node? base ≠ none)
    {names : List String} (hnames : ∀ name ∈ names, Path.IsName name) :
    tree.source? (Path.ofPlace base) (Path.ofNames names) =
      if names = [] then none else tree.content? (base ++ names) := by
  have hbaseNames := h.isName hbase
  unfold source?
  split
  · rename_i hne
    subst hne
    have hslash : ((Path.ofPlace base).join (Path.ofNames [])).text.toList.getLast? = some '/' := by
      rw [Path.text_join _ (Path.isAbsolute_ofNames hnames), Path.lead_ofPlace hbaseNames]
      rcases List.eq_nil_or_concat' base with rfl | ⟨front, last, rfl⟩
      · simp
      · exact List.getLast?_eq_some_iff.2
          ⟨'/' :: ((front.map String.toList).flatMap (· ++ ['/']) ++ last.toList), by simp⟩
    cases hread : tree.readBytes ((Path.ofPlace base).join (Path.ofNames [])) with
    | error e => rfl
    | ok content => exact absurd hread (readBytes_of_slash hslash content)
  · rename_i hne
    have hplace : ∀ name ∈ base ++ names, Path.IsName name := fun name hname =>
      (List.mem_append.1 hname).elim (hbaseNames name) (hnames name)
    rw [Path.join_ofNames hbaseNames hnames hne]
    ext content
    rw [← readBytes_ofPlace h hplace (by simp [hne])]
    cases tree.readBytes (Path.ofPlace (base ++ names)) <;> simp [Except.toOption]

end FileTree

/-- A scan looks at every source that can be read and lies in no ignored
directory. -/
theorem mem_sourceKeys_of_source? {tree : FileTree} (h : tree.WellFormed) {base : Place}
    (hbase : tree.node? base ≠ none) {glob : Glob} {names : List String}
    (hnames : ∀ name ∈ names, Path.IsName name) (hignored : isIgnored names = false)
    (hselects : glob.selects (Path.ofNames names).text = true) {content : ByteArray}
    (hcontent : tree.source? (Path.ofPlace base) (Path.ofNames names) = some content) :
    Path.ofNames names ∈ sourceKeys tree (Path.ofPlace base) glob := by
  rw [h.source?_ofNames hbase hnames] at hcontent
  split at hcontent
  · cases hcontent
  · exact (mem_sourceKeys h hbase).2 ⟨names, rfl, by simp [hcontent], hignored, hselects⟩

/-- Below a root that is a directory, what a scan looks at can be read. -/
theorem source?_of_mem_sourceKeys {tree : FileTree} (h : tree.WellFormed) {base : Place}
    (hbase : tree.node? base = some .directory) {glob : Glob} {key : Path}
    (hkey : key ∈ sourceKeys tree (Path.ofPlace base) glob) :
    ∃ content, tree.source? (Path.ofPlace base) key = some content := by
  have hnode : tree.node? base ≠ none := by simp [hbase]
  obtain ⟨names, hnames, rfl, hcontent, -⟩ := isName_of_mem_sourceKeys h hnode hkey
  have hne : names ≠ [] := by
    rintro rfl
    simp [content?_of_directory hbase] at hcontent
  rw [h.source?_ofNames hnode hnames, if_neg hne]
  exact Option.isSome_iff_exists.1 hcontent

/-- A path of plain names is its own key. -/
theorem sourceKey_ofNames {base names : List String} (hbase : ∀ name ∈ base, Path.IsName name)
    (hnames : ∀ name ∈ names, Path.IsName name) :
    sourceKey (Path.ofPlace base) (Path.ofNames names) = Path.ofNames names := by
  have hstarts : (Path.ofNames names).startsWith (Path.ofPlace base) = false := by
    rw [Path.startsWith, Path.components_of_spells (Path.spells_ofPlace base) hbase,
      Path.components_ofNames hnames]
    cases names <;> simp [List.isPrefixOf]
  rw [sourceKey, Path.stripPrefix?, hstarts]
  rfl

/-- Below a root that spells plain names, the keys of a scan are told apart by
their components and are their own keys. -/
theorem sourceKeys_distinct {tree : FileTree} (h : tree.WellFormed) {base : Place}
    (hbase : tree.node? base ≠ none) {glob : Glob} :
    (∀ key ∈ sourceKeys tree (Path.ofPlace base) glob, sourceKey (Path.ofPlace base) key = key) ∧
      ∀ key ∈ sourceKeys tree (Path.ofPlace base) glob,
        ∀ other ∈ sourceKeys tree (Path.ofPlace base) glob,
          key.components = other.components → key = other := by
  constructor
  · intro key hkey
    obtain ⟨names, hnames, rfl, -⟩ := isName_of_mem_sourceKeys h hbase hkey
    exact sourceKey_ofNames (h.isName hbase) hnames
  · intro key hkey other hother hsame
    obtain ⟨names, hnames, rfl, -⟩ := isName_of_mem_sourceKeys h hbase hkey
    obtain ⟨others, hothers, rfl, -⟩ := isName_of_mem_sourceKeys h hbase hother
    rw [Path.eq_of_components_ofNames hnames hothers hsame]

end OpManifest
