import Mathlib.Data.List.Infix
import OpManifest.Proofs.Glob
import OpManifest.Proofs.Run

/-!
# Incremental equals from scratch

A server brings its cache up to date one told change at a time.  The cache is
then the one that a scan of the files as they are now would leave, provided that
every change of a source was told, and processed, after the last time that the
source changed.

The proof carries two invariants along a run.  Every entry was compiled from a
text that the file has held (`Sound`), so that an entry whose hash is that of
the present text was compiled from it.  And once a file is synced it stays
synced as long as its content stays (`synced_run`).  So all sources are synced
at the end (`synced_of_told`), and then both caches have the same entries
(`cache_eq_scan`).
-/

namespace OpManifest

open FileTree

namespace World

/-! ## What is told of a file -/

/-- The text was read under the key by the first scan, or could have been read
there at some moment of the run. -/
def Held (world : World) (before : FileTree) (events : List Event) (key : Path) (text : String) :
    Prop :=
  before.sourceText? world.session.root key = some text ∨
    ∃ front, front <+: events ∧
      (world.run front).tree.sourceText? world.session.root key = some text

/-- The file has this content all along the run. -/
def Keeps (world : World) (events : List Event) (key : Path) (content : Option ByteArray) : Prop :=
  ∀ front, front <+: events → (world.run front).tree.source? world.session.root key = content

/-- Either the file stays as the first scan has found it, or a change of it was
told and processed with success, and the file stays as it was then. -/
def Told (world : World) (before : FileTree) (events : List Event) (key : Path) : Prop :=
  world.Keeps events key (before.source? world.session.root key) ∨
    ∃ front event rest outcome, events = front ++ event :: rest ∧
      (world.run front).Processes event key outcome ∧
      ((world.run front).step event).Keeps rest key
        ((world.run front).tree.source? world.session.root key)

/-- Two texts that the file held are told apart by their digests. -/
def Digested (world : World) (before : FileTree) (events : List Event) (key : Path) : Prop :=
  ∀ one two, world.Held before events key one → world.Held before events key two →
    Digest.blake3 one = Digest.blake3 two → one = two

theorem Held.mono {world : World} {before : FileTree} {front events : List Event} {key : Path}
    {text : String} (h : world.Held before front key text) (hfront : front <+: events) :
    world.Held before events key text := by
  obtain hfirst | ⟨early, hearly, htext⟩ := h
  · exact .inl hfirst
  · exact .inr ⟨early, hearly.trans hfront, htext⟩

theorem Digested.mono {world : World} {before : FileTree} {front events : List Event} {key : Path}
    (h : world.Digested before events key) (hfront : front <+: events) :
    world.Digested before front key :=
  fun one two hone htwo => h one two (hone.mono hfront) (htwo.mono hfront)

/-! ## Sound entries -/

/-- The key is that of plain names that the glob selects. -/
def IsSourceKey (glob : Glob) (key : Path) : Prop :=
  ∃ names, (∀ name ∈ names, Path.IsName name) ∧ key = Path.ofNames names ∧
    glob.selects key.text = true

theorem IsSourceKey.eq_of_components {glob : Glob} {key other : Path} (h : IsSourceKey glob key)
    (hother : IsSourceKey glob other) (hsame : key.components = other.components) :
    key = other := by
  obtain ⟨names, hnames, rfl, -⟩ := h
  obtain ⟨others, hothers, rfl, -⟩ := hother
  rw [Path.eq_of_components_ofNames hnames hothers hsame]

/-- Every entry was compiled from a text that its file held. -/
def Sound (world : World) (before : FileTree) (events : List Event) : Prop :=
  ∀ k entry, (world.run events).session.cache.entries[k]? = some entry →
    ∃ key text, IsSourceKey world.session.glob key ∧ key.components = k ∧
      world.Held before events key text ∧
      SourceCache.CompiledFrom world.session.extractor world.session.root key text entry

/-- The configuration stays all along the run, and every change is told with a
plain path. -/
structure PlainRun (world : World) (events : List Event) : Prop where
  config : ∀ front, front <+: events →
    (world.run front).session.config = world.session.config
  plain : ∀ path time, .changed path time ∈ events → path.IsPlain

theorem PlainRun.mono {world : World} {front events : List Event} (h : world.PlainRun events)
    (hfront : front <+: events) : world.PlainRun front :=
  ⟨fun early hearly => h.config early (hearly.trans hfront),
    fun path time hmem => h.plain path time (hfront.subset hmem)⟩

variable {world : World} {before : FileTree} {base : Place} {events : List Event}

theorem glob_run (hstarted : world.StartedIn before base) (hrun : world.PlainRun events) :
    (world.run events).session.glob = world.session.glob := by
  have hglob := run_globOfConfig events hstarted.glob
  rw [GlobOfConfig, hrun.config events (List.prefix_refl events)] at hglob
  exact Except.ok.inj (hglob.symm.trans hstarted.glob)

/-- All along a plain run only sources are processed. -/
theorem isSourceKey_of_processes (hstarted : world.StartedIn before base)
    {event : Event} (hrun : world.PlainRun (events ++ [event])) {key : Path} {outcome : FileOutcome}
    (h : (world.run events).Processes event key outcome) :
    IsSourceKey world.session.glob key := by
  have hfront := hrun.mono (List.prefix_append events [event])
  obtain ⟨names, hnames, hkey, hselects⟩ := h.plain (hstarted.wellFormed_run events)
    ((world.run_sameProject events).root.trans hstarted.root) (isName_base hstarted)
    fun path time hevent => hrun.plain path time (by simp [hevent])
  exact ⟨names, hnames, hkey, by rwa [glob_run hstarted hfront] at hselects⟩

/-- The first scan makes the cache synced with every file that it looks at. -/
theorem synced_of_startedIn (hstarted : world.StartedIn before base) {key : Path}
    (hkey : key ∈ sourceKeys before world.session.root world.session.glob) :
    SourceCache.Synced world.session.cache world.session.extractor world.session.root key
      (before.source? world.session.root key) := by
  obtain ⟨found, hfound⟩ := hstarted.scanned
  rw [hstarted.cache]
  rw [hstarted.root] at hkey hfound ⊢
  obtain ⟨hkeys, hinj⟩ := sourceKeys_distinct hstarted.before hstarted.node
  exact SourceCache.synced_of_scan hkeys hinj hkey hfound

theorem sound_start (hstarted : world.StartedIn before base) : world.Sound before [] := by
  intro k entry hentry
  rw [run_nil, hstarted.cache] at hentry
  obtain ⟨found, hfound⟩ := hstarted.scanned
  have hmem := SourceCache.mem_keys_of_scan (k := k) hfound (by rw [hentry]; simp)
  obtain ⟨key, hkey, rfl⟩ := List.mem_map.1 hmem
  have hsynced := synced_of_startedIn hstarted hkey
  rw [SourceCache.Synced, hstarted.cache, SourceCache.entry?, hentry] at hsynced
  obtain ⟨text, htext, hcompiled⟩ := SourceCache.compiledFrom_of_freshEntry hsynced
  rw [hstarted.root] at hkey
  obtain ⟨names, hnames, rfl, -, -, hselects⟩ :=
    isName_of_mem_sourceKeys hstarted.before hstarted.node hkey
  exact ⟨_, text, ⟨names, hnames, rfl, hselects⟩, rfl, .inl htext, hcompiled⟩

/-- Soundness is kept by every event: an entry that is written anew was compiled
from the text that is there at this moment. -/
theorem sound_step (hstarted : world.StartedIn before base) {event : Event}
    (hrun : world.PlainRun (events ++ [event])) (hsound : world.Sound before events) :
    world.Sound before (events ++ [event]) := by
  intro k entry hentry
  have hfront : events <+: events ++ [event] := List.prefix_append events [event]
  have hkept (hsame : (world.run events).session.cache.entries[k]? = some entry) :
      ∃ key text, IsSourceKey world.session.glob key ∧ key.components = k ∧
        world.Held before (events ++ [event]) key text ∧
        SourceCache.CompiledFrom world.session.extractor world.session.root key text entry := by
    obtain ⟨key, text, hkey, hk, hheld, hcompiled⟩ := hsound k entry hsame
    exact ⟨key, text, hkey, hk, hheld.mono hfront, hcompiled⟩
  rw [run_append, run_cons, run_nil] at hentry
  by_cases hany : ∃ key outcome, (world.run events).Processes event key outcome
  · obtain ⟨key, outcome, hprocesses⟩ := hany
    have hprocessed := processed_of_processes hprocesses
    by_cases hk : key.components = k
    · have hproject := world.run_sameProject events
      generalize ((world.run events).step event).session.cache = after at hentry hprocessed
      cases hprocessed with
      | skipped => exact hkept hentry
      | removed =>
        rw [SourceCache.entries_erase, if_pos hk] at hentry
        cases hentry
      | unchanged => exact hkept hentry
      | updated text fresh htext hcompiled =>
        rw [SourceCache.entries_insert, if_pos hk] at hentry
        obtain rfl := Option.some.inj hentry
        rw [hproject.root, hproject.extractor] at hcompiled
        rw [hproject.root] at htext
        exact ⟨key, text, isSourceKey_of_processes hstarted hrun hprocesses, hk,
          .inr ⟨events, hfront, htext⟩, hcompiled⟩
    · rw [hprocessed.entries_of_ne hk] at hentry
      exact hkept hentry
  · rw [cache_of_not_processes fun key outcome h => hany ⟨key, outcome, h⟩] at hentry
    exact hkept hentry

theorem sound_run (hstarted : world.StartedIn before base) (hrun : world.PlainRun events) :
    world.Sound before events := by
  induction events using List.reverseRecOn with
  | nil => exact sound_start hstarted
  | append_singleton events event ih =>
    exact sound_step hstarted hrun (ih (hrun.mono (List.prefix_append events [event])))

/-! ## Synced files -/

/-- The cache of the world is synced with the content under the key. -/
def SyncedWith (world : World) (key : Path) (content : Option ByteArray) : Prop :=
  SourceCache.Synced world.session.cache world.session.extractor world.session.root key content

/-- A file that is processed with success is synced. -/
theorem synced_of_processes (hstarted : world.StartedIn before base) {event : Event}
    (hrun : world.PlainRun (events ++ [event])) {key : Path} {outcome : FileOutcome}
    (hdigested : world.Digested before (events ++ [event]) key)
    (h : (world.run events).Processes event key outcome) :
    ((world.run events).step event).SyncedWith key
      ((world.run events).tree.source? world.session.root key) := by
  have hfront : events <+: events ++ [event] := List.prefix_append events [event]
  have hproject := world.run_sameProject events
  have hstep := (world.run events).step_sameProject event
  have hprocessed := processed_of_processes h
  rw [SyncedWith, hstep.extractor, hstep.root]
  rw [← hproject.root]
  refine hprocessed.synced fun entry hentry => ?_
  obtain ⟨other, old, hother, hsame, hheld, hcompiled⟩ :=
    sound_run hstarted (hrun.mono hfront) key.components entry hentry
  obtain rfl := hother.eq_of_components (isSourceKey_of_processes hstarted hrun h) hsame
  rw [← hproject.root, ← hproject.extractor] at hcompiled
  refine ⟨old, hcompiled, fun text htext hdigest => ?_⟩
  rw [hproject.root] at htext
  exact hdigested text old (.inr ⟨events, hfront, htext⟩) (hheld.mono hfront) hdigest

/-- A synced file stays synced through an event, if it has the content that it
is synced with. -/
theorem synced_step (hstarted : world.StartedIn before base) {event : Event}
    (hrun : world.PlainRun (events ++ [event])) {key : Path}
    (hkey : IsSourceKey world.session.glob key) {content : Option ByteArray}
    (hcontent : (world.run events).tree.source? (world.run events).session.root key = content)
    (hsynced : (world.run events).SyncedWith key content) :
    ((world.run events).step event).SyncedWith key content := by
  have hstep := (world.run events).step_sameProject event
  rw [SyncedWith, hstep.extractor, hstep.root]
  by_cases hany : ∃ other outcome, (world.run events).Processes event other outcome
  · obtain ⟨other, outcome, hprocesses⟩ := hany
    have hprocessed := processed_of_processes hprocesses
    by_cases hsame : other.components = key.components
    · obtain rfl := (isSourceKey_of_processes hstarted hrun hprocesses).eq_of_components hkey hsame
      subst hcontent
      exact hprocessed.synced_again hsynced
    · rw [SourceCache.Synced, SourceCache.entry?, hprocessed.entries_of_ne hsame]
      exact hsynced
  · rw [cache_of_not_processes fun other outcome h => hany ⟨other, outcome, h⟩]
    exact hsynced

/-- A synced file stays synced as long as its content stays. -/
theorem synced_run (hstarted : world.StartedIn before base) {front rest : List Event}
    (hrun : world.PlainRun (front ++ rest)) {key : Path}
    (hkey : IsSourceKey world.session.glob key) {content : Option ByteArray}
    (hkeeps : (world.run front).Keeps rest key content)
    (hsynced : (world.run front).SyncedWith key content) :
    (world.run (front ++ rest)).SyncedWith key content := by
  induction rest generalizing front with
  | nil => simpa using hsynced
  | cons event rest ih =>
    rw [List.append_cons] at hrun ⊢
    have hstep := hrun.mono (List.prefix_append (front ++ [event]) rest)
    have hnext : world.run (front ++ [event]) = (world.run front).step event := by
      rw [run_append, run_cons, run_nil]
    refine ih hrun ?_ ?_
    · intro early hearly
      have hcontent := hkeeps (event :: early) (List.cons_prefix_cons.2 ⟨rfl, hearly⟩)
      rw [run_cons] at hcontent
      rwa [hnext, ((world.run front).step_sameProject event).root]
    · rw [hnext]
      exact synced_step hstarted hstep hkey (hkeeps [] List.nil_prefix) hsynced

/-- After the first scan every source is synced, but for those that can be read
and lie in ignored directories. -/
theorem synced_start (hstarted : world.StartedIn before base) {names : List String}
    (hnames : ∀ name ∈ names, Path.IsName name)
    (hselects : world.session.glob.selects (Path.ofNames names).text = true)
    (hlooked : isIgnored names = false ∨
      before.source? world.session.root (Path.ofNames names) = none) :
    world.SyncedWith (Path.ofNames names)
      (before.source? world.session.root (Path.ofNames names)) := by
  by_cases hmem : Path.ofNames names ∈ sourceKeys before world.session.root world.session.glob
  · exact synced_of_startedIn hstarted hmem
  have hnone : before.source? world.session.root (Path.ofNames names) = none := by
    obtain hignored | hnone := hlooked
    · cases hcontent : before.source? world.session.root (Path.ofNames names) with
      | none => rfl
      | some content =>
        rw [hstarted.root] at hcontent hmem
        exact absurd (mem_sourceKeys_of_source? hstarted.before hstarted.node hnames hignored
          hselects hcontent) hmem
    · exact hnone
  have hentry : world.session.cache.entry? (Path.ofNames names) = none := by
    obtain ⟨found, hfound⟩ := hstarted.scanned
    rw [hstarted.cache]
    by_contra hentry
    obtain ⟨key, hkey, hsame⟩ := List.mem_map.1 (SourceCache.mem_keys_of_scan hfound hentry)
    rw [hstarted.root] at hkey hmem
    obtain ⟨others, hothers, rfl, -⟩ :=
      isName_of_mem_sourceKeys hstarted.before hstarted.node hkey
    obtain rfl := Path.eq_of_components_ofNames hothers hnames hsame
    exact hmem hkey
  rw [hnone, SyncedWith, SourceCache.Synced, hentry]
  rfl

/-- A source of which every change was told is synced with what can be read of
it at the end of the run. -/
theorem synced_of_told (hstarted : world.StartedIn before base) (hrun : world.PlainRun events)
    {names : List String} (hnames : ∀ name ∈ names, Path.IsName name)
    (hselects : world.session.glob.selects (Path.ofNames names).text = true)
    (htold : world.Told before events (Path.ofNames names))
    (hdigested : world.Digested before events (Path.ofNames names))
    (hignored : isIgnored names = true →
      (world.run events).tree.source? world.session.root (Path.ofNames names) = none) :
    (world.run events).SyncedWith (Path.ofNames names)
      ((world.run events).tree.source? world.session.root (Path.ofNames names)) := by
  have hkey : IsSourceKey world.session.glob (Path.ofNames names) := ⟨names, hnames, rfl, hselects⟩
  obtain hkeeps | ⟨front, event, rest, outcome, rfl, hprocesses, hkeeps⟩ := htold
  · -- the content is that of the first scan, and so is the entry
    have hlast := hkeeps events (List.prefix_refl events)
    have hlooked : isIgnored names = false ∨
        before.source? world.session.root (Path.ofNames names) = none := by
      cases hcase : isIgnored names with
      | false => exact .inl rfl
      | true => exact .inr (hlast.symm.trans (hignored hcase))
    have hall : world.PlainRun ([] ++ events) := hrun
    rw [hlast]
    exact synced_run hstarted hall hkey hkeeps (synced_start hstarted hnames hselects hlooked)
  · -- the file was synced when the change was processed
    rw [List.append_cons] at hrun hdigested ⊢
    have hstep := hrun.mono (List.prefix_append (front ++ [event]) rest)
    have hnext : world.run (front ++ [event]) = (world.run front).step event := by
      rw [run_append, run_cons, run_nil]
    have hsynced := synced_of_processes hstarted hstep
      (hdigested.mono (List.prefix_append (front ++ [event]) rest)) hprocesses
    rw [← hnext] at hkeeps hsynced
    have hlast := hkeeps rest (List.prefix_refl rest)
    rw [← run_append, (world.run_sameProject (front ++ [event])).root] at hlast
    rw [hlast]
    exact synced_run hstarted hrun hkey hkeeps hsynced

/-! ## A scan from scratch -/

/-- Every source is synced with what can be read of it at the end of the run. -/
def AllSynced (world : World) (events : List Event) : Prop :=
  ∀ names, (∀ name ∈ names, Path.IsName name) →
    world.session.glob.selects (Path.ofNames names).text = true →
    SourceCache.Synced (world.run events).session.cache world.session.extractor world.session.root
      (Path.ofNames names) ((world.run events).tree.source? world.session.root (Path.ofNames names))

/-- No source that can be read at the end of the run lies in an ignored
directory. -/
def NoneIgnored (world : World) (events : List Event) : Prop :=
  ∀ names, (∀ name ∈ names, Path.IsName name) →
    world.session.glob.selects (Path.ofNames names).text = true → isIgnored names = true →
    (world.run events).tree.source? world.session.root (Path.ofNames names) = none

/-- If every source is synced, then a scan from scratch succeeds. -/
theorem scan_succeeds (hstarted : world.StartedIn before base) (hsynced : world.AllSynced events) :
    ∃ found, (({} : SourceCache).scan world.session.extractor (world.run events).tree
      world.session.root world.session.glob).result = .ok found := by
  have hwell := hstarted.wellFormed_run events
  have hdirectory := hstarted.directory_run events
  have hnode : (world.run events).tree.node? base ≠ none := by simp [hdirectory]
  have hroot := hstarted.root
  refine SourceCache.scan_of_freshEntry ?_ fun key hkey => ?_
  · rw [hroot]
    exact (sourceKeys_distinct hwell hnode).1
  · rw [hroot] at hkey
    obtain ⟨content, hcontent⟩ := source?_of_mem_sourceKeys hwell hdirectory hkey
    obtain ⟨names, hnames, rfl, -, -, hselects⟩ := isName_of_mem_sourceKeys hwell hnode hkey
    have hentry := hsynced names hnames hselects
    rw [SourceCache.Synced, hroot, hcontent] at hentry
    rw [hroot]
    exact ⟨content, _, hcontent, hentry⟩

/-- What a scan from scratch looks at has the same entry in the cache of the run,
since both are synced with it. -/
theorem entry?_eq_scan (hstarted : world.StartedIn before base) (hsynced : world.AllSynced events)
    {key : Path} (hkey : key ∈ sourceKeys (world.run events).tree world.session.root
      world.session.glob) :
    (world.run events).session.cache.entry? key =
      (({} : SourceCache).scan world.session.extractor (world.run events).tree
        world.session.root world.session.glob).cache.entry? key := by
  obtain ⟨found, hfound⟩ := scan_succeeds hstarted hsynced
  have hwell := hstarted.wellFormed_run events
  have hnode : (world.run events).tree.node? base ≠ none := by
    simp [hstarted.directory_run events]
  rw [hstarted.root] at hkey hfound ⊢
  obtain ⟨hkeys, hinj⟩ := sourceKeys_distinct hwell hnode
  have hfresh := SourceCache.synced_of_scan hkeys hinj hkey hfound
  obtain ⟨names, hnames, rfl, -, -, hselects⟩ := isName_of_mem_sourceKeys hwell hnode hkey
  have hentry := hsynced names hnames hselects
  rw [hstarted.root] at hentry
  exact Option.some.inj (hentry.symm.trans hfresh)

/-- What has an entry can be read, and so a scan from scratch looks at it. -/
theorem mem_sourceKeys_of_entry (hstarted : world.StartedIn before base)
    (hsound : world.Sound before events) (hsynced : world.AllSynced events)
    (hignored : world.NoneIgnored events) {k : List Path.Component} {entry : CacheEntry}
    (hentry : (world.run events).session.cache.entries[k]? = some entry) :
    ∃ key ∈ sourceKeys (world.run events).tree world.session.root world.session.glob,
      key.components = k := by
  obtain ⟨_, text, ⟨names, hnames, rfl, hselects⟩, rfl, -, -⟩ := hsound k entry hentry
  refine ⟨_, ?_, rfl⟩
  have hsome := hsynced names hnames hselects
  rw [SourceCache.Synced, SourceCache.entry?, hentry] at hsome
  cases hcontent : (world.run events).tree.source? world.session.root (Path.ofNames names) with
  | none => simp [hcontent, SourceCache.freshEntry] at hsome
  | some content =>
    have hnot : isIgnored names = false := by
      cases hcase : isIgnored names with
      | false => rfl
      | true => simp [hignored names hnames hselects hcase] at hcontent
    have hnode : (world.run events).tree.node? base ≠ none := by
      simp [hstarted.directory_run events]
    rw [hstarted.root] at hcontent ⊢
    exact mem_sourceKeys_of_source? (hstarted.wellFormed_run events) hnode hnames hnot hselects
      hcontent

/-- If every entry is that of a source, every source is synced and none lies in
an ignored directory, then the cache is the one that a scan from scratch
leaves. -/
theorem cache_eq_scan (hstarted : world.StartedIn before base) (hsound : world.Sound before events)
    (hsynced : world.AllSynced events) (hignored : world.NoneIgnored events) :
    (world.run events).session.cache = (({} : SourceCache).scan world.session.extractor
      (world.run events).tree world.session.root world.session.glob).cache := by
  obtain ⟨found, hfound⟩ := scan_succeeds hstarted hsynced
  refine SourceCache.ext_entries fun k => ?_
  by_cases hmem : k ∈ (sourceKeys (world.run events).tree world.session.root
      world.session.glob).map Path.components
  · obtain ⟨key, hkey, rfl⟩ := List.mem_map.1 hmem
    exact entry?_eq_scan hstarted hsynced hkey
  · have hleft : (world.run events).session.cache.entries[k]? = none := by
      by_contra hentry
      obtain ⟨entry, hentry⟩ := Option.ne_none_iff_exists'.1 hentry
      obtain ⟨key, hkey, hsame⟩ := mem_sourceKeys_of_entry hstarted hsound hsynced hignored hentry
      exact hmem (List.mem_map.2 ⟨key, hkey, hsame⟩)
    have hright : (({} : SourceCache).scan world.session.extractor (world.run events).tree
        world.session.root world.session.glob).cache.entries[k]? = none := by
      by_contra hentry
      exact hmem (SourceCache.mem_keys_of_scan hfound hentry)
    rw [hleft, hright]

/-- **Incremental equals from scratch.**  A server is started and run, its
configuration stays, and every change is told with a plain path.  If every
change of a source was told, and processed with success, after the last time
that the source changed, and no source lies in an ignored directory, then the
cache is the one that a scan of the present files into an empty cache leaves. -/
theorem scan_of_run {options : SessionOptions} {tree : FileTree} {time : Nat} {session : Session}
    (hwell : tree.WellFormed) (hstart : (Session.start options tree time).result = .ok session)
    (hserve : session.context.command = .serve) (events : List Event)
    (hrun : PlainRun ⟨session, (Session.start options tree time).tree⟩ events)
    (htold : ∀ names, (∀ name ∈ names, Path.IsName name) →
      session.glob.selects (Path.ofNames names).text = true →
      Told ⟨session, (Session.start options tree time).tree⟩ tree events (Path.ofNames names))
    (hdigested : ∀ names, (∀ name ∈ names, Path.IsName name) →
      session.glob.selects (Path.ofNames names).text = true →
      Digested ⟨session, (Session.start options tree time).tree⟩ tree events (Path.ofNames names))
    (hignored : ∀ names, (∀ name ∈ names, Path.IsName name) →
      session.glob.selects (Path.ofNames names).text = true → isIgnored names = true →
      (run ⟨session, (Session.start options tree time).tree⟩ events).tree.source? session.root
        (Path.ofNames names) = none) :
    let last := run ⟨session, (Session.start options tree time).tree⟩ events
    let fresh := ({} : SourceCache).scan session.extractor last.tree session.root session.glob
    (∃ found, fresh.result = .ok found) ∧ last.session.cache = fresh.cache ∧
      last.session.cache.operations = fresh.cache.operations := by
  obtain ⟨base, hstarted⟩ := startedIn_of_start hwell hstart hserve
  have hsynced : AllSynced ⟨session, (Session.start options tree time).tree⟩ events := by
    intro names hnames hselects
    have htold := synced_of_told hstarted hrun hnames hselects (htold names hnames hselects)
      (hdigested names hnames hselects) (hignored names hnames hselects)
    have hproject := run_sameProject ⟨session, (Session.start options tree time).tree⟩ events
    rwa [SyncedWith, hproject.extractor, hproject.root] at htold
  have hcache := cache_eq_scan hstarted (sound_run hstarted hrun) hsynced hignored
  exact ⟨scan_succeeds hstarted hsynced, hcache, congrArg SourceCache.operations hcache⟩

/-! ## Projects with one source -/

/-- A project whose sources are the files that a pattern selects. -/
def projectWith (pattern : String) : FileTree :=
  ({} : FileTree).saveFile ⟨"/p/toolgraph.toml"⟩
    ("name = \"x\"\ninclude = \"" ++ pattern ++ "\"\n").toUTF8

/-- The text of a source with one operation. -/
def sampleText : String := "gql\x60query A { a }\x60"

/-- A server whose configuration asks for a literal pattern selects the path
that is spelled like it, and no other. -/
theorem selects_literal (hstarted : world.StartedIn before base) {pattern : String}
    (hliteral : pattern.toList.all Glob.isLiteral = true)
    (hpattern : world.session.config.sources = pattern) (path : String) :
    world.session.glob.selects path = true ↔ path = pattern := by
  obtain ⟨glob, hglob, hselects⟩ := Glob.ofPattern_literal hliteral
  have hsame := hstarted.glob
  rw [GlobOfConfig, hpattern, hglob] at hsame
  rw [← Except.ok.inj hsame]
  exact hselects path

/-- A source is written after the start, and told. -/
def sampleEvents : List Event :=
  [.saved ⟨"/p/a.ts"⟩ sampleText.toUTF8, .changed ⟨"a.ts"⟩ 0]

/-- The written source is in the cache that the theorem speaks of. -/
theorem scan_of_sampleEvents :
    ∃ session, (Session.start (Session.bareOptions .serve) (projectWith "a.ts") 0).result =
        .ok session ∧
      let last := run ⟨session, (Session.start (Session.bareOptions .serve)
        (projectWith "a.ts") 0).tree⟩ sampleEvents
      last.session.cache.operations ≠ [] ∧
        last.session.cache = (({} : SourceCache).scan session.extractor last.tree session.root
          session.glob).cache := by
  have hfacts : (Session.start (Session.bareOptions .serve)
      (projectWith "a.ts") 0).result.toOption.any (fun session =>
        let world : World :=
          ⟨session, (Session.start (Session.bareOptions .serve) (projectWith "a.ts") 0).tree⟩
        let saved := world.run (sampleEvents.take 1)
        session.context.command = .serve ∧ session.config.sources = "a.ts" ∧
          (∀ front ∈ sampleEvents.inits, (world.run front).session.config = session.config) ∧
          (projectWith "a.ts").sourceText? session.root ⟨"a.ts"⟩ = none ∧
          (∀ front ∈ sampleEvents.inits,
            (world.run front).tree.sourceText? session.root ⟨"a.ts"⟩ ∈ [none, some sampleText]) ∧
          saved.session.context.command = .serve ∧
          saved.session.subject saved.tree ⟨"a.ts"⟩ = .source ⟨"a.ts"⟩ ∧
          sourceKey saved.session.root ⟨"a.ts"⟩ = ⟨"a.ts"⟩ ∧
          (saved.session.cache.process saved.session.extractor saved.tree saved.session.root
            ⟨"a.ts"⟩).result.toOption.any (· = .updated 1) = true ∧
          (world.run sampleEvents).tree.source? (world.run sampleEvents).session.root ⟨"a.ts"⟩ =
            saved.tree.source? session.root ⟨"a.ts"⟩ ∧
          (world.run sampleEvents).session.cache.operations ≠ []) = true := by
    decide +kernel
  obtain ⟨session, hsession, hall⟩ := exists_ok_of_any hfacts
  obtain ⟨hserve, hpattern, hconfig, hbefore, htexts, hserving, hsubject, hkey, hresult, hkeeps,
    hsome⟩ := of_decide_eq_true hall
  have hwell : (projectWith "a.ts").WellFormed :=
    (saveFile_editedAt _ _ _).wellFormed wellFormed_empty
  obtain ⟨base, hstarted⟩ := startedIn_of_start hwell hsession hserve
  obtain ⟨outcome, houtcome, -⟩ := exists_ok_of_any hresult
  -- the only source is the one that was told
  have honly {names : List String} (hnames : ∀ name ∈ names, Path.IsName name)
      (hselects : session.glob.selects (Path.ofNames names).text = true) : names = ["a.ts"] := by
    have htext := (selects_literal hstarted (by decide) hpattern _).1 hselects
    exact Path.eq_of_components_ofNames hnames (by decide)
      (congrArg Path.components (Path.ext_text (congrArg String.toList htext)))
  have hheld {text : String} (h : Held ⟨session, (Session.start (Session.bareOptions .serve)
      (projectWith "a.ts") 0).tree⟩ (projectWith "a.ts") sampleEvents ⟨"a.ts"⟩ text) :
      text = sampleText := by
    obtain hfirst | ⟨front, hfront, htext⟩ := h
    · exact absurd (hfirst.symm.trans hbefore) (by simp)
    · have hmem := htexts front ((List.mem_inits _ _).2 hfront)
      rw [htext] at hmem
      simpa using hmem
  have hscan := scan_of_run hwell hsession hserve sampleEvents
    ⟨fun front hfront => hconfig front ((List.mem_inits _ _).2 hfront), ?_⟩ ?_ ?_ ?_
  · exact ⟨session, hsession, hsome, hscan.2.1⟩
  · intro path time hmem
    obtain ⟨rfl, rfl⟩ : path = ⟨"a.ts"⟩ ∧ time = 0 := by simpa [sampleEvents] using hmem
    decide
  · intro names hnames hselects
    obtain rfl := honly hnames hselects
    refine .inr ⟨sampleEvents.take 1, .changed ⟨"a.ts"⟩ 0, [], outcome, rfl,
      ⟨_, _, _, rfl, hserving, hsubject, hkey, houtcome⟩, ?_⟩
    intro front hfront
    rw [List.prefix_nil.1 hfront]
    exact hkeeps
  · intro names hnames hselects one two hone htwo _
    obtain rfl := honly hnames hselects
    rw [hheld hone, hheld htwo]
  · intro names hnames hselects hignored
    obtain rfl := honly hnames hselects
    exact absurd hignored (by decide)

/-- A project that asks for a file with two slashes in its path. -/
def doubledProject : FileTree :=
  (projectWith "src//a.ts").saveFile ⟨"/p/src/a.ts"⟩ sampleText.toUTF8

/-- With two slashes in a path this fails: the glob may select the path as it was
told, but not as a scan spells it. -/
theorem not_scan_of_run_of_doubled_slash :
    ¬∀ (options : SessionOptions) (tree : FileTree) (time : Nat) (session : Session)
      (events : List Event), tree.WellFormed →
      (Session.start options tree time).result = .ok session →
      session.context.command = .serve →
      (∀ front, front <+: events →
        (run ⟨session, (Session.start options tree time).tree⟩ front).session.config =
          session.config) →
      (∀ path time, .changed path time ∈ events → path.IsDotless) →
      (∀ names, (∀ name ∈ names, Path.IsName name) →
        session.glob.selects (Path.ofNames names).text = true →
        Told ⟨session, (Session.start options tree time).tree⟩ tree events (Path.ofNames names) ∧
        Digested ⟨session, (Session.start options tree time).tree⟩ tree events
          (Path.ofNames names) ∧
        isIgnored names = false ∧ names.getLast? ≠ some manifestFileName) →
      (run ⟨session, (Session.start options tree time).tree⟩ events).session.cache.operations =
        (({} : SourceCache).scan session.extractor
          (run ⟨session, (Session.start options tree time).tree⟩ events).tree session.root
          session.glob).cache.operations := by
  intro hclaim
  have hfacts : (Session.start (Session.bareOptions .serve) doubledProject 0).result.toOption.any
      (fun session =>
        let world : World :=
          ⟨session, (Session.start (Session.bareOptions .serve) doubledProject 0).tree⟩
        let last := world.run [.changed ⟨"src//a.ts"⟩ 0]
        session.context.command = .serve ∧ session.config.sources = "src//a.ts" ∧
          (∀ front ∈ List.inits [Event.changed ⟨"src//a.ts"⟩ 0],
            (world.run front).session.config = session.config) ∧
          last.session.cache.operations ≠ (({} : SourceCache).scan session.extractor last.tree
            session.root session.glob).cache.operations) = true := by
    decide +kernel
  obtain ⟨session, hsession, hall⟩ := exists_ok_of_any hfacts
  obtain ⟨hserve, hpattern, hconfig, hdiffers⟩ := of_decide_eq_true hall
  have hwell : doubledProject.WellFormed :=
    (saveFile_editedAt _ _ _).wellFormed ((saveFile_editedAt _ _ _).wellFormed wellFormed_empty)
  obtain ⟨base, hstarted⟩ := startedIn_of_start hwell hsession hserve
  refine hdiffers (hclaim _ doubledProject 0 session _ hwell hsession hserve
    (fun front hfront => hconfig front ((List.mem_inits _ _).2 hfront)) ?_ ?_)
  · intro path time hmem
    obtain ⟨rfl, rfl⟩ : path = ⟨"src//a.ts"⟩ ∧ time = 0 := by simpa using hmem
    decide
  · -- names are spelled with one slash between them, so no file is a source
    intro names hnames hselects
    have htext := (selects_literal hstarted (by decide) hpattern _).1 hselects
    have hsame : names = ["src", "a.ts"] := by
      refine Path.eq_of_components_ofNames hnames (by decide) ?_
      rw [Path.ext_text (congrArg String.toList htext) (q := ⟨"src//a.ts"⟩)]
      decide +kernel
    rw [hsame] at htext
    exact absurd htext (by decide)

end World

end OpManifest
