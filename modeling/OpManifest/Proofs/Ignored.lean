import OpManifest.Proofs.Run

/-!
# Files in ignored directories

A scan never looks into a directory like `node_modules`, but the change of a
file in one is taken in like any other.  So such a file has an entry exactly if
a change of it was told and compiled, and none told after that has dropped the
entry again.  `entry?_run` says this of every entry of every run.
-/

namespace OpManifest

open FileTree

/-- The component is the name of a directory that holds no sources. -/
def Path.Component.isIgnored : Path.Component → Bool
  | .name text => ignoredDirectories.contains text
  | _ => false

/-- One of the directories that the path leads through holds no sources. -/
def Path.liesInIgnored (p : Path) : Bool := p.components.dropLast.any Path.Component.isIgnored

theorem liesInIgnored_ofNames {names : List String} (hnames : ∀ name ∈ names, Path.IsName name) :
    (Path.ofNames names).liesInIgnored = isIgnored names := by
  rw [Path.liesInIgnored, Path.components_ofNames hnames, ← List.map_dropLast, List.any_map]
  rfl

theorem liesInIgnored_congr {key other : Path} (h : key.components = other.components) :
    key.liesInIgnored = other.liesInIgnored := by
  rw [Path.liesInIgnored, h, Path.liesInIgnored]

namespace World

/-- The event compiles a file that has the key. -/
def Compiles (world : World) (event : Event) (key : Path) : Prop :=
  ∃ file count, file.components = key.components ∧ world.Processes event file (.updated count)

/-- The event drops the entry of a file that has the key. -/
def Drops (world : World) (event : Event) (key : Path) : Prop :=
  ∃ file, file.components = key.components ∧ world.Processes event file .removed

/-- No event of a run drops the entry. -/
def NeverDrops (world : World) (events : List Event) (key : Path) : Prop :=
  ∀ front event rest, events = front ++ event :: rest → ¬(world.run front).Drops event key

/-! ## One event -/

variable {world : World} {event : Event} {key : Path}

theorem entry?_of_compiles (h : world.Compiles event key) :
    (world.step event).session.cache.entry? key ≠ none := by
  obtain ⟨file, count, hsame, hprocesses⟩ := h
  have hprocessed := processed_of_processes hprocesses
  generalize (world.step event).session.cache = after at hprocessed ⊢
  generalize hupdated : FileOutcome.updated count = outcome at hprocessed
  cases hprocessed with
  | skipped => cases hupdated
  | removed => cases hupdated
  | unchanged => cases hupdated
  | updated text entry htext hcompiled =>
    rw [SourceCache.entry?, SourceCache.entries_insert, if_pos hsame]
    simp

theorem entry?_of_drops (h : world.Drops event key) :
    (world.step event).session.cache.entry? key = none := by
  obtain ⟨file, hsame, hprocesses⟩ := h
  have hprocessed := processed_of_processes hprocesses
  generalize (world.step event).session.cache = after at hprocessed ⊢
  generalize hremoved : FileOutcome.removed = outcome at hprocessed
  cases hprocessed with
  | skipped => cases hremoved
  | removed => rw [SourceCache.entry?, SourceCache.entries_erase, if_pos hsame]
  | unchanged => cases hremoved
  | updated => cases hremoved

/-- An event that neither compiles the file nor drops its entry leaves the entry
as it is. -/
theorem entry?_of_neither (hcompiles : ¬world.Compiles event key)
    (hdrops : ¬world.Drops event key) :
    (world.step event).session.cache.entry? key = world.session.cache.entry? key := by
  by_cases hany : ∃ file outcome, world.Processes event file outcome
  · obtain ⟨file, outcome, hprocesses⟩ := hany
    have hprocessed := processed_of_processes hprocesses
    by_cases hsame : file.components = key.components
    · generalize hafter : (world.step event).session.cache = after at hprocessed ⊢
      cases hprocessed with
      | skipped => rfl
      | removed => exact absurd ⟨file, hsame, hprocesses⟩ hdrops
      | unchanged => rfl
      | updated => exact absurd ⟨file, _, hsame, hprocesses⟩ hcompiles
    · exact hprocessed.entries_of_ne hsame
  · rw [cache_of_not_processes fun file outcome h => hany ⟨file, outcome, h⟩]

/-- The entry is there after an event if the event compiled it, or if it was
there before and was not dropped. -/
theorem entry?_step :
    (world.step event).session.cache.entry? key ≠ none ↔ world.Compiles event key ∨
      world.session.cache.entry? key ≠ none ∧ ¬world.Drops event key := by
  by_cases hcompiles : world.Compiles event key
  · exact iff_of_true (entry?_of_compiles hcompiles) (.inl hcompiles)
  · by_cases hdrops : world.Drops event key
    · simp [entry?_of_drops hdrops, hcompiles, hdrops]
    · simp [entry?_of_neither hcompiles hdrops, hcompiles, hdrops]

/-! ## A run -/

theorem neverDrops_cons {events : List Event} :
    world.NeverDrops (event :: events) key ↔
      ¬world.Drops event key ∧ (world.step event).NeverDrops events key := by
  constructor
  · intro h
    refine ⟨h [] event events rfl, fun front other rest heq => ?_⟩
    exact h (event :: front) other rest (by rw [heq]; rfl)
  · rintro ⟨hfirst, hrest⟩ front other rest heq
    obtain ⟨rfl, h⟩ | ⟨front, rfl, rfl⟩ := List.cons_eq_append_iff.1 heq
    · obtain ⟨rfl, rfl⟩ := List.cons.inj h
      exact hfirst
    · exact hrest front other rest rfl

/-- The entry is there after a run if it was there before and was never dropped,
or if some event compiled it and none after that has dropped it. -/
theorem entry?_run (world : World) (events : List Event) (key : Path) :
    (world.run events).session.cache.entry? key ≠ none ↔
      (world.session.cache.entry? key ≠ none ∧ world.NeverDrops events key) ∨
      ∃ front event rest, events = front ++ event :: rest ∧ (world.run front).Compiles event key ∧
        ((world.run front).step event).NeverDrops rest key := by
  induction events generalizing world with
  | nil => simp [NeverDrops]
  | cons first events ih =>
    rw [run_cons, ih, entry?_step, neverDrops_cons]
    constructor
    · rintro (⟨hcompiles | ⟨hbefore, hdrops⟩, hnever⟩ |
        ⟨front, event, rest, rfl, hcompiles, hnever⟩)
      · exact .inr ⟨[], first, events, rfl, hcompiles, hnever⟩
      · exact .inl ⟨hbefore, hdrops, hnever⟩
      · exact .inr ⟨first :: front, event, rest, rfl, hcompiles, hnever⟩
    · rintro (⟨hbefore, hdrops, hnever⟩ | ⟨front, event, rest, heq, hcompiles, hnever⟩)
      · exact .inl ⟨.inr ⟨hbefore, hdrops⟩, hnever⟩
      · obtain ⟨rfl, h⟩ | ⟨front, rfl, rfl⟩ := List.cons_eq_append_iff.1 heq
        · obtain ⟨rfl, rfl⟩ := List.cons.inj h
          exact .inl ⟨.inl hcompiles, hnever⟩
        · exact .inr ⟨front, event, rest, rfl, hcompiles, hnever⟩

/-- A server that has just started has no entry for a file in an ignored
directory. -/
theorem StartedIn.not_liesInIgnored {tree : FileTree} {base : Place} (h : world.StartedIn tree base)
    (hentry : world.session.cache.entry? key ≠ none) : key.liesInIgnored = false := by
  obtain ⟨found, hfound⟩ := h.scanned
  rw [h.cache] at hentry
  have hmem := SourceCache.mem_keys_of_scan hfound hentry
  obtain ⟨other, hother, hsame⟩ := List.mem_map.1 hmem
  rw [h.root] at hother
  obtain ⟨names, hnames, rfl, -, hignored, -⟩ := isName_of_mem_sourceKeys h.before h.node hother
  rw [← liesInIgnored_congr hsame, liesInIgnored_ofNames hnames, hignored]

/-- **Ignored directories.**  However a server is run after its start, a file in
an ignored directory has an entry exactly if a change of it was told and
compiled, and no change of it that was told later has dropped the entry. -/
theorem ignored_entry_iff {options : SessionOptions} {tree : FileTree} {time : Nat}
    {session : Session} (hwell : tree.WellFormed)
    (hstart : (Session.start options tree time).result = .ok session)
    (hserve : session.context.command = .serve) (events : List Event) {key : Path}
    (hignored : key.liesInIgnored = true) :
    let world : World := ⟨session, (Session.start options tree time).tree⟩
    (world.run events).session.cache.entry? key ≠ none ↔
      ∃ front event rest, events = front ++ event :: rest ∧ (world.run front).Compiles event key ∧
        ((world.run front).step event).NeverDrops rest key := by
  intro world
  obtain ⟨base, hstarted⟩ := startedIn_of_start hwell hstart hserve
  have hnone : ¬world.session.cache.entry? key ≠ none := fun hentry => by
    simp [hstarted.not_liesInIgnored hentry] at hignored
  rw [entry?_run, or_iff_right fun h => hnone h.1]

/-- A project with one source, which lies in an ignored directory. -/
def ignoredProject : FileTree :=
  (({} : FileTree).saveFile ⟨"/p/toolgraph.toml"⟩ "name = \"x\"\n".toUTF8).saveFile
    ⟨"/p/src/node_modules/d.ts"⟩ "gql\x60query D { d }\x60".toUTF8

theorem wellFormed_ignoredProject : ignoredProject.WellFormed :=
  (saveFile_editedAt _ _ _).wellFormed ((saveFile_editedAt _ _ _).wellFormed wellFormed_empty)

/-- When its change is told, the source gets an entry, although it lies in an
ignored directory. -/
theorem ignored_entry_of_ignoredProject :
    ∃ session, (Session.start (Session.bareOptions .serve) ignoredProject 0).result = .ok session ∧
      session.cache.entry? ⟨"src/node_modules/d.ts"⟩ = none ∧
      ∃ front event rest,
        [Event.changed ⟨"src/node_modules/d.ts"⟩ 0] = front ++ event :: rest ∧
        (run ⟨session, (Session.start (Session.bareOptions .serve) ignoredProject 0).tree⟩
          front).Compiles event ⟨"src/node_modules/d.ts"⟩ := by
  have hfacts : (Session.start (Session.bareOptions .serve) ignoredProject 0).result.toOption.any
      (fun session => session.context.command = .serve ∧
        session.cache.entry? ⟨"src/node_modules/d.ts"⟩ = none ∧
        (run ⟨session, (Session.start (Session.bareOptions .serve) ignoredProject 0).tree⟩
          [.changed ⟨"src/node_modules/d.ts"⟩ 0]).session.cache.entry?
            ⟨"src/node_modules/d.ts"⟩ ≠ none) = true := by
    decide +kernel
  obtain ⟨session, hsession, hall⟩ := exists_ok_of_any hfacts
  obtain ⟨hserve, hnone, hentry⟩ := of_decide_eq_true hall
  obtain ⟨front, event, rest, heq, hcompiles, -⟩ :=
    (ignored_entry_iff wellFormed_ignoredProject hsession hserve _ (by decide +kernel)).1 hentry
  exact ⟨session, hsession, hnone, front, event, rest, heq, hcompiles⟩

end World

end OpManifest
