import OpManifest.Proofs.Component
import OpManifest.Proofs.Ignored

/-!
# Keys of source files

Under which keys the files of a project are cached.  A change that is told with a
path below the root is cached under the rest of this path as it stands, so a
path that goes down and up again makes a second key for a file.  Nothing else
does: of two keys of one file, one goes up, and it was told like that
(`keys_of_one_file`).
-/

namespace OpManifest

open FileTree

/-! ## Trimmed keys -/

/-- A trimmed path is its own key. -/
theorem sourceKey_of_trimmed {base : List String} (hbase : ∀ name ∈ base, Path.IsName name)
    {file : Path} (h : file.Trimmed) : sourceKey (Path.ofPlace base) file = file := by
  have hroot := Path.components_of_spells (Path.spells_ofPlace base) hbase
  have hstarts : file.startsWith (Path.ofPlace base) = false := by
    by_contra hstarts
    have hprefix : (Path.ofPlace base).components <+: file.components := by
      simpa [Path.startsWith] using hstarts
    obtain ⟨rest, hrest⟩ := hprefix
    rw [hroot, List.cons_append] at hrest
    have habsolute := Path.isAbsolute_of_components hrest.symm
    rw [h.isAbsolute] at habsolute
    cases habsolute
  rw [sourceKey, Path.stripPrefix?, hstarts]
  rfl

namespace World

/-- What a change tells of a source: the path as it was told lies below the root
and is cut behind it, or the key is spelled by plain names. -/
theorem trimmed_of_subject {session : Session} {tree : FileTree} {path file : Path} {base : Place}
    (hwell : tree.WellFormed) (hroot : session.root = Path.ofPlace base)
    (hbase : ∀ name ∈ base, Path.IsName name) (h : session.subject tree path = .source file) :
    file.Trimmed ∧
      ((session.root.join path).components = session.root.components ++ file.components ∨
        ∃ names : List String, (∀ name ∈ names, Path.IsName name) ∧
          file.components = names.map Path.Component.name) := by
  obtain ⟨hstrip, -⟩ := Session.source_of_subject h
  rw [hroot] at hstrip
  obtain ⟨hcomponents, htrimmed⟩ := Path.components_of_stripPrefix? hbase hstrip
  refine ⟨htrimmed, ?_⟩
  obtain htold | ⟨_, name, directory, -, -, -, hplace, hlocated⟩ := session.locate_cases hwell path
  · left
    rw [← htold, hcomponents, hroot]
  · right
    rw [hlocated, Path.stripPrefix?_of_spells (Path.spells_ofPlace _) hbase hplace] at hstrip
    split at hstrip
    · have hnames : ∀ other ∈ (directory ++ [name]).drop base.length, Path.IsName other :=
        fun other hother => hplace other (List.mem_of_mem_drop hother)
      refine ⟨(directory ++ [name]).drop base.length, hnames, ?_⟩
      rw [← Option.some.inj hstrip, Path.components_ofNames hnames]
    · cases hstrip

/-! ## Keys after a run -/

/-- The components of a key: none is the root or a dot. -/
structure IsKey (key : Path) : Prop where
  root : .root ∉ key.components
  here : .here ∉ key.components

theorem IsKey.congr {key other : Path} (h : IsKey key) (hsame : key.components = other.components) :
    IsKey other :=
  ⟨hsame ▸ h.root, hsame ▸ h.here⟩

theorem IsKey.isAbsolute {key : Path} (h : IsKey key) : key.isAbsolute = false := by
  by_contra habsolute
  have htrue : key.isAbsolute = true := by simpa using habsolute
  apply h.root
  rw [Path.components_of_isAbsolute htrue]
  exact List.mem_cons_self

theorem IsKey.components {key : Path} (h : IsKey key) :
    key.components = key.moves.map Path.Component.ofName :=
  Path.components_of_relative h.isAbsolute h.here

theorem isKey_of_names {key : Path} {names : List String}
    (h : key.components = names.map Path.Component.name) : IsKey key := by
  constructor <;> simp [h]

theorem isKey_of_trimmed {key : Path} (h : key.Trimmed) : IsKey key := by
  have hmoves : ∀ component ∈ key.components, component = .up ∨ ∃ name, component = .name name := by
    intro component hcomponent
    rw [h.components] at hcomponent
    obtain ⟨name, hname, rfl⟩ := List.mem_map.1 hcomponent
    obtain rfl | hplain := Path.eq_up_or_isName_of_mem_moves hname
    · exact .inl (by decide)
    · exact .inr ⟨name, Path.ofName_of_isName hplain⟩
  constructor
  · intro hroot
    simpa using hmoves _ hroot
  · intro hhere
    simpa using hmoves _ hhere

variable {world : World} {before : FileTree} {base : Place}

/-- What has an entry after a run has a key that is spelled by plain names, or a
change was told with a path that has this key below the root. -/
theorem StartedIn.key_cases (h : world.StartedIn before base) (events : List Event) {key : Path}
    (hentry : (world.run events).session.cache.entry? key ≠ none) :
    IsKey key ∧
      ((∃ names : List String, (∀ name ∈ names, Path.IsName name) ∧
          key.components = names.map Path.Component.name) ∨
        ∃ path time, .changed path time ∈ events ∧
          (world.session.root.join path).components =
            world.session.root.components ++ key.components) := by
  have hbase := isName_base h
  obtain ⟨hfirst, -⟩ | ⟨front, event, rest, rfl, ⟨file, count, hsame, hprocesses⟩, -⟩ :=
    (entry?_run world events key).1 hentry
  · obtain ⟨found, hfound⟩ := h.scanned
    rw [h.cache] at hfirst
    obtain ⟨other, hother, hsame⟩ := List.mem_map.1 (SourceCache.mem_keys_of_scan hfound hfirst)
    rw [h.root] at hother
    obtain ⟨names, hnames, rfl, -⟩ := isName_of_mem_sourceKeys h.before h.node hother
    have hcomponents : key.components = names.map Path.Component.name := by
      rw [← hsame, Path.components_ofNames hnames]
    exact ⟨isKey_of_names hcomponents, .inl ⟨names, hnames, hcomponents⟩⟩
  · obtain ⟨path, time, told, rfl, -, hsubject, hkey, -⟩ := hprocesses
    have hproject := world.run_sameProject front
    have hroot : (world.run front).session.root = Path.ofPlace base := by
      rw [hproject.root, h.root]
    obtain ⟨htrimmed, hcases⟩ := trimmed_of_subject (h.wellFormed_run front) hroot hbase hsubject
    rw [hroot, sourceKey_of_trimmed hbase htrimmed] at hkey
    subst hkey
    rw [hproject.root, hsame] at hcases
    refine ⟨(isKey_of_trimmed htrimmed).congr hsame, ?_⟩
    obtain htold | hnames := hcases
    · exact .inr ⟨path, time, by simp, htold⟩
    · exact .inl hnames

/-- A key that does not go up leads to the place below the root that it
spells. -/
theorem target_join {key : Path} (hkey : IsKey key) (hbase : ∀ name ∈ base, Path.IsName name)
    (hup : .up ∉ key.components) :
    ((Path.ofPlace base).join key).target = base ++ key.moves ∧
      key.components = key.moves.map Path.Component.name := by
  have hplain : ∀ name ∈ key.moves, Path.IsName name := by
    intro name hname
    obtain rfl | hplain := Path.eq_up_or_isName_of_mem_moves hname
    · refine absurd ?_ hup
      rw [hkey.components]
      exact List.mem_map.2 ⟨"..", hname, by decide⟩
    · exact hplain
  have hmoves : key.moves.map Path.Component.ofName = key.moves.map Path.Component.name :=
    List.map_congr_left fun name hname => Path.ofName_of_isName (hplain name hname)
  have hwalk (names : List String) (place : Place) :
      (names.map Path.Component.name).foldl Path.Component.walk place = place ++ names := by
    induction names generalizing place with
    | nil => simp
    | cons name names ih => simp [Path.Component.walk, ih]
  constructor
  · rw [Path.target, Path.components_join hkey.isAbsolute hbase, hmoves,
      Path.components_of_spells (Path.spells_ofPlace base) hbase, List.cons_append,
      ← List.map_append, List.foldl_cons, hwalk]
    rfl
  · rw [hkey.components, hmoves]

/-- **One file, one key.**  However a server is run after its start, if two keys
in its cache lead to the same place, then they have the same components, or one
of them goes up.  A key that goes up was told like that: some change was told
with a path that has this key below the root. -/
theorem keys_of_one_file {options : SessionOptions} {tree : FileTree} {time : Nat}
    {session : Session} (hwell : tree.WellFormed)
    (hstart : (Session.start options tree time).result = .ok session)
    (hserve : session.context.command = .serve) (events : List Event) {a b : Path} {place : Place} :
    let last := run ⟨session, (Session.start options tree time).tree⟩ events
    last.session.cache.entry? a ≠ none → last.session.cache.entry? b ≠ none →
    last.tree.resolve (session.root.join a) = .ok place →
    last.tree.resolve (session.root.join b) = .ok place →
    a.components = b.components ∨ ∃ key ∈ [a, b], .up ∈ key.components ∧
      ∃ path time, .changed path time ∈ events ∧
        (session.root.join path).components = session.root.components ++ key.components := by
  intro last ha hb haplace hbplace
  obtain ⟨base, hstarted⟩ := startedIn_of_start hwell hstart hserve
  have hbase := isName_base hstarted
  have hroot : session.root = Path.ofPlace base := hstarted.root
  have htold {key : Path} (hentry : last.session.cache.entry? key ≠ none)
      (hup : .up ∈ key.components) : ∃ path time, .changed path time ∈ events ∧
        (session.root.join path).components = session.root.components ++ key.components := by
    obtain ⟨-, ⟨names, -, hnames⟩ | htold⟩ := hstarted.key_cases events hentry
    · simp [hnames] at hup
    · exact htold
  by_cases haup : .up ∈ a.components
  · exact .inr ⟨a, by simp, haup, htold ha haup⟩
  by_cases hbup : .up ∈ b.components
  · exact .inr ⟨b, by simp, hbup, htold hb hbup⟩
  -- both keys spell the place below the root
  left
  have hplace {key : Path} (hkey : IsKey key)
      (h : last.tree.resolve (session.root.join key) = .ok place) :
      place = (session.root.join key).target := by
    rw [hroot] at h ⊢
    exact resolve_eq_target (Path.isAbsolute_join_place hkey.isAbsolute hbase) h
  have hakey := (hstarted.key_cases events ha).1
  have hbkey := (hstarted.key_cases events hb).1
  obtain ⟨hatarget, hamoves⟩ := target_join hakey hbase haup
  obtain ⟨hbtarget, hbmoves⟩ := target_join hbkey hbase hbup
  have hsame : base ++ a.moves = base ++ b.moves := by
    rw [← hatarget, ← hbtarget, ← hroot, ← hplace hakey haplace, ← hplace hbkey hbplace]
  rw [hamoves, hbmoves, List.append_cancel_left hsame]

/-- A project with one source. -/
def sourceProject : FileTree :=
  (({} : FileTree).saveFile ⟨"/p/toolgraph.toml"⟩ "name = \"x\"\n".toUTF8).saveFile
    ⟨"/p/src/a.ts"⟩ "gql\x60query A { a }\x60".toUTF8

theorem wellFormed_sourceProject : sourceProject.WellFormed :=
  (saveFile_editedAt _ _ _).wellFormed ((saveFile_editedAt _ _ _).wellFormed wellFormed_empty)

/-- A source that is told with a path that goes down and up again is cached and
published twice. -/
theorem keys_of_one_file_in_sourceProject :
    ∃ session, (Session.start (Session.bareOptions .serve) sourceProject 0).result = .ok session ∧
      let last := run ⟨session, (Session.start (Session.bareOptions .serve) sourceProject 0).tree⟩
        [.changed ⟨"src/../src/a.ts"⟩ 0]
      last.session.cache.entry? ⟨"src/a.ts"⟩ ≠ none ∧
        last.session.cache.entry? ⟨"src/../src/a.ts"⟩ ≠ none ∧
        (last.session.manifest.map fun manifest => manifest.operations.map (·.name)) =
          some ["A", "A"] ∧
        ∃ path time, .changed path time ∈ [Event.changed ⟨"src/../src/a.ts"⟩ 0] ∧
          (session.root.join path).components =
            session.root.components ++ Path.components ⟨"src/../src/a.ts"⟩ := by
  have hfacts : (Session.start (Session.bareOptions .serve) sourceProject 0).result.toOption.any
      (fun session =>
        let last := run ⟨session,
          (Session.start (Session.bareOptions .serve) sourceProject 0).tree⟩
            [.changed ⟨"src/../src/a.ts"⟩ 0]
        session.context.command = .serve ∧
        last.session.cache.entry? ⟨"src/a.ts"⟩ ≠ none ∧
        last.session.cache.entry? ⟨"src/../src/a.ts"⟩ ≠ none ∧
        (last.session.manifest.map fun manifest => manifest.operations.map (·.name)) =
          some ["A", "A"] ∧
        (last.tree.resolve (session.root.join ⟨"src/a.ts"⟩)).toOption =
          some ["p", "src", "a.ts"] ∧
        (last.tree.resolve (session.root.join ⟨"src/../src/a.ts"⟩)).toOption =
          some ["p", "src", "a.ts"]) = true := by
    decide +kernel
  obtain ⟨session, hsession, hall⟩ := exists_ok_of_any hfacts
  obtain ⟨hserve, hplain, hdetour, hnames, hplainPlace, hdetourPlace⟩ := of_decide_eq_true hall
  refine ⟨session, hsession, hplain, hdetour, hnames, ?_⟩
  obtain hsame | ⟨key, hkey, hup, htold⟩ :=
    keys_of_one_file wellFormed_sourceProject hsession hserve _ hplain hdetour
      (eq_ok_of_toOption hplainPlace) (eq_ok_of_toOption hdetourPlace)
  · exact absurd hsame (by decide)
  · have hwhich : key = ⟨"src/../src/a.ts"⟩ := by
      obtain rfl | rfl : key = ⟨"src/a.ts"⟩ ∨ key = ⟨"src/../src/a.ts"⟩ := by simpa using hkey
      · exact absurd hup (by decide)
      · rfl
    rwa [hwhich] at htold

end World

end OpManifest
