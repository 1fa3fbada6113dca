import OpManifest.Proofs.Component
import OpManifest.Proofs.Scan

/-!
# Spellings

One file below an absolute root can be told in many spellings.  What a spelling
joins to the root depends on its components alone (`components_join_congr`), and
so do the documents that are extracted from its text
(`Script.extract_respectsPaths`).  A walk spells each file once, by its names, and
answers the files in the order of their paths (`pairwise_sourceKeys`).
-/

namespace OpManifest

/-! ## The order of lists -/

/-- Lists that begin alike are in the order of what follows. -/
theorem compare_append_left {α : Type} [Ord α] [Std.ReflOrd α] (front a b : List α) :
    compare (front ++ a) (front ++ b) = compare a b := by
  induction front with
  | nil => rfl
  | cons x front ih =>
    rw [List.cons_append, List.cons_append, List.compare_eq_compareLex,
      List.compareLex_cons_cons, Std.ReflOrd.compare_self, ← List.compare_eq_compareLex, ih]
    rfl

theorem lex_of_compare {α : Type} [Ord α] [Std.LawfulEqOrd α] {a b : List α}
    (h : compare a b = .lt) : List.Lex (fun x y => compare x y = .lt) a b := by
  induction a generalizing b with
  | nil =>
    cases b with
    | nil => cases h
    | cons y b => exact .nil
  | cons x a ih =>
    cases b with
    | nil => cases h
    | cons y b =>
      rw [List.compare_eq_compareLex, List.compareLex_cons_cons] at h
      obtain hlt | ⟨hsame, hlt⟩ := Ordering.then_eq_lt.1 h
      · exact .rel hlt
      · rw [Std.LawfulEqOrd.eq_of_compare hsame]
        exact .cons (ih hlt)

/-- Lists whose items are put in the same order are in the same order. -/
theorem compare_map_of_lex {α β : Type} [Ord β] [Std.ReflOrd β] {r : α → α → Prop} {f : α → β}
    (hf : ∀ x y, r x y → compare (f x) (f y) = .lt) {a b : List α} (h : List.Lex r a b) :
    compare (a.map f) (b.map f) = .lt := by
  induction h with
  | nil => rfl
  | cons h ih =>
    rw [List.map_cons, List.map_cons, List.compare_eq_compareLex, List.compareLex_cons_cons,
      Std.ReflOrd.compare_self, ← List.compare_eq_compareLex, ih]
    rfl
  | rel h =>
    rw [List.map_cons, List.map_cons, List.compare_eq_compareLex, List.compareLex_cons_cons,
      hf _ _ h]
    rfl

namespace Path

theorem Component.compare_name {a b : String} (h : compare a b = .lt) :
    compare (Component.name a) (Component.name b) = .lt := by
  have hlt : a < b := compareOfLessAndEq_eq_lt.1 h
  exact compare_map_of_lex (fun x y hxy => compare_lt_iff_lt.2 hxy) (String.lt_iff.1 hlt)

/-- Paths that spell names are in the order of the names. -/
theorem compare_components_ofNames {names others : List String}
    (hnames : ∀ name ∈ names, IsName name) (hothers : ∀ name ∈ others, IsName name)
    (h : compare names others = .lt) :
    compare (ofNames names).components (ofNames others).components = .lt := by
  rw [components_ofNames hnames, components_ofNames hothers]
  exact compare_map_of_lex (fun _ _ hlt => Component.compare_name hlt) (lex_of_compare h)

theorem isAbsolute_eq_of_components {p q : Path} (h : p.components = q.components) :
    p.isAbsolute = q.isAbsolute := by
  have hle {a b : Path} (h : a.components = b.components) (ha : a.isAbsolute = true) :
      b.isAbsolute = true := by
    rw [components_of_isAbsolute ha] at h
    exact isAbsolute_of_components h.symm
  rw [Bool.eq_iff_iff]
  exact ⟨hle h, hle h.symm⟩

/-- The moves of a relative path are its components but for a dot in front. -/
theorem filter_components {p : Path} (h : p.isAbsolute = false) :
    p.components.filter (· ≠ .here) = p.moves.map Component.ofName := by
  obtain ⟨piece, rest, hsplit⟩ := Text.exists_cons_split '/' p.text.toList
  have hmoves : ∀ c ∈ p.moves.map Component.ofName, c ≠ .here := by
    intro c hc
    obtain ⟨name, hname, rfl⟩ := List.mem_map.1 hc
    have hdot : name ≠ "." := by simpa using (List.mem_filter.1 hname).2
    unfold Component.ofName
    rw [if_neg hdot]
    split <;> simp
  have hkept : (p.moves.map Component.ofName).filter (· ≠ .here) = p.moves.map Component.ofName :=
    List.filter_eq_self.2 fun c hc => by simpa using hmoves c hc
  rw [components_of_split h hsplit, List.filter_append, hkept]
  split <;> simp

theorem moves_eq_of_components {p q : Path} (hp : p.isAbsolute = false)
    (h : p.components = q.components) : p.moves = q.moves := by
  have hq : q.isAbsolute = false := isAbsolute_eq_of_components h ▸ hp
  apply List.map_injective_iff.2 ofName_injective
  rw [← filter_components hp, ← filter_components hq, h]

theorem isAbsolute_join_of_isAbsolute {root : Path} (hroot : root.isAbsolute = true) (p : Path) :
    (root.join p).isAbsolute = true := by
  by_cases hp : p.isAbsolute = true
  · rwa [join, if_pos hp]
  · have hslash : root.text.toList.head? = some '/' := by simpa [isAbsolute] using hroot
    obtain ⟨rest, htext⟩ := List.head?_eq_some_iff.1 hslash
    rw [isAbsolute, text_join root (by simpa using hp), lead]
    split <;> simp [htext]

/-- What two spellings with the same components join to an absolute root has the
same components. -/
theorem components_join_congr {root p q : Path} (hroot : root.isAbsolute = true)
    (h : p.components = q.components) : (root.join p).components = (root.join q).components := by
  have habsolute := isAbsolute_eq_of_components h
  by_cases hp : p.isAbsolute = true
  · rw [join, if_pos hp, join, if_pos (habsolute ▸ hp), h]
  · have hprelative : p.isAbsolute = false := by simpa using hp
    have hqrelative : q.isAbsolute = false := habsolute ▸ hprelative
    rw [components_of_isAbsolute (isAbsolute_join_of_isAbsolute hroot p),
      components_of_isAbsolute (isAbsolute_join_of_isAbsolute hroot q), moves,
      names_join root hprelative, List.filter_append, moves, names_join root hqrelative,
      List.filter_append]
    exact congrArg (fun moves => .root :: (root.moves ++ moves).map Component.ofName)
      (moves_eq_of_components hprelative h)

/-- A file name is the last component, if that is a name. -/
theorem fileName?_eq (p : Path) : p.fileName? = p.components.getLast?.bind fun last =>
    match last with
    | .name text => some text
    | _ => none := by
  rw [components_eq, List.getLast?_append, List.getLast?_map, fileName?]
  cases hlast : p.segments.getLast? with
  | none => cases p.isAbsolute <;> rfl
  | some s =>
    simp only [Option.map_some, Option.some_or, Option.bind_some, Component.ofName]
    by_cases hdot : s.name = "."
    · simp [hdot]
    · by_cases hup : s.name = ".."
      · simp [hup]
      · simp [hdot, hup]

/-- An absolute path that is joined with the empty path ends with a slash. -/
theorem getLast?_join_of_empty {root p : Path} (hroot : root.isAbsolute = true)
    (hempty : p.text = "") : (root.join p).text.toList.getLast? = some '/' := by
  have hrelative : p.isAbsolute = false := by simp [isAbsolute, hempty]
  obtain hnil | ⟨front, hfront⟩ := root.lead_cases
  · have hnone : root.text = "" := by
      unfold lead at hnil
      split at hnil <;> simp_all
    simp [isAbsolute, hnone] at hroot
  · rw [text_join root hrelative, hempty, hfront]
    simp

theorem text_ofNames_ne {names : List String} (hnames : ∀ name ∈ names, IsName name)
    (hne : names ≠ []) : (ofNames names).text ≠ "" := by
  intro hempty
  have hsame : ofNames names = ofNames [] := ext_text (by rw [hempty]; rfl)
  exact hne (eq_of_components_ofNames hnames (by simp) (congrArg components hsame))

/-- Names are followed one by one. -/
theorem steps_ofNames {names : List String} (hnames : ∀ name ∈ names, IsName name)
    (hne : names ≠ []) : (ofNames names).steps = names := by
  have hnone : ∀ name ∈ ([] : List String), IsName name := by simp
  have hsteps := steps_join_of_ne (ofPlace []) (isAbsolute_ofNames hnames)
    (text_ofNames_ne hnames hne)
  rw [join_ofNames hnone hnames hne, names_ofPlace hnone, List.nil_append, List.nil_append,
    steps_ofPlace hnames hne] at hsteps
  exact hsteps.symm

end Path

/-- A relative path is its own key below an absolute root. -/
theorem sourceKey_of_relative {root key : Path} (hroot : root.isAbsolute = true)
    (hkey : key.isAbsolute = false) : sourceKey root key = key := by
  have hstarts : key.startsWith root = false := by
    rw [Path.startsWith, Path.components_of_isAbsolute hroot]
    by_contra hprefix
    rw [Bool.not_eq_false, List.isPrefixOf_iff_prefix] at hprefix
    obtain ⟨rest, hrest⟩ := hprefix
    rw [Path.isAbsolute_of_components hrest.symm] at hkey
    cases hkey
  rw [sourceKey, Path.stripPrefix?, hstarts]
  rfl

/-! ## Extractors -/

theorem toOption_bind_congr {ε α β : Type} {one other : Except ε α} {f g : α → Except ε β}
    (h : one.toOption = other.toOption) (hnext : ∀ a, (f a).toOption = (g a).toOption) :
    (one >>= f).toOption = (other >>= g).toOption := by
  cases one with
  | error e =>
    cases other with
    | error e' => rfl
    | ok b => cases h
  | ok a =>
    cases other with
    | error e => cases h
    | ok b =>
      obtain rfl := Option.some.inj h
      exact hnext a

theorem toOption_mapM_congr {ε α β : Type} {f g : α → Except ε β}
    (h : ∀ a, (f a).toOption = (g a).toOption) (as : List α) :
    (as.mapM f).toOption = (as.mapM g).toOption := by
  induction as with
  | nil => rfl
  | cons a as ih =>
    rw [List.mapM_cons, List.mapM_cons]
    exact toOption_bind_congr (h a) fun b => toOption_bind_congr ih fun bs => rfl

/-- The extractor is a function of the file and its text.  Paths are the same if
their components are, so it finds the same documents under every spelling of the
file; only an error may show the spelling. -/
def Script.RespectsPaths (extractor : Script.Extractor) : Prop :=
  ∀ a b text, a.components = b.components →
    (extractor a text).toOption = (extractor b text).toOption

theorem Script.extract_respectsPaths : RespectsPaths extract := by
  intro a b text h
  have hlanguage : Language.ofPath? a = Language.ofPath? b := by
    rw [Language.ofPath?, Path.extension?, Path.fileName?_eq, h, ← Path.fileName?_eq]
    rfl
  have hdocument (literal : SyntaxTree) :
      (documentOf a text literal).toOption = (documentOf b text literal).toOption := by
    unfold documentOf
    split <;> rfl
  unfold extract extractWith
  rw [hlanguage]
  cases Language.ofPath? b with
  | none => rfl
  | some language =>
    exact toOption_bind_congr (toOption_mapM_congr hdocument _) fun documents => rfl

/-- Texts compile to the same operations in whatever way their file is
spelled. -/
theorem compileText_congr {extractor : Script.Extractor} (h : Script.RespectsPaths extractor)
    {a b : Path} (hsame : a.components = b.components) {text : String}
    {operations : List OperationDescriptor}
    (hcompile : compileText extractor a text = .ok operations) :
    compileText extractor b text = .ok operations := by
  have hextract := h a b text hsame
  unfold compileText at hcompile ⊢
  obtain ⟨documents, ha, hrest⟩ := bind_eq_ok.1 hcompile
  rw [ha] at hextract
  exact bind_eq_ok.2 ⟨documents, eq_ok_of_toOption hextract.symm, hrest⟩

/-! ## Below a root -/

namespace FileTree

variable {tree : FileTree} {root : Path} {base : Place}

/-- A slash at the end of a path leads no further. -/
theorem names_of_resolve (h : tree.resolve root = .ok base) :
    root.names.foldlM tree.follow (tree.start root) = .ok base := by
  unfold resolve at h
  split_ifs at h
  rw [Path.steps_eq] at h
  split at h
  · rw [List.foldlM_append] at h
    cases hnames : root.names.foldlM tree.follow (tree.start root) with
    | error e =>
      rw [hnames] at h
      cases h
    | ok place =>
      rw [hnames] at h
      obtain ⟨last, hlast, hend⟩ := foldlM_cons_eq_ok.1 h
      obtain rfl : last = base := Except.ok.inj hend
      obtain ⟨-, ⟨-, rfl⟩ | ⟨hup, -⟩ | ⟨hname, -⟩⟩ := follow_eq_ok hlast
      · rfl
      · exact absurd hup (by decide)
      · exact absurd rfl hname
  · exact h

/-- What is joined to a path that leads to a place leads on from there. -/
theorem resolve_join_of_steps (hroot : root.isAbsolute = true) (h : tree.resolve root = .ok base)
    {p : Path} (hp : p.isAbsolute = false) (hzero : '\x00' ∉ p.text.toList) {rest : List String}
    (hsteps : (root.join p).steps = root.names ++ rest) :
    tree.resolve (root.join p) = rest.foldlM tree.follow base := by
  have hjoined := Path.isAbsolute_join_of_isAbsolute hroot p
  have hempty : (root.join p).text ≠ "" := by
    intro hempty
    rw [Path.isAbsolute, hempty] at hjoined
    cases hjoined
  have hclean : (root.join p).text.toList.contains '\x00' = false := by
    have hfirst : '\x00' ∉ root.text.toList := by
      unfold resolve at h
      split_ifs at h with _ hzero
      simpa using hzero
    have hlead : '\x00' ∉ root.lead := by
      unfold Path.lead
      split <;> simpa using hfirst
    rw [Path.text_join root hp]
    simp only [List.contains_eq_mem, List.mem_append, decide_eq_false_iff_not, not_or]
    exact ⟨hlead, hzero⟩
  have hplace := names_of_resolve h
  rw [start, if_pos hroot] at hplace
  rw [resolve, if_neg hempty, if_neg (by simpa using hclean), hsteps, start, if_pos hjoined,
    List.foldlM_append, hplace]
  rfl

theorem resolve_join_ofNames (hroot : root.isAbsolute = true) (h : tree.resolve root = .ok base)
    {names : List String} (hnames : ∀ name ∈ names, IsNodeName name) (hne : names ≠ []) :
    tree.resolve (root.join (Path.ofNames names)) = names.foldlM tree.follow base := by
  have hplain : ∀ name ∈ names, Path.IsName name := fun name hname => (hnames name hname).1
  have hrelative := Path.isAbsolute_ofNames hplain
  apply resolve_join_of_steps hroot h hrelative (zero_not_mem_ofNames hnames)
  rw [Path.steps_join_of_ne root hrelative (Path.text_ofNames_ne hplain hne),
    Path.steps_ofNames hplain hne]

/-- Below a root that leads to a place, the names of a file read its content. -/
theorem readBytes_join_ofNames (hwell : tree.WellFormed) (hroot : root.isAbsolute = true)
    (h : tree.resolve root = .ok base) {names : List String} (hne : names ≠ [])
    {content : ByteArray} (hcontent : tree.content? (base ++ names) = some content) :
    tree.readBytes (root.join (Path.ofNames names)) = .ok content := by
  have hnode : tree.node? (base ++ names) ≠ none := by
    rw [content?_eq_some.1 hcontent]
    simp
  have hnames : ∀ name ∈ names, IsNodeName name := fun name hname =>
    hwell.isNodeName hnode name (List.mem_append_right base hname)
  refine readBytes_eq_ok.2 ⟨base ++ names, ?_, hcontent⟩
  rw [resolve_join_ofNames hroot h hnames hne]
  exact foldlM_follow_of_node hwell base hnode

/-- Where the root itself is a file, its path cannot be read on. -/
theorem readText_join_nil (hroot : root.isAbsolute = true) (h : tree.resolve root = .ok base)
    {content : ByteArray} (hcontent : tree.content? base = some content) :
    tree.readText (root.join (Path.ofNames [])) = .error .notDirectory := by
  have hrelative : (Path.ofNames []).isAbsolute = false := Path.isAbsolute_ofNames (by simp)
  have hslash : (root.join (Path.ofNames [])).text.toList.getLast? = some '/' :=
    Path.getLast?_join_of_empty hroot rfl
  have hsteps : (root.join (Path.ofNames [])).steps = root.names ++ ["."] := by
    have hnames : (Path.ofNames []).names = [] := by decide
    rw [Path.steps_eq, if_pos hslash, Path.names_join root hrelative, hnames, List.append_nil]
  have hfollow : tree.follow base "." = .error .notDirectory := by
    rw [follow, content?_eq_some.1 hcontent]
  have hresolve : tree.resolve (root.join (Path.ofNames [])) = .error .notDirectory := by
    rw [resolve_join_of_steps hroot h hrelative (by simp) hsteps, List.foldlM_cons, hfollow]
    rfl
  rw [readText, readBytes, lookup, hresolve]

/-! ## Walks -/

/-- A walk answers the names of files, each spelled once. -/
theorem exists_of_mem_sourceKeys (hwell : tree.WellFormed) {glob : Glob} {key : Path}
    (hkey : key ∈ sourceKeys tree root glob) : ∃ base names content,
      tree.resolve root = .ok base ∧ (∀ name ∈ names, IsNodeName name) ∧
        key = Path.ofNames names ∧ tree.content? (base ++ names) = some content ∧
        isIgnored names = false ∧ glob.selects key.text = true := by
  cases hresolve : tree.resolve root with
  | error e => simp [sourceKeys, hresolve] at hkey
  | ok base =>
    obtain ⟨names, rfl, hsome, hignored, hselects⟩ :=
      (mem_sourceKeys_of_resolve hwell hresolve).1 hkey
    obtain ⟨content, hcontent⟩ := Option.isSome_iff_exists.1 hsome
    refine ⟨base, names, content, rfl, fun name hname => ?_, rfl, hcontent, hignored, hselects⟩
    exact hwell.isNodeName (by simp [content?_eq_some.1 hcontent]) name
      (List.mem_append_right base hname)

theorem sourceKey_of_mem_sourceKeys (hwell : tree.WellFormed) (hroot : root.isAbsolute = true)
    (glob : Glob) : ∀ key ∈ sourceKeys tree root glob, sourceKey root key = key := by
  intro key hkey
  obtain ⟨_, names, _, -, hnames, rfl, -⟩ := exists_of_mem_sourceKeys hwell hkey
  exact sourceKey_of_relative hroot
    (Path.isAbsolute_ofNames fun name hname => (hnames name hname).1)

theorem eq_append_of_below? {base place : Place} {names : List String}
    (h : below? base place = some names) : place = base ++ names := by
  simp only [below?, Option.ite_none_right_eq_some, List.isPrefixOf_iff_prefix,
    Option.some.injEq] at h
  rw [← h.2]
  exact (List.prefix_iff_eq_append.1 h.1).symm

/-- The files below a place are answered in the order of their names. -/
theorem pairwise_filesBelow (tree : FileTree) (base : Place) :
    (tree.filesBelow base).Pairwise fun names others => compare names others = .lt := by
  rw [filesBelow, List.pairwise_filterMap]
  refine Std.ExtTreeMap.ordered_keys_toList.imp ?_
  intro one other hlt names hnames others hothers
  obtain ⟨place, node⟩ := one
  obtain ⟨another, twin⟩ := other
  cases node with
  | directory => simp at hnames
  | file content =>
    cases twin with
    | directory => simp at hothers
    | file content' =>
      rwa [eq_append_of_below? hnames, eq_append_of_below? hothers, compare_append_left] at hlt

/-- A walk answers the files in the order of their paths. -/
theorem pairwise_sourceKeys (hwell : tree.WellFormed) (root : Path) (glob : Glob) :
    (sourceKeys tree root glob).Pairwise fun key other =>
      compare key.components other.components = .lt := by
  cases hresolve : tree.resolve root with
  | error e => simp [sourceKeys, hresolve]
  | ok base =>
    have hplain : ∀ names ∈ (tree.filesBelow base).filter (!isIgnored ·),
        ∀ name ∈ names, Path.IsName name := by
      intro names hnames name hname
      have hsome := (mem_filesBelow hwell).1 (List.mem_of_mem_filter hnames)
      obtain ⟨content, hcontent⟩ := Option.isSome_iff_exists.1 hsome
      exact hwell.isName (by simp [content?_eq_some.1 hcontent]) name
        (List.mem_append_right base hname)
    simp only [sourceKeys, hresolve]
    rw [List.pairwise_filterMap]
    refine List.Pairwise.imp_of_mem ?_ ((tree.pairwise_filesBelow base).filter _)
    intro names others hnames hothers hlt key hkey other hother
    simp only [Option.ite_none_right_eq_some, Option.some.injEq] at hkey hother
    rw [← hkey.2, ← hother.2]
    exact Path.compare_components_ofNames (hplain names hnames) (hplain others hothers) hlt

theorem nodup_sourceKeys (hwell : tree.WellFormed) (root : Path) (glob : Glob) :
    ((sourceKeys tree root glob).map Path.components).Nodup := by
  rw [List.Nodup, List.pairwise_map]
  refine (pairwise_sourceKeys hwell root glob).imp fun hlt hsame => ?_
  rw [hsame, Std.ReflOrd.compare_self] at hlt
  cases hlt

end FileTree

end OpManifest
