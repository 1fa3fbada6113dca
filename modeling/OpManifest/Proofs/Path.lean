import Mathlib.Data.List.Chain
import OpManifest.Proofs.Split
import OpManifest.Source.Scan

/-!
# Spellings of paths

What a path spells, read off its text.  `segmentsFrom_append_slash` cuts the
segments of a text at any slash, and everything else follows from it:

* a name behind a base path is the last step of the joined path
  (`steps_join`), and its temporary file stands beside it (`temporary_join`);
* a path that spells plain names has these names as its components
  (`components_of_spells`), and below a root it is seen as the names that are
  left (`stripPrefix?_of_spells`);
* an absolute or relative path without dots and without two slashes side by
  side spells plain names behind a root (`spells_join`).
-/

namespace OpManifest

namespace Path

/-! ## Segments -/

/-- What a name has to be so that it spells one component: a slash does not
occur in it, and it is neither empty nor dots that lead elsewhere. -/
def IsName (name : String) : Prop :=
  name ≠ "" ∧ '/' ∉ name.toList ∧ name ≠ "." ∧ name ≠ ".."
  deriving Decidable

/-- How many characters pieces take up, each with one separator. -/
def width : List (List Char) → Nat
  | [] => 0
  | piece :: pieces => piece.length + 1 + width pieces

@[simp]
theorem width_nil : width [] = 0 := rfl

@[simp]
theorem width_cons (piece : List Char) (pieces : List (List Char)) :
    width (piece :: pieces) = piece.length + 1 + width pieces := rfl

theorem width_split (separator : Char) (text : List Char) :
    width (Text.split separator text) = text.length + 1 := by
  rw [Text.split_eq_splitOn]
  induction text with
  | nil => rfl
  | cons c rest ih =>
    rw [List.splitOn_cons_eq_if_modifyHead]
    obtain ⟨piece, pieces, hpieces⟩ :=
      List.exists_cons_of_ne_nil (List.splitOn_ne_nil separator rest)
    rw [hpieces] at ih ⊢
    by_cases hc : c = separator
    · simp [hc] at ih ⊢
      omega
    · simp [hc] at ih ⊢
      omega

theorem length_flatMap_separator (separator : Char) (pieces : List (List Char)) :
    (pieces.flatMap (· ++ [separator])).length = width pieces := by
  induction pieces with
  | nil => rfl
  | cons piece pieces ih =>
    rw [List.flatMap_cons, List.length_append, ih, List.length_append, List.length_singleton,
      width_cons]

theorem place_append (start : Nat) (first second : List (List Char)) :
    place start (first ++ second) = place start first ++ place (start + width first) second := by
  induction first generalizing start with
  | nil => simp [place]
  | cons piece others ih => simp [place, ih, Nat.add_assoc]

theorem map_name_place (start : Nat) (pieces : List (List Char)) :
    (place start pieces).map Segment.name = pieces.map String.ofList := by
  induction pieces generalizing start with
  | nil => rfl
  | cons piece others ih => simp [place, ih]

/-- The last of some pieces ends where their text ends. -/
theorem getLastD_place_stop (start : Nat) (piece : List Char) (others : List (List Char))
    (default : Segment) :
    ((place start (piece :: others)).getLastD default).stop =
      start + (['/'].intercalate (piece :: others)).length := by
  induction others generalizing start piece with
  | nil => simp [place]
  | cons second others ih =>
    have hlast : (place start (piece :: second :: others)).getLastD default =
        (place (start + piece.length + 1) (second :: others)).getLastD default := by
      simp [place]
    rw [hlast, ih, List.intercalate_cons_cons]
    simp only [List.length_append, List.length_singleton]
    omega

/-- The segments of a part of a path that begins at `start`. -/
def segmentsFrom (start : Nat) (text : List Char) : List Segment :=
  (place start (Text.split '/' text)).filter fun s =>
    s.name ≠ "" && (s.name ≠ "." || s.start = 0)

theorem ext_text {p q : Path} (h : p.text.toList = q.text.toList) : p = q := by
  cases p
  cases q
  exact congrArg Path.mk (String.toList_inj.1 h)

theorem segments_eq (p : Path) : p.segments = segmentsFrom 0 p.text.toList := rfl

@[simp]
theorem segmentsFrom_nil (start : Nat) : segmentsFrom start [] = [] := by
  simp [segmentsFrom, Text.split, place]

/-- Every slash cuts the segments of a text. -/
theorem segmentsFrom_append_slash (start : Nat) (a b : List Char) :
    segmentsFrom start (a ++ '/' :: b) =
      segmentsFrom start a ++ segmentsFrom (start + a.length + 1) b := by
  simp only [segmentsFrom, Text.split_append_separator, place_append, List.filter_append,
    width_split, Nat.add_assoc]

/-- Plain names are segments, wherever they stand. -/
theorem segmentsFrom_intercalate (start : Nat) {names : List String}
    (hnames : ∀ name ∈ names, IsName name) :
    segmentsFrom start (['/'].intercalate (names.map String.toList)) =
      place start (names.map String.toList) := by
  cases names with
  | nil => simp [place]
  | cons first others =>
    have hsplit : Text.split '/' (['/'].intercalate ((first :: others).map String.toList)) =
        (first :: others).map String.toList := by
      refine Text.split_intercalate (by simp) fun piece hpiece => ?_
      obtain ⟨name, hname, rfl⟩ := List.mem_map.1 hpiece
      exact (hnames name hname).2.1
    rw [segmentsFrom, hsplit, List.filter_eq_self]
    intro s hs
    have hmem : s.name ∈ (place start ((first :: others).map String.toList)).map Segment.name :=
      List.mem_map_of_mem hs
    rw [map_name_place, List.map_map] at hmem
    obtain ⟨name, hname, heq⟩ := List.mem_map.1 hmem
    obtain ⟨hempty, -, hdot, -⟩ := hnames name hname
    simp only [Function.comp_apply, String.ofList_toList] at heq
    simp [← heq, hempty, hdot]

theorem ofName_of_isName {name : String} (h : IsName name) :
    Component.ofName name = .name name := by
  simp [Component.ofName, h.2.2.1, h.2.2.2]

/-- Plain names are their own components. -/
theorem map_ofName_place (start : Nat) {names : List String}
    (hnames : ∀ name ∈ names, IsName name) :
    (place start (names.map String.toList)).map (fun s => Component.ofName s.name) =
      names.map Component.name := by
  have hmap : (fun s : Segment => Component.ofName s.name) = Component.ofName ∘ Segment.name := rfl
  rw [hmap, ← List.map_map, map_name_place, List.map_map, List.map_map]
  refine List.map_congr_left fun name hname => ?_
  simpa using ofName_of_isName (hnames name hname)

theorem components_eq (p : Path) :
    p.components = (if p.isAbsolute then [.root] else []) ++
      p.segments.map fun s => Component.ofName s.name := rfl

/-! ## Joining a name -/

/-- The names between the slashes of a path, dots included. -/
def names (p : Path) : List String :=
  (Text.split '/' p.text.toList).filterMap fun piece =>
    if piece.isEmpty then none else some (.ofList piece)

theorem steps_eq (p : Path) :
    p.steps = if p.text.toList.getLast? = some '/' then p.names ++ ["."] else p.names := rfl

/-- The text of a base path up to where a joined path begins. -/
def lead (base : Path) : List Char :=
  if base.text = "" || base.text.toList.getLast? = some '/' then base.text.toList
  else base.text.toList ++ ['/']

/-- What is joined begins the text, or stands behind a slash. -/
theorem lead_cases (base : Path) : base.lead = [] ∨ ∃ front, base.lead = front ++ ['/'] := by
  unfold lead
  split
  · rename_i h
    simp only [Bool.or_eq_true, decide_eq_true_eq] at h
    rcases h with h | h
    · exact .inl (by simp [h])
    · exact .inr (List.getLast?_eq_some_iff.1 h)
  · exact .inr ⟨_, rfl⟩

theorem isAbsolute_eq_false_of_isName {name : String} (h : IsName name) :
    isAbsolute ⟨name⟩ = false := by
  simp only [isAbsolute, decide_eq_false_iff_not]
  intro hhead
  exact h.2.1 (List.mem_of_mem_head? hhead)

theorem text_join (base : Path) {p : Path} (h : p.isAbsolute = false) :
    (base.join p).text.toList = base.lead ++ p.text.toList := by
  unfold join lead
  simp only [h, Bool.false_eq_true, ↓reduceIte]
  split <;> simp

theorem names_of_split {p : Path} {pieces : List (List Char)}
    (h : Text.split '/' p.text.toList = pieces) :
    p.names = pieces.filterMap fun piece =>
      if piece.isEmpty then none else some (.ofList piece) := by
  rw [names, h]

/-- A slash at the end of a path adds no name. -/
theorem names_lead (base : Path) :
    (Text.split '/' base.lead).filterMap (fun piece =>
      if piece.isEmpty then none else some (String.ofList piece)) = base.names := by
  unfold lead
  split
  · rfl
  · rw [Text.split_append_separator]
    simp [names, Text.split]

/-- A name joined to a base path is followed last. -/
theorem steps_join (base : Path) {name : String} (h : IsName name) :
    (base.join ⟨name⟩).steps = base.names ++ [name] := by
  have htext := text_join base (isAbsolute_eq_false_of_isName h)
  have hpieces : name.toList ≠ [] := by simpa using h.1
  have hlast : (base.join ⟨name⟩).text.toList.getLast? ≠ some '/' := by
    rw [htext, List.getLast?_append_of_ne_nil _ hpieces]
    exact fun hlast => h.2.1 (List.mem_of_getLast? hlast)
  rw [steps_eq, if_neg hlast, names, htext]
  rcases lead_cases base with hlead | ⟨front, hlead⟩
  · rw [← names_lead base, hlead]
    simp [Text.split, Text.split_of_not_mem h.2.1, hpieces]
  · rw [← names_lead base, hlead, List.append_assoc, List.singleton_append,
      Text.split_append_separator, Text.split_append_separator, Text.split_of_not_mem h.2.1]
    simp [Text.split, hpieces]

theorem isAbsolute_join (base : Path) {name : String} (h : IsName name) :
    (base.join ⟨name⟩).isAbsolute = base.isAbsolute := by
  have hnot := isAbsolute_eq_false_of_isName h
  have htext := text_join base hnot
  by_cases hbase : base.text = ""
  · have hjoin : base.join ⟨name⟩ = ⟨name⟩ := by simp [join, hnot, hbase]
    rw [hjoin, hnot]
    simp [isAbsolute, hbase]
  · have hne : base.text.toList ≠ [] := by simpa using hbase
    have hhead : base.lead.head? = base.text.toList.head? := by
      unfold lead
      split
      · rfl
      · rw [List.head?_append_of_ne_nil _ hne]
    have hlead : base.lead ≠ [] := by
      intro hnil
      rw [hnil, List.head?_nil] at hhead
      exact hne (List.head?_eq_none_iff.1 hhead.symm)
    simp only [isAbsolute, htext, List.head?_append_of_ne_nil _ hlead, hhead]

/-- A name joined to a base path is the last segment, behind the text of the
base. -/
theorem getLast?_segments_join (base : Path) {name : String} (h : IsName name) :
    (base.join ⟨name⟩).segments.getLast? =
      some ⟨name, base.lead.length, base.lead.length + name.toList.length⟩ := by
  have htext := text_join base (isAbsolute_eq_false_of_isName h)
  have hsegments (start : Nat) : segmentsFrom start name.toList =
      [⟨name, start, start + name.toList.length⟩] := by
    have hnames : ∀ other ∈ [name], IsName other := by simpa using h
    simpa [place] using segmentsFrom_intercalate start hnames
  rw [segments_eq, htext]
  rcases lead_cases base with hlead | ⟨front, hlead⟩
  · simp [hlead, hsegments]
  · rw [hlead, List.append_assoc, List.singleton_append, segmentsFrom_append_slash, hsegments]
    simp

theorem fileName?_join (base : Path) {name : String} (h : IsName name) :
    (base.join ⟨name⟩).fileName? = some name := by
  simp [fileName?, getLast?_segments_join base h, ofName_of_isName h]

/-- The file beside its place into which a file is written first. -/
theorem withExtension_join (base : Path) {name stem : String} (h : IsName name)
    (extension : String) {rest : List Char} (hstem : (splitExtension name).1 = stem)
    (hname : name.toList = stem.toList ++ rest)
    (hnot : isAbsolute ⟨stem ++ "." ++ extension⟩ = false) :
    (base.join ⟨name⟩).withExtension extension = base.join ⟨stem ++ "." ++ extension⟩ := by
  have htext := text_join base (isAbsolute_eq_false_of_isName h)
  have hslice : ((base.join ⟨name⟩).slice 0 (base.lead.length + stem.length)).text.toList =
      base.lead ++ stem.toList := by
    have hlength : base.lead.length + stem.length = (base.lead ++ stem.toList).length := by
      rw [List.length_append, String.length_toList]
    simp only [slice, htext, hname, List.drop_zero, String.toList_ofList]
    rw [hlength, ← List.append_assoc, List.take_left]
  have hwith : ((base.join ⟨name⟩).withExtension extension).text.toList =
      base.lead ++ (stem ++ "." ++ extension).toList := by
    simp only [withExtension, fileName?_join base h, getLast?_segments_join base h, hstem,
      String.toList_append, hslice, List.append_assoc]
  have hjoin := text_join base hnot
  rw [← hwith] at hjoin
  exact ext_text hjoin.symm

/-! ## Spelling names from the root -/

/-- The path spells the names from the root, perhaps with a slash at its end. -/
def Spells (p : Path) (names : List String) : Prop :=
  ∃ tail, (tail = [] ∨ tail = ['/']) ∧
    p.text.toList = '/' :: (['/'].intercalate (names.map String.toList) ++ tail)

@[simp]
theorem text_ofPlace (names : List String) :
    (ofPlace names).text.toList = '/' :: ['/'].intercalate (names.map String.toList) := by
  simp [ofPlace]

@[simp]
theorem text_ofNames (names : List String) :
    (ofNames names).text.toList = ['/'].intercalate (names.map String.toList) := by
  simp [ofNames]

theorem spells_ofPlace (names : List String) : (ofPlace names).Spells names :=
  ⟨[], .inl rfl, by simp⟩

theorem Spells.isAbsolute {p : Path} {names : List String} (h : p.Spells names) :
    p.isAbsolute = true := by
  obtain ⟨tail, -, htext⟩ := h
  simp [Path.isAbsolute, htext]

theorem segments_of_spells {p : Path} {names : List String} (h : p.Spells names)
    (hnames : ∀ name ∈ names, IsName name) :
    p.segments = place 1 (names.map String.toList) := by
  obtain ⟨tail, htail, htext⟩ := h
  have hslash := segmentsFrom_append_slash 0 []
    (['/'].intercalate (names.map String.toList) ++ tail)
  rw [List.nil_append] at hslash
  rw [segments_eq, htext, hslash, segmentsFrom_nil, List.nil_append, List.length_nil, Nat.zero_add]
  rcases htail with rfl | rfl
  · rw [List.append_nil, segmentsFrom_intercalate 1 hnames]
  · rw [segmentsFrom_append_slash, segmentsFrom_nil, List.append_nil,
      segmentsFrom_intercalate 1 hnames]

theorem components_of_spells {p : Path} {names : List String} (h : p.Spells names)
    (hnames : ∀ name ∈ names, IsName name) :
    p.components = .root :: names.map Component.name := by
  rw [components_eq, h.isAbsolute, segments_of_spells h hnames, map_ofName_place 1 hnames]
  rfl

theorem isAbsolute_ofNames {names : List String} (hnames : ∀ name ∈ names, IsName name) :
    (ofNames names).isAbsolute = false := by
  cases names with
  | nil => simp [isAbsolute]
  | cons first others =>
    have hfirst := hnames first (by simp)
    obtain ⟨c, rest, hc⟩ := List.exists_cons_of_ne_nil (l := first.toList) (by simpa using hfirst.1)
    have hne : c ≠ '/' := fun heq => hfirst.2.1 (by simp [hc, heq])
    simp [isAbsolute, hc, hne]

/-- Plain names joined by slashes have themselves as components. -/
theorem components_ofNames {names : List String} (hnames : ∀ name ∈ names, IsName name) :
    (ofNames names).components = names.map Component.name := by
  rw [components_eq, isAbsolute_ofNames hnames, segments_eq, text_ofNames,
    segmentsFrom_intercalate 0 hnames, map_ofName_place 0 hnames]
  rfl

theorem name_injective : Function.Injective Component.name :=
  fun _ _ h => Component.name.inj h

/-- Plain names are told by the components of the path that joins them. -/
theorem eq_of_components_ofNames {names others : List String}
    (hnames : ∀ name ∈ names, IsName name) (hothers : ∀ name ∈ others, IsName name)
    (h : (ofNames names).components = (ofNames others).components) : names = others := by
  rw [components_ofNames hnames, components_ofNames hothers] at h
  exact List.map_injective_iff.2 name_injective h

theorem startsWith_of_spells {p : Path} {base names : List String} (h : p.Spells names)
    (hbase : ∀ name ∈ base, IsName name) (hnames : ∀ name ∈ names, IsName name) :
    p.startsWith (ofPlace base) = true ↔ base <+: names := by
  rw [startsWith, List.isPrefixOf_iff_prefix, components_of_spells h hnames,
    components_of_spells (spells_ofPlace base) hbase, List.cons_prefix_cons,
    List.prefix_map_iff_of_injective name_injective]
  simp

theorem length_place (start : Nat) (pieces : List (List Char)) :
    (place start pieces).length = pieces.length := by
  rw [← List.length_map (f := Segment.name), map_name_place, List.length_map]

/-- Below a root that spells the first names, the text that is left spells the
others. -/
theorem stripPrefix?_of_spells_append {p : Path} {base rest : List String}
    (h : p.Spells (base ++ rest)) (hnames : ∀ name ∈ base ++ rest, IsName name) :
    p.stripPrefix? (ofPlace base) = some (ofNames rest) := by
  have hbase : ∀ name ∈ base, IsName name := fun name hname =>
    hnames name (List.mem_append_left rest hname)
  have hroot := components_of_spells (spells_ofPlace base) hbase
  have hdrop : p.segments.drop (ofPlace base).segments.length =
      place (1 + width (base.map String.toList)) (rest.map String.toList) := by
    rw [segments_of_spells h hnames, segments_of_spells (spells_ofPlace base) hbase,
      List.map_append, place_append, length_place]
    exact List.drop_left' (length_place _ _)
  unfold stripPrefix?
  rw [if_pos ((startsWith_of_spells h hbase hnames).2 (List.prefix_append base rest)), hroot, hdrop]
  cases rest with
  | nil => simp [place, ofNames]
  | cons first others =>
    obtain ⟨tail, -, htext⟩ := h
    have hstop := getLastD_place_stop (1 + width (base.map String.toList)) first.toList
      (others.map String.toList)
    simp only [place, List.map_cons, List.isEmpty_cons, Bool.false_eq_true,
      ↓reduceIte, Option.some.injEq] at hstop ⊢
    rw [hstop]
    refine ext_text ?_
    have hfront : 1 + width (base.map String.toList) =
        ('/' :: (base.map String.toList).flatMap (· ++ ['/'])).length := by
      rw [List.length_cons, length_flatMap_separator, Nat.add_comm]
    have hcut : p.text.toList =
        ('/' :: (base.map String.toList).flatMap (· ++ ['/'])) ++
          (['/'].intercalate (first.toList :: others.map String.toList) ++ tail) := by
      rw [htext, List.map_append, Text.intercalate_append _ (by simp)]
      simp
    rw [text_ofNames, List.map_cons, slice, String.toList_ofList, hcut, hfront, ← List.append_assoc,
      ← List.length_append, List.take_left, List.drop_left]

/-- Below a root that spells plain names, a path is seen as the names that are
left. -/
theorem stripPrefix?_of_spells {p : Path} {base names : List String} (h : p.Spells names)
    (hbase : ∀ name ∈ base, IsName name) (hnames : ∀ name ∈ names, IsName name) :
    p.stripPrefix? (ofPlace base) =
      if base <+: names then some (ofNames (names.drop base.length)) else none := by
  by_cases hbelow : base <+: names
  · rw [if_pos hbelow]
    obtain ⟨rest, rfl⟩ := hbelow
    rw [List.drop_left]
    exact stripPrefix?_of_spells_append h hnames
  · rw [if_neg hbelow, stripPrefix?, if_neg fun hstarts =>
      hbelow ((startsWith_of_spells h hbase hnames).1 hstarts)]

/-! ## Plain paths -/

/-- No component is a dot or two dots. -/
def IsDotless (p : Path) : Prop :=
  ∀ piece ∈ Text.split '/' p.text.toList, piece ≠ ['.'] ∧ piece ≠ ['.', '.']
  deriving Decidable

/-- The path is spelled without detours: no component is a dot or two dots, and
no two slashes stand side by side. -/
def IsPlain (p : Path) : Prop :=
  p.IsDotless ∧ p.text.toList.IsChain fun a b => ¬(a = '/' ∧ b = '/')
  deriving Decidable

theorem isName_ofList {piece : List Char} (hempty : piece ≠ []) (hslash : '/' ∉ piece)
    (hdots : piece ≠ ['.'] ∧ piece ≠ ['.', '.']) : IsName (.ofList piece) := by
  have hne {text : String} (h : piece ≠ text.toList) : String.ofList piece ≠ text := by
    rintro rfl
    exact h (by simp)
  exact ⟨hne (by simpa using hempty), by simpa using hslash, hne (by simpa using hdots.1),
    hne (by simpa using hdots.2)⟩

/-- A text that begins with no slash and has no two slashes side by side is cut
into pieces that are not empty, but for what follows a slash at its end. -/
theorem exists_pieces (pieces : List (List Char)) (hpieces : pieces ≠ [])
    (hhead : (['/'].intercalate pieces).head? ≠ some '/')
    (hchain : (['/'].intercalate pieces).IsChain fun a b => ¬(a = '/' ∧ b = '/')) :
    ∃ filled tail, filled ⊆ pieces ∧ [] ∉ filled ∧ (tail = [] ∨ (tail = ['/'] ∧ filled ≠ [])) ∧
      ['/'].intercalate pieces = ['/'].intercalate filled ++ tail := by
  induction pieces with
  | nil => exact absurd rfl hpieces
  | cons piece others ih =>
    cases others with
    | nil =>
      by_cases hpiece : piece = []
      · exact ⟨[], [], by simp, by simp, .inl rfl, by simp [hpiece]⟩
      · exact ⟨[piece], [], by simp, by simpa using Ne.symm hpiece, .inl rfl, by simp⟩
    | cons second others =>
      rw [List.intercalate_cons_cons, List.append_assoc, List.singleton_append] at hhead hchain ⊢
      have hpiece : piece ≠ [] := by
        rintro rfl
        simp at hhead
      obtain ⟨-, htail, -⟩ := List.isChain_append.1 hchain
      obtain ⟨hnext, hrest⟩ := List.isChain_cons.1 htail
      obtain ⟨filled, tail, hsub, hnil, hend, htext⟩ := ih (by simp)
        (fun hslashed => hnext '/' (by simp [hslashed]) ⟨rfl, rfl⟩) hrest
      cases filled with
      | nil =>
        obtain rfl : tail = [] := by simpa using hend
        refine ⟨[piece], ['/'], by simp, by simpa using Ne.symm hpiece, .inr ⟨rfl, by simp⟩, ?_⟩
        rw [htext]
        simp
      | cons first filled =>
        refine ⟨piece :: first :: filled, tail, ?_, ?_, ?_, ?_⟩
        · exact List.cons_subset_cons _ hsub
        · simp only [List.mem_cons, not_or] at hnil ⊢
          exact ⟨Ne.symm hpiece, hnil⟩
        · exact hend.imp_right fun h => ⟨h.1, by simp⟩
        · rw [htext, List.intercalate_cons_cons]
          simp

/-- A plain path that begins with no slash joins plain names. -/
theorem exists_names {text : List Char}
    (hdots : ∀ piece ∈ Text.split '/' text, piece ≠ ['.'] ∧ piece ≠ ['.', '.'])
    (hchain : text.IsChain fun a b => ¬(a = '/' ∧ b = '/')) (hhead : text.head? ≠ some '/') :
    ∃ names tail, (∀ name ∈ names, IsName name) ∧ (tail = [] ∨ (tail = ['/'] ∧ names ≠ [])) ∧
      text = ['/'].intercalate (names.map String.toList) ++ tail := by
  have htext := Text.intercalate_split '/' text
  have hslash : ∀ piece ∈ Text.split '/' text, '/' ∉ piece := fun _ => Text.not_mem_of_mem_split
  obtain ⟨filled, tail, hsub, hnil, hend, hfilled⟩ := exists_pieces (Text.split '/' text)
    (by rw [Text.split_eq_splitOn]; exact List.splitOn_ne_nil _ _)
    (by rwa [htext]) (by rwa [htext])
  refine ⟨filled.map String.ofList, tail, ?_, ?_, ?_⟩
  · intro name hname
    obtain ⟨piece, hpiece, rfl⟩ := List.mem_map.1 hname
    have hne : piece ≠ [] := fun h => hnil (h ▸ hpiece)
    exact isName_ofList hne (hslash piece (hsub hpiece)) (hdots piece (hsub hpiece))
  · simpa using hend
  · rw [htext] at hfilled
    simpa [List.map_map, Function.comp_def] using hfilled

theorem lead_ofPlace {base : List String} (hbase : ∀ name ∈ base, IsName name) :
    (ofPlace base).lead = '/' :: (base.map String.toList).flatMap (· ++ ['/']) := by
  have htext := text_ofPlace base
  have hne : (ofPlace base).text ≠ "" := by simp [ofPlace]
  rcases List.eq_nil_or_concat' base with rfl | ⟨front, last, rfl⟩
  · simp [lead, htext]
  · have hlast := hbase last (by simp)
    have hlastText : last.toList ≠ [] := by simpa using hlast.1
    have hend : (ofPlace (front ++ [last])).text.toList.getLast? ≠ some '/' := by
      rw [htext, List.map_append, List.map_singleton, Text.intercalate_append _ (by simp),
        List.intercalate_singleton, ← List.cons_append, List.getLast?_append_of_ne_nil _ hlastText]
      exact fun h => hlast.2.1 (List.mem_of_getLast? h)
    have hstart : ¬((ofPlace (front ++ [last])).text = "" ||
        (ofPlace (front ++ [last])).text.toList.getLast? = some '/') = true := by
      simp only [Bool.or_eq_true, decide_eq_true_eq, not_or]
      exact ⟨hne, hend⟩
    rw [lead, if_neg hstart, htext, Text.flatMap_append_separator (by simp)]
    simp

/-- An absolute plain path spells plain names. -/
theorem spells_of_isAbsolute {p : Path} (hp : p.IsPlain) (habsolute : p.isAbsolute = true) :
    ∃ names, (∀ name ∈ names, IsName name) ∧ p.Spells names := by
  obtain ⟨hdots, hchain⟩ := hp
  obtain ⟨rest, htext⟩ : ∃ rest, p.text.toList = '/' :: rest := by
    simp only [isAbsolute, decide_eq_true_eq] at habsolute
    exact List.head?_eq_some_iff.1 habsolute
  rw [IsDotless, htext] at hdots
  rw [htext] at hchain
  obtain ⟨hnext, hrest⟩ := List.isChain_cons.1 hchain
  have hsplit : Text.split '/' ('/' :: rest) = [] :: Text.split '/' rest := by simp [Text.split]
  rw [hsplit] at hdots
  obtain ⟨names, tail, hnames, htail, hbody⟩ := exists_names
    (fun piece hpiece => hdots piece (List.mem_cons_of_mem _ hpiece)) hrest
    (fun hslashed => hnext '/' (by simp [hslashed]) ⟨rfl, rfl⟩)
  exact ⟨names, hnames, tail, htail.imp_right And.left, by rw [htext, hbody]⟩

/-- Seen from a root that spells plain names, a plain path spells plain
names. -/
theorem spells_join {p : Path} (hp : p.IsPlain) {base : List String}
    (hbase : ∀ name ∈ base, IsName name) :
    ∃ names, (∀ name ∈ names, IsName name) ∧ ((ofPlace base).join p).Spells names := by
  by_cases habsolute : p.isAbsolute = true
  · have hjoin : (ofPlace base).join p = p := by simp [join, habsolute]
    rw [hjoin]
    exact spells_of_isAbsolute hp habsolute
  · have hrelative : p.isAbsolute = false := by simpa using habsolute
    obtain ⟨hdots, hchain⟩ := hp
    obtain ⟨names, tail, hnames, htail, hbody⟩ := exists_names hdots hchain
      (by simpa [isAbsolute] using hrelative)
    refine ⟨base ++ names, ?_, ?_⟩
    · intro name hname
      rcases List.mem_append.1 hname with h | h
      · exact hbase name h
      · exact hnames name h
    · have htext := text_join (ofPlace base) hrelative
      rw [lead_ofPlace hbase, hbody] at htext
      rcases htail with rfl | ⟨rfl, hne⟩
      · by_cases hnames : names = []
        · subst hnames
          by_cases hempty : base = []
          · subst hempty
            exact ⟨[], .inl rfl, by simpa using htext⟩
          · rw [Text.flatMap_append_separator (by simpa using hempty)] at htext
            exact ⟨['/'], .inr rfl, by simpa using htext⟩
        · refine ⟨[], .inl rfl, ?_⟩
          rw [htext, List.map_append, Text.intercalate_append _ (by simpa using hnames)]
          simp
      · refine ⟨['/'], .inr rfl, ?_⟩
        rw [htext, List.map_append, Text.intercalate_append _ (by simpa using hne)]
        simp

/-- Plain names below a root lead to the place that all the names lead to. -/
theorem join_ofNames {base names : List String} (hbase : ∀ name ∈ base, IsName name)
    (hnames : ∀ name ∈ names, IsName name) (hne : names ≠ []) :
    (ofPlace base).join (ofNames names) = ofPlace (base ++ names) := by
  refine ext_text ?_
  rw [text_join _ (isAbsolute_ofNames hnames), lead_ofPlace hbase, text_ofNames, text_ofPlace,
    List.map_append, Text.intercalate_append _ (by simpa using hne)]
  simp

/-- The names of a place are followed one after the other. -/
theorem steps_ofPlace {place : List String} (hplace : ∀ name ∈ place, IsName name)
    (hne : place ≠ []) : (ofPlace place).steps = place := by
  obtain ⟨front, last, rfl⟩ := (List.eq_nil_or_concat' place).resolve_left hne
  have hlast := hplace last (by simp)
  have hfront : ∀ name ∈ front, IsName name := fun name hname => hplace name (by simp [hname])
  have hsingle : ofNames [last] = ⟨last⟩ := by simp [ofNames]
  have hsplit : Text.split '/' (ofPlace front).text.toList =
      [] :: Text.split '/' (['/'].intercalate (front.map String.toList)) := by
    simp [Text.split]
  rw [← join_ofNames hfront (by simpa using hlast) (by simp), hsingle, steps_join _ hlast,
    names_of_split hsplit]
  cases front with
  | nil => simp [Text.split]
  | cons first others =>
    rw [Text.split_intercalate (by simp) fun piece hpiece => by
      obtain ⟨name, hname, rfl⟩ := List.mem_map.1 hpiece
      exact (hfront name hname).2.1]
    simp only [List.isEmpty_nil, ↓reduceIte, List.filterMap_cons_none, List.filterMap_map]
    have hall : ∀ name ∈ first :: others, ((fun piece : List Char =>
        if piece.isEmpty then none else some (String.ofList piece)) ∘ String.toList) name =
          some name := fun name hname => by simp [(hfront name hname).1]
    rw [List.filterMap_congr hall, List.filterMap_some]

/-- The name that a path ends with is plain. -/
theorem isName_of_fileName? {p : Path} {name : String} (h : p.fileName? = some name) :
    IsName name := by
  unfold fileName? at h
  split at h
  · rename_i s hlast
    have hmem := List.mem_of_getLast? hlast
    rw [segments_eq, segmentsFrom, List.mem_filter] at hmem
    obtain ⟨hplace, hcount⟩ := hmem
    have hname : s.name ∈ (place 0 (Text.split '/' p.text.toList)).map Segment.name :=
      List.mem_map_of_mem hplace
    rw [map_name_place] at hname
    obtain ⟨piece, hpiece, hsame⟩ := List.mem_map.1 hname
    split at h
    · rename_i hplain
      obtain rfl := Option.some.inj h
      have hdots : s.name ≠ "." ∧ s.name ≠ ".." := by
        constructor <;>
        · intro hdot
          rw [hdot] at hplain
          exact absurd hplain (by decide)
      refine ⟨?_, ?_, hdots⟩
      · intro hempty
        simp [hempty] at hcount
      · rw [← hsame, String.toList_ofList]
        exact Text.not_mem_of_mem_split hpiece
    · cases h
  · cases h

end Path

end OpManifest
