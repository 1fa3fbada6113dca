import OpManifest.Proofs.FileTree

/-!
# Paths by their components

What a path spells when dots, two dots and doubled slashes are allowed.

* Below a base, a path is seen as a part of its own text, and this part has the
  components that are left (`components_of_stripPrefix?_of_isAbsolute`).
* A relative path joined to a place has its own components behind those of the
  place, except for a dot that it begins with (`components_join`).
* The parent of a path has all components but the last one
  (`components_of_parent?`).
* Where a path leads is decided by its components (`resolve_eq_target`), and a
  directory is found under all paths that have them
  (`resolve_congr_of_directory`).
-/

namespace OpManifest

namespace Path

/-! ## Pieces that count -/

/-- A piece between slashes is a component of an absolute path if it is neither
empty nor a dot. -/
def counts (piece : List Char) : Bool := !piece.isEmpty && piece ≠ ['.']

/-- The segments of pieces of which the first begins at `start`. -/
def segs (start : Nat) (pieces : List (List Char)) : List Segment :=
  (place start pieces).filter fun s => s.name ≠ "" && (s.name ≠ "." || s.start = 0)

theorem segmentsFrom_eq_segs (start : Nat) (text : List Char) :
    segmentsFrom start text = segs start (Text.split '/' text) := rfl

theorem segs_append (start : Nat) (first second : List (List Char)) :
    segs start (first ++ second) = segs start first ++ segs (start + width first) second := by
  simp [segs, place_append]

theorem ofList_eq_dot {piece : List Char} : String.ofList piece = "." ↔ piece = ['.'] := by
  rw [← String.toList_inj, String.toList_ofList]
  rfl

/-- A piece behind the first character of a text is a segment exactly if it
counts. -/
theorem segs_cons {start : Nat} (hstart : start ≠ 0) (piece : List Char)
    (others : List (List Char)) :
    segs start (piece :: others) =
      (if counts piece then [⟨.ofList piece, start, start + piece.length⟩] else []) ++
        segs (start + (piece.length + 1)) others := by
  have hone : segs start [piece] =
      if counts piece then [⟨.ofList piece, start, start + piece.length⟩] else [] := by
    by_cases hempty : piece = []
    · simp [segs, place, counts, hempty]
    · by_cases hdot : piece = ['.']
      · simp [segs, place, counts, hdot, hstart]
      · simp [segs, place, counts, hempty, ofList_eq_dot, hdot]
  rw [← hone]
  exact segs_append start [piece] others

theorem map_name_segs {start : Nat} (hstart : start ≠ 0) (pieces : List (List Char)) :
    (segs start pieces).map Segment.name = (pieces.filter counts).map String.ofList := by
  induction pieces generalizing start with
  | nil => rfl
  | cons piece others ih =>
    have hnext : start + (piece.length + 1) ≠ 0 := by omega
    rw [segs_cons hstart, List.map_append, ih hnext]
    by_cases hpiece : counts piece <;> simp [hpiece]

/-- Wherever the pieces stand, those that count are the segments but for dots. -/
theorem filter_name_segs (start : Nat) (pieces : List (List Char)) :
    ((segs start pieces).map Segment.name).filter (· ≠ ".") =
      (pieces.filter counts).map String.ofList := by
  induction pieces generalizing start with
  | nil => rfl
  | cons piece others ih =>
    have hone : ((segs start [piece]).map Segment.name).filter (· ≠ ".") =
        if counts piece then [.ofList piece] else [] := by
      by_cases hempty : piece = []
      · simp [segs, place, counts, hempty]
      · by_cases hdot : piece = ['.']
        · by_cases hstart : start = 0 <;> simp [segs, place, counts, hdot, hstart]
        · simp [segs, place, counts, hempty, ofList_eq_dot, hdot]
    have happend : segs start (piece :: others) =
        segs start [piece] ++ segs (start + width [piece]) others :=
      segs_append start [piece] others
    rw [happend, List.map_append, List.filter_append, hone, ih, List.filter_cons]
    split <;> simp

/-- Where some segments end and others begin, the pieces are cut before a piece
that counts. -/
theorem exists_front {start : Nat} (hstart : start ≠ 0) {pieces : List (List Char)}
    {before others : List Segment} {first : Segment}
    (h : segs start pieces = before ++ first :: others) :
    ∃ front piece rest, pieces = front ++ piece :: rest ∧ counts piece = true ∧
      first.start = start + width front ∧
      segs (start + width front) (piece :: rest) = first :: others := by
  induction pieces generalizing start before with
  | nil => simp [segs, place] at h
  | cons piece pieces ih =>
    have hnext : start + (piece.length + 1) ≠ 0 := by omega
    have hlater (before : List Segment)
        (h : segs (start + (piece.length + 1)) pieces = before ++ first :: others) :
        ∃ front last rest, piece :: pieces = front ++ last :: rest ∧ counts last = true ∧
          first.start = start + width front ∧
          segs (start + width front) (last :: rest) = first :: others := by
      obtain ⟨front, last, rest, rfl, hlast, hplace, hsegs⟩ := ih hnext h
      rw [Nat.add_assoc] at hplace hsegs
      exact ⟨piece :: front, last, rest, rfl, hlast, hplace, hsegs⟩
    have hcons := segs_cons hstart piece pieces
    rw [hcons] at h
    by_cases hpiece : counts piece = true
    · rw [if_pos hpiece] at h hcons
      cases before with
      | nil =>
        have hfirst := (List.cons.inj h).1
        exact ⟨[], piece, pieces, rfl, hpiece, by rw [← hfirst]; rfl, hcons.trans h⟩
      | cons s before => exact hlater before (List.cons.inj h).2
    · rw [if_neg hpiece] at h
      exact hlater before h

/-- The last segment is that of the last piece but for empty ones and dots, and the
others are those of the pieces before it. -/
theorem exists_last {start : Nat} {pieces : List (List Char)} {s : Segment}
    (h : (segs start pieces).getLast? = some s) :
    ∃ front piece back, pieces = front ++ piece :: back ∧ piece ≠ [] ∧
      s = ⟨.ofList piece, start + width front, start + width front + piece.length⟩ ∧
      back.filter counts = [] ∧ segs start pieces = segs start front ++ [s] := by
  induction pieces using List.reverseRecOn with
  | nil => cases h
  | append_singleton pieces last ih =>
    have hone : segs (start + width pieces) [last] =
        [⟨.ofList last, start + width pieces, start + width pieces + last.length⟩] ∧ last ≠ [] ∨
          segs (start + width pieces) [last] = [] ∧ counts last = false := by
      by_cases hempty : last = []
      · simp [segs, place, counts, hempty]
      · by_cases hdot : last = ['.'] ∧ start + width pieces ≠ 0
        · right
          simpa [segs, place, counts, hdot.1] using hdot.2
        · left
          have hkept : String.ofList last ≠ "." ∨ start + width pieces = 0 := by
            rw [ne_eq, ofList_eq_dot]
            tauto
          simpa [segs, place, hempty] using hkept
    rw [segs_append] at h ⊢
    obtain ⟨hsegs, hempty⟩ | ⟨hsegs, hcounts⟩ := hone
    · rw [hsegs, List.getLast?_concat] at h
      obtain rfl := Option.some.inj h
      exact ⟨pieces, last, [], rfl, hempty, rfl, rfl, by rw [hsegs]⟩
    · rw [hsegs, List.append_nil] at h ⊢
      obtain ⟨front, piece, back, rfl, hpiece, hs, hback, hcut⟩ := ih h
      exact ⟨front, piece, back ++ [last], by simp, hpiece, hs, by simp [hback, hcounts], hcut⟩

/-- The last segment is that of the last piece that counts. -/
theorem exists_back {start : Nat} (hstart : start ≠ 0) {pieces : List (List Char)}
    (h : segs start pieces ≠ []) :
    ∃ front piece back, pieces = front ++ piece :: back ∧ counts piece = true ∧
      back.filter counts = [] ∧
      ∀ default, ((segs start pieces).getLastD default).stop =
        start + width front + piece.length := by
  obtain ⟨init, s, hsegs⟩ := (List.eq_nil_or_concat' (segs start pieces)).resolve_left h
  have hlast : (segs start pieces).getLast? = some s := by rw [hsegs, List.getLast?_concat]
  obtain ⟨front, piece, back, hpieces, hempty, rfl, hback, -⟩ := exists_last hlast
  have hcounts : counts piece = true := by
    have hmem := List.mem_of_getLast? hlast
    have hdot : String.ofList piece ≠ "." := by
      simpa [segs, hempty, hstart] using (List.mem_filter.1 hmem).2
    simpa [counts, hempty, ofList_eq_dot] using hdot
  refine ⟨front, piece, back, hpieces, hcounts, hback, fun default => ?_⟩
  rw [hsegs, List.getLastD_concat]

/-! ## Moves -/

/-- The names of a path that lead somewhere: all but dots. -/
def moves (p : Path) : List String := p.names.filter (· ≠ ".")

theorem moves_of_split {p : Path} {pieces : List (List Char)}
    (h : Text.split '/' p.text.toList = pieces) :
    p.moves = (pieces.filter counts).map String.ofList := by
  rw [moves, names_of_split h]
  clear h
  induction pieces with
  | nil => rfl
  | cons piece pieces ih =>
    by_cases hempty : piece = []
    · simpa [hempty, counts] using ih
    · by_cases hdot : piece = ['.']
      · simpa [counts, hdot, ofList_eq_dot] using ih
      · simpa [hempty, counts, ofList_eq_dot, hdot] using ih

theorem ofName_injective : Function.Injective Component.ofName := by
  intro a b h
  unfold Component.ofName at h
  split_ifs at h
  · simp_all
  · simp_all
  · exact Component.name.inj h

/-- The moves of a path are its segments but for a dot that it begins with. -/
theorem filter_name_segments (p : Path) :
    (p.segments.map Segment.name).filter (· ≠ ".") = p.moves := by
  rw [segments_eq, segmentsFrom_eq_segs, filter_name_segs, moves_of_split rfl]

/-- The segments of an absolute path are its moves. -/
theorem map_name_segments {p : Path} (h : p.isAbsolute = true) :
    p.segments.map Segment.name = p.moves := by
  have hslash : p.text.toList.head? = some '/' := by simpa [isAbsolute] using h
  obtain ⟨rest, htext⟩ := List.head?_eq_some_iff.1 hslash
  have hsplit : Text.split '/' p.text.toList = [] :: Text.split '/' rest := by
    simp [htext, Text.split]
  have hsegments : p.segments = segs 1 (Text.split '/' rest) := by
    rw [segments_eq, segmentsFrom_eq_segs, hsplit]
    exact segs_append 0 [[]] (Text.split '/' rest)
  rw [hsegments, map_name_segs (by decide), moves_of_split hsplit]
  rfl

/-- An absolute path has the root and its moves as components. -/
theorem components_of_isAbsolute {p : Path} (h : p.isAbsolute = true) :
    p.components = .root :: p.moves.map Component.ofName := by
  rw [components_eq, h, ← map_name_segments h, List.map_map]
  rfl

/-- The path is spelled as a part of another path is seen: it is empty, or it
begins and ends with a piece that counts. -/
def Trimmed (p : Path) : Prop :=
  p.text = "" ∨ (∃ piece rest, Text.split '/' p.text.toList = piece :: rest ∧ counts piece) ∧
    ∃ front piece, Text.split '/' p.text.toList = front ++ [piece] ∧ counts piece

theorem Trimmed.isAbsolute {p : Path} (h : p.Trimmed) : p.isAbsolute = false := by
  obtain hempty | ⟨⟨piece, rest, hsplit, hpiece⟩, -⟩ := h
  · simp [Path.isAbsolute, hempty]
  · by_contra habsolute
    have hslash : p.text.toList.head? = some '/' := by simpa [Path.isAbsolute] using habsolute
    obtain ⟨tail, htext⟩ := List.head?_eq_some_iff.1 hslash
    have hnil : [] = piece := by
      rw [htext] at hsplit
      exact (List.cons.inj hsplit).1
    simp [counts, ← hnil] at hpiece

/-- A relative path has its moves as components, and before them a dot if it
begins with one. -/
theorem components_of_split {p : Path} (h : p.isAbsolute = false) {piece : List Char}
    {rest : List (List Char)} (hsplit : Text.split '/' p.text.toList = piece :: rest) :
    p.components =
      (if piece = ['.'] then [Component.here] else []) ++ p.moves.map Component.ofName := by
  have hnext : 0 + width [piece] ≠ 0 := by simp
  have hsegments : p.segments = segs 0 [piece] ++ segs (0 + width [piece]) rest := by
    rw [segments_eq, segmentsFrom_eq_segs, hsplit]
    exact segs_append 0 [piece] rest
  rw [components_eq, h, hsegments, moves_of_split hsplit, List.filter_cons, List.map_append]
  have hrest : (segs (0 + width [piece]) rest).map (fun s => Component.ofName s.name) =
      ((rest.filter counts).map String.ofList).map Component.ofName := by
    rw [← map_name_segs hnext, List.map_map]
    rfl
  rw [hrest]
  by_cases hempty : piece = []
  · simp [hempty, segs, place, counts]
  · by_cases hdot : piece = ['.']
    · simp [hdot, segs, place, counts, Component.ofName]
    · simp [hempty, hdot, segs, place, counts]

/-- A relative path that does not begin with a dot has its moves as
components. -/
theorem components_of_relative {p : Path} (h : p.isAbsolute = false)
    (hhere : .here ∉ p.components) : p.components = p.moves.map Component.ofName := by
  obtain ⟨piece, rest, hsplit⟩ := Text.exists_cons_split '/' p.text.toList
  have hcomponents := components_of_split h hsplit
  have hdot : piece ≠ ['.'] := by
    intro hdot
    rw [hcomponents, if_pos hdot] at hhere
    exact hhere (List.mem_append_left _ (List.mem_singleton_self _))
  rwa [if_neg hdot, List.nil_append] at hcomponents

/-- A trimmed path has its moves as components. -/
theorem Trimmed.components {p : Path} (h : p.Trimmed) :
    p.components = p.moves.map Component.ofName := by
  have hrelative := h.isAbsolute
  obtain hempty | ⟨⟨piece, rest, hsplit, hpiece⟩, -⟩ := h
  · have hsplit : Text.split '/' p.text.toList = [] :: [] := by simp [hempty, Text.split]
    exact components_of_split hrelative hsplit
  · have hdot : piece ≠ ['.'] := by
      rintro rfl
      exact absurd hpiece (by decide)
    rw [components_of_split hrelative hsplit, if_neg hdot, List.nil_append]

/-- A move leads up, or it is a plain name. -/
theorem eq_up_or_isName_of_mem_moves {p : Path} {name : String} (h : name ∈ p.moves) :
    name = ".." ∨ IsName name := by
  rw [moves_of_split rfl] at h
  obtain ⟨piece, hpiece, rfl⟩ := List.mem_map.1 h
  obtain ⟨hmem, hcounts⟩ := List.mem_filter.1 hpiece
  obtain ⟨hempty, hdot⟩ : piece ≠ [] ∧ piece ≠ ['.'] := by simpa [counts] using hcounts
  by_cases hup : piece = ['.', '.']
  · exact .inl (by rw [hup])
  · exact .inr (isName_ofList hempty (Text.not_mem_of_mem_split hmem) ⟨hdot, hup⟩)

/-- A trimmed path asks for no directory at its end. -/
theorem Trimmed.getLast?_steps {p : Path} (h : p.Trimmed) (hne : p.text ≠ "") :
    p.steps ≠ [] ∧ p.steps.getLast? ≠ some "." := by
  obtain ⟨-, front, piece, hsplit, hpiece⟩ := h.resolve_left hne
  obtain ⟨hempty, hdot⟩ : piece ≠ [] ∧ piece ≠ ['.'] := by simpa [counts] using hpiece
  have hlast : p.text.toList.getLast? ≠ some '/' := by
    intro hslash
    obtain ⟨body, htext⟩ := List.getLast?_eq_some_iff.1 hslash
    rw [htext, Text.split_append_separator] at hsplit
    have hnil : [] = piece := List.singleton_inj.1 (List.append_inj' hsplit rfl).2
    exact hempty hnil.symm
  rw [steps_eq, if_neg hlast, names_of_split hsplit, List.filterMap_append]
  simp [hempty, ofList_eq_dot, hdot]

/-! ## What is left below a base -/

theorem length_intercalate_concat (pieces : List (List Char)) (last : List Char) :
    (['/'].intercalate (pieces ++ [last])).length = width pieces + last.length := by
  rw [Text.intercalate_append pieces (by simp), List.length_append, length_flatMap_separator,
    List.intercalate_singleton]

theorem exists_tail {pieces : List (List Char)} (hne : pieces ≠ []) (back : List (List Char)) :
    ∃ tail, ['/'].intercalate (pieces ++ back) = ['/'].intercalate pieces ++ tail := by
  by_cases hback : back = []
  · exact ⟨[], by simp [hback]⟩
  · refine ⟨['/'] ++ ['/'].intercalate back, ?_⟩
    rw [Text.intercalate_append pieces hback, Text.flatMap_append_separator hne, List.append_assoc]

/-- Some last segments of a text are those of a part of the text. -/
theorem exists_slice {front text : List Char} (hfront : front.length ≠ 0)
    {before others : List Segment} {first : Segment}
    (h : segmentsFrom front.length text = before ++ first :: others) :
    ∃ p : Path, p.Trimmed ∧ p.moves = (first :: others).map Segment.name ∧
      (((front ++ text).take ((first :: others).getLastD first).stop).drop first.start) =
        p.text.toList := by
  have hslash : ∀ piece ∈ Text.split '/' text, '/' ∉ piece := fun _ => Text.not_mem_of_mem_split
  have htext := Text.intercalate_split '/' text
  rw [segmentsFrom_eq_segs] at h
  generalize Text.split '/' text = pieces at h hslash htext
  obtain ⟨left, piece, rest, rfl, hpiece, hplace, hsegs⟩ := exists_front hfront h
  have hnext : front.length + width left ≠ 0 := by omega
  have hsome : segs (front.length + width left) (piece :: rest) ≠ [] := by simp [hsegs]
  obtain ⟨middle, last, back, hrest, hlast, hback, hstop⟩ := exists_back hnext hsome
  -- the part is joined from the pieces up to the last one that counts
  have hsplit : Text.split '/' (['/'].intercalate (middle ++ [last])) = middle ++ [last] := by
    refine Text.split_intercalate (by simp) fun other hother => hslash other ?_
    rw [hrest]
    simp only [List.mem_append, List.mem_cons, List.not_mem_nil] at hother ⊢
    tauto
  have hmoves : ((middle ++ [last]).filter counts).map String.ofList =
      (first :: others).map Segment.name := by
    rw [← hsegs, map_name_segs hnext, hrest, List.filter_append, List.filter_append,
      List.filter_cons_of_pos hlast, List.filter_cons_of_pos hlast, hback, List.filter_nil]
  have hhead : ∃ tail, middle ++ [last] = piece :: tail := by
    cases middle with
    | nil => exact ⟨[], by rw [(List.cons.inj hrest).1]; rfl⟩
    | cons other middle => exact ⟨middle ++ [last], by rw [(List.cons.inj hrest).1]; rfl⟩
  refine ⟨⟨.ofList (['/'].intercalate (middle ++ [last]))⟩, .inr ⟨?_, ?_⟩, ?_, ?_⟩
  · obtain ⟨tail, htail⟩ := hhead
    exact ⟨piece, tail, by rw [String.toList_ofList, hsplit, htail], hpiece⟩
  · exact ⟨middle, last, by rw [String.toList_ofList, hsplit], hlast⟩
  · rw [moves_of_split (by rw [String.toList_ofList, hsplit]), hmoves]
  · obtain ⟨tail, htail⟩ := exists_tail (by simp : middle ++ [last] ≠ []) back
    have hbody : text = left.flatMap (· ++ ['/']) ++
        (['/'].intercalate (middle ++ [last]) ++ tail) := by
      rw [← htext, Text.intercalate_append left (by simp), hrest, ← htail, List.append_assoc,
        List.singleton_append]
    have hstart : first.start = (front ++ left.flatMap (· ++ ['/'])).length := by
      rw [hplace, List.length_append, length_flatMap_separator]
    have hend : ((first :: others).getLastD first).stop =
        (front ++ left.flatMap (· ++ ['/']) ++ ['/'].intercalate (middle ++ [last])).length := by
      rw [← hsegs, hstop, List.length_append, length_intercalate_concat, List.length_append,
        length_flatMap_separator, Nat.add_assoc]
    rw [String.toList_ofList, hend, hstart, hbody, ← List.append_assoc, ← List.append_assoc,
      List.take_left, List.drop_left]

theorem isAbsolute_of_components {p : Path} {rest : List Component}
    (h : p.components = .root :: rest) : p.isAbsolute = true := by
  by_contra hrelative
  have hmap : p.segments.map (fun s => Component.ofName s.name) = .root :: rest := by
    simpa [components_eq, hrelative] using h
  obtain ⟨s, others, -, hname, -⟩ := List.map_eq_cons_iff.1 hmap
  unfold Component.ofName at hname
  split_ifs at hname

/-- Below an absolute base, a path is seen as a part of its own text. -/
theorem components_of_stripPrefix?_of_isAbsolute {p file base : Path}
    (hbase : base.isAbsolute = true) (h : p.stripPrefix? base = some file) :
    p.components = base.components ++ file.components ∧ file.Trimmed := by
  have hroot : base.components = .root :: base.segments.map fun s => Component.ofName s.name := by
    rw [components_eq, hbase]
    rfl
  unfold stripPrefix? at h
  split at h
  swap
  · cases h
  rename_i hstarts
  have hprefix : base.components <+: p.components := by
    simpa [startsWith] using hstarts
  obtain ⟨rest, hcomponents⟩ := hprefix
  have habsolute : p.isAbsolute = true := by
    apply isAbsolute_of_components
    rw [← hcomponents, hroot, List.cons_append]
  have hsegments : p.segments.map (fun s => Component.ofName s.name) =
      base.segments.map (fun s => Component.ofName s.name) ++ rest := by
    rw [hroot, components_eq, habsolute] at hcomponents
    exact (List.cons.inj hcomponents).2.symm
  have hdrop : (p.segments.drop base.segments.length).map (fun s => Component.ofName s.name) =
      rest := by
    rw [List.map_drop, hsegments, List.drop_left' (List.length_map _)]
  rw [if_neg (by simp [hroot])] at h
  cases hleft : p.segments.drop base.segments.length with
  | nil =>
    simp only [hleft, Option.some.injEq] at h
    rw [hleft, List.map_nil] at hdrop
    refine ⟨?_, .inl (by rw [← h])⟩
    rw [← hcomponents, ← hdrop, ← h]
    rfl
  | cons first others =>
    simp only [hleft, Option.some.injEq] at h
    have hslash : p.text.toList.head? = some '/' := by simpa [isAbsolute] using habsolute
    obtain ⟨text, htext⟩ := List.head?_eq_some_iff.1 hslash
    have hcut : segmentsFrom ['/'].length text =
        p.segments.take base.segments.length ++ first :: others := by
      have hslash := segmentsFrom_append_slash 0 [] text
      rw [← hleft, List.take_append_drop, segments_eq, htext]
      simpa using hslash.symm
    obtain ⟨part, htrimmed, hmoves, hslice⟩ := exists_slice (by simp) hcut
    have hpart : file = part := by
      refine ext_text ?_
      rw [← h, slice, String.toList_ofList, htext, ← hslice]
      rfl
    rw [hpart]
    refine ⟨?_, htrimmed⟩
    rw [← hcomponents, ← hdrop, htrimmed.components, hmoves, hleft, List.map_map]
    rfl

/-- Below a base that lies at a place, a path is seen as a part of its own
text. -/
theorem components_of_stripPrefix? {p file : Path} {base : List String}
    (hbase : ∀ name ∈ base, IsName name) (h : p.stripPrefix? (ofPlace base) = some file) :
    p.components = (ofPlace base).components ++ file.components ∧ file.Trimmed := by
  have habsolute : (ofPlace base).isAbsolute = true :=
    isAbsolute_of_components (components_of_spells (spells_ofPlace base) hbase)
  exact components_of_stripPrefix?_of_isAbsolute habsolute h

/-! ## Joined paths -/

theorem names_join (base : Path) {p : Path} (h : p.isAbsolute = false) :
    (base.join p).names = base.names ++ p.names := by
  have htext := text_join base h
  have hlead := names_lead base
  rcases lead_cases base with hnil | ⟨front, hfront⟩
  · have hbase : base.names = [] := by rw [← hlead, hnil]; decide
    rw [hbase, List.nil_append, names, htext, hnil, List.nil_append, names]
  · rw [hfront, Text.split_append_separator, List.filterMap_append] at hlead
    rw [names, htext, hfront, List.append_assoc, List.singleton_append,
      Text.split_append_separator, List.filterMap_append, ← hlead]
    simp [Text.split, names]

theorem steps_join_of_ne {p : Path} (base : Path) (h : p.isAbsolute = false) (hne : p.text ≠ "") :
    (base.join p).steps = base.names ++ p.steps := by
  have hlast : (base.join p).text.toList.getLast? = p.text.toList.getLast? := by
    rw [text_join base h, List.getLast?_append_of_ne_nil _ (by simpa using hne)]
  rw [steps_eq, steps_eq, hlast, names_join base h]
  split
  · rw [List.append_assoc]
  · rfl

theorem names_ofPlace {base : List String} (hbase : ∀ name ∈ base, IsName name) :
    (ofPlace base).names = base := by
  have hsplit : Text.split '/' (ofPlace base).text.toList =
      [] :: Text.split '/' (['/'].intercalate (base.map String.toList)) := by
    simp [Text.split]
  rw [names_of_split hsplit]
  cases base with
  | nil => decide
  | cons first others =>
    rw [Text.split_intercalate (by simp) fun piece hpiece => by
      obtain ⟨name, hname, rfl⟩ := List.mem_map.1 hpiece
      exact (hbase name hname).2.1]
    simp only [List.isEmpty_nil, ↓reduceIte, List.filterMap_cons_none, List.filterMap_map]
    have hall : ∀ name ∈ first :: others, ((fun piece : List Char =>
        if piece.isEmpty then none else some (String.ofList piece)) ∘ String.toList) name =
          some name := fun name hname => by simp [(hbase name hname).1]
    rw [List.filterMap_congr hall, List.filterMap_some]

/-- A relative path that is joined to a place moves on from there. -/
theorem moves_join {p : Path} (h : p.isAbsolute = false) {base : List String}
    (hbase : ∀ name ∈ base, IsName name) : ((ofPlace base).join p).moves = base ++ p.moves := by
  have hplain : base.filter (· ≠ ".") = base :=
    List.filter_eq_self.2 fun name hname => by simpa using (hbase name hname).2.2.1
  rw [moves, names_join _ h, names_ofPlace hbase, List.filter_append, hplain, moves]

theorem isAbsolute_join_place {p : Path} (h : p.isAbsolute = false) {base : List String}
    (hbase : ∀ name ∈ base, IsName name) : ((ofPlace base).join p).isAbsolute = true := by
  rw [isAbsolute, text_join _ h, lead_ofPlace hbase]
  rfl

/-- A relative path that is joined to a place has the root, the place and its own
moves as components. -/
theorem components_join {p : Path} (h : p.isAbsolute = false) {base : List String}
    (hbase : ∀ name ∈ base, IsName name) :
    ((ofPlace base).join p).components =
      (ofPlace base).components ++ p.moves.map Component.ofName := by
  have hplain : base.map Component.ofName = base.map Component.name :=
    List.map_congr_left fun name hname => ofName_of_isName (hbase name hname)
  rw [components_of_isAbsolute (isAbsolute_join_place h hbase), moves_join h hbase,
    components_of_spells (spells_ofPlace base) hbase, List.map_append, hplain, List.cons_append]

/-! ## Where a path leads -/

/-- The place that a component leads to from a place: the root leads to the
root, two dots go up, and a name goes down. -/
def Component.walk (place : Place) : Component → Place
  | .root => []
  | .here => place
  | .up => place.dropLast
  | .name text => place ++ [text]

/-- The place that the components of an absolute path lead to. -/
def target (p : Path) : Place := p.components.foldl Component.walk []

theorem foldl_walk_moves (p : Path) (place : Place) :
    (p.moves.map Component.ofName).foldl Component.walk place =
      (p.steps.map Component.ofName).foldl Component.walk place := by
  have hdots (names : List String) (place : Place) :
      ((names.filter (· ≠ ".")).map Component.ofName).foldl Component.walk place =
        (names.map Component.ofName).foldl Component.walk place := by
    induction names generalizing place with
    | nil => rfl
    | cons name names ih =>
      by_cases hdot : name = "."
      · simpa [hdot, Component.ofName, Component.walk] using ih place
      · simpa [hdot] using ih _
  rw [moves, hdots, steps_eq]
  split
  · simp [Component.ofName, Component.walk]
  · rfl

/-! ## Parents -/

/-- The parent of a path begins where the path does and has all its segments but the
last one. -/
theorem moves_of_parent? {p parent : Path} (h : p.parent? = some parent) :
    parent.moves = (p.segments.dropLast.map Segment.name).filter (· ≠ ".") ∧
      parent.isAbsolute = p.isAbsolute := by
  have hslash : ∀ piece ∈ Text.split '/' p.text.toList, '/' ∉ piece :=
    fun _ => Text.not_mem_of_mem_split
  have hbody := Text.intercalate_split '/' p.text.toList
  have hsegments : p.segments = segs 0 (Text.split '/' p.text.toList) := rfl
  generalize Text.split '/' p.text.toList = pieces at hslash hbody hsegments
  unfold parent? at h
  split at h
  · cases h
  · rename_i last hlast
    have hone : p.segments = [last] := List.reverse_eq_cons_iff.1 hlast
    obtain rfl := Option.some.inj h
    rw [hone]
    cases p.isAbsolute <;> exact ⟨rfl, rfl⟩
  · rename_i last holder before hlast
    obtain rfl := Option.some.inj h
    have hall : p.segments = (before.reverse ++ [holder]) ++ [last] := by
      rw [← List.reverse_reverse p.segments, hlast]
      simp
    -- the pieces are cut before the one of the last segment, and then behind the
    -- one of the segment before it
    have hlastSegment : (segs 0 pieces).getLast? = some last := by
      rw [← hsegments, hall, List.getLast?_concat]
    obtain ⟨front, piece, rest, rfl, -, -, -, hcut⟩ := exists_last hlastSegment
    have hfront : segs 0 front = before.reverse ++ [holder] :=
      List.append_cancel_right (hcut.symm.trans (hsegments.symm.trans hall))
    have hholderSegment : (segs 0 front).getLast? = some holder := by
      rw [hfront, List.getLast?_concat]
    obtain ⟨middle, ending, back, rfl, hending, hholder, hback, -⟩ := exists_last hholderSegment
    obtain ⟨tail, htail⟩ := exists_tail (by simp : middle ++ [ending] ≠ []) (back ++ piece :: rest)
    have htext : p.text.toList = ['/'].intercalate (middle ++ [ending]) ++ tail := by
      rw [← hbody, ← htail]
      simp
    have hparent : (p.slice 0 holder.stop).text.toList =
        ['/'].intercalate (middle ++ [ending]) := by
      have hstop : holder.stop = (['/'].intercalate (middle ++ [ending])).length := by
        rw [hholder, length_intercalate_concat, Nat.zero_add]
      rw [slice, hstop, htext, List.take_left, List.drop_zero, String.toList_ofList]
    have hsplit : Text.split '/' (p.slice 0 holder.stop).text.toList = middle ++ [ending] := by
      rw [hparent, Text.split_intercalate (by simp) fun other hother => ?_]
      refine hslash other ?_
      simp only [List.mem_append, List.mem_cons, List.not_mem_nil] at hother ⊢
      tauto
    refine ⟨?_, ?_⟩
    · rw [moves_of_split hsplit, hall, List.dropLast_concat, ← hfront, filter_name_segs]
      simp [List.filter_append, List.filter_cons, hback]
    · have hne : ['/'].intercalate (middle ++ [ending]) ≠ [] := by
        rw [Text.intercalate_append middle (by simp), List.intercalate_singleton]
        simp [hending]
      rw [isAbsolute, isAbsolute, hparent, htext, List.head?_append_of_ne_nil _ hne]

/-- The parent of an absolute path has all segments but the last one. -/
theorem components_parent {p parent : Path} (habsolute : p.isAbsolute = true)
    (h : p.parent? = some parent) :
    parent.components = .root :: p.segments.dropLast.map fun s => Component.ofName s.name := by
  obtain ⟨hmoves, hparent⟩ := moves_of_parent? h
  have hplain : (p.segments.dropLast.map Segment.name).filter (· ≠ ".") =
      p.segments.dropLast.map Segment.name := by
    rw [List.filter_eq_self]
    intro name hname
    have hmem : name ∈ p.segments.map Segment.name := by
      rw [List.map_dropLast] at hname
      exact List.dropLast_subset _ hname
    rw [map_name_segments habsolute] at hmem
    exact (List.mem_filter.1 hmem).2
  rw [components_of_isAbsolute (hparent.trans habsolute), hmoves, hplain, List.map_map]
  rfl

/-- An absolute path with a file name has the components of its parent and then
this name. -/
theorem components_of_parent? {p parent : Path} {name : String} (habsolute : p.isAbsolute = true)
    (hparent : p.parent? = some parent) (hname : p.fileName? = some name) :
    p.components = parent.components ++ [.name name] := by
  unfold fileName? at hname
  split at hname
  · rename_i s hlast
    split at hname
    · rename_i hplain
      obtain rfl := Option.some.inj hname
      obtain ⟨before, hsegments⟩ := List.getLast?_eq_some_iff.1 hlast
      rw [components_parent habsolute hparent, components_eq, habsolute, hsegments,
        List.dropLast_concat, List.map_append, List.map_singleton, hplain]
      rfl
    · cases hname
  · cases hname

/-! ## Steps -/

/-- The steps of a path are its moves and dots. -/
theorem filter_steps (p : Path) : p.steps.filter (· ≠ ".") = p.moves := by
  rw [steps_eq]
  split
  · rw [List.filter_append, List.filter_cons_of_neg (by simp), List.filter_nil, List.append_nil,
      moves]
  · rfl

theorem zero_mem_iff {p : Path} :
    '\x00' ∈ p.text.toList ↔ ∃ name ∈ p.moves, '\x00' ∈ name.toList := by
  have hslash : '\x00' ≠ '/' := by decide
  rw [← Text.mem_split_iff hslash, moves_of_split rfl]
  constructor
  · rintro ⟨piece, hpiece, hin⟩
    have hne : piece ≠ [] := List.ne_nil_of_mem hin
    have hdot : piece ≠ ['.'] := by
      rintro rfl
      exact absurd hin (by decide)
    have hcounts : counts piece = true := by simp [counts, hne, hdot]
    exact ⟨.ofList piece, List.mem_map_of_mem (List.mem_filter.2 ⟨hpiece, hcounts⟩),
      by simpa using hin⟩
  · rintro ⟨name, hname, hin⟩
    obtain ⟨piece, hpiece, rfl⟩ := List.mem_map.1 hname
    exact ⟨piece, (List.mem_filter.1 hpiece).1, by simpa using hin⟩

end Path

namespace FileTree

theorem eq_walk_of_follow {tree : FileTree} {place next : Place} {name : String}
    (h : tree.follow place name = .ok next) :
    next = (Path.Component.ofName name).walk place := by
  obtain ⟨-, ⟨hdot, rfl⟩ | ⟨hup, rfl⟩ | ⟨hdot, hup, -, rfl⟩⟩ := follow_eq_ok h
  · simp [Path.Component.ofName, hdot, Path.Component.walk]
  · simp [Path.Component.ofName, hup, Path.Component.walk]
  · simp [Path.Component.ofName, hdot, hup, Path.Component.walk]

theorem eq_foldl_walk_of_foldlM {tree : FileTree} {names : List String} {place last : Place}
    (h : names.foldlM tree.follow place = .ok last) :
    last = (names.map Path.Component.ofName).foldl Path.Component.walk place := by
  induction names generalizing place with
  | nil => exact (Except.ok.inj h).symm
  | cons name names ih =>
    obtain ⟨next, hnext, hrest⟩ := foldlM_cons_eq_ok.1 h
    rw [List.map_cons, List.foldl_cons, ← eq_walk_of_follow hnext]
    exact ih hrest

/-- An absolute path that leads to some place leads to the place that its
components lead to. -/
theorem resolve_eq_target {tree : FileTree} {p : Path} (habsolute : p.isAbsolute = true)
    {place : Place} (h : tree.resolve p = .ok place) : place = p.target := by
  unfold resolve at h
  split_ifs at h
  rw [start, habsolute, if_pos rfl] at h
  rw [Path.target, Path.components_of_isAbsolute habsolute, List.foldl_cons,
    Path.foldl_walk_moves]
  exact eq_foldl_walk_of_foldlM h

/-- Dots on the way to a place where something stands do not matter. -/
theorem foldlM_follow_of_moves {tree : FileTree} (h : tree.WellFormed) {names : List String}
    (hlast : names.getLast? ≠ some ".") {place : Place}
    (hnode : tree.node? (place ++ names.filter (· ≠ ".")) ≠ none) :
    names.foldlM tree.follow place = .ok (place ++ names.filter (· ≠ ".")) := by
  induction names generalizing place with
  | nil => simp [pure, Except.pure]
  | cons name names ih =>
    by_cases hdot : name = "."
    · have hmore : names ≠ [] := by
        rintro rfl
        simp [hdot] at hlast
      have hrest : names.getLast? ≠ some "." := by
        rwa [List.getLast?_cons_of_ne_nil hmore] at hlast
      have hmoves : (name :: names).filter (· ≠ ".") = names.filter (· ≠ ".") := by simp [hdot]
      rw [hmoves] at hnode ⊢
      -- the last name is no dot, so something is left to be followed from here
      have hsome : names.filter (· ≠ ".") ≠ [] := by
        obtain ⟨front, last, rfl⟩ := (List.eq_nil_or_concat' names).resolve_left hmore
        have hname : last ≠ "." := by simpa using hrest
        simp [hname]
      have hdirectory := h.directory_of_append hsome hnode
      have hstay : tree.follow place name = .ok place := by simp [follow, hdirectory, hdot]
      exact foldlM_cons_eq_ok.2 ⟨place, hstay, ih hrest hnode⟩
    · have hmoves : place ++ (name :: names).filter (· ≠ ".") =
          (place ++ [name]) ++ names.filter (· ≠ ".") := by simp [hdot]
      have hmember : name ∈ place ++ (name :: names).filter (· ≠ ".") := by simp [hdot]
      have hname := h.isNodeName hnode name hmember
      have hdirectory : tree.node? place = some .directory :=
        h.directory_of_append (by simp [hdot]) hnode
      have hrest : names.getLast? ≠ some "." := by
        by_cases hmore : names = []
        · simp [hmore]
        · rwa [List.getLast?_cons_of_ne_nil hmore] at hlast
      rw [hmoves] at hnode ⊢
      have hdown := follow_of_directory hdirectory hname.1 hname.2.2
      exact foldlM_cons_eq_ok.2 ⟨_, hdown, ih hrest hnode⟩

/-- An absolute path that does not ask for a directory is followed to where its
moves lead, if something stands there. -/
theorem WellFormed.resolve_moves {tree : FileTree} (h : tree.WellFormed) {p : Path}
    (habsolute : p.isAbsolute = true) (hlast : p.steps.getLast? ≠ some ".")
    (hnode : tree.node? p.moves ≠ none) : tree.resolve p = .ok p.moves := by
  have hnames := h.isNodeName hnode
  have hsteps : p.steps = p.names := by
    rw [Path.steps_eq] at hlast ⊢
    split
    · rename_i hslash
      rw [if_pos hslash] at hlast
      simp at hlast
    · rfl
  have hempty : p.text ≠ "" := by
    intro hempty
    simp [Path.isAbsolute, hempty] at habsolute
  have hzero : '\x00' ∉ p.text.toList := by
    intro hmem
    obtain ⟨name, hname, hin⟩ := Path.zero_mem_iff.1 hmem
    exact (hnames name hname).2.1 hin
  rw [hsteps] at hlast
  rw [resolve, if_neg hempty, if_neg (by simpa using hzero), start, habsolute, if_pos rfl, hsteps]
  have hroot : tree.node? ([] ++ p.moves) ≠ none := hnode
  exact foldlM_follow_of_moves h hlast hroot

/-! ## Directories -/

/-- A way to a directory goes through directories. -/
theorem directory_of_foldlM {tree : FileTree} {names : List String} {place last : Place}
    (hnode : tree.node? last = some .directory) (h : names.foldlM tree.follow place = .ok last) :
    tree.node? place = some .directory := by
  cases names with
  | nil =>
    obtain rfl := Except.ok.inj h
    exact hnode
  | cons name names =>
    obtain ⟨next, hnext, -⟩ := foldlM_cons_eq_ok.1 h
    exact (follow_eq_ok hnext).1

/-- Dots on the way to a directory do not matter. -/
theorem foldlM_follow_filter {tree : FileTree} {names : List String} {place last : Place}
    (hnode : tree.node? last = some .directory) :
    (names.filter (· ≠ ".")).foldlM tree.follow place = .ok last ↔
      names.foldlM tree.follow place = .ok last := by
  induction names generalizing place with
  | nil => rfl
  | cons name names ih =>
    by_cases hdot : name = "."
    · subst hdot
      rw [List.filter_cons_of_neg (by simp), ih, foldlM_cons_eq_ok]
      constructor
      · intro h
        have hplace := directory_of_foldlM hnode h
        exact ⟨place, by simp [follow, hplace], h⟩
      · rintro ⟨next, hnext, h⟩
        obtain rfl : next = place := eq_walk_of_follow hnext
        exact h
    · rw [List.filter_cons_of_pos (by simpa using hdot), foldlM_cons_eq_ok, foldlM_cons_eq_ok]
      simp only [ih]

/-- A directory is found under every absolute path with the same components. -/
theorem resolve_congr_of_directory {tree : FileTree} {p q : Path} (habsolute : p.isAbsolute = true)
    (hsame : p.components = q.components) {place : Place}
    (hnode : tree.node? place = some .directory) (h : tree.resolve p = .ok place) :
    tree.resolve q = .ok place := by
  have hother : q.isAbsolute = true := by
    rw [Path.components_of_isAbsolute habsolute] at hsame
    exact Path.isAbsolute_of_components hsame.symm
  have hmoves : p.moves = q.moves := by
    rw [Path.components_of_isAbsolute habsolute, Path.components_of_isAbsolute hother] at hsame
    exact List.map_injective_iff.2 Path.ofName_injective (List.cons.inj hsame).2
  have hempty : q.text ≠ "" := by
    intro hempty
    simp [Path.isAbsolute, hempty] at hother
  unfold resolve at h ⊢
  split_ifs at h with _ hzero
  have hzero : ¬q.text.toList.contains '\x00' = true := by
    simpa [Path.zero_mem_iff, hmoves] using hzero
  rw [start, habsolute, if_pos rfl, ← foldlM_follow_filter hnode, Path.filter_steps, hmoves] at h
  rwa [if_neg hempty, if_neg hzero, start, hother, if_pos rfl, ← foldlM_follow_filter hnode,
    Path.filter_steps]

end FileTree

end OpManifest
