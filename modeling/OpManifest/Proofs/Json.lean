import OpManifest.Json.Basic
import OpManifest.Json.Reader

/-!
# Reading what was written

The indented text of a JSON value is read as the data of the value, whatever
follows it (`scans_prettyAt`), so that a reader of a whole text finds what it
would find in that data (`readText_pretty`).
-/

namespace OpManifest.Json

open Data (Datum)
open Text (hexNumber?)

/-- Whatever follows the text, the scan reads the text as the data and leaves
what follows. -/
def Scans (scan : Scan) (text : List Char) (d : Datum) : Prop :=
  ∀ rest, scan (text ++ rest) = (d, some rest)

/-! ## Strings -/

theorem hexNumber?_control {n : Nat} (h : n < 0x20) :
    hexNumber? ['0', '0', Nat.digitChar (n / 16), Nat.digitChar (n % 16)] = some n := by
  have hall : ∀ n < 0x20,
      hexNumber? ['0', '0', Nat.digitChar (n / 16), Nat.digitChar (n % 16)] = some n := by decide
  exact hall n h

/-- A code that is no surrogate is the character with this code. -/
theorem decodeUnits_code {n : Nat} (h : n < 0xD800) (units : List Unit16) :
    decodeUnits (.code n :: units) = (Char.ofNat n :: ·) <$> decodeUnits units := by
  have hhigh : ¬0xD800 ≤ n := by omega
  have hlow : ¬0xDC00 ≤ n := by omega
  cases units with
  | nil => simp [decodeUnits, hhigh]
  | cons unit units =>
    cases unit <;> simp [decodeUnits, hhigh, hlow]

section

-- The equations are made here once, so that the proofs below do not wait for each other.
attribute [local simp] scanString

theorem scanString_cons {c : Char} (h : ¬c.toNat < 0x20) (hquote : c ≠ '"') (hslash : c ≠ '\\')
    (tail : List Char) :
    scanString (c :: tail) =
      (scanString tail).map fun (units, rest) => (.char c :: units, rest) := by
  have hplain : ¬(c.toNat < 0x20 || c = '\\') = true := by simp [h, hslash]
  rw [scanString, if_neg hplain]
  · cases scanString tail <;> rfl
  · exact hquote
  · exact fun _ _ _ _ _ h _ => hslash h
  · exact fun _ _ h _ => hslash h

theorem scanString_short {letter c : Char} (h : shortEscape letter = some c) (hcode : letter ≠ 'u')
    (tail : List Char) :
    scanString ('\\' :: letter :: tail) =
      (scanString tail).map fun (units, rest) => (.char c :: units, rest) := by
  rw [scanString, h]
  · cases scanString tail <;> rfl
  · exact fun _ _ _ _ _ hletter => absurd hletter hcode

/-- A written character is cut into one unit, which stands for the
character. -/
theorem scanString_escapeChar (c : Char) :
    ∃ unit, (∀ units, decodeUnits (unit :: units) = (c :: ·) <$> decodeUnits units) ∧
      ∀ tail, scanString (escapeChar c ++ tail) =
        (scanString tail).map fun (units, rest) => (unit :: units, rest) := by
  unfold escapeChar
  split
  case h_8 hquote hslash _ _ _ _ _ =>
    split
    · rename_i hcontrol
      refine ⟨.code c.toNat, fun units => ?_, fun tail => ?_⟩
      · rw [decodeUnits_code (by omega), Char.ofNat_toNat]
      · simp only [List.cons_append, List.nil_append, scanString, hexNumber?_control hcontrol]
        cases scanString tail <;> rfl
    · rename_i hcontrol
      exact ⟨.char c, fun units => by simp [decodeUnits], scanString_cons hcontrol hquote hslash⟩
  all_goals
    exact ⟨.char _, fun units => by rw [decodeUnits], scanString_short rfl (by decide)⟩

/-- The characters of a written string are cut up to its closing quote. -/
theorem scanString_flatMap (cs : List Char) (rest : List Char) :
    ∃ units, scanString (cs.flatMap escapeChar ++ '"' :: rest) = some (units, rest) ∧
      decodeUnits units = some cs := by
  induction cs with
  | nil => exact ⟨[], by simp, rfl⟩
  | cons c cs ih =>
    obtain ⟨units, hscan, hdecode⟩ := ih
    obtain ⟨unit, hunit, hescape⟩ := scanString_escapeChar c
    refine ⟨unit :: units, ?_, ?_⟩
    · rw [List.flatMap_cons, List.append_assoc, hescape, hscan]
      rfl
    · rw [hunit, hdecode]
      rfl

end

@[simp]
theorem toList_quote (text : String) :
    (quote text).toList = '"' :: (text.toList.flatMap escapeChar ++ ['"']) := by
  simp [quote]

/-! ## Between tokens -/

@[simp]
theorem toList_newLine (level : Nat) :
    (newLine level).toList = '\n' :: List.replicate (2 * level) ' ' := by
  simp [newLine]

theorem skipSpace_cons {c : Char} (h : isSpace c = true) (rest : List Char) :
    skipSpace (c :: rest) = skipSpace rest := by
  simp [skipSpace, h]

theorem skipSpace_of_not {c : Char} (h : isSpace c = false) (rest : List Char) :
    skipSpace (c :: rest) = c :: rest := by
  simp [skipSpace, h]

/-- A line break and its indent are passed over. -/
theorem skipSpace_newLine (level : Nat) (rest : List Char) :
    skipSpace ((newLine level).toList ++ rest) = skipSpace rest := by
  rw [toList_newLine, List.cons_append, skipSpace_cons (by decide)]
  induction 2 * level with
  | zero => rfl
  | succ count ih => rw [List.replicate_succ, List.cons_append, skipSpace_cons (by decide), ih]

theorem skipSpace_quote (text : String) (rest : List Char) :
    skipSpace ((quote text).toList ++ rest) = (quote text).toList ++ rest := by
  rw [toList_quote, List.cons_append, skipSpace_of_not (by decide)]

theorem scanValue_congr {cs others : List Char} (h : skipSpace cs = skipSpace others)
    (depth : Nat) : scanValue depth cs = scanValue depth others := by
  rw [scanValue.eq_def, scanValue.eq_def, h]

/-! ## Items and members -/

/-- The last item stands before a bracket. -/
theorem scanItems_last {item : Scan} {cs rest tail : List Char} {d : Datum}
    (h : item cs = (d, some tail)) (htail : skipSpace tail = ']' :: rest) :
    scanItems item cs = ([d], some rest) := by
  rw [scanItems]
  simp [h, htail]

/-- Other items stand behind a comma. -/
theorem scanItems_cons {item : Scan} {cs rest tail : List Char} {d : Datum}
    (h : item cs = (d, some tail)) (htail : skipSpace tail = ',' :: rest)
    (hshorter : rest.length < cs.length) {ds : List Datum} {last : Option (List Char)}
    (hrest : scanItems item rest = (ds, last)) :
    scanItems item cs = (d :: ds, last) := by
  rw [scanItems]
  simp [h, htail, hshorter, hrest]

/-- The last member stands before a brace. -/
theorem scanMembers_last {item : Scan} {cs text rest tail : List Char} {key : String} {d : Datum}
    (hkey : skipSpace cs = (quote key).toList ++ ':' :: text) (h : item text = (d, some tail))
    (htail : skipSpace tail = '}' :: rest) :
    scanMembers item cs = ([(key, d)], some rest) := by
  obtain ⟨units, hscan, hdecode⟩ := scanString_flatMap key.toList (':' :: text)
  rw [toList_quote, List.cons_append, List.append_assoc, List.singleton_append] at hkey
  rw [scanMembers]
  simp [hkey, hscan, hdecode, skipSpace_of_not (c := ':') (by decide), h, htail]

/-- Other members stand behind a comma. -/
theorem scanMembers_cons {item : Scan} {cs text rest tail : List Char} {key : String} {d : Datum}
    (hkey : skipSpace cs = (quote key).toList ++ ':' :: text) (h : item text = (d, some tail))
    (htail : skipSpace tail = ',' :: rest) (hshorter : rest.length < cs.length)
    {members : List (String × Datum)} {last : Option (List Char)}
    (hrest : scanMembers item rest = (members, last)) :
    scanMembers item cs = ((key, d) :: members, last) := by
  obtain ⟨units, hscan, hdecode⟩ := scanString_flatMap key.toList (':' :: text)
  rw [toList_quote, List.cons_append, List.append_assoc, List.singleton_append] at hkey
  rw [scanMembers]
  simp [hkey, hscan, hdecode, skipSpace_of_not (c := ':') (by decide), h, htail, hshorter, hrest]

/-! ## What a bracket opens -/

/-- A written value begins with a character that is no blank and closes no
array. -/
theorem exists_cons_prettyAt (level : Nat) (value : Json) :
    ∃ c text, (prettyAt level value).toList = c :: text ∧ isSpace c = false ∧ c ≠ ']' := by
  cases value with
  | null => exact ⟨'n', "ull".toList, by simp [prettyAt], by decide, by decide⟩
  | boolean value =>
    cases value with
    | false => exact ⟨'f', "alse".toList, by simp [prettyAt], by decide, by decide⟩
    | true => exact ⟨'t', "rue".toList, by simp [prettyAt], by decide, by decide⟩
  | string value => exact ⟨'"', _, by rw [prettyAt, toList_quote], by decide, by decide⟩
  | array items =>
    cases items <;> exact ⟨'[', _, by simp [prettyAt]; rfl, by decide, by decide⟩
  | object members =>
    rcases members with _ | ⟨⟨key, first⟩, others⟩ <;>
      exact ⟨'{', _, by simp [prettyAt]; rfl, by decide, by decide⟩

/-- The items of an array stand behind a bracket. -/
theorem scanValue_bracket {depth : Nat} {text cs : List Char} {c : Char}
    (htext : skipSpace text = c :: cs) (hopen : c ≠ ']') {items : List Datum} {rest : List Char}
    (hitems : scanItems (scanValue depth) (c :: cs) = (items, some rest)) :
    scanValue (depth + 1) ('[' :: text) = (.sequence items, some rest) := by
  rw [scanValue, skipSpace_of_not (by decide)]
  simp only [htext]
  split
  · cases ‹depth + 1 = 0›
  · exact absurd (List.cons.inj ‹_›).1 hopen
  · simp_all

/-- The members of an object stand behind a brace. -/
theorem scanValue_brace {depth : Nat} {text cs : List Char} {c : Char}
    (htext : skipSpace text = c :: cs) (hopen : c ≠ '}') {members : List (String × Datum)}
    {rest : List Char}
    (hmembers : scanMembers (scanValue depth) (c :: cs) = (members, some rest)) :
    scanValue (depth + 1) ('{' :: text) = (.mapping members false, some rest) := by
  rw [scanValue, skipSpace_of_not (by decide)]
  simp only [htext]
  split
  · cases ‹depth + 1 = 0›
  · exact absurd (List.cons.inj ‹_›).1 hopen
  · simp_all

/-- What follows the first item is scanned as the further items. -/
theorem scanItems_prettyItems {scan : Scan} {level outer : Nat} {items : List Json}
    (hspace : ∀ cs, scan ((newLine level).toList ++ cs) = scan cs)
    (hitems : ∀ item ∈ items, Scans scan (prettyAt level item).toList item.toDatum)
    {cs rest : List Char} {d : Datum}
    (h : scan cs = (d, some ((prettyItems level items).toList ++
      ((newLine outer).toList ++ ']' :: rest))))
    (hshorter : ((prettyItems level items).toList ++
      ((newLine outer).toList ++ ']' :: rest)).length ≤ cs.length) :
    scanItems scan cs = (d :: itemsToData items, some rest) := by
  induction items generalizing cs d with
  | nil =>
    refine scanItems_last h ?_
    rw [prettyItems, String.toList_empty, List.nil_append, skipSpace_newLine,
      skipSpace_of_not (by decide)]
  | cons item items ih =>
    have hitem := hitems item (by simp) ((prettyItems level items).toList ++
      ((newLine outer).toList ++ ']' :: rest))
    rw [← hspace] at hitem
    simp only [prettyItems, String.toList_append, List.append_assoc] at h hshorter
    refine scanItems_cons h (skipSpace_of_not (by decide) _) ?_
      (ih (fun other hother => hitems other (by simp [hother])) hitem ?_)
    · simp at hshorter ⊢
      omega
    · simp
      omega

/-- What follows the first member is scanned as the further members. -/
theorem scanMembers_prettyMembers {scan : Scan} {level outer : Nat}
    {members : List (String × Json)} (hspace : ∀ cs, scan (' ' :: cs) = scan cs)
    (hmembers : ∀ member ∈ members, Scans scan (prettyAt level member.2).toList member.2.toDatum)
    {cs text rest : List Char} {key : String} {d : Datum}
    (hkey : skipSpace cs = (quote key).toList ++ ':' :: text)
    (h : scan text = (d, some ((prettyMembers level members).toList ++
      ((newLine outer).toList ++ '}' :: rest))))
    (hshorter : ((prettyMembers level members).toList ++
      ((newLine outer).toList ++ '}' :: rest)).length ≤ cs.length) :
    scanMembers scan cs = ((key, d) :: membersToData members, some rest) := by
  induction members generalizing cs text key d with
  | nil =>
    refine scanMembers_last hkey h ?_
    rw [prettyMembers, String.toList_empty, List.nil_append, skipSpace_newLine,
      skipSpace_of_not (by decide)]
  | cons member members ih =>
    obtain ⟨next, value⟩ := member
    have hvalue := hmembers (next, value) (by simp) ((prettyMembers level members).toList ++
      ((newLine outer).toList ++ '}' :: rest))
    rw [← hspace] at hvalue
    simp only [prettyMembers, String.toList_append, List.append_assoc] at h hshorter
    have hnext := (skipSpace_newLine level _).trans (skipSpace_quote next
      (':' :: ' ' :: ((prettyAt level value).toList ++
        ((prettyMembers level members).toList ++ ((newLine outer).toList ++ '}' :: rest)))))
    refine scanMembers_cons hkey h (skipSpace_of_not (by decide) _) ?_
      (ih (fun other hother => hmembers other (by simp [hother])) hnext hvalue ?_)
    · simp at hshorter ⊢
      omega
    · simp
      omega

/-! ## Arrays and objects -/

theorem scans_array {level depth : Nat} {items : List Json}
    (hitems : ∀ item ∈ items,
      Scans (scanValue depth) (prettyAt (level + 1) item).toList item.toDatum) :
    Scans (scanValue (depth + 1)) (prettyAt level (.array items)).toList
      (Json.array items).toDatum := by
  intro rest
  cases items with
  | nil =>
    simp [prettyAt, toDatum, itemsToData, scanValue, skipSpace_of_not (c := '[') (by decide),
      skipSpace_of_not (c := ']') (by decide)]
  | cons first others =>
    have hfirst := hitems first (by simp)
      ((prettyItems (level + 1) others).toList ++ ((newLine level).toList ++ ']' :: rest))
    have hothers := scanItems_prettyItems
      (fun cs => scanValue_congr (skipSpace_newLine (level + 1) cs) depth)
      (fun item hitem => hitems item (by simp [hitem])) hfirst (by simp)
    obtain ⟨c, text, htext, hspace, hopen⟩ := exists_cons_prettyAt (level + 1) first
    rw [htext, List.cons_append] at hothers
    have hbracket := scanValue_bracket
      ((skipSpace_newLine (level + 1) _).trans (skipSpace_of_not hspace _)) hopen hothers
    simpa [prettyAt, toDatum, itemsToData, htext] using hbracket

theorem scans_object {level depth : Nat} {members : List (String × Json)}
    (hmembers : ∀ member ∈ members,
      Scans (scanValue depth) (prettyAt (level + 1) member.2).toList member.2.toDatum) :
    Scans (scanValue (depth + 1)) (prettyAt level (.object members)).toList
      (Json.object members).toDatum := by
  intro rest
  cases members with
  | nil =>
    simp [prettyAt, toDatum, membersToData, scanValue, skipSpace_of_not (c := '{') (by decide),
      skipSpace_of_not (c := '}') (by decide)]
  | cons member others =>
    obtain ⟨key, first⟩ := member
    have hblank (cs : List Char) : scanValue depth (' ' :: cs) = scanValue depth cs :=
      scanValue_congr (skipSpace_cons (by decide) cs) depth
    have hfirst := hmembers (key, first) (by simp)
      ((prettyMembers (level + 1) others).toList ++ ((newLine level).toList ++ '}' :: rest))
    rw [← hblank] at hfirst
    have hkey := skipSpace_quote key (':' :: ' ' :: ((prettyAt (level + 1) first).toList ++
      ((prettyMembers (level + 1) others).toList ++ ((newLine level).toList ++ '}' :: rest))))
    have hothers := scanMembers_prettyMembers hblank
      (fun member hmember => hmembers member (by simp [hmember])) hkey hfirst (by simp; omega)
    rw [toList_quote, List.cons_append] at hkey hothers
    have hbrace := scanValue_brace ((skipSpace_newLine (level + 1) _).trans hkey) (by decide)
      hothers
    simpa [prettyAt, toDatum, membersToData] using hbrace

theorem length_le_prettyItems (level : Nat) {item : Json} {items : List Json}
    (h : item ∈ items) :
    (prettyAt level item).toList.length ≤ (prettyItems level items).toList.length := by
  induction items with
  | nil => cases h
  | cons first others ih =>
    simp only [prettyItems, String.toList_append, List.length_append]
    obtain rfl | hmem := List.mem_cons.1 h
    · omega
    · have hle := ih hmem
      omega

theorem length_le_prettyMembers (level : Nat) {member : String × Json}
    {members : List (String × Json)} (h : member ∈ members) :
    (prettyAt level member.2).toList.length ≤ (prettyMembers level members).toList.length := by
  induction members with
  | nil => cases h
  | cons first others ih =>
    simp only [prettyMembers, String.toList_append, List.length_append]
    obtain rfl | hmem := List.mem_cons.1 h
    · omega
    · have hle := ih hmem
      omega

/-- The text of an item is shorter than that of its array. -/
theorem length_lt_array (level : Nat) {item : Json} {items : List Json} (h : item ∈ items) :
    (prettyAt (level + 1) item).toList.length < (prettyAt level (.array items)).toList.length := by
  cases items with
  | nil => cases h
  | cons first others =>
    simp only [prettyAt, String.toList_append, List.length_append, toList_newLine,
      List.length_cons]
    obtain rfl | hmem := List.mem_cons.1 h
    · omega
    · have hle := length_le_prettyItems (level + 1) hmem
      omega

/-- The text of a member is shorter than that of its object. -/
theorem length_lt_object (level : Nat) {member : String × Json}
    {members : List (String × Json)} (h : member ∈ members) :
    (prettyAt (level + 1) member.2).toList.length <
      (prettyAt level (.object members)).toList.length := by
  cases members with
  | nil => cases h
  | cons first others =>
    simp only [prettyAt, String.toList_append, List.length_append, toList_newLine,
      List.length_cons]
    obtain rfl | hmem := List.mem_cons.1 h
    · omega
    · have hle := length_le_prettyMembers (level + 1) hmem
      omega

/-! ## Values -/

/-- A scan that is deep enough for the text of a value reads it.  Every bracket
takes one level and at least one character, so what is nested stays deep
enough. -/
theorem scans_prettyAt (value : Json) (level depth : Nat)
    (hdepth : (prettyAt level value).toList.length ≤ depth) :
    Scans (scanValue depth) (prettyAt level value).toList value.toDatum := by
  induction depth generalizing value level with
  | zero =>
    obtain ⟨c, text, htext, -⟩ := exists_cons_prettyAt level value
    simp [htext] at hdepth
  | succ depth ih =>
    cases value with
    | null =>
      intro rest
      simp [prettyAt, toDatum, scanValue, skipSpace, isSpace, scanWord]
    | boolean value =>
      intro rest
      cases value <;> simp [prettyAt, toDatum, scanValue, skipSpace, isSpace, scanWord]
    | string value =>
      intro rest
      obtain ⟨units, hscan, hdecode⟩ := scanString_flatMap value.toList rest
      simp [prettyAt, toDatum, scanValue, skipSpace_of_not (c := '"') (by decide), hscan, hdecode]
    | array items =>
      apply scans_array
      intro item hitem
      have hlt := length_lt_array level hitem
      exact ih item (level + 1) (by omega)
    | object members =>
      apply scans_object
      intro member hmember
      have hlt := length_lt_object level hmember
      exact ih member.2 (level + 1) (by omega)

/-- A whole text that was written is read as the data of its value. -/
theorem readText_pretty {α : Type} (reader : Data.Reader α) (value : Json) :
    readText reader (value.pretty ++ "\n") = reader value.toDatum := by
  have hscan := scans_prettyAt value 0 (value.pretty ++ "\n").length
    (by simp [pretty, ← String.length_toList]) ['\n']
  have htext : (value.pretty ++ "\n").toList = (prettyAt 0 value).toList ++ ['\n'] := by
    simp [pretty]
  have hblank : (skipSpace ['\n']).isEmpty = true := by decide
  rw [readText, htext, hscan]
  simp only [hblank, ↓reduceIte]
  cases reader value.toDatum <;> rfl

end OpManifest.Json
