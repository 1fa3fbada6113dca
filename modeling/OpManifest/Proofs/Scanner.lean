import OpManifest.Proofs.SyntaxTree
import OpManifest.Script.Scanner

/-!
# Where the nodes of a script are

The machine that reads a script puts its nodes where their text is: one behind
the other, inside the enclosure that they belong to, and a literal where its
delimiter stands (`fits_ofText`).

All that a character can do to the structure is listed in `Moves`: it belongs to
a token, or it ends one, or it opens or closes an enclosure.  Each of these keeps
the nodes where they should be (`Moves.fits`).
-/

namespace OpManifest.Script

open Text (IsPlace HasAt InOrder byteCount byteCount_append inOrder_append)

/-! ## Nodes of a text -/

/-- The bytes of a node; a mark is not looked for. -/
def Node.range? : Node → Option (Nat × Nat)
  | .word start text => some (start, start + text.utf8ByteSize)
  | .mark _ => none
  | .string start stop | .template _ start stop _ _ | .group _ start stop _ _ => some (start, stop)

/-- A node stands for a part of the text, in which its own nodes lie in order.  A
literal begins with its delimiter, and the nodes of a template stand behind it. -/
inductive Node.Fits (text : List Char) : Node → Prop where
  | word {start : Nat} {word : String} (hstart : IsPlace text start)
    (hstop : IsPlace text (start + word.utf8ByteSize)) : Fits text (.word start word)
  | mark {mark : String} : Fits text (.mark mark)
  | string {start stop : Nat} {c : Char} (hc : c ∈ delimiters) (hstart : HasAt text start c)
    (hstop : IsPlace text stop) (hlt : start < stop) : Fits text (.string start stop)
  | template {opening : Opening} {start stop : Nat} {nodes : List Node} {closed : Bool}
    (hstart : HasAt text start '\x60') (hstop : IsPlace text stop)
    (hordered : InOrder (start + 1) stop (nodes.filterMap range?))
    (hnodes : ∀ node ∈ nodes, node.Fits text) :
    Fits text (.template opening start stop nodes closed)
  | group {bracket : Bracket} {start stop : Nat} {nodes : List Node} {closed : Bool}
    (hstart : IsPlace text start) (hstop : IsPlace text stop)
    (hordered : InOrder start stop (nodes.filterMap range?))
    (hnodes : ∀ node ∈ nodes, node.Fits text) : Fits text (.group bracket start stop nodes closed)

/-! ## Open enclosures -/

namespace Frame

/-- Where the nodes of an enclosure may begin: those of a template stand behind its
backtick. -/
def inside (frame : Frame) : Nat :=
  match frame.enclosure with
  | .template _ => frame.start + 1
  | _ => frame.start

/-- The nodes of an open enclosure lie in order up to a place, and a template
begins with its backtick. -/
structure Fits (text : List Char) (stop : Nat) (frame : Frame) : Prop where
  start : IsPlace text frame.start
  template : ∀ opening, frame.enclosure = .template opening → HasAt text frame.start '\x60'
  ordered : InOrder frame.inside stop (frame.nodes.reverse.filterMap Node.range?)
  nodes : ∀ node ∈ frame.nodes, node.Fits text

section

variable {text : List Char} {frame : Frame} {node : Node} {start stop between next : Nat}

theorem start_le_inside (frame : Frame) : frame.start ≤ frame.inside := by
  unfold inside
  split <;> omega

theorem Fits.mono (h : frame.Fits text stop) (hle : stop ≤ next) : frame.Fits text next :=
  ⟨h.start, h.template, h.ordered.mono (Nat.le_refl _) hle, h.nodes⟩

theorem Fits.start_le (h : frame.Fits text stop) : frame.start ≤ stop :=
  Nat.le_trans frame.start_le_inside h.ordered.le

/-- A mark may join the nodes anywhere. -/
theorem Fits.add_mark (h : frame.Fits text stop) (mark : String) :
    ({ frame with nodes := .mark mark :: frame.nodes } : Frame).Fits text stop := by
  refine ⟨h.start, h.template, ?_, List.forall_mem_cons.2 ⟨.mark, h.nodes⟩⟩
  have hnone : [Node.mark mark].filterMap Node.range? = [] := rfl
  rw [List.reverse_cons, List.filterMap_append, hnone, List.append_nil]
  exact h.ordered

/-- A node that stands behind all others may join them. -/
theorem Fits.add (h : frame.Fits text between) (hnode : node.Fits text)
    (hrange : node.range? = some (start, next)) (hstart : between ≤ start) (hnext : start ≤ next)
    (hstop : next ≤ stop) :
    ({ frame with nodes := node :: frame.nodes } : Frame).Fits text stop := by
  refine ⟨h.start, h.template, ?_, List.forall_mem_cons.2 ⟨hnode, h.nodes⟩⟩
  rw [List.reverse_cons, List.filterMap_append]
  refine inOrder_append.2 ⟨between, h.ordered, ?_⟩
  simpa [hrange] using ⟨hstart, hnext, hstop⟩

/-- A tag becomes the children of its element. -/
theorem Fits.relabel (h : frame.Fits text stop) (htag : frame.enclosure = .tag) :
    ({ frame with enclosure := .children } : Frame).Fits text stop := by
  have hordered := h.ordered
  unfold inside at hordered
  rw [htag] at hordered
  exact ⟨h.start, nofun, hordered, h.nodes⟩

/-- An enclosure that was opened by a character has no nodes yet. -/
theorem Fits.opened {c : Char} {enclosure : Enclosure} (hat : HasAt text start c)
    (htemplate : ∀ opening, enclosure = .template opening → c = '\x60') :
    (⟨enclosure, start, []⟩ : Frame).Fits text (start + c.utf8Size) := by
  refine ⟨hat.isPlace, fun opening hopening => htemplate opening hopening ▸ hat, ?_, nofun⟩
  have := c.utf8Size_pos
  cases enclosure with
  | template opening => exact Nat.add_le_add_left this start
  | _ => exact Nat.le_add_right start _

/-- An enclosure becomes a node that reaches from its start to its end. -/
theorem Fits.toNode (h : frame.Fits text stop) (hstop : IsPlace text stop) (closed : Bool) :
    (frame.toNode stop closed).Fits text ∧
      (frame.toNode stop closed).range? = some (frame.start, stop) := by
  have hnodes : ∀ node ∈ frame.nodes.reverse, node.Fits text :=
    fun node hnode => h.nodes node (List.mem_reverse.1 hnode)
  have hordered := h.ordered
  unfold inside at hordered
  unfold Frame.toNode
  cases hkind : frame.enclosure with
  | template opening =>
    simp only [hkind] at hordered ⊢
    exact ⟨.template (h.template opening hkind) hstop hordered hnodes, rfl⟩
  | _ =>
    simp only [hkind] at hordered ⊢
    exact ⟨.group h.start hstop hordered hnodes, rfl⟩

end

end Frame

/-- Open enclosures, the innermost one first: each lies behind the nodes of the one
around it. -/
inductive Nested (text : List Char) : Nat → List Frame → Prop where
  | nil {stop : Nat} : Nested text stop []
  | cons {stop : Nat} {frame : Frame} {outer : List Frame} (hframe : frame.Fits text stop)
    (houter : Nested text frame.start outer) : Nested text stop (frame :: outer)

theorem Nested.mono {text : List Char} {stop next : Nat} {frames : List Frame}
    (h : Nested text stop frames) (hle : stop ≤ next) : Nested text next frames := by
  cases h with
  | nil => exact .nil
  | cons hframe houter => exact .cons (hframe.mono hle) houter

/-- At the end of the text all enclosures end, and their nodes lie in order. -/
theorem Nested.unwind {text : List Char} {stop : Nat} (hstop : IsPlace text stop) {top : Frame}
    {outer : List Frame} (h : Nested text stop (top :: outer)) :
    InOrder 0 stop ((Scanner.unwind stop top outer).filterMap Node.range?) ∧
      ∀ node ∈ Scanner.unwind stop top outer, node.Fits text := by
  induction outer generalizing top with
  | nil =>
    cases h with
    | cons hframe _ =>
      exact ⟨hframe.ordered.mono (Nat.zero_le _) (Nat.le_refl _),
        fun node hnode => hframe.nodes node (List.mem_reverse.1 hnode)⟩
  | cons around outer ih =>
    cases h with
    | cons hframe houter =>
      obtain ⟨hnode, hrange⟩ := hframe.toNode hstop false
      cases houter with
      | cons haround houter =>
        exact ih (.cons (haround.add hnode hrange (Nat.le_refl _) hframe.start_le (Nat.le_refl _))
          houter)

/-! ## Tokens -/

namespace Partial

/-- The token has no node of its own. -/
def IsSilent : Partial → Prop
  | .word _ _ | .string _ _ _ => False
  | _ => True

/-- Where the token begins that is being read before a place. -/
def start (token : Partial) (offset : Nat) : Nat :=
  match token with
  | .word start _ | .string _ start _ => start
  | _ => offset

theorem IsSilent.start_eq {token : Partial} (h : token.IsSilent) (offset : Nat) :
    token.start offset = offset := by
  cases token <;> first | rfl | cases h

/-- The token is what the text ends with so far, or a string that began with its
delimiter. -/
inductive Fits (text before : List Char) : Partial → Prop where
  | silent {token : Partial} (h : token.IsSilent) : Fits text before token
  | word {front collected : List Char} (h : before = front ++ collected.reverse) :
    Fits text before (.word (byteCount front) collected)
  | string {c : Char} {start : Nat} {escaped : Bool} (hc : c = '"' ∨ c = '\'')
    (hstart : HasAt text start c) (hlt : start < byteCount before) :
    Fits text before (.string c start escaped)

end Partial

/-- A token does not begin behind the text so far. -/
theorem Partial.Fits.start_le {text before : List Char} {token : Partial} {offset : Nat}
    (h : token.Fits text before) (hoffset : offset = byteCount before) :
    token.start offset ≤ offset := by
  cases h with
  | silent hsilent => exact Nat.le_of_eq (hsilent.start_eq offset)
  | word hbefore =>
    rw [hoffset, hbefore, byteCount_append]
    exact Nat.le_add_right _ _
  | string _ _ hlt => exact hoffset ▸ Nat.le_of_lt hlt

/-! ## Moves -/

namespace Scanner

/-- The word that a character belongs to, without the character: the one that is
being read, or a new one. -/
inductive Word (s : Scanner) : Nat → List Char → Prop where
  | opened (h : s.token.IsSilent) : Word s s.offset []
  | continued {start : Nat} {collected : List Char} (h : s.token = .word start collected) :
    Word s start collected

/-- What a character can do to the structure. -/
inductive Moves (s : Scanner) (c : Char) (next : Scanner) : Prop where
  /-- It belongs to no node. -/
  | keep (h : s.token.IsSilent) (hnext : next.token.IsSilent) (htop : next.top = s.top)
    (houter : next.outer = s.outer)
  /-- It ends the tag of an element whose children follow. -/
  | relabel (h : s.token.IsSilent) (hnext : next.token.IsSilent) (htag : s.top.enclosure = .tag)
    (htop : next.top = { s.top with enclosure := .children }) (houter : next.outer = s.outer)
  /-- It is a mark, or ends a token that becomes one. -/
  | mark (text : String) (h : s.token.IsSilent) (hnext : next.token.IsSilent)
    (htop : next.top = { s.top with nodes := .mark text :: s.top.nodes })
    (houter : next.outer = s.outer)
  /-- It belongs to a word that goes on. -/
  | word (start : Nat) (collected : List Char) (h : s.Word start collected)
    (hnext : next.token = .word start (c :: collected)) (htop : next.top = s.top)
    (houter : next.outer = s.outer)
  /-- It ends a word. -/
  | endWord (start : Nat) (collected : List Char) (h : s.Word start collected)
    (hnext : next.token.IsSilent)
    (htop : next.top = { s.top with
      nodes := .word start (.ofList (c :: collected).reverse) :: s.top.nodes })
    (houter : next.outer = s.outer)
  /-- It opens a string. -/
  | openString (h : s.token.IsSilent) (hc : c = '"' ∨ c = '\'')
    (hnext : next.token = .string c s.offset false) (htop : next.top = s.top)
    (houter : next.outer = s.outer)
  /-- It belongs to a string that goes on. -/
  | string (quote : Char) (start : Nat) (escaped escapes : Bool)
    (h : s.token = .string quote start escaped) (hnext : next.token = .string quote start escapes)
    (htop : next.top = s.top) (houter : next.outer = s.outer)
  /-- It ends a string. -/
  | endString (start : Nat) (escaped : Bool) (h : s.token = .string c start escaped)
    (hnext : next.token.IsSilent)
    (htop : next.top = { s.top with nodes := .string start (s.offset + 1) :: s.top.nodes })
    (houter : next.outer = s.outer)
  /-- It opens an enclosure. -/
  | enter (enclosure : Enclosure) (h : s.token.IsSilent) (hnext : next.token.IsSilent)
    (htemplate : ∀ opening, enclosure = .template opening → c = '\x60')
    (htop : next.top = ⟨enclosure, s.offset, []⟩) (houter : next.outer = s.top :: s.outer)
  /-- It closes an enclosure. -/
  | leave (around : Frame) (h : s.token.IsSilent) (hnext : next.token.IsSilent)
    (hone : c.utf8Size = 1) (hframes : s.outer = around :: next.outer)
    (htop : next.top =
      { around with nodes := s.top.toNode (s.offset + 1) true :: around.nodes })

section

variable {language : Language} {s : Scanner} {c : Char} {rest : List Char} {expect : Expect}

theorem mark_moves (h : s.token.IsSilent) (text : String) : s.Moves c (s.mark text expect) :=
  .mark text h trivial rfl rfl

theorem enter_moves (h : s.token.IsSilent) {enclosure : Enclosure}
    (henclosure : ∀ opening, enclosure ≠ .template opening) :
    s.Moves c (s.enter enclosure expect) :=
  .enter enclosure h h (fun opening heq => absurd heq (henclosure opening)) rfl rfl

/-- An enclosure is closed, unless there is none around it. -/
theorem leave_moves (h : s.token.IsSilent) (hone : c.utf8Size = 1) {token : Partial}
    (htoken : token.IsSilent) : s.Moves c { s.leave expect with token := token } := by
  unfold leave
  split
  · exact .keep h htoken rfl rfl
  · rename_i around outer houter
    exact .leave around h htoken hone houter rfl

theorem leave_moves_self (h : s.token.IsSilent) (hone : c.utf8Size = 1) :
    s.Moves c (s.leave expect) := by
  have hmoves : s.Moves c { s.leave expect with token := s.token } := leave_moves h hone h
  unfold leave at hmoves ⊢
  split at hmoves <;> exact hmoves

theorem wordChar_moves {start : Nat} {collected : List Char} (h : s.Word start collected) :
    s.Moves c (s.wordChar start collected c rest) := by
  unfold wordChar
  extract_lets longer goesOn
  split
  · exact .word start collected h rfl rfl rfl
  · exact .endWord start collected h trivial rfl rfl

theorem close_moves (h : s.token.IsSilent) : s.Moves c (s.close c) := by
  unfold close
  split
  · exact leave_moves_self h rfl
  · exact leave_moves_self h rfl
  · exact leave_moves_self h rfl
  · exact leave_moves_self h rfl
  · exact leave_moves h rfl trivial
  · exact mark_moves h _

/-- One way or the other the character does what it can do. -/
theorem ite_moves {p : Prop} [Decidable p] {a b : Scanner} (ha : p → s.Moves c a)
    (hb : ¬p → s.Moves c b) : s.Moves c (if p then a else b) :=
  iteInduction ha hb

theorem codeChar_moves (h : s.token.IsSilent) : s.Moves c (s.codeChar language c rest) := by
  unfold codeChar
  -- a space, or the first character of a comment
  refine ite_moves (fun _ => .keep h h rfl rfl) fun _ => ?_
  refine ite_moves (fun _ => .keep h trivial rfl rfl) fun _ => ?_
  refine ite_moves (fun _ => .keep h trivial rfl rfl) fun _ => ?_
  refine ite_moves (fun _ => .keep h trivial rfl rfl) fun _ => ?_
  -- a word, a string or a template
  refine ite_moves (fun _ => wordChar_moves (.opened h)) fun _ => ?_
  refine ite_moves (fun _ => wordChar_moves (.opened h)) fun _ => ?_
  refine ite_moves (fun hc => .openString h (by simpa using hc) rfl rfl rfl) fun _ => ?_
  refine ite_moves (fun hc => .enter _ h trivial (fun _ _ => hc) rfl rfl) fun _ => ?_
  -- a bracket
  refine ite_moves (fun _ => enter_moves h nofun) fun _ => ?_
  refine ite_moves (fun _ => enter_moves h nofun) fun _ => ?_
  refine ite_moves (fun _ => enter_moves h nofun) fun _ => ?_
  refine ite_moves (fun _ => close_moves h) fun _ => ?_
  -- a regular expression or an element
  refine ite_moves (fun _ => .keep h trivial rfl rfl) fun _ => ?_
  refine ite_moves (fun _ => enter_moves h nofun) fun _ => ?_
  -- All others are marks.
  repeat refine ite_moves (fun _ => mark_moves h _) fun _ => ?_
  exact mark_moves h _

theorem chunkChar_moves (h : s.token.IsSilent) (escaped : Bool) :
    s.Moves c (s.chunkChar escaped c rest) := by
  unfold chunkChar
  split
  · exact .keep h trivial rfl rfl
  split
  · exact .keep h trivial rfl rfl
  split
  · rename_i hc
    exact leave_moves h (hc ▸ rfl) trivial
  split
  · exact .enter .substitution h trivial nofun rfl rfl
  · exact .keep h trivial rfl rfl

theorem tagChar_moves (h : s.token.IsSilent) (htag : s.top.enclosure = .tag) :
    s.Moves c (s.tagChar c rest) := by
  unfold tagChar
  split
  · exact .keep h h rfl rfl
  split
  · exact enter_moves h nofun
  split
  · exact .keep h trivial rfl rfl
  split
  · exact .keep h trivial rfl rfl
  split
  · exact .keep h trivial rfl rfl
  split
  · exact .relabel h h htag rfl rfl
  split
  · exact enter_moves h nofun
  split
  · exact .keep h trivial rfl rfl
  · exact .keep h h rfl rfl

theorem childrenChar_moves (h : s.token.IsSilent) : s.Moves c (s.childrenChar c rest) := by
  unfold childrenChar
  split
  · exact enter_moves h nofun
  split
  · exact .keep h trivial rfl rfl
  split
  · exact enter_moves h nofun
  · exact .keep h h rfl rfl

/-- Between tokens it depends on the enclosure what a character does. -/
theorem outside_moves (h : s.token.IsSilent) :
    s.Moves c (match s.top.enclosure with
      | .tag => s.tagChar c rest
      | .children => s.childrenChar c rest
      | .template _ => s.chunkChar false c rest
      | _ => s.codeChar language c rest) := by
  split
  · rename_i htag
    exact tagChar_moves h htag
  · exact childrenChar_moves h
  · exact chunkChar_moves h false
  · exact codeChar_moves h

/-- A step is one of the moves. -/
theorem step_moves (language : Language) (s : Scanner) (c : Char) (rest : List Char) :
    s.Moves c (s.step language c rest) := by
  have hsilent {token : Partial} (htoken : s.token = token) (h : token.IsSilent) :
      s.token.IsSilent := htoken ▸ h
  unfold step
  split
  · rename_i count htoken
    refine .keep (hsilent htoken trivial) ?_ rfl rfl
    simp only
    split <;> trivial
  · rename_i start collected htoken
    exact wordChar_moves (.continued htoken)
  · rename_i quote start escaped htoken
    refine ite_moves (fun _ => .string quote start _ _ htoken rfl rfl rfl) fun _ => ?_
    refine ite_moves (fun _ => .string quote start _ _ htoken rfl rfl rfl) fun _ => ?_
    refine ite_moves (fun hc => .endString start _ (hc ▸ htoken) trivial rfl rfl) fun _ => ?_
    exact .string quote start _ _ htoken rfl rfl rfl
  · rename_i escaped htoken
    exact chunkChar_moves (hsilent htoken trivial) escaped
  · rename_i htoken
    have h := hsilent htoken trivial
    exact ite_moves (fun _ => .keep h trivial rfl rfl) fun _ => .keep h h rfl rfl
  · rename_i htoken
    have h := hsilent htoken trivial
    exact ite_moves (fun _ => .keep h trivial rfl rfl) fun _ => .keep h (htoken ▸ trivial) rfl rfl
  · rename_i inClass escaped htoken
    have h := hsilent htoken trivial
    refine ite_moves (fun _ => .keep h trivial rfl rfl) fun _ => ?_
    refine ite_moves (fun _ => .keep h trivial rfl rfl) fun _ => ?_
    refine ite_moves (fun _ => .keep h trivial rfl rfl) fun _ => ?_
    refine ite_moves (fun _ => .keep h trivial rfl rfl) fun _ => ?_
    refine ite_moves (fun _ => .mark "/" h ?_ rfl rfl) fun _ => .keep h h rfl rfl
    simp only
    split <;> trivial
  · rename_i htoken
    have h := hsilent htoken trivial
    exact ite_moves (fun _ => .keep h h rfl rfl) fun _ => .keep h trivial rfl rfl
  · rename_i quote htoken
    have h := hsilent htoken trivial
    exact ite_moves (fun _ => .keep h trivial rfl rfl) fun _ => .keep h h rfl rfl
  · rename_i htoken
    have h := hsilent htoken trivial
    exact ite_moves (fun hc => leave_moves h (hc ▸ rfl) trivial) fun _ => .keep h h rfl rfl
  · rename_i depth htoken
    have h := hsilent htoken trivial
    refine ite_moves (fun _ => .keep h trivial rfl rfl) fun _ => ?_
    refine ite_moves (fun _ => .keep h ?_ rfl rfl) fun _ => .keep h h rfl rfl
    cases depth <;> trivial
  · rename_i htoken
    exact outside_moves (hsilent htoken trivial)
  · rename_i htoken
    exact outside_moves (hsilent htoken trivial)

end

/-! ## The invariant -/

/-- So far all nodes are where their text is, and so is the token that is being
read. -/
structure Fits (text before : List Char) (s : Scanner) : Prop where
  offset : s.offset = byteCount before
  token : s.token.Fits text before
  frames : Nested text (s.token.start s.offset) (s.top :: s.outer)

section

variable {language : Language} {text before rest : List Char} {s next : Scanner} {c : Char}

theorem Fits.frames_of_silent (h : s.Fits text before) (hsilent : s.token.IsSilent) :
    Nested text s.offset (s.top :: s.outer) := by
  have hframes := h.frames
  rwa [hsilent.start_eq] at hframes

/-- A word begins behind all nodes, and the text so far ends with it. -/
theorem Word.of_fits {start : Nat} {collected : List Char} (h : s.Word start collected)
    (hfits : s.Fits text before) :
    (∃ front, before = front ++ collected.reverse ∧ byteCount front = start) ∧
      Nested text start (s.top :: s.outer) := by
  have hframes := hfits.frames
  cases h with
  | opened hsilent =>
    exact ⟨⟨before, by simp, hfits.offset.symm⟩, hfits.frames_of_silent hsilent⟩
  | continued htoken =>
    have htokenFits := hfits.token
    rw [htoken] at hframes htokenFits
    cases htokenFits with
    | silent h => cases h
    | word hbefore => exact ⟨⟨_, hbefore, rfl⟩, hframes⟩

theorem utf8Size_of_quote (hc : c = '"' ∨ c = '\'') : c.utf8Size = 1 := by
  rcases hc with rfl | rfl <;> rfl

theorem mem_delimiters_of_quote (hc : c = '"' ∨ c = '\'') : c ∈ delimiters := by
  rcases hc with rfl | rfl <;> simp [delimiters]

/-- Every move keeps the nodes where they should be. -/
theorem Moves.fits (hmoves : s.Moves c next) (h : s.Fits text before)
    (htext : text = before ++ c :: rest) :
    ({ next with offset := s.offset + c.utf8Size } : Scanner).Fits text (before ++ [c]) := by
  have hsize : byteCount (before ++ [c]) = s.offset + c.utf8Size := by
    rw [byteCount_append, h.offset]
    rfl
  have hat : HasAt text s.offset c := ⟨before, rest, htext, h.offset.symm⟩
  have hplace := hat.isPlace_add
  have hpositive := c.utf8Size_pos
  -- If no token of a node is being read after the move, only the enclosures matter.
  have hframes (hsilent : next.token.IsSilent)
      (hnested : Nested text (s.offset + c.utf8Size) (next.top :: next.outer)) :
      ({ next with offset := s.offset + c.utf8Size } : Scanner).Fits text (before ++ [c]) :=
    ⟨hsize.symm, .silent hsilent, by rwa [hsilent.start_eq]⟩
  cases hmoves with
  | keep hsilent hnext htop houter =>
    refine hframes hnext ?_
    rw [htop, houter]
    exact (h.frames_of_silent hsilent).mono (by omega)
  | relabel hsilent hnext htag htop houter =>
    refine hframes hnext ?_
    rw [htop, houter]
    cases h.frames_of_silent hsilent with
    | cons hframe houter => exact .cons ((hframe.relabel htag).mono (by omega)) houter
  | mark text hsilent hnext htop houter =>
    refine hframes hnext ?_
    rw [htop, houter]
    cases h.frames_of_silent hsilent with
    | cons hframe houter => exact .cons ((hframe.add_mark text).mono (by omega)) houter
  | word start collected hword hnext htop houter =>
    obtain ⟨⟨front, rfl, rfl⟩, hnested⟩ := hword.of_fits h
    refine ⟨hsize.symm, ?_, ?_⟩
    · rw [hnext]
      exact .word (by simp)
    · rw [hnext, htop, houter]
      exact hnested
  | endWord start collected hword hnext htop houter =>
    obtain ⟨⟨front, rfl, rfl⟩, hnested⟩ := hword.of_fits h
    refine hframes hnext ?_
    rw [htop, houter]
    have hstop : byteCount front + (String.ofList (c :: collected).reverse).utf8ByteSize =
        s.offset + c.utf8Size := by
      rw [Text.utf8ByteSize_ofList, List.reverse_cons, ← byteCount_append, ← List.append_assoc,
        hsize]
    have hstart : IsPlace text (byteCount front) :=
      ⟨front, collected.reverse ++ c :: rest, by simpa using htext, rfl⟩
    cases hnested with
    | cons hframe houter =>
      exact .cons (hframe.add (.word hstart (hstop ▸ hplace)) rfl (Nat.le_refl _)
        (Nat.le_add_right _ _) (Nat.le_of_eq hstop)) houter
  | openString hsilent hc hnext htop houter =>
    refine ⟨hsize.symm, ?_, ?_⟩
    · rw [hnext]
      exact .string hc hat (by omega)
    · rw [hnext, htop, houter]
      exact h.frames_of_silent hsilent
  | string quote start escaped escapes htoken hnext htop houter =>
    have htokenFits := h.token
    have hnested := h.frames
    rw [htoken] at htokenFits hnested
    refine ⟨hsize.symm, ?_, ?_⟩
    · rw [hnext]
      cases htokenFits with
      | silent h => cases h
      | string hc hstart hlt => exact .string hc hstart (by have := h.offset; omega)
    · rw [hnext, htop, houter]
      exact hnested
  | endString start escaped htoken hnext htop houter =>
    have htokenFits := h.token
    have hnested := h.frames
    rw [htoken] at htokenFits hnested
    refine hframes hnext ?_
    rw [htop, houter]
    cases htokenFits with
    | silent h => cases h
    | string hc hstart hlt =>
      have hone := utf8Size_of_quote hc
      have := h.offset
      rw [hone] at hplace ⊢
      cases hnested with
      | cons hframe houter =>
        exact .cons (hframe.add (.string (mem_delimiters_of_quote hc) hstart hplace (by omega)) rfl
          (Nat.le_refl _) (by omega) (Nat.le_refl _)) houter
  | enter enclosure hsilent hnext htemplate htop houter =>
    refine hframes hnext ?_
    rw [htop, houter]
    refine .cons (.opened hat htemplate) (h.frames_of_silent hsilent)
  | leave around hsilent hnext hone houter htop =>
    refine hframes hnext ?_
    rw [htop]
    have hnested := h.frames_of_silent hsilent
    rw [houter] at hnested
    rw [hone] at hplace ⊢
    cases hnested with
    | cons hframe houter =>
      cases houter with
      | cons haround houter =>
        have hclosed := hframe.mono (Nat.le_add_right s.offset 1)
        obtain ⟨hnode, hrange⟩ := hclosed.toNode hplace true
        exact .cons (haround.add hnode hrange (Nat.le_refl _) hclosed.start_le (Nat.le_refl _))
          houter

theorem initial_fits (text : List Char) : initial.Fits text [] :=
  ⟨rfl, .silent trivial, .cons ⟨Text.isPlace_zero, nofun, Nat.le_refl 0, nofun⟩ .nil⟩

/-- A whole run keeps them there. -/
theorem Fits.run (h : s.Fits text before) (htext : text = before ++ rest) :
    (s.run language rest).Fits text text := by
  induction rest generalizing s before with
  | nil =>
    rw [List.append_nil] at htext
    exact htext ▸ h
  | cons c rest ih =>
    exact ih ((step_moves language s c rest).fits h htext) (by simpa using htext)

end

end Scanner

/-- The nodes of a script lie in order where their text is. -/
theorem Node.fits_ofText (language : Language) (text : String) :
    InOrder 0 (byteCount text.toList) ((Node.ofText language text).filterMap Node.range?) ∧
      ∀ node ∈ Node.ofText language text, node.Fits text.toList := by
  have h : (Scanner.initial.run language text.toList).Fits text.toList text.toList :=
    (Scanner.initial_fits text.toList).run (List.nil_append _).symm
  have hstop : IsPlace text.toList (byteCount text.toList) := Text.isPlace_byteCount
  rw [← h.offset] at hstop ⊢
  exact (h.frames.mono (h.token.start_le h.offset)).unwind hstop

end OpManifest.Script
