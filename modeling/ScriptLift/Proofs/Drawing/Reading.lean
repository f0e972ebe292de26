import Mathlib
import ScriptLift.Dot
import ScriptLift.Proofs.Text.Hex
import ScriptLift.Proofs.Text.Spelling

/-!
# Drawings can be read back

A drawing is a text of lines, but the strings in it hold what the script holds: quotes, backslashes,
line ends, and text that looks like other lines.  So a line ends at a line end outside strings only
(`linesOf`), and a string ends at a quote that no backslash stands before (`label?`).

Every line that is written closes its strings (`Closed`), so the lines of the text are the lines
that were written (`linesOf_joined`).  Each is read for what it was written for, and nothing else:
the title, the node of a block with the lines in it, or an edge (`Sketch.read_dot`).
-/

namespace ScriptLift.Dot

/-! ### Lines and strings -/

/-- Where a reader is: outside strings, inside one, or behind a backslash in one. -/
inductive Mode where
  | plain
  | quoted
  | escaped
  deriving DecidableEq

/-- The mode behind a character. -/
def Mode.next : Mode → Char → Mode
  | plain, c => if c = '"' then quoted else plain
  | quoted, c => if c = '"' then plain else if c = '\\' then escaped else quoted
  | escaped, _ => quoted

/-- The lines with one more character at the front of the first. -/
def extend (c : Char) : List (List Char) → List (List Char)
  | [] => [[c]]
  | l :: ls => (c :: l) :: ls

/-- The lines of a text; a line end inside a string does not end a line. -/
def linesFrom : Mode → List Char → List (List Char)
  | _, [] => []
  | m, c :: cs =>
    if m = .plain ∧ c = '\n' then [] :: linesFrom .plain cs else extend c (linesFrom (m.next c) cs)

/-- The lines of a text; a line break between quotes ends none. -/
def linesOf (text : String) : List (List Char) :=
  linesFrom .plain text.toList

/-- Where a reader is behind a piece of a line; there is nothing where the line ends before. -/
def scan : Mode → List Char → Option Mode
  | m, [] => some m
  | m, c :: cs => if m = .plain ∧ c = '\n' then none else scan (m.next c) cs

/-- A line that ends outside strings, and not before. -/
def Closed (line : String) : Prop :=
  scan .plain line.toList = some .plain

/-- Characters in front of the first line become part of it. -/
theorem foldr_extend (cs l : List Char) (ls : List (List Char)) :
    cs.foldr extend (l :: ls) = (cs ++ l) :: ls := by
  induction cs with
  | nil => rfl
  | cons c cs ih => rw [List.foldr_cons, ih, extend, List.cons_append]

section Scan

variable {m m' m'' : Mode} {cs ds : List Char}

/-- Scanning goes on in the mode that the first part left. -/
theorem scan_append (h : scan m cs = some m') : scan m (cs ++ ds) = scan m' ds := by
  induction cs generalizing m with
  | nil => rw [← Option.some.inj h, List.nil_append]
  | cons c cs ih =>
      rw [List.cons_append, scan]
      rw [scan] at h
      split_ifs at h ⊢
      exact ih h

/-- A piece of a line stands at the front of the first line of what follows. -/
theorem linesFrom_append (h : scan m cs = some m') (rest : List Char) :
    linesFrom m (cs ++ rest) = cs.foldr extend (linesFrom m' rest) := by
  induction cs generalizing m with
  | nil => rw [← Option.some.inj h, List.nil_append, List.foldr_nil]
  | cons c cs ih =>
      rw [List.cons_append, linesFrom, List.foldr_cons]
      rw [scan] at h
      split_ifs at h ⊢
      rw [ih h]

/-- What has neither a quote nor a backslash does not leave a string. -/
theorem scan_quoted (h : ∀ c ∈ cs, c ≠ '"' ∧ c ≠ '\\') : scan .quoted cs = some .quoted := by
  induction cs with
  | nil => rfl
  | cons c cs ih =>
      obtain ⟨hc, hcs⟩ := List.forall_mem_cons.mp h
      rw [scan, if_neg (by simp), Mode.next, if_neg hc.1, if_neg hc.2]
      exact ih hcs

/-- An escaped character leaves the quotes open. -/
theorem scan_escapeChar (c : Char) : scan .quoted (escapeChar c) = some .quoted := by
  unfold escapeChar
  by_cases hquote : c = '"'
  · subst hquote
    decide
  by_cases hback : c = '\\'
  · subst hback
    decide
  simp [scan, Mode.next, hquote, hback]

/-- An escaped text does not leave the string. -/
theorem scan_escape (s : String) : scan .quoted (escape s).toList = some .quoted := by
  rw [escape, String.toList_ofList]
  induction s.toList with
  | nil => rfl
  | cons c cs ih => rw [List.flatMap_cons, scan_append (scan_escapeChar c), ih]

end Scan

/-- A text in which every item of a list is followed by a mark. -/
theorem toList_intercalate_append {mark : String} {xs : List String} (h : xs ≠ []) :
    (mark.intercalate xs ++ mark).toList = xs.flatMap fun x => x.toList ++ mark.toList := by
  rw [String.toList_append, String.toList_intercalate]
  induction xs with
  | nil => exact absurd rfl h
  | cons x xs ih =>
      cases xs with
      | nil => simp [List.intercalate]
      | cons y ys =>
          rw [List.flatMap_cons, ← ih (List.cons_ne_nil y ys)]
          simp [List.intercalate]

/-- **The lines that are read are the lines that were written.** -/
theorem linesOf_joined {ls : List String} (hne : ls ≠ []) (h : ∀ l ∈ ls, Closed l) :
    linesOf ("\n".intercalate ls ++ "\n") = ls.map (·.toList) := by
  rw [linesOf, toList_intercalate_append hne]
  clear hne
  induction ls with
  | nil => rfl
  | cons l ls ih =>
      obtain ⟨hl, hls⟩ := List.forall_mem_cons.mp h
      have hend : "\n".toList = ['\n'] := by decide
      rw [List.flatMap_cons, List.append_assoc, linesFrom_append hl, hend, List.singleton_append,
        linesFrom, if_pos ⟨rfl, rfl⟩, foldr_extend, List.append_nil, ← hend, ih hls, List.map_cons]

/-- The lines in a string up to its closing quote, and what is behind it: a backslash and an `l` end
a line, and any other character behind a backslash stands for itself.  The reader may be behind a
backslash. -/
def labelFrom : Bool → List Char → Option (List (List Char) × List Char)
  | _, [] => none
  | true, c :: cs =>
    (labelFrom false cs).map (Prod.map (if c = 'l' then ([] :: ·) else extend c) id)
  | false, c :: cs =>
    if c = '"' then some ([[]], cs)
    else if c = '\\' then labelFrom true cs
    else (labelFrom false cs).map (Prod.map (extend c) id)

/-- The lines of a label and what is behind its closing quote. -/
def label? (cs : List Char) : Option (List (List Char) × List Char) :=
  labelFrom false cs

/-- The closing quote ends the last line. -/
theorem label?_quote (cs : List Char) : label? ('"' :: cs) = some ([[]], cs) := by
  rw [label?, labelFrom, if_pos rfl]

/-- A break in the label starts a line. -/
theorem label?_break (cs : List Char) :
    label? ("\\l".toList ++ cs) = (label? cs).map (Prod.map ([] :: ·) id) := by
  simp [label?, labelFrom]

/-- An escaped character is read as the character it was made of. -/
theorem label?_escapeChar (c : Char) (cs : List Char) :
    label? (escapeChar c ++ cs) = (label? cs).map (Prod.map (extend c) id) := by
  unfold escapeChar
  by_cases hquote : c = '"'
  · subst hquote
    simp [label?, labelFrom]
  by_cases hback : c = '\\'
  · subst hback
    simp [label?, labelFrom]
  simp [label?, labelFrom, hquote, hback]

/-- The same for a whole string, by induction on its characters. -/
theorem label?_escape (s : String) (cs : List Char) :
    label? ((escape s).toList ++ cs) = (label? cs).map (Prod.map (s.toList.foldr extend ·) id) := by
  rw [escape, String.toList_ofList]
  induction s.toList with
  | nil =>
      rw [List.flatMap_nil, List.nil_append]
      cases label? cs <;> rfl
  | cons c s ih =>
      rw [List.flatMap_cons, List.append_assoc, label?_escapeChar, ih, Option.map_map]
      rfl

/-- An escaped text up to the closing quote is one line. -/
theorem label?_quoted (s : String) (rest : List Char) :
    label? ((escape s).toList ++ '"' :: rest) = some ([s.toList], rest) := by
  rw [label?_escape, label?_quote, Option.map_some, Prod.map_apply, foldr_extend, List.append_nil]
  rfl

/-- **The lines in a label are read back.** -/
theorem label?_label {ls : List String} (hne : ls ≠ []) (rest : List Char) :
    label? ((label ls).toList ++ '"' :: rest) = some (ls.map (·.toList) ++ [[]], rest) := by
  rw [label, toList_intercalate_append (by simpa using hne)]
  clear hne
  induction ls with
  | nil => exact label?_quote rest
  | cons l ls ih =>
      rw [List.map_cons, List.flatMap_cons, List.append_assoc, List.append_assoc, label?_escape,
        label?_break, ih, Option.map_some, Option.map_some, Prod.map_apply, Prod.map_apply,
        foldr_extend, List.append_nil]
      rfl

/-- A label stays inside its quotes. -/
theorem scan_label {ls : List String} (hne : ls ≠ []) :
    scan .quoted (label ls).toList = some .quoted := by
  rw [label, toList_intercalate_append (by simpa using hne)]
  clear hne
  induction ls with
  | nil => rfl
  | cons l ls ih =>
      have hbreak : scan .quoted "\\l".toList = some .quoted := by decide
      rw [List.map_cons, List.flatMap_cons, List.append_assoc, scan_append (scan_escape l),
        scan_append hbreak, ih]

/-! ### Addresses -/

/-- The address that digits stand for, with a sign before them if it is negative. -/
def address : List Char → Int
  | [] => 0
  | c :: cs => if c = '-' then -(Number.ofNumeral 16 cs : Int) else Number.ofNumeral 16 (c :: cs)

/-- Digits are read as the number they write; no digit is taken for a sign. -/
theorem address_hexDigits (n : Nat) : address (Text.hexDigits n) = n := by
  cases h : Text.hexDigits n with
  | nil =>
      have hn := Number.ofNumeral_hexDigits n
      rw [h] at hn
      exact congrArg Int.ofNat hn
  | cons c cs =>
      have hc : c ≠ '-' :=
        fun hc => Text.minus_notMem_hexDigits n (by rw [h, hc]; exact List.mem_cons_self)
      rw [address, if_neg hc, ← h, Number.ofNumeral_hexDigits]

theorem toList_hex_ofNat (n : Nat) : (Text.hex 0 (.ofNat n)).toList = Text.hexDigits n := by
  simp [Text.hex, Text.zeroPad]

theorem toList_hex_negSucc (n : Nat) :
    (Text.hex 0 (.negSucc n)).toList = '-' :: Text.hexDigits (n + 1) := by
  simp [Text.hex, Text.zeroPad]

/-- An address is read back, also a negative one. -/
theorem address_hex (a : Int) : address (Text.hex 0 a).toList = a := by
  cases a with
  | ofNat n => rw [toList_hex_ofNat, address_hexDigits, Int.ofNat_eq_natCast]
  | negSucc n =>
      rw [toList_hex_negSucc, address, if_pos rfl, Number.ofNumeral_hexDigits]
      rfl

theorem notMem_hexDigits {x : Char} (hx : ∀ d < 16, d.digitChar.toUpper ≠ x) (n : Nat) :
    ∀ c ∈ Text.hexDigits n, c ≠ x := by
  induction n using Nat.strongRecOn with
  | ind n ih =>
    by_cases hn : n < 16
    · rw [Text.hexDigits_of_lt hn]
      simpa using hx n hn
    · rw [Text.hexDigits_of_le (Nat.le_of_not_lt hn)]
      intro c hc
      rcases List.mem_append.mp hc with hc | hc
      · exact ih (n / 16) (by omega) c hc
      · rw [List.mem_singleton.mp hc]
        exact hx _ (Nat.mod_lt n (by decide))

/-- The digits of an address leave the string alone. -/
theorem inside_hex (a : Int) : ∀ c ∈ (Text.hex 0 a).toList, c ≠ '"' ∧ c ≠ '\\' := by
  have hdigits : ∀ n, ∀ c ∈ Text.hexDigits n, c ≠ '"' ∧ c ≠ '\\' := fun n c hc =>
    ⟨notMem_hexDigits (by decide) n c hc, notMem_hexDigits (by decide) n c hc⟩
  cases a with
  | ofNat n =>
      rw [toList_hex_ofNat]
      exact hdigits n
  | negSucc n =>
      rw [toList_hex_negSucc]
      exact List.forall_mem_cons.mpr ⟨by decide, hdigits (n + 1)⟩

/-- The address of a node by its name, and what is behind the name. -/
def nodeName? (cs : List Char) : Option (Int × List Char) := do
  let cs ← cs.dropPrefix? ['"', 'b']
  return (address (cs.takeWhile (· ≠ '"')), (cs.dropWhile (· ≠ '"')).drop 1)

/-- The name of a node is read back as its address. -/
theorem nodeName?_nodeName (a : Int) (rest : List Char) :
    nodeName? ((nodeName a).toList ++ rest) = some (a, rest) := by
  have hname : (nodeName a).toList ++ rest
      = ['"', 'b'] ++ ((Text.hex 0 a).toList ++ '"' :: rest) := by
    simp [nodeName]
  have hall : ∀ c ∈ (Text.hex 0 a).toList, decide (c ≠ '"') = true := fun c hc =>
    decide_eq_true (inside_hex a c hc).1
  rw [hname, nodeName?, List.dropPrefix?_append_of_beq _ (by decide)]
  simp only [Option.pure_def, Option.bind_eq_bind, Option.bind_some, Option.some.injEq,
    Prod.mk.injEq]
  constructor
  · rw [List.takeWhile_append_of_pos hall, List.takeWhile_cons_of_neg (by decide), List.append_nil,
      address_hex]
  · rw [List.dropWhile_append_of_pos hall, List.dropWhile_cons_of_neg (by decide)]
    rfl

/-- The quotes of a name are closed. -/
theorem scan_nodeName (a : Int) : scan .plain (nodeName a).toList = some .plain := by
  have hname : (nodeName a).toList = ['"', 'b'] ++ ((Text.hex 0 a).toList ++ ['"']) := by
    simp [nodeName]
  have hopen : scan .plain ['"', 'b'] = some .quoted := by decide
  rw [hname, scan_append hopen, scan_append (scan_quoted (inside_hex a))]
  decide

/-! ### What a line says -/

/-- The title that a line gives to the drawing. -/
def title? (line : List Char) : Option String := do
  match ← label? (← line.dropPrefix? "  label=\"".toList) with
  | ([title], _) => some (.ofList title)
  | _ => none

/-- The block that a line draws, and the lines in it. -/
def node? (line : List Char) : Option (Int × List String) := do
  let (a, cs) ← nodeName? (← line.dropPrefix? "  ".toList)
  let (ls, _) ← label? (← cs.dropPrefix? " [label=\"".toList)
  return (a, ls.dropLast.map .ofList)

/-- The blocks that a line draws an edge between. -/
def edge? (line : List Char) : Option (Int × Int) := do
  let (a, cs) ← nodeName? (← line.dropPrefix? "  ".toList)
  let (b, _) ← nodeName? (← cs.dropPrefix? " -> ".toList)
  return (a, b)

/-- What a drawing shows, in the order of its lines. -/
structure Sketch where
  titles : List String
  nodes : List (Int × List String)
  edges : List (Int × Int)

/-- The titles, nodes and edges that the lines of a text state. -/
def Sketch.read (text : String) : Sketch where
  titles := (linesOf text).filterMap title?
  nodes := (linesOf text).filterMap node?
  edges := (linesOf text).filterMap edge?

/-- The line says no more than this. -/
structure Says (line : String) (titles : List String) (nodes : List (Int × List String))
    (edges : List (Int × Int)) : Prop where
  closed : Closed line
  title : (title? line.toList).toList = titles
  node : (node? line.toList).toList = nodes
  edge : (edge? line.toList).toList = edges

theorem dropPrefix?_self (cs ds : List Char) : (cs ++ ds).dropPrefix? cs = some ds :=
  List.dropPrefix?_append_of_beq ds (beq_self_eq_true cs)

/-- The line of the title says the title and nothing else. -/
theorem says_titleLine (title : String) :
    Says ("  label=\"" ++ escape title ++ "\";") [title] [] [] := by
  have hline : ("  label=\"" ++ escape title ++ "\";").toList
      = "  label=\"".toList ++ ((escape title).toList ++ '"' :: [';']) := by simp
  refine ⟨?_, ?_, ?_, ?_⟩
  · have hopen : scan .plain "  label=\"".toList = some .quoted := by decide
    rw [Closed, hline, scan_append hopen, scan_append (scan_escape title)]
    decide
  · rw [hline, title?, dropPrefix?_self]
    simp [label?_quoted]
  · rw [hline]
    simp [node?, nodeName?, List.dropPrefix?]
  · rw [hline]
    simp [edge?, nodeName?, List.dropPrefix?]

/-- The line of an edge says the edge and nothing else, dashed or not. -/
theorem says_edgeLine (a b : Int) : Says (edgeLine a b) [] [] [(a, b)] := by
  obtain ⟨tail, htail, hline⟩ : ∃ tail : List Char, scan .plain tail = some .plain ∧
      (edgeLine a b).toList = "  ".toList
        ++ ((nodeName a).toList ++ (" -> ".toList ++ ((nodeName b).toList ++ tail))) := by
    by_cases hback : b ≤ a
    · exact ⟨" [style=dashed];".toList, by decide, by simp [edgeLine, hback]⟩
    · exact ⟨[';'], by decide, by simp [edgeLine, hback]⟩
  refine ⟨?_, ?_, ?_, ?_⟩
  · have hindent : scan .plain "  ".toList = some .plain := by decide
    have harrow : scan .plain " -> ".toList = some .plain := by decide
    rw [Closed, hline, scan_append hindent, scan_append (scan_nodeName a), scan_append harrow,
      scan_append (scan_nodeName b), htail]
  · rw [hline]
    simp [title?, nodeName, List.dropPrefix?]
  · rw [hline, node?, dropPrefix?_self]
    simp [nodeName?_nodeName, List.dropPrefix?]
  · rw [hline, edge?, dropPrefix?_self]
    simp only [Option.bind_eq_bind, Option.bind_some, nodeName?_nodeName, dropPrefix?_self]
    rfl

/-- The line of a block says its address and its lines, whatever they contain. -/
theorem says_nodeLine (entry : Int) (b : Block) :
    Says (nodeLine entry b) [] [(b.start, nodeLines b)] [] := by
  have hne : nodeLines b ≠ [] := List.cons_ne_nil _ _
  -- what is behind the label depends on the block, but it closes its quotes
  obtain ⟨tail, htail, hline⟩ : ∃ tail : List Char, scan .plain tail = some .plain ∧
      (nodeLine entry b).toList = "  ".toList ++ ((nodeName b.start).toList ++ (" [label=\"".toList
        ++ ((label (nodeLines b)).toList ++ '"' :: tail))) := by
    by_cases hentry : b.start = entry
    · exact ⟨", peripheries=2];".toList, by decide, by simp [nodeLine, attributes, hentry]⟩
    by_cases hins : 1 < b.ins.length
    · exact ⟨", color=\"#2a6f97\"];".toList, by decide,
        by simp [nodeLine, attributes, hentry, hins]⟩
    · exact ⟨"];".toList, by decide, by simp [nodeLine, attributes, hentry, hins]⟩
  refine ⟨?_, ?_, ?_, ?_⟩
  · have hindent : scan .plain "  ".toList = some .plain := by decide
    have hopen : scan .plain " [label=\"".toList = some .quoted := by decide
    have hclose : scan .quoted ('"' :: tail) = some .plain := by
      rw [scan, if_neg (by simp), Mode.next, if_pos rfl, htail]
    rw [Closed, hline, scan_append hindent, scan_append (scan_nodeName b.start), scan_append hopen,
      scan_append (scan_label hne), hclose]
  · rw [hline]
    simp [title?, nodeName, List.dropPrefix?]
  · rw [hline, node?, dropPrefix?_self]
    simp only [Option.bind_eq_bind, Option.bind_some, nodeName?_nodeName, dropPrefix?_self,
      label?_label hne, List.dropLast_concat, List.map_map]
    simp [Function.comp_def]
  · rw [hline, edge?, dropPrefix?_self]
    simp [nodeName?_nodeName, List.dropPrefix?]

/-! ### The whole drawing -/

/-- The lines say together what the sketch shows, in their order. -/
structure Tells (ls : List String) (s : Sketch) : Prop where
  closed : ∀ l ∈ ls, Closed l
  titles : ls.flatMap (fun l => (title? l.toList).toList) = s.titles
  nodes : ls.flatMap (fun l => (node? l.toList).toList) = s.nodes
  edges : ls.flatMap (fun l => (edge? l.toList).toList) = s.edges

namespace Tells

variable {l : String} {ls ls' : List String} {s s' : Sketch} {titles : List String}
  {nodes : List (Int × List String)} {edges : List (Int × Int)}

theorem nil : Tells [] ⟨[], [], []⟩ where
  closed := fun _ hl => absurd hl List.not_mem_nil
  titles := rfl
  nodes := rfl
  edges := rfl

/-- One more line in front. -/
theorem cons (h : Says l titles nodes edges) (hs : Tells ls s) :
    Tells (l :: ls) ⟨titles ++ s.titles, nodes ++ s.nodes, edges ++ s.edges⟩ where
  closed := List.forall_mem_cons.mpr ⟨h.closed, hs.closed⟩
  titles := by rw [List.flatMap_cons, h.title, hs.titles]
  nodes := by rw [List.flatMap_cons, h.node, hs.nodes]
  edges := by rw [List.flatMap_cons, h.edge, hs.edges]

/-- Drawings one below the other say what both say. -/
theorem append (h : Tells ls s) (h' : Tells ls' s') :
    Tells (ls ++ ls') ⟨s.titles ++ s'.titles, s.nodes ++ s'.nodes, s.edges ++ s'.edges⟩ where
  closed := List.forall_mem_append.mpr ⟨h.closed, h'.closed⟩
  titles := by rw [List.flatMap_append, h.titles, h'.titles]
  nodes := by rw [List.flatMap_append, h.nodes, h'.nodes]
  edges := by rw [List.flatMap_append, h.edges, h'.edges]

/-- Of lines put together to a text, the sketch is what they tell. -/
theorem read_joined (h : Tells ls s) (hne : ls ≠ []) :
    Sketch.read ("\n".intercalate ls ++ "\n") = s := by
  have hmap : ∀ {α : Type} (f : List Char → Option α),
      (ls.map (·.toList)).filterMap f = ls.flatMap fun l => (f l.toList).toList := by
    intro α f
    rw [List.filterMap_map, List.filterMap_eq_flatMap_toList]
    rfl
  rw [Sketch.read, linesOf_joined hne h.closed, hmap, hmap, hmap, h.titles, h.nodes, h.edges]

end Tells

/-- A closed line that is no title, no node and no edge. -/
def isMute (line : String) : Bool :=
  scan .plain line.toList = some .plain && (title? line.toList).isNone && (node? line.toList).isNone
    && (edge? line.toList).isNone

/-- That a line says nothing can be computed. -/
theorem says_of_isMute {line : String} (h : isMute line = true) : Says line [] [] [] := by
  simp only [isMute, Bool.and_eq_true, decide_eq_true_eq, Option.isNone_iff_eq_none] at h
  obtain ⟨⟨⟨hclosed, htitle⟩, hnode⟩, hedge⟩ := h
  exact ⟨hclosed, by rw [htitle, Option.toList_none], by rw [hnode, Option.toList_none],
    by rw [hedge, Option.toList_none]⟩

/-- Of the opening lines only the title says something. -/
theorem tells_openingLines (title : String) : Tells (openingLines title) ⟨[title], [], []⟩ :=
  .cons (says_of_isMute (by decide +kernel)) <| .cons (says_of_isMute (by decide +kernel)) <|
    .cons (says_of_isMute (by decide +kernel)) <| .cons (says_of_isMute (by decide +kernel)) <|
      .cons (says_titleLine title) <| .cons (says_of_isMute (by decide +kernel)) .nil

theorem tells_edgeLines (a : Int) (bs : List Int) :
    Tells (bs.map (edgeLine a)) ⟨[], [], bs.map fun b => (a, b)⟩ := by
  induction bs with
  | nil => exact .nil
  | cons b bs ih => exact .cons (says_edgeLine a b) ih

/-- A block says itself and its ways out. -/
theorem tells_blockLines (entry : Int) (b : Block) :
    Tells (blockLines entry b)
      ⟨[], [(b.start, nodeLines b)], (sorted b.outs).map fun a => (b.start, a)⟩ :=
  .cons (says_nodeLine entry b) (tells_edgeLines b.start (sorted b.outs))

/-- By induction on the blocks. -/
theorem tells_blocks (entry : Int) (bs : List Block) :
    Tells (bs.flatMap (blockLines entry)) ⟨[], bs.map fun b => (b.start, nodeLines b),
      bs.flatMap fun b => (sorted b.outs).map fun a => (b.start, a)⟩ := by
  induction bs with
  | nil => exact .nil
  | cons b bs ih => exact (tells_blockLines entry b).append ih

/-- **What a drawing shows is what was drawn.** -/
theorem Sketch.read_dot (r : Routine) (title : Option String) :
    Sketch.read (r.dot title) = ⟨[(givenName? title).getD r.name],
      (ordered r.graph).map fun b => (b.start, nodeLines b),
      (ordered r.graph).flatMap fun b => (sorted b.outs).map fun a => (b.start, a)⟩ := by
  have hend : Tells ["\x7d"] ⟨[], [], []⟩ := .cons (says_of_isMute (by decide +kernel)) .nil
  have hall := ((tells_openingLines ((givenName? title).getD r.name)).append
    (tells_blocks r.address (ordered r.graph))).append hend
  simp only [List.append_nil, List.nil_append] at hall
  exact hall.read_joined (by simp [openingLines])

end ScriptLift.Dot
