import Mathlib
import ScriptLift.Drawing
import ScriptLift.Lift.Interpret
import ScriptLift.Proofs.FileTree

/-!
# Where drawings are stored

Each routine's drawing goes where the directory's path leads with the routine's name joined to it
(`Routine.place?`).  Writing one drawing changes the tree there at most
(`Routine.writeDrawing_spec`), so of several routines that lead to one place the last one's drawing
stays (`Routine.writeDrawings_spec`).

Names come from the script and need not be names of files.  Without slashes in them every drawing is
stored in the directory itself, and only routines of the same name share a file
(`Routine.writeDrawings_inside`); with a slash a drawing can get out of the directory
(`Routine.writeDrawings_outside`).
-/

namespace ScriptLift

namespace FileTree

variable {t t' : FileTree}

/-- The trees have the same directories, and they differ only at the given locations. -/
structure ChangesOnly (ls : List Location) (t t' : FileTree) : Prop where
  elsewhere : ∀ m, m ∉ ls → t'.item? m = t.item? m
  directories : ∀ m, t'.item? m = some .directory ↔ t.item? m = some .directory

theorem ChangesOnly.refl (ls : List Location) (t : FileTree) : ChangesOnly ls t t :=
  ⟨fun _ _ => rfl, fun _ => Iff.rfl⟩

/-- Two changes one after the other change what either changes. -/
theorem ChangesOnly.trans {ls ls' : List Location} {t₁ t₂ t₃ : FileTree} (h : ChangesOnly ls t₁ t₂)
    (h' : ChangesOnly ls' t₂ t₃) : ChangesOnly (ls ++ ls') t₁ t₃ where
  elsewhere m hm := by
    rw [List.mem_append, not_or] at hm
    rw [h'.elsewhere m hm.2, h.elsewhere m hm.1]
  directories m := (h'.directories m).trans (h.directories m)

/-- The path names a directory of the tree. -/
structure Offers (t : FileTree) (directory : Path) : Prop where
  root : t.item? [] = some .directory
  parts : "/" ∉ directory.parts
  there : ∃ l, t.HasDirectoryAt directory l

/-- Writing files takes no directory away. -/
theorem Offers.of_changesOnly {ls : List Location} {directory : Path} (h : t.Offers directory)
    (hchange : ChangesOnly ls t t') : t'.Offers directory where
  root := (hchange.directories []).mpr h.root
  parts := h.parts
  there := h.there.imp fun _ hl =>
    hl.of_directories h.root h.parts fun m => (hchange.directories m).mpr

end FileTree

theorem Rendering.notInstalled_ne_picture (bytes : List UInt8) :
    Rendering.notInstalled ≠ .picture bytes := by
  intro h
  cases h

namespace Routine

open FileTree

variable {t t' : FileTree} {directory : Path} {render : String → Rendering}

/-- Where the drawing of a routine is stored. -/
def place? (directory : Path) (t : FileTree) (r : Routine) : Option Location :=
  t.location? (directory.join (r.name ++ ".dot"))

/-- The drawing of a routine can be stored. -/
def CanBeStored (directory : Path) (t : FileTree) (r : Routine) : Prop :=
  r.isDrawingEncodable = true ∧ ∃ l, r.place? directory t = some l ∧ t.item? l ≠ some .directory

/-- Where a drawing goes depends on the directories only. -/
theorem place?_congr (h : t.Offers directory) {ls : List Location} (hchange : ChangesOnly ls t t')
    (r : Routine) : r.place? directory t' = r.place? directory t :=
  location?_congr h.root (Path.slash_not_mem_parts_join h.parts _) hchange.directories

/-- Storing one drawing does not change which others can be stored. -/
theorem canBeStored_congr (h : t.Offers directory) {ls : List Location}
    (hchange : ChangesOnly ls t t') (r : Routine) :
    r.CanBeStored directory t' ↔ r.CanBeStored directory t := by
  simp only [CanBeStored, place?_congr h hchange, ne_eq, hchange.directories]

/-! ### One drawing -/

/-- Without a picture from the renderer, nothing is written. -/
theorem writePicture_of_no_picture {text : String} (h : ∀ bytes, render text ≠ .picture bytes)
    (path : Path) (t : FileTree) :
    (writePicture render text path t).value = .ok false ∧
      (writePicture render text path t).tree = t := by
  rw [writePicture]
  cases hr : render text with
  | picture bytes => exact absurd hr (h bytes)
  | missing | failed => exact ⟨rfl, rfl⟩

/-- **What writing one drawing does.** -/
theorem writeDrawing_spec (h : t.Offers directory)
    (hrender : ∀ text bytes, render text ≠ .picture bytes) (r : Routine) :
    let out := r.writeDrawing directory (some render) t
    ((∃ paths, out.value = .ok paths) ↔ r.CanBeStored directory t) ∧
      ChangesOnly (r.place? directory t).toList t out.tree ∧
      (r.CanBeStored directory t →
        ∀ l, r.place? directory t = some l →
          out.tree.item? l = some (.file (r.dot none).toUTF8.toList)) := by
  intro out
  obtain ⟨l₀, hthere⟩ := h.there
  have hparts := Path.slash_not_mem_parts_join h.parts (r.name ++ ".dot")
  simp only [out, writeDrawing, makeDirectories_of_directory h.root h.parts hthere]
  rcases write_cases h.root hparts (if r.isDrawingEncodable then (r.dot none).toUTF8.toList else [])
    with ⟨e, hwrite, hblocked⟩ | ⟨l, t', hl, hfree, hwrite, hself, helse⟩
  · -- The file cannot be written, so nothing has changed.
    have hnot : ¬ r.CanBeStored directory t := fun ⟨_, l, hl, hfree⟩ => hfree (hblocked l hl)
    rw [hwrite]
    exact ⟨by simp [hnot], .refl _ t, fun hstored => absurd hstored hnot⟩
  · have hplace : r.place? directory t = some l := hl
    have hchange : ChangesOnly (r.place? directory t).toList t t' := by
      refine ⟨fun m hm => helse m ?_, fun m => ?_⟩
      · simpa [hplace, eq_comm] using hm
      · by_cases hm : m = l
        · simp [hm, hself, hfree]
        · rw [helse m hm]
    rw [hwrite]
    cases hencodable : r.isDrawingEncodable with
    | false =>
        have hnot : ¬ r.CanBeStored directory t := by simp [CanBeStored, hencodable]
        exact ⟨by simp [hnot], hchange, fun hstored => absurd hstored hnot⟩
    | true =>
        obtain ⟨hvalue, htree⟩ := writePicture_of_no_picture (hrender (r.dot none))
          (directory.join (r.name ++ ".svg")) t'
        simp only [if_true, hvalue, htree]
        refine ⟨?_, hchange, fun _ m hm => ?_⟩
        · simpa [Except.map, CanBeStored, hencodable, hplace] using hfree
        · obtain rfl : l = m := Option.some.inj (hplace.symm.trans hm)
          simpa [hencodable] using hself

/-! ### All drawings -/

/-- After a drawing that was stored, the others follow in the tree it left. -/
theorem writeDrawings_cons_of_ok {r : Routine} {paths : Path × Option Path}
    (h : (r.writeDrawing directory (some render) t).value = .ok paths) (rs : List Routine) :
    let out := writeDrawings directory (some render) (r :: rs) t
    let rest :=
      writeDrawings directory (some render) rs (r.writeDrawing directory (some render) t).tree
    out.value = rest.value ∧ out.tree = rest.tree := by
  intro out rest
  simp only [out, rest, writeDrawings]
  cases hr : r.writeDrawing directory (some render) t with
  | mk value tree events =>
      obtain rfl : value = .ok paths := by rw [← h, hr]
      exact ⟨rfl, rfl⟩

/-- A drawing that cannot be stored ends the writing. -/
theorem writeDrawings_cons_of_error {r : Routine} {e : FileError}
    (h : (r.writeDrawing directory (some render) t).value = .error e) (rs : List Routine) :
    let out := writeDrawings directory (some render) (r :: rs) t
    out.value = .error e ∧ out.tree = (r.writeDrawing directory (some render) t).tree := by
  intro out
  simp only [out, writeDrawings]
  cases hr : r.writeDrawing directory (some render) t with
  | mk value tree events =>
      obtain rfl : value = .error e := by rw [← h, hr]
      exact ⟨rfl, rfl⟩

/-- **What writing several drawings does.**  It changes the tree only where the drawings are stored,
it succeeds if all of them can be stored, and then each drawing is there that no later one has
replaced. -/
theorem writeDrawings_spec (h : t.Offers directory)
    (hrender : ∀ text bytes, render text ≠ .picture bytes) (rs : List Routine) :
    let out := writeDrawings directory (some render) rs t
    (out.value = .ok () ↔ ∀ r ∈ rs, r.CanBeStored directory t) ∧
      ChangesOnly (rs.filterMap (·.place? directory t)) t out.tree ∧
      (out.value = .ok () → ∀ before r after, rs = before ++ r :: after →
        ∀ l, r.place? directory t = some l → (∀ q ∈ after, q.place? directory t ≠ some l) →
          out.tree.item? l = some (.file (r.dot none).toUTF8.toList)) := by
  induction rs generalizing t with
  | nil => exact ⟨by simp [writeDrawings], .refl _ t, by simp⟩
  | cons r rs ih =>
      intro out
      obtain ⟨hvalue, hchange, hthere⟩ := writeDrawing_spec h hrender r
      have hplaces : (r :: rs).filterMap (·.place? directory t) =
          (r.place? directory t).toList ++ rs.filterMap (·.place? directory t) := by
        cases hr : r.place? directory t <;> simp [hr]
      rw [hplaces]
      cases hr : (r.writeDrawing directory (some render) t).value with
      | error e =>
          -- Nothing is written after the first drawing that cannot be stored.
          obtain ⟨hout, htree⟩ := writeDrawings_cons_of_error hr rs
          have hnot : ¬ r.CanBeStored directory t := by
            rw [← hvalue, hr]
            simp
          simp only [out, hout, htree]
          refine ⟨by simp [hnot], ⟨fun m hm => hchange.elsewhere m ?_, hchange.directories⟩,
            by simp⟩
          exact fun hmem => hm (List.mem_append_left _ hmem)
      | ok paths =>
          obtain ⟨hout, htree⟩ := writeDrawings_cons_of_ok hr rs
          have hstored : r.CanBeStored directory t := hvalue.mp ⟨paths, hr⟩
          obtain ⟨hvalue', hchange', hthere'⟩ := ih (h.of_changesOnly hchange)
          simp only [place?_congr h hchange, canBeStored_congr h hchange]
            at hvalue' hchange' hthere'
          simp only [out, hout, htree]
          refine ⟨by simp [hvalue', hstored], hchange.trans hchange', ?_⟩
          intro hok before q after hrs l hl hlater
          rcases before with _ | ⟨_, before⟩
          · -- The first drawing stays if no later one is stored in its place.
            obtain ⟨rfl, rfl⟩ := List.cons.inj hrs
            rw [hchange'.elsewhere l ?_, hthere hstored l hl]
            simpa using hlater
          · exact hthere' hok before q after (List.cons.inj hrs).2 l hl hlater

/-- Making the directory beforehand makes no difference. -/
theorem writeDrawings_of_made (hroot : t.item? [] = some .directory)
    (hparts : "/" ∉ directory.parts)
    (hmade : makeDirectories directory directory.parts.length t = .ok t')
    {rs : List Routine} (hrs : rs ≠ []) :
    writeDrawings directory (some render) rs t = writeDrawings directory (some render) rs t' := by
  obtain ⟨hgrows, l, hthere⟩ := makeDirectories_spec hroot hparts hmade
  have hsame :=
    makeDirectories_of_directory (hgrows.directory hroot) hparts hthere directory.parts.length
  cases rs with
  | nil => exact absurd rfl hrs
  | cons r rs =>
      have hfirst : r.writeDrawing directory (some render) t
          = r.writeDrawing directory (some render) t' := by
        rw [writeDrawing, writeDrawing, hmade, hsame]
      rw [writeDrawings, writeDrawings, hfirst]

/-! ### Names without slashes -/

/-- The drawing of a routine can be a file of the directory at `l`, to which a path leads. -/
structure FitsInto (directory : Path) (t : FileTree) (l : Location) (r : Routine) : Prop where
  encodable : r.isDrawingEncodable = true
  noNull : '\x00' ∉ r.name.toList
  name_le : (r.name ++ ".dot").utf8ByteSize ≤ nameLimit
  path_le : (directory.join (r.name ++ ".dot")).text.utf8ByteSize ≤ pathLimit
  free : t.item? (l ++ [r.name ++ ".dot"]) ≠ some .directory

/-- A name without a slash is the name of one entry. -/
theorem isEntryName_dot {name : String} (h : '/' ∉ name.toList) :
    Path.IsEntryName (name ++ ".dot") := by
  have hlast : ∀ other : String, other.toList.getLast? ≠ some 't' → name ++ ".dot" ≠ other := by
    rintro _ hne rfl
    simp at hne
  exact ⟨by simpa using h, hlast "" (by decide), hlast "." (by decide), hlast ".." (by decide)⟩

/-- Such a drawing goes into the directory itself, unless its name cannot be that of a file. -/
theorem place?_of_name (h : t.Offers directory) {l : Location} (hl : t.HasDirectoryAt directory l)
    {r : Routine} (hname : '/' ∉ r.name.toList) :
    r.place? directory t =
      if '\x00' ∈ r.name.toList ∨ nameLimit < (r.name ++ ".dot").utf8ByteSize ∨
        pathLimit < (directory.join (r.name ++ ".dot")).text.utf8ByteSize then none
      else some (l ++ [r.name ++ ".dot"]) := by
  rw [place?, location?_join h.root h.parts hl (isEntryName_dot hname)]
  simp

theorem eq_of_place?_eq_some (h : t.Offers directory) {l m : Location}
    (hl : t.HasDirectoryAt directory l) {r : Routine} (hname : '/' ∉ r.name.toList)
    (hm : r.place? directory t = some m) :
    m = l ++ [r.name ++ ".dot"] := by
  rw [place?_of_name h hl hname, Option.ite_none_left_eq_some] at hm
  exact (Option.some.inj hm.2).symm

/-- Whether such a drawing can be stored, by its name and what is there already. -/
theorem canBeStored_iff (h : t.Offers directory) {l : Location} (hl : t.HasDirectoryAt directory l)
    {r : Routine} (hname : '/' ∉ r.name.toList) :
    r.CanBeStored directory t ↔ r.FitsInto directory t l := by
  rw [CanBeStored, place?_of_name h hl hname]
  simp only [Option.ite_none_left_eq_some, not_or, not_lt, Option.some.injEq]
  constructor
  · rintro ⟨hencodable, _, ⟨⟨hnull, hshort, hpath⟩, rfl⟩, hfree⟩
    exact ⟨hencodable, hnull, hshort, hpath, hfree⟩
  · intro hfits
    exact ⟨hfits.encodable, _, ⟨⟨hfits.noNull, hfits.name_le, hfits.path_le⟩, rfl⟩, hfits.free⟩

/-- **Drawings stay in their directory, apart by name.**  If the directory can be made and no name
has a slash in it, then everything is stored exactly if each drawing fits into the directory; each
drawing is then in the file of its routine's name, unless a later routine has the same name; and
apart from these files, whether or not all could be stored, only directories are new. -/
theorem writeDrawings_inside (text : String) (es : List (String × FileTree)) (t₁ : FileTree)
    (hmade : makeDirectories (.ofString text) (Path.ofString text).parts.length (.directory es)
      = .ok t₁)
    (render : String → Rendering) (hrender : ∀ text bytes, render text ≠ .picture bytes)
    (rs : List Routine) (hnames : ∀ r ∈ rs, '/' ∉ r.name.toList) :
    ∃ l, t₁.HasDirectoryAt (.ofString text) l ∧
      let out := writeDrawings (.ofString text) (some render) rs (.directory es)
      (out.value = .ok () ↔ ∀ r ∈ rs, r.FitsInto (.ofString text) t₁ l) ∧
      (out.value = .ok () → ∀ before r after, rs = before ++ r :: after →
        (∀ q ∈ after, q.name ≠ r.name) →
          out.tree.item? (l ++ [r.name ++ ".dot"]) = some (.file (r.dot none).toUTF8.toList)) ∧
      ∀ m, (∀ r ∈ rs, m ≠ l ++ [r.name ++ ".dot"]) →
        out.tree.item? m = (FileTree.directory es).item? m ∨
          (FileTree.directory es).item? m = none ∧ out.tree.item? m = some .directory := by
  have hroot : (FileTree.directory es).item? [] = some .directory := rfl
  have hparts := Path.slash_not_mem_parts_ofString text
  obtain ⟨hgrows, l, hl⟩ := makeDirectories_spec hroot hparts hmade
  have hoffers : t₁.Offers (.ofString text) := ⟨hgrows.directory hroot, hparts, l, hl⟩
  refine ⟨l, hl, ?_⟩
  intro out
  by_cases hrs : rs = []
  · subst hrs
    exact ⟨by simp [out, writeDrawings], by simp, fun m _ => .inl rfl⟩
  · have hout : out = writeDrawings (.ofString text) (some render) rs t₁ :=
      writeDrawings_of_made hroot hparts hmade hrs
    obtain ⟨hvalue, hchange, hthere⟩ := writeDrawings_spec hoffers hrender rs
    rw [← hout] at hvalue hchange hthere
    refine ⟨hvalue.trans (forall₂_congr fun r hr => canBeStored_iff hoffers hl (hnames r hr)), ?_,
      ?_⟩
    · intro hok before r after hsplit hlater
      have hr : r ∈ rs := by simp [hsplit]
      obtain ⟨-, m, hm, -⟩ := hvalue.mp hok r hr
      obtain rfl := eq_of_place?_eq_some hoffers hl (hnames r hr) hm
      refine hthere hok before r after hsplit _ hm fun q hq hplace => hlater q hq ?_
      -- Two drawings in one place have one name.
      have hsame := eq_of_place?_eq_some hoffers hl (hnames q (by simp [hsplit, hq])) hplace
      simpa [eq_comm] using hsame
    · intro m hm
      rw [hchange.elsewhere m ?_]
      · exact hgrows m
      · intro hmem
        obtain ⟨r, hr, hplace⟩ := List.mem_filterMap.mp hmem
        exact hm r hr (eq_of_place?_eq_some hoffers hl (hnames r hr) hplace)

/-- Two routines of one name and one whose name is two dots: the later of the two is stored, and a
file beside the directory stays. -/
theorem writeDrawings_inside_sameName :
    let es := [("keep", FileTree.file [7])]
    let t₁ := FileTree.directory [("keep", .file [7]), ("out", .empty)]
    let r₁ : Routine := .ofCode "f" [⟨0, .op .leave, .ret 0 0⟩] []
    let r₂ : Routine := .ofCode ".." [⟨1, .op .leave, .ret 0 0⟩] []
    let r₃ : Routine := .ofCode "f" [⟨2, .op .nop, .none⟩, ⟨3, .op .leave, .ret 0 0⟩] []
    makeDirectories (.ofString "./out/") 1 (.directory es) = .ok t₁ ∧
      (∀ r ∈ [r₁, r₂, r₃], '/' ∉ r.name.toList) ∧
      let out := writeDrawings (.ofString "./out/") (some fun _ => .notInstalled) [r₁, r₂, r₃]
        (.directory es)
      out.value = .ok () ∧
        out.tree.item? ["out", "f.dot"] = some (.file (r₃.dot none).toUTF8.toList) ∧
        out.tree.item? ["out", "...dot"] = some (.file (r₂.dot none).toUTF8.toList) ∧
        out.tree.item? ["keep"] = some (.file [7]) := by
  intro es t₁ r₁ r₂ r₃
  have hmade : makeDirectories (.ofString "./out/") 1 (.directory es) = .ok t₁ := by
    dsimp only [es, t₁]
    cbv
  have hnames : ∀ r ∈ [r₁, r₂, r₃], '/' ∉ r.name.toList := by decide +kernel
  obtain ⟨l, hl, hvalue, hstored, helse⟩ := writeDrawings_inside "./out/" es t₁ hmade
    (fun _ => .notInstalled) (fun _ => Rendering.notInstalled_ne_picture) [r₁, r₂, r₃] hnames
  have hlocation : t₁.location? (.ofString "./out/") = some ["out"] := by decide +kernel
  obtain rfl : ["out"] = l := Option.some.inj (hlocation.symm.trans hl.1)
  have hfits : ∀ r ∈ [r₁, r₂, r₃], r.FitsInto (.ofString "./out/") t₁ ["out"] := by
    refine List.forall_mem_cons.mpr ⟨?_,
      List.forall_mem_cons.mpr ⟨?_, List.forall_mem_singleton.mpr ?_⟩⟩
    all_goals constructor <;> decide +kernel
  have hok := hvalue.mpr hfits
  refine ⟨hmade, hnames, hok, hstored hok [r₁, r₂] r₃ [] rfl (by simp),
    hstored hok [r₁] r₂ [r₃] rfl (by decide +kernel), ?_⟩
  rcases helse ["keep"] (by decide +kernel) with hsame | ⟨hnone, -⟩
  · exact hsame
  · cases hnone

/-- **With slashes they do not.**  Of three routines with the names `f`, `f` and `../up`, the first
two share a file, and the third is drawn outside the directory. -/
theorem writeDrawings_outside :
    let p : Program := {
      name := "script"
      code := [⟨0, .op .enter, .enter 0 0 "f"⟩, ⟨1, .op .leave, .ret 0 0⟩,
        ⟨2, .op .enter, .enter 0 0 "f"⟩, ⟨3, .op .nop, .none⟩, ⟨4, .op .leave, .ret 0 0⟩,
        ⟨5, .op .enter, .enter 0 0 "../up"⟩, ⟨6, .op .leave, .ret 0 0⟩] }
    ∃ r₁ r₂ r₃, p.decompile.value = .ok [r₁, r₂, r₃] ∧
      r₁.name = "f" ∧ r₂.name = "f" ∧ r₃.name = "../up" ∧
      let out := writeDrawings (.ofString "out") (some fun _ => .notInstalled) [r₁, r₂, r₃] .empty
      out.value = .ok () ∧
        out.tree.item? ["up.dot"] = some (.file (r₃.dot none).toUTF8.toList) ∧
        ∀ l bytes, out.tree.item? l = some (.file bytes) →
          l = ["out", "f.dot"] ∨ l = ["up.dot"] := by
  intro p
  have hnames : p.decompile.value.map (fun rs => rs.map fun r => (r.name, r.isDrawingEncodable)) =
      .ok [("f", true), ("f", true), ("../up", true)] := by
    dsimp only [p]
    cbv
  cases hrs : p.decompile.value with
  | error e =>
      rw [hrs] at hnames
      cases hnames
  | ok rs =>
      rw [hrs] at hnames
      obtain ⟨r₁, _, rfl, h₁, hnames⟩ := List.map_eq_cons_iff.mp (Except.ok.inj hnames)
      obtain ⟨r₂, _, rfl, h₂, hnames⟩ := List.map_eq_cons_iff.mp hnames
      obtain ⟨r₃, _, rfl, h₃, hnames⟩ := List.map_eq_cons_iff.mp hnames
      obtain rfl := List.map_eq_nil_iff.mp hnames
      obtain ⟨hname₁, hencodable₁⟩ := Prod.mk.inj h₁
      obtain ⟨hname₂, hencodable₂⟩ := Prod.mk.inj h₂
      obtain ⟨hname₃, hencodable₃⟩ := Prod.mk.inj h₃
      refine ⟨r₁, r₂, r₃, rfl, hname₁, hname₂, hname₃, ?_⟩
      intro out
      have hmade : makeDirectories (.ofString "out") (Path.ofString "out").parts.length .empty =
          .ok (.directory [("out", .empty)]) := by cbv
      have hparts : "/" ∉ (Path.ofString "out").parts := Path.slash_not_mem_parts_ofString "out"
      obtain ⟨hgrows, hthere⟩ := makeDirectories_spec rfl hparts hmade
      have hout : out = writeDrawings (.ofString "out") (some fun _ => .notInstalled) [r₁, r₂, r₃]
          (.directory [("out", .empty)]) :=
        writeDrawings_of_made rfl hparts hmade (List.cons_ne_nil _ _)
      obtain ⟨hvalue, hchange, hlast⟩ := writeDrawings_spec ⟨rfl, hparts, hthere⟩
        (fun _ => Rendering.notInstalled_ne_picture) [r₁, r₂, r₃]
      rw [← hout] at hvalue hchange hlast
      have hf : ∀ r : Routine, r.name = "f" →
          r.place? (.ofString "out") (.directory [("out", .empty)]) = some ["out", "f.dot"] := by
        intro r hname
        rw [place?, hname]
        decide +kernel
      have hup : r₃.place? (.ofString "out") (.directory [("out", .empty)]) = some ["up.dot"] := by
        rw [place?, hname₃]
        decide +kernel
      have hok : out.value = .ok () := by
        refine hvalue.mpr (List.forall_mem_cons.mpr ⟨⟨hencodable₁, _, hf r₁ hname₁, by decide⟩,
          List.forall_mem_cons.mpr ⟨⟨hencodable₂, _, hf r₂ hname₂, by decide⟩,
            List.forall_mem_singleton.mpr ⟨hencodable₃, _, hup, by decide⟩⟩⟩)
      refine ⟨hok, hlast hok [r₁, r₂] r₃ [] rfl _ hup (by simp), fun l bytes hl => ?_⟩
      by_contra hno
      rw [hchange.elsewhere l (by simpa [hf r₁ hname₁, hf r₂ hname₂, hup] using hno)] at hl
      -- There was no file before.
      rcases hgrows l with hsame | ⟨-, hnew⟩
      · rcases item?_empty l with hempty | hempty <;> simp [← hsame, hl] at hempty
      · simp [hl] at hnew

end Routine

end ScriptLift
