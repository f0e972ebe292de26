import Mathlib
import ScriptLift.FileTree

/-!
# Locations in file trees

What a tree holds is told by location: a file with its bytes, a directory, or nothing
(`FileTree.item?`).  Where a path leads is told by location as well, and it depends only on which
locations are directories (`FileTree.location?_eq`), so it stays the same while no directory goes
away (`FileTree.location?_of_directories`).

* `FileTree.write_cases`: a file can be written exactly where a path leads to no directory, and then
  it is there and every other location is as before.
* `FileTree.makeDirectories_spec`: the directory that was asked for is there, and what is new are
directories.
* `FileTree.makeDirectories_of_directory`: a directory that is there already is left as it is.
* `FileTree.location?_join`: a name joined to the path of a directory leads to the entry of that
name.
-/

namespace ScriptLift

/-! ### Names in paths -/

namespace Path

variable {p : Path} {name : String}

/-- Without a slash there is one piece. -/
theorem pieces_of_not_mem {cs : List Char} (h : '/' ∉ cs) : pieces cs = [cs] := by
  induction cs with
  | nil => rfl
  | cons c cs ih =>
      obtain ⟨hc, hcs⟩ := List.ne_and_not_mem_of_not_mem_cons h
      simp [pieces, ih hcs, Ne.symm hc]

theorem pieces_ne_nil (cs : List Char) : pieces cs ≠ [] := by
  fun_cases pieces cs <;> simp

/-- Pieces have no slash in them. -/
theorem not_mem_of_mem_pieces {cs piece : List Char} (h : piece ∈ pieces cs) : '/' ∉ piece := by
  fun_induction pieces cs generalizing piece with
  | case1 =>
      obtain rfl := List.mem_singleton.mp h
      exact List.not_mem_nil
  | case2 c cs hnil => exact absurd hnil (pieces_ne_nil cs)
  | case3 cs first rest hpieces ih =>
      rcases List.mem_cons.mp h with rfl | h
      · exact List.not_mem_nil
      · exact ih (hpieces ▸ h)
  | case4 c cs first rest hpieces hc ih =>
      rw [hpieces] at ih
      rcases List.mem_cons.mp h with rfl | h
      · have hfirst : '/' ∉ first := ih List.mem_cons_self
        simp [Ne.symm hc, hfirst]
      · exact ih (List.mem_cons_of_mem first h)

/-- No part of a path that was read is a slash. -/
theorem slash_not_mem_parts_ofString (s : String) : "/" ∉ (ofString s).parts := by
  intro h
  obtain ⟨hmem, -⟩ := List.mem_filter.mp h
  obtain ⟨piece, hpiece, heq⟩ := List.mem_map.mp hmem
  have hslash : piece = ['/'] := by
    have := congrArg String.toList heq
    simpa using this
  exact not_mem_of_mem_pieces hpiece (by simp [hslash])

/-- A part that is a slash is never made by joining. -/
theorem slash_not_mem_parts_join (h : "/" ∉ p.parts) (s : String) : "/" ∉ (p.join s).parts := by
  rw [join]
  split
  · simp [h, slash_not_mem_parts_ofString]
  · exact slash_not_mem_parts_ofString s

/-- The text names an entry of a directory. -/
def IsEntryName (name : String) : Prop :=
  '/' ∉ name.toList ∧ name ≠ "" ∧ name ≠ "." ∧ name ≠ ".."

/-- The name of an entry is one more part. -/
theorem join_of_isEntryName (h : IsEntryName name) (p : Path) :
    p.join name = { p with parts := p.parts ++ [name] } := by
  obtain ⟨hslash, hempty, hdot, -⟩ := h
  have hroot : rootOf name.toList = "" := by
    have hnone : name.toList.takeWhile (· = '/') = [] := by
      rw [List.takeWhile_eq_nil_iff]
      intro hpos
      simp only [decide_eq_true_eq]
      intro hfirst
      exact hslash (hfirst ▸ List.getElem_mem hpos)
    simp [rootOf, hnone]
  have hofString : ofString name = ⟨"", [name]⟩ := by
    simp [ofString, hroot, pieces_of_not_mem hslash, hempty, hdot]
  simp [join, hofString]

/-- A character of the joined text that is not from the mark is from a part. -/
theorem mem_intercalate_iff {c : Char} {mark : String} (h : c ∉ mark.toList) (parts : List String) :
    c ∈ (mark.intercalate parts).toList ↔ ∃ part ∈ parts, c ∈ part.toList := by
  rw [String.toList_intercalate]
  induction parts with
  | nil => simp
  | cons part parts ih =>
      cases parts with
      | nil => simp
      | cons part' parts =>
          rw [List.map_cons] at ih ⊢
          simp only [List.map_cons, List.intercalate_cons_cons, List.mem_append, h] at ih ⊢
          simp [ih]

/-- The characters of a path's text, apart from those that hold it together. -/
theorem mem_text_iff {c : Char} (hdot : c ≠ '.') (hslash : c ≠ '/') (p : Path) :
    c ∈ p.text.toList ↔ c ∈ p.root.toList ∨ ∃ part ∈ p.parts, c ∈ part.toList := by
  rw [text]
  split
  · rename_i h
    obtain ⟨hroot, hparts⟩ : p.root = "" ∧ p.parts = [] := by simpa using h
    simp [hroot, hparts, hdot]
  · rw [String.toList_append, List.mem_append, mem_intercalate_iff (by simpa using hslash)]

end Path

/-! ### What a tree holds -/

/-- What there can be at a location. -/
inductive Item where
  | file (bytes : List UInt8)
  | directory
  deriving DecidableEq, Repr

namespace Location

/-- The name leads out of the working directory. -/
def leadsOut (name : String) : Bool :=
  name = ".." || name = "/"

/-- The location of the directory above. -/
def above (l : Location) : Location :=
  match l.getLast? with
  | none => [".."]
  | some name => if name = "/" then l else if name = ".." then l ++ [".."] else l.dropLast

/-- The location that one part of a path leads to. -/
def next (l : Location) (part : String) : Location :=
  if part = ".." then l.above else l ++ [part]

/-- The location where paths with a given root start. -/
def start (root : String) : Location :=
  if root = "" then [] else ["/"]

end Location

namespace FileTree

variable {t t' : FileTree} {s : Spot} {p : Path} {l m : Location}

/-- What a tree is at its root. -/
def item : FileTree → Item
  | file bytes => .file bytes
  | directory _ => .directory

/-- The entry of a name.  The directories above the working directory are always there. -/
def child? (es : List (String × FileTree)) (name : String) : Option FileTree :=
  if Location.leadsOut name then some (outer es name) else es.lookup name

/-- The tree at a location. -/
def at? : FileTree → Location → Option FileTree
  | t, [] => some t
  | file _, _ :: _ => none
  | directory es, name :: l => (child? es name).bind (at? · l)

/-- What there is at a location. -/
def item? (t : FileTree) (l : Location) : Option Item :=
  (t.at? l).map item

@[simp]
theorem at?_nil (t : FileTree) : t.at? [] = some t := by
  cases t <;> rfl

@[simp]
theorem item?_file_cons (bytes : List UInt8) (name : String) (l : Location) :
    (file bytes).item? (name :: l) = none :=
  rfl

theorem item?_directory_cons (es : List (String × FileTree)) (name : String) (l : Location) :
    (directory es).item? (name :: l) = (child? es name).bind (·.item? l) := by
  simp only [item?, at?, Option.map_bind]
  rfl

/-- What is at a longer location is found in what is at the shorter one. -/
theorem at?_append (t : FileTree) (l m : Location) : t.at? (l ++ m) = (t.at? l).bind (·.at? m) := by
  induction l generalizing t with
  | nil => simp
  | cons name l ih =>
      cases t with
      | file => rfl
      | directory es => simp [at?, Option.bind_assoc, ih]

/-- The same for what is there. -/
theorem item?_append (t : FileTree) (l m : Location) :
    t.item? (l ++ m) = (t.at? l).bind (·.item? m) := by
  rw [item?, at?_append, Option.map_bind]
  rfl

/-- Where a directory is, its entries are. -/
theorem exists_at?_of_directory (h : t.item? l = some .directory) :
    ∃ es, t.at? l = some (directory es) := by
  obtain ⟨c, hc, hitem⟩ := Option.map_eq_some_iff.mp h
  cases c with
  | file => cases hitem
  | directory es => exact ⟨es, hc⟩

/-- There is nothing behind a location without a directory. -/
theorem item?_append_cons (h : t.item? l ≠ some .directory) (name : String) :
    t.item? (l ++ name :: m) = none := by
  rw [item?_append]
  cases hc : t.at? l with
  | none => rfl
  | some c =>
      cases c with
      | file => rfl
      | directory => simp [item?, hc, item] at h

/-- The entry that was put is found. -/
@[simp]
theorem child?_put_self (name : String) (c : FileTree) (es : List (String × FileTree)) :
    child? (Assoc.put name c es) name = some c := by
  simp [child?, outer]

/-- The other entries are as they were, those that lead out included. -/
theorem child?_put_of_ne {name name' : String} (h : name' ≠ name) (c : FileTree)
    (es : List (String × FileTree)) : child? (Assoc.put name c es) name' = child? es name' := by
  simp [child?, outer, Assoc.lookup_put_of_ne h]

/-! ### Spots -/

namespace Spot

/-- The names on the way to a spot. -/
def location (s : Spot) : Location :=
  (s.steps.map (·.2)).reverse

/-- Entering a directory adds its name to the location. -/
@[simp]
theorem location_enter (s : Spot) (es : List (String × FileTree)) (name : String)
    (here : Option FileTree) : location ⟨(es, name) :: s.steps, here⟩ = s.location ++ [name] := by
  simp [location]

/-- What is put at a spot is put into the directory it is in, and so on outward. -/
theorem put_enter (s : Spot) (es : List (String × FileTree)) (name : String)
    (here : Option FileTree) (c : FileTree) :
    put ⟨(es, name) :: s.steps, here⟩ c = s.put (directory (Assoc.put name c es)) :=
  rfl

/-- The steps of a spot are steps through the tree `t`, and what is there is what `t` has there. -/
inductive Fits (t : FileTree) : Spot → Prop
  | start : Fits t ⟨[], some t⟩
  | enter {s : Spot} {es : List (String × FileTree)} (name : String) (hs : Fits t s)
      (here : s.here = some (directory es)) : Fits t ⟨(es, name) :: s.steps, child? es name⟩

/-- A spot of the tree has what the tree has at its location. -/
theorem Fits.at?_location (h : s.Fits t) : t.at? s.location = s.here := by
  induction h with
  | start => simp [location]
  | @enter s es name hs here ih =>
      rw [location_enter, at?_append, ih, here]
      cases hc : child? es name <;> simp [at?, hc]

theorem Fits.item?_location (h : s.Fits t) : t.item? s.location = s.here.map item := by
  rw [item?, h.at?_location]

/-- What was put at a spot is there. -/
theorem Fits.item?_put_append (h : s.Fits t) (c : FileTree) (m : Location) :
    (s.put c).item? (s.location ++ m) = c.item? m := by
  induction h generalizing c m with
  | start => rfl
  | @enter s es name hs here ih =>
      rw [location_enter, put_enter, List.append_assoc, List.singleton_append, ih,
        item?_directory_cons, child?_put_self]
      rfl

/-- What was put at a spot is at its location. -/
theorem Fits.item?_put_self (h : s.Fits t) (c : FileTree) :
    (s.put c).item? s.location = some c.item := by
  have hself := h.item?_put_append c []
  rwa [List.append_nil] at hself

/-- Everything that is not at the spot or behind it stays as it is. -/
theorem Fits.item?_put_of_not_prefix (h : s.Fits t) (c : FileTree) (hl : ¬ s.location <+: l) :
    (s.put c).item? l = t.item? l := by
  induction h generalizing c l with
  | start => exact absurd (List.nil_prefix) hl
  | @enter s es name hs here ih =>
      rw [location_enter] at hl
      rw [put_enter]
      by_cases hprefix : s.location <+: l
      · -- The location lies in the directory at `s`, under another name.
        obtain ⟨m, rfl⟩ := hprefix
        rw [hs.item?_put_append, item?_append, hs.at?_location, here]
        cases m with
        | nil => rfl
        | cons name' m =>
            have hname : name' ≠ name := by
              rintro rfl
              exact hl ⟨m, by simp⟩
            change _ = (directory es).item? (name' :: m)
            rw [item?_directory_cons, item?_directory_cons, child?_put_of_ne hname]
      · exact ih _ hprefix

/-- One step down stays in the tree. -/
theorem Fits.step (h : s.Fits t) {es : List (String × FileTree)}
    (here : s.here = some (directory es)) {name : String}
    (hname : Location.leadsOut name = false) : (s.step es name).Fits t := by
  have henter := h.enter name here
  rwa [child?, if_neg (by simp [hname])] at henter

/-- So does one above the working directory. -/
theorem Fits.stepOut (h : s.Fits t) {es : List (String × FileTree)}
    (here : s.here = some (directory es)) {name : String}
    (hname : Location.leadsOut name) : (s.stepOut es name).Fits t := by
  have henter := h.enter name here
  rwa [child?, if_pos hname] at henter

/-- One step up leads to the location above, at the working directory to one outside. -/
theorem Fits.above (h : s.Fits t) {es : List (String × FileTree)}
    (here : s.here = some (directory es)) :
    (s.above es).Fits t ∧ (s.above es).location = s.location.above := by
  have hout : (s.stepOut es "..").Fits t := h.stepOut here rfl
  cases h with
  | start => exact ⟨hout, rfl⟩
  | @enter s' around name hs' here' =>
      have hlast : (s'.location ++ [name]).getLast? = some name := by simp
      rw [Spot.above, location_enter, Location.above, hlast]
      dsimp only
      by_cases hroot : name = "/"
      · rw [if_pos hroot, if_pos hroot]
        exact ⟨hs'.enter name here', location_enter ..⟩
      rw [if_neg hroot, if_neg hroot]
      by_cases hdots : name = ".."
      · rw [if_pos hdots, if_pos hdots]
        exact ⟨hout, by simp [Spot.stepOut, location]⟩
      · rw [if_neg hdots, if_neg hdots, ← here', List.dropLast_concat]
        exact ⟨hs', rfl⟩

end Spot

/-! ### Where paths lead -/

/-- The location that one part of a path leads to, if it can be followed. -/
def next? (t : FileTree) (l : Location) (part : String) : Option Location :=
  if t.item? l = some .directory ∧ (part = ".." ∨ part.utf8ByteSize ≤ nameLimit) then
    some (l.next part)
  else none

/-- The location that a path leads to. -/
def location? (t : FileTree) (p : Path) : Option Location :=
  (t.locate p).toOption.map Spot.location

/-- **One part of a path**: the spot it leads to is in the tree, and at the location that the part
leads to. -/
theorem Spot.Fits.descend (h : s.Fits t) {part : String} (hpart : part ≠ "/") :
    (s.descend p part).toOption.map location = t.next? s.location part ∧
      ∀ s', s.descend p part = .ok s' → s'.Fits t := by
  have hitem := h.item?_location
  rw [Spot.descend, next?]
  cases hhere : s.here with
  | none => simp [hitem, hhere, Except.toOption]
  | some c =>
      cases c with
      | file => simp [hitem, hhere, item, Except.toOption]
      | directory es =>
          dsimp only
          have hdirectory : t.item? s.location = some .directory := by rw [hitem, hhere]; rfl
          by_cases hdots : part = ".."
          · obtain ⟨hfits, hlocation⟩ := h.above hhere
            simp only [hdots, if_true, hdirectory, true_or, and_self, Location.next]
            refine ⟨congrArg some hlocation, ?_⟩
            rintro s' ⟨⟩
            exact hfits
          · rw [if_neg hdots]
            by_cases hshort : part.utf8ByteSize ≤ nameLimit
            · rw [if_neg (Nat.not_lt.mpr hshort), if_pos ⟨hdirectory, .inr hshort⟩, Location.next,
                if_neg hdots]
              refine ⟨congrArg some (location_enter ..), ?_⟩
              rintro s' ⟨⟩
              exact h.step hhere (by simp [Location.leadsOut, hdots, hpart])
            · rw [if_pos (Nat.lt_of_not_le hshort), if_neg (by tauto)]
              exact ⟨rfl, fun s' hs' => by cases hs'⟩

/-- All parts, by induction on them. -/
theorem Spot.Fits.descendAll (h : s.Fits t) {parts : List String} (hparts : "/" ∉ parts) :
    (parts.foldlM (Spot.descend p) s).toOption.map location = parts.foldlM t.next? s.location ∧
      ∀ s', parts.foldlM (Spot.descend p) s = .ok s' → s'.Fits t := by
  induction parts generalizing s with
  | nil =>
      refine ⟨rfl, ?_⟩
      rintro s' ⟨⟩
      exact h
  | cons part parts ih =>
      obtain ⟨hpart, hparts⟩ := List.ne_and_not_mem_of_not_mem_cons hparts
      obtain ⟨hnext, hfits⟩ := h.descend (p := p) (Ne.symm hpart)
      rw [List.foldlM_cons, List.foldlM_cons, ← hnext]
      cases hs : s.descend p part with
      | error e => exact ⟨rfl, fun s' hs' => by cases hs'⟩
      | ok s₁ => exact ih (hfits s₁ hs) hparts

/-- Both starting points are spots of the tree. -/
theorem fits_start (h : t.item? [] = some .directory) (root : String) : (t.start root).Fits t := by
  obtain ⟨es, hes⟩ := exists_at?_of_directory h
  obtain rfl : t = directory es := by simpa using hes
  rw [FileTree.start]
  split
  · exact .start
  · exact Spot.Fits.start.stepOut rfl rfl

/-- **Where a path leads depends only on which locations are directories.** -/
theorem location?_eq (hroot : t.item? [] = some .directory) (hp : "/" ∉ p.parts) :
    t.location? p =
      if '\x00' ∈ p.text.toList ∨ pathLimit < p.text.utf8ByteSize then none
      else p.parts.foldlM t.next? (.start p.root) := by
  have hstart : (t.start p.root).location = .start p.root := by
    rw [FileTree.start, Location.start]
    split <;> rfl
  rw [location?, locate]
  by_cases hnull : '\x00' ∈ p.text.toList
  · simp [hnull, Except.toOption]
  by_cases hlong : pathLimit < p.text.utf8ByteSize
  · simp [hnull, hlong, Except.toOption]
  · simp only [List.contains_iff_mem, hnull, hlong, or_self, if_false]
    rw [((fits_start hroot p.root).descendAll hp).1, hstart]

/-- What a path leads to is a spot of the tree. -/
theorem fits_of_locate (hroot : t.item? [] = some .directory) (hp : "/" ∉ p.parts)
    (h : t.locate p = .ok s) : s.Fits t := by
  rw [locate] at h
  split at h
  · cases h
  split at h
  · cases h
  · exact ((fits_start hroot p.root).descendAll hp).2 s h

/-- The location of a path is that of the spot it leads to. -/
theorem location?_eq_some_iff (hroot : t.item? [] = some .directory) (hp : "/" ∉ p.parts) :
    t.location? p = some l ↔ ∃ s, t.locate p = .ok s ∧ s.Fits t ∧ s.location = l := by
  rw [location?]
  cases h : t.locate p with
  | error e => simp [Except.toOption]
  | ok s => simp [Except.toOption, fits_of_locate hroot hp h]

/-- A way through directories is a way wherever these are directories. -/
theorem foldlM_next?_of_directories
    (h : ∀ l, t.item? l = some .directory → t'.item? l = some .directory) {parts : List String}
    (hm : parts.foldlM t.next? l = some m) : parts.foldlM t'.next? l = some m := by
  induction parts generalizing l with
  | nil => exact hm
  | cons part parts ih =>
      rw [List.foldlM_cons] at hm ⊢
      obtain ⟨l₁, hl₁, hm⟩ := Option.bind_eq_some_iff.mp hm
      have hnext : t'.next? l part = some l₁ := by
        simp only [next?, Option.ite_none_right_eq_some] at hl₁ ⊢
        exact ⟨⟨h l hl₁.1.1, hl₁.1.2⟩, hl₁.2⟩
      rw [hnext]
      exact ih hm

/-- A path leads to the same location as long as no directory goes away. -/
theorem location?_of_directories (hroot : t.item? [] = some .directory) (hp : "/" ∉ p.parts)
    (h : ∀ l, t.item? l = some .directory → t'.item? l = some .directory)
    (hl : t.location? p = some l) : t'.location? p = some l := by
  rw [location?_eq hroot hp, Option.ite_none_left_eq_some] at hl
  rw [location?_eq (h [] hroot) hp, if_neg hl.1]
  exact foldlM_next?_of_directories h hl.2

/-- Where paths lead depends on the directories only. -/
theorem location?_congr (hroot : t.item? [] = some .directory) (hp : "/" ∉ p.parts)
    (h : ∀ l, t'.item? l = some .directory ↔ t.item? l = some .directory) :
    t'.location? p = t.location? p := by
  refine Option.ext fun l => ⟨?_, location?_of_directories hroot hp fun l => (h l).mpr⟩
  exact location?_of_directories ((h []).mpr hroot) hp fun l => (h l).mp

/-! ### Files -/

/-- A file is written where the path leads, unless a directory is there. -/
theorem write_of_locate (hroot : t.item? [] = some .directory) (hp : "/" ∉ p.parts)
    (hs : t.locate p = .ok s) (bytes : List UInt8) :
    t.write p bytes =
      if t.item? s.location = some .directory then .error (.isDirectory p)
      else .ok (s.put (file bytes)) := by
  rw [(fits_of_locate hroot hp hs).item?_location, write, hs]
  simp only [bind, Except.bind]
  rcases s.here with _ | _ | _ <;> rfl

/-- **What writing a file does.**  It fails unless the path leads to a location without a directory;
then the file is there and every other location is as before. -/
theorem write_cases (hroot : t.item? [] = some .directory) (hp : "/" ∉ p.parts)
    (bytes : List UInt8) :
    (∃ e, t.write p bytes = .error e ∧ ∀ l, t.location? p = some l → t.item? l = some .directory) ∨
      ∃ l t', t.location? p = some l ∧ t.item? l ≠ some .directory ∧ t.write p bytes = .ok t' ∧
        t'.item? l = some (.file bytes) ∧ ∀ m, m ≠ l → t'.item? m = t.item? m := by
  cases hs : t.locate p with
  | error e => exact .inl ⟨e, by rw [write, hs]; rfl, by simp [location?, hs, Except.toOption]⟩
  | ok s =>
      have hlocation : t.location? p = some s.location := by simp [location?, hs, Except.toOption]
      have hfits := fits_of_locate hroot hp hs
      rw [write_of_locate hroot hp hs, hlocation]
      by_cases hfree : t.item? s.location = some .directory
      · refine .inl ⟨_, if_pos hfree, ?_⟩
        rintro l ⟨⟩
        exact hfree
      · refine .inr ⟨_, s.put (file bytes), rfl, hfree, if_neg hfree, hfits.item?_put_self _,
          fun m hm => ?_⟩
        by_cases hprefix : s.location <+: m
        · -- Behind a location without a directory there was nothing, and behind a file there is
          -- nothing.
          obtain ⟨_ | ⟨name, m⟩, rfl⟩ := hprefix
          · simp at hm
          · rw [hfits.item?_put_append, item?_append_cons hfree, item?_file_cons]
        · exact hfits.item?_put_of_not_prefix _ hprefix

/-! ### Directories -/

/-- The second tree is the first with more directories. -/
def Grows (t t' : FileTree) : Prop :=
  ∀ l, t'.item? l = t.item? l ∨ t.item? l = none ∧ t'.item? l = some .directory

theorem Grows.refl (t : FileTree) : t.Grows t :=
  fun _ => .inl rfl

/-- Directories stay directories. -/
theorem Grows.directory (h : t.Grows t') (hl : t.item? l = some .directory) :
    t'.item? l = some .directory := by
  rcases h l with hsame | hnew
  · rw [hsame, hl]
  · exact hnew.2

/-- What grows twice has grown. -/
theorem Grows.trans {t₁ t₂ t₃ : FileTree} (h₁ : t₁.Grows t₂) (h₂ : t₂.Grows t₃) : t₁.Grows t₃ := by
  intro l
  rcases h₁ l with hsame | ⟨hnone, hnew⟩
  · rw [← hsame]
    exact h₂ l
  · exact .inr ⟨hnone, h₂.directory hnew⟩

/-- The path leads to a directory at the location. -/
def HasDirectoryAt (t : FileTree) (p : Path) (l : Location) : Prop :=
  t.location? p = some l ∧ t.item? l = some .directory

/-- The directory of a path is found in every tree that has the directories of this one. -/
theorem HasDirectoryAt.of_directories (hroot : t.item? [] = some .directory) (hp : "/" ∉ p.parts)
    (h : ∀ l, t.item? l = some .directory → t'.item? l = some .directory)
    (hl : t.HasDirectoryAt p l) : t'.HasDirectoryAt p l :=
  ⟨location?_of_directories hroot hp h hl.1, h l hl.2⟩

/-- The check for a directory finds one exactly where the path leads to one. -/
theorem hasDirectory_iff (hroot : t.item? [] = some .directory) (hp : "/" ∉ p.parts) :
    t.hasDirectory p = true ↔ ∃ l, t.HasDirectoryAt p l := by
  rw [hasDirectory]
  simp only [HasDirectoryAt, location?_eq_some_iff hroot hp]
  constructor
  · intro h
    split at h
    · rename_i steps es hs
      have hfits := fits_of_locate hroot hp hs
      exact ⟨_, ⟨_, hs, hfits, rfl⟩, hfits.item?_location⟩
    · cases h
  · rintro ⟨_, ⟨⟨steps, here⟩, hs, hfits, rfl⟩, hitem⟩
    obtain ⟨es, hes⟩ := exists_at?_of_directory hitem
    obtain rfl : here = some (directory es) := by rw [← hes, hfits.at?_location]
    rw [hs]

theorem item?_empty (l : Location) : empty.item? l = none ∨ empty.item? l = some .directory := by
  induction l with
  | nil => exact .inr rfl
  | cons name l ih =>
      rw [empty, item?_directory_cons]
      by_cases hname : Location.leadsOut name
      · simpa [child?, hname, outer] using ih
      · simp [child?, hname]

/-- Making a directory takes nothing away, and the path then leads to a directory. -/
theorem makeDirectory_spec (hroot : t.item? [] = some .directory) (hp : "/" ∉ p.parts)
    (h : t.makeDirectory p = .ok t') : t.Grows t' ∧ ∃ l, t'.HasDirectoryAt p l := by
  rw [makeDirectory] at h
  cases hs : t.locate p with
  | error e => rw [hs] at h; cases h
  | ok s =>
      have hfits := fits_of_locate hroot hp hs
      rw [hs] at h
      simp only [bind, Except.bind] at h
      cases hhere : s.here with
      | some c => rw [hhere] at h; cases h
      | none =>
          rw [hhere] at h
          obtain rfl : s.put empty = t' := Except.ok.inj h
          have hnone : t.item? s.location = none := by rw [hfits.item?_location, hhere]; rfl
          have hgrows : t.Grows (s.put empty) := by
            intro m
            by_cases hprefix : s.location <+: m
            · obtain ⟨m, rfl⟩ := hprefix
              have hbehind : t.item? (s.location ++ m) = none := by
                cases m with
                | nil => rw [List.append_nil, hnone]
                | cons name m => exact item?_append_cons (by simp [hnone]) name
              rw [hfits.item?_put_append, hbehind]
              exact (item?_empty m).imp id fun hnew => ⟨rfl, hnew⟩
            · exact .inl (hfits.item?_put_of_not_prefix _ hprefix)
          have hlocation : t.location? p = some s.location :=
            (location?_eq_some_iff hroot hp).mpr ⟨s, hs, hfits, rfl⟩
          exact ⟨hgrows, s.location,
            location?_of_directories hroot hp (fun _ => hgrows.directory) hlocation,
            hfits.item?_put_self _⟩

/-- **A directory that was made is there, and only directories are new.** -/
theorem makeDirectories_spec (hroot : t.item? [] = some .directory) (hp : "/" ∉ p.parts)
    {depth : Nat} (h : makeDirectories p depth t = .ok t') :
    t.Grows t' ∧ ∃ l, t'.HasDirectoryAt p l := by
  fun_induction makeDirectories p depth t generalizing t' with
  | case1 p depth t t₁ hmade =>
      obtain rfl : t₁ = t' := Except.ok.inj h
      exact makeDirectory_spec hroot hp hmade
  | case2 => cases h
  | case3 p t q _ depth ihParent ihSelf =>
      -- The directory above comes first, and then the directory itself.
      cases habove : makeDirectories p.parent depth t with
      | error e =>
          rw [habove] at h
          cases h
      | ok t₁ =>
          rw [habove] at h
          have hgrows := (ihParent hroot (fun hmem => hp (List.dropLast_subset _ hmem)) habove).1
          obtain ⟨hgrows', hthere⟩ := ihSelf t₁ (hgrows.directory hroot) hp h
          exact ⟨hgrows.trans hgrows', hthere⟩
  | case4 p depth t e _ _ hthere =>
      obtain rfl : t = t' := Except.ok.inj h
      exact ⟨.refl t, (hasDirectory_iff hroot hp).mp hthere⟩
  | case5 => cases h

/-- A directory that is there already is left as it is. -/
theorem makeDirectories_of_directory (hroot : t.item? [] = some .directory) (hp : "/" ∉ p.parts)
    (h : t.HasDirectoryAt p l) (depth : Nat) : makeDirectories p depth t = .ok t := by
  have hthere : t.hasDirectory p = true := (hasDirectory_iff hroot hp).mpr ⟨l, h⟩
  obtain ⟨s, hs, hfits, rfl⟩ := (location?_eq_some_iff hroot hp).mp h.1
  obtain ⟨es, hes⟩ := exists_at?_of_directory h.2
  rw [hfits.at?_location] at hes
  have hmade : t.makeDirectory p = .error (.alreadyExists p) := by
    rw [makeDirectory, hs]
    simp only [bind, Except.bind, hes]
    rfl
  rw [makeDirectories, hmade]
  exact if_pos hthere

/-- Where a name in a directory leads. -/
theorem location?_join (hroot : t.item? [] = some .directory) (hp : "/" ∉ p.parts)
    (h : t.HasDirectoryAt p l) {name : String} (hname : Path.IsEntryName name) :
    t.location? (p.join name) =
      if '\x00' ∈ name.toList ∨ nameLimit < name.utf8ByteSize ∨
        pathLimit < (p.join name).text.utf8ByteSize then none else some (l ++ [name]) := by
  have hl := h.1
  rw [location?_eq hroot hp, Option.ite_none_left_eq_some,
    Path.mem_text_iff (by decide) (by decide)] at hl
  obtain ⟨hfine, hl⟩ := hl
  -- The path's own text is in order, so only the name can hold a zero character.
  have hnull : '\x00' ∈ (p.join name).text.toList ↔ '\x00' ∈ name.toList := by
    rw [Path.mem_text_iff (by decide) (by decide), Path.join_of_isEntryName hname]
    simp only [List.mem_append, List.mem_singleton]
    grind
  have hnext : t.next? l name =
      if nameLimit < name.utf8ByteSize then none else some (l ++ [name]) := by
    rw [next?, h.2, Location.next, if_neg hname.2.2.2]
    grind [hname.2.2.2]
  have hparts : (p.join name).parts.foldlM t.next? (.start (p.join name).root)
      = t.next? l name := by
    rw [Path.join_of_isEntryName hname p, List.foldlM_append, hl]
    simp
  rw [location?_eq hroot (Path.slash_not_mem_parts_join hp name), hparts, hnext]
  grind

end FileTree

end ScriptLift
