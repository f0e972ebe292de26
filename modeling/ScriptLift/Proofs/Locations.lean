import ScriptLift.Proofs.Lift.Faults
import ScriptLift.Proofs.Lift.Untyped

/-!
# Locations and variables

A variable is asked for by where it is stored: a slot of the routine at hand, or an index among the
variables that all routines share (`VarLocation`).  Asking for a slot makes up the locals that are
missing up to it, so a routine changes by being asked; `Routine.Tracks` says what its locals are
after any requests, and a request keeps it so (`Routine.Tracks.resolve`).

Which variable a location means does not depend on what was asked for before (`VarLocation.ref`),
and different locations mean variables with different identifiers (`VarLocation.name_injective`).
`Program.locations_oneToOne` puts this together.
-/

namespace ScriptLift

/-- Where a variable is asked for. -/
inductive VarLocation where
  | slot (n : Nat)
  | static (index : Int)
  | global (index : Int)
  deriving DecidableEq, Repr

namespace VarLocation

variable {inputs : Nat} {q q' : VarLocation}

/-- The variable at a location, for a routine with a number of inputs. -/
def ref (inputs : Nat) : VarLocation → Reference
  | slot n =>
    if n < inputs then ⟨.input n, "arg_" ++ toString n⟩
    else ⟨.auto (n - inputs), "local_" ++ toString n⟩
  | static index => .static index
  | global index => .global index

theorem ref_of_lt {n : Nat} (h : n < inputs) :
    (slot n).ref inputs = ⟨.input n, "arg_" ++ toString n⟩ :=
  if_pos h

theorem ref_add (inputs k : Nat) :
    (slot (inputs + k)).ref inputs = ⟨.auto k, "local_" ++ toString (inputs + k)⟩ := by
  rw [ref, if_neg (Nat.not_lt.mpr (Nat.le_add_right inputs k)), Nat.add_sub_cancel_left]

/-! ### Identifiers -/

/-- The first part of the identifier. -/
def family (inputs : Nat) : VarLocation → String
  | slot n => if n < inputs then "arg_" else "local_"
  | static _ => "static_"
  | global _ => "global_"

/-- The number in the identifier. -/
def index : VarLocation → Int
  | slot n => n
  | static i | global i => i

theorem name_ref (inputs : Nat) (q : VarLocation) :
    (q.ref inputs).name = q.family inputs ++ toString q.index := by
  cases q with
  | slot n =>
      by_cases h : n < inputs
      · simp only [ref, family, if_pos h]
        rfl
      · simp only [ref, family, if_neg h]
        rfl
  | static | global => rfl

/-- The first parts of all identifiers. -/
def families : List String :=
  ["arg_", "local_", "static_", "global_"]

theorem family_mem (inputs : Nat) (q : VarLocation) : q.family inputs ∈ families := by
  cases q with
  | slot n => by_cases h : n < inputs <;> simp [family, families, h]
  | static | global => simp [family, families]

/-- The families are told apart by their first letter. -/
theorem family_eq_of_append {s s' : String} (h : q.family inputs ++ s = q'.family inputs ++ s') :
    q.family inputs = q'.family inputs := by
  have hfirst : ∀ a ∈ families, ∀ t : String, (a ++ t).toList.head? = a.toList.head? := by
    simp [families]
  have hapart : ∀ a ∈ families, ∀ b ∈ families, a.toList.head? = b.toList.head? → a = b := by
    decide
  refine hapart _ (family_mem inputs q) _ (family_mem inputs q') ?_
  rw [← hfirst _ (family_mem inputs q) s, h, hfirst _ (family_mem inputs q')]

/-- **Different locations have different identifiers.** -/
theorem name_injective (h : (q.ref inputs).name = (q'.ref inputs).name) : q = q' := by
  rw [name_ref, name_ref] at h
  have hfamily := family_eq_of_append h
  rw [hfamily, String.append_right_inj] at h
  have hindex : q.index = q'.index := Int.repr_inj.mp h
  cases q with
  | slot n =>
      cases q' with
      | slot m => exact congrArg slot (Int.ofNat.inj hindex)
      | static | global => by_cases hn : n < inputs <;> simp [family, hn] at hfamily
  | static i =>
      cases q' with
      | slot m => by_cases hm : m < inputs <;> simp [family, hm] at hfamily
      | static j => exact congrArg static hindex
      | global => simp [family] at hfamily
  | global i =>
      cases q' with
      | slot m => by_cases hm : m < inputs <;> simp [family, hm] at hfamily
      | static => simp [family] at hfamily
      | global j => exact congrArg global hindex

/-- Different locations are different places. -/
theorem place_injective (h : (q.ref inputs).place = (q'.ref inputs).place) : q = q' := by
  cases q with
  | slot n =>
      cases q' with
      | slot m =>
          by_cases hn : n < inputs <;> by_cases hm : m < inputs <;> simp [ref, hn, hm] at h
          · rw [h]
          · rw [← Nat.add_sub_of_le (Nat.le_of_not_lt hn), h,
              Nat.add_sub_of_le (Nat.le_of_not_lt hm)]
      | static | global =>
          by_cases hn : n < inputs <;> simp [ref, hn, Reference.static, Reference.global] at h
  | static i =>
      cases q' with
      | slot m => by_cases hm : m < inputs <;> simp [ref, hm, Reference.static] at h
      | static j => exact congrArg static (Place.static.inj h)
      | global => cases h
  | global i =>
      cases q' with
      | slot m => by_cases hm : m < inputs <;> simp [ref, hm, Reference.global] at h
      | static => cases h
      | global j => exact congrArg global (Place.global.inj h)

end VarLocation

/-! ### Requests -/

/-- The local in the slot at a position behind the inputs, after the given requests. -/
def Local.tracked (inputs : Nat) (asked : List VarLocation) (k : Nat) : Local :=
  { Variable.fresh ("local_" ++ toString (inputs + k)) with
    declared := asked.contains (.slot (inputs + k)) }

namespace Routine

variable {r r' : Routine} {asked : List VarLocation}

/-- The variable at a location, and the routine with that variable in it.  A shared variable is told
by its index: whoever asks for the index means the one variable, and asking changes nothing. -/
def resolve (r : Routine) : VarLocation → Except Fault (Reference × Routine)
  | .slot n => r.slot n
  | .static index => .ok (.static index, r)
  | .global index => .ok (.global index, r)

/-- The variables at several locations, asked for one after the other. -/
def resolveAll (r : Routine) : List VarLocation → Except Fault (List Reference × Routine)
  | [] => .ok ([], r)
  | q :: qs =>
    match r.resolve q with
    | .error f => .error f
    | .ok (v, r) =>
      match r.resolveAll qs with
      | .error f => .error f
      | .ok (vs, r) => .ok (v :: vs, r)

/-- What a routine is after the requests `asked`: its locals go as far as the furthest slot, each is
named for its slot, and those asked for are declared. -/
structure Tracks (r : Routine) (asked : List VarLocation) : Prop where
  inputs : ∃ count, r.inputs = inputsFor count
  locals : r.locals = (List.range r.locals.length).map (Local.tracked r.inputs.length asked)
  present : ∀ k, .slot (r.inputs.length + k) ∈ asked → k < r.locals.length

namespace Tracks

theorem name_input (h : r.Tracks asked) {n : Nat} {v : Variable} (hv : r.inputs[n]? = some v) :
    v.name = "arg_" ++ toString n := by
  obtain ⟨count, hc⟩ := h.inputs
  rw [hc, inputsFor, List.getElem?_map, Option.map_eq_some_iff] at hv
  obtain ⟨m, hm, rfl⟩ := hv
  obtain ⟨-, rfl⟩ := List.getElem?_eq_some_iff.mp hm
  simp [Variable.fresh]

theorem name_local (h : r.Tracks asked) {k : Nat} {l : Local} (hl : r.locals[k]? = some l) :
    l.name = "local_" ++ toString (r.inputs.length + k) := by
  rw [h.locals, List.getElem?_map, Option.map_eq_some_iff] at hl
  obtain ⟨m, hm, rfl⟩ := hl
  obtain ⟨-, rfl⟩ := List.getElem?_eq_some_iff.mp hm
  simp [Local.tracked, Variable.fresh]

/-- The variable in a slot has nothing to do with the requests. -/
theorem localRef_eq (h : r.Tracks asked) (n : Nat) :
    r.localRef n = (VarLocation.slot n).ref r.inputs.length := by
  by_cases hn : n < r.inputs.length
  · have hname := h.name_input (List.getElem?_eq_getElem hn)
    rw [localRef, if_pos hn, VarLocation.ref_of_lt hn, List.getElem?_eq_getElem hn,
      Option.getD_some, hname]
  · obtain ⟨k, rfl⟩ := Nat.exists_eq_add_of_le (Nat.le_of_not_lt hn)
    rw [localRef, if_neg hn, VarLocation.ref_add, Nat.add_sub_cancel_left]
    cases hl : r.locals[k]? with
    | none => rfl
    | some l => rw [Option.map_some, Option.getD_some, h.name_local hl]

/-- A request that is not for a local changes nothing. -/
theorem of_ne (h : r.Tracks asked) {q : VarLocation} (hq : ∀ k, q ≠ .slot (r.inputs.length + k)) :
    r.Tracks (asked ++ [q]) where
  inputs := h.inputs
  locals := by
    have htracked : Local.tracked r.inputs.length (asked ++ [q])
        = Local.tracked r.inputs.length asked := by
      funext k
      simp [Local.tracked, Ne.symm (hq k)]
    rw [htracked]
    exact h.locals
  present k hk := h.present k (by simpa [Ne.symm (hq k)] using hk)

/-- The locals made up on the way are those that nobody asked for. -/
theorem grownLocals (h : r.Tracks asked) (count : Nat) :
    r.grownLocals count = (List.range (r.locals.length + (count - r.locals.length))).map
      (Local.tracked r.inputs.length asked) := by
  have hnew : ∀ j, r.placeholder (r.locals.length + j)
      = Local.tracked r.inputs.length asked (r.locals.length + j) := by
    intro j
    have hno : .slot (r.inputs.length + (r.locals.length + j)) ∉ asked := fun hin =>
      absurd (h.present _ hin) (Nat.not_lt.mpr (Nat.le_add_right _ j))
    simp [placeholder, Local.tracked, hno]
  rw [Routine.grownLocals, List.range_add, List.map_append, ← h.locals, List.range'_eq_map_range,
    List.map_map, List.map_map]
  congr 2
  funext j
  exact hnew j

/-- **Asking for a local declares it**, and no other. -/
theorem declareLocal (h : r.Tracks asked) (p : Nat) :
    (r.declareLocal p).Tracks (asked ++ [.slot (r.inputs.length + p)]) := by
  have hlocals : (r.declareLocal p).locals
      = (List.range (r.locals.length + (p + 1 - r.locals.length))).map
          (Local.tracked r.inputs.length (asked ++ [.slot (r.inputs.length + p)])) := by
    rw [Routine.declareLocal, h.grownLocals]
    refine List.ext_getElem? fun k => ?_
    rw [List.getElem?_modify, List.getElem?_map, List.getElem?_map]
    by_cases hk : k < r.locals.length + (p + 1 - r.locals.length)
    · rw [List.getElem?_range hk]
      by_cases hp : p = k
      · simp [hp, Local.tracked]
      · simp [hp, Ne.symm hp, Local.tracked]
    · rw [List.getElem?_eq_none (by simpa using hk)]
      rfl
  have hlength : (r.declareLocal p).locals.length
      = r.locals.length + (p + 1 - r.locals.length) := by
    rw [hlocals, List.length_map, List.length_range]
  refine ⟨h.inputs, by rw [hlength]; exact hlocals, fun k hk => ?_⟩
  rcases List.mem_append.mp hk with hk | hk
  · exact hlength ▸ Nat.lt_add_right _ (h.present k hk)
  · obtain rfl : k = p := Nat.add_left_cancel (VarLocation.slot.inj (List.mem_singleton.mp hk))
    rw [hlength]
    omega

/-- **A request finds the variable that its location means**, and the routine keeps track of it. -/
theorem resolve (h : r.Tracks asked) (q : VarLocation) :
    ∃ r', r.resolve q = .ok (q.ref r.inputs.length, r') ∧ r'.inputs = r.inputs ∧
      r'.Tracks (asked ++ [q]) := by
  cases q with
  | slot n =>
      have hslot := r.slot_eq n
      by_cases hn : n < r.inputs.length
      · have hresolve : resolve? r.inputs.length n = some n := if_pos hn
        rw [if_pos (Int.ofNat_lt.mpr hn), hresolve] at hslot
        refine ⟨r, ?_, rfl, h.of_ne ?_⟩
        · rw [← h.localRef_eq]
          exact hslot
        · rintro k ⟨rfl⟩
          exact absurd hn (Nat.not_lt.mpr (Nat.le_add_right _ k))
      · obtain ⟨k, rfl⟩ := Nat.exists_eq_add_of_le (Nat.le_of_not_lt hn)
        have hposition : (((r.inputs.length + k : Nat) : Int) - r.inputs.length).toNat = k := by
          omega
        rw [if_neg (fun h => hn (Int.ofNat_lt.mp h)), hposition] at hslot
        refine ⟨r.declareLocal k, ?_, rfl, h.declareLocal k⟩
        rw [← h.localRef_eq]
        exact hslot
  | static i => exact ⟨r, rfl, rfl, h.of_ne (by simp)⟩
  | global i => exact ⟨r, rfl, rfl, h.of_ne (by simp)⟩

/-- **So do several requests**, one after the other. -/
theorem resolveAll (h : r.Tracks asked) (qs : List VarLocation) :
    ∃ r', r.resolveAll qs = .ok (qs.map (VarLocation.ref r.inputs.length), r') ∧
      r'.inputs = r.inputs ∧ r'.Tracks (asked ++ qs) := by
  induction qs generalizing r asked with
  | nil => exact ⟨r, rfl, rfl, by simpa using h⟩
  | cons q qs ih =>
      obtain ⟨r₁, hq, hin, h₁⟩ := h.resolve q
      obtain ⟨r₂, hqs, hin', h₂⟩ := ih h₁
      refine ⟨r₂, ?_, hin'.trans hin, by simpa using h₂⟩
      rw [Routine.resolveAll, hq]
      dsimp only
      rw [hqs, hin, List.map_cons]

end Tracks

/-! ### The variables of a routine -/

/-- The variables that a routine can speak of: its own, and those that all routines share. -/
inductive Knows (r : Routine) : Reference → Prop where
  | input {k : Nat} {v : Variable} : r.inputs[k]? = some v → r.Knows ⟨.input k, v.name⟩
  | auto {k : Nat} {l : Local} : r.locals[k]? = some l → r.Knows ⟨.auto k, l.name⟩
  | static (index : Int) : r.Knows (.static index)
  | global (index : Int) : r.Knows (.global index)

namespace Tracks

/-- Every variable has a location. -/
theorem exists_location (h : r.Tracks asked) {v : Reference} (hv : r.Knows v) :
    ∃ q : VarLocation, v = q.ref r.inputs.length := by
  cases hv with
  | @input k v hv =>
      have hk : k < r.inputs.length := (List.getElem?_eq_some_iff.mp hv).1
      exact ⟨.slot k, by rw [VarLocation.ref_of_lt hk, h.name_input hv]⟩
  | @auto k l hl =>
      exact ⟨.slot (r.inputs.length + k), by rw [VarLocation.ref_add, h.name_local hl]⟩
  | static index => exact ⟨.static index, rfl⟩
  | global index => exact ⟨.global index, rfl⟩

/-- What was asked for is there. -/
theorem knows_ref (h : r.Tracks asked) {q : VarLocation} (hq : q ∈ asked) :
    r.Knows (q.ref r.inputs.length) := by
  cases q with
  | slot n =>
      by_cases hn : n < r.inputs.length
      · have hv := List.getElem?_eq_getElem hn
        rw [VarLocation.ref_of_lt hn, ← h.name_input hv]
        exact .input hv
      · obtain ⟨k, rfl⟩ := Nat.exists_eq_add_of_le (Nat.le_of_not_lt hn)
        have hl := List.getElem?_eq_getElem (h.present k hq)
        rw [VarLocation.ref_add, ← h.name_local hl]
        exact .auto hl
  | static index => exact .static index
  | global index => exact .global index

/-- **The locals declared are those asked for**, in the order of their slots. -/
theorem declaredLocals_eq (h : r.Tracks asked) :
    ∃ slots : List Nat, slots.Pairwise (· < ·) ∧
      (∀ n, n ∈ slots ↔ r.inputs.length ≤ n ∧ .slot n ∈ asked) ∧
      r.declaredLocals = slots.map fun n => .fresh ("local_" ++ toString n) := by
  let positions := (List.range r.locals.length).filter fun k =>
    asked.contains (.slot (r.inputs.length + k))
  refine ⟨positions.map (r.inputs.length + ·), ?_, fun n => ?_, ?_⟩
  · rw [List.pairwise_map]
    exact (List.pairwise_lt_range.filter _).imp fun hlt => Nat.add_lt_add_left hlt _
  · constructor
    · intro hn
      obtain ⟨k, hk, rfl⟩ := List.mem_map.mp hn
      exact ⟨Nat.le_add_right _ k, by simpa using (List.mem_filter.mp hk).2⟩
    · rintro ⟨hle, hn⟩
      obtain ⟨k, rfl⟩ := Nat.exists_eq_add_of_le hle
      exact List.mem_map.mpr ⟨k, List.mem_filter.mpr ⟨by simpa using h.present k hn,
        by simpa using hn⟩, rfl⟩
  · rw [declaredLocals, h.locals, List.filter_map, List.map_map, List.map_map]
    rfl

end Tracks

/-- Locations and variables correspond one to one.  The requests made of `r` and what they found are
`answers`, and `r'` is what has become of it. -/
structure OneToOne (r r' : Routine) (answers : List (VarLocation × Reference)) : Prop where
  inputs : r'.inputs = r.inputs
  /-- A location is always the same variable, -/
  same : ∀ q v v', (q, v) ∈ answers → (q, v') ∈ answers → v = v'
  /-- and different locations are different variables. -/
  apart : ∀ q q' v v', (q, v) ∈ answers → (q', v') ∈ answers → v.place = v'.place → q = q'
  /-- What is found is a variable of the routine, or one that is shared. -/
  known : ∀ q v, (q, v) ∈ answers → r'.Knows v
  input : ∀ n v, (.slot n, v) ∈ answers → n < r.inputs.length → v.place = .input n
  auto : ∀ n v, (.slot n, v) ∈ answers → r.inputs.length ≤ n → v.name = "local_" ++ toString n
  /-- No two variables have the same identifier. -/
  names : ∀ u v, r'.Knows u → r'.Knows v → u.name = v.name → u = v
  /-- The locals declared are those that were asked for, in the order of their slots. -/
  declared : ∃ slots : List Nat, slots.Pairwise (· < ·) ∧
    (∀ n, n ∈ slots ↔ r.inputs.length ≤ n ∧ .slot n ∈ answers.map Prod.fst) ∧
    r'.declaredLocals = slots.map fun n => .fresh ("local_" ++ toString n)

theorem tracks_ofChunk (k : Nat) (c : List Instruction) : (ofChunk k c).Tracks [] := by
  have hlocals : (ofChunk k c).locals = [] := by
    unfold ofChunk
    dsimp only
    split <;> rfl
  refine ⟨?_, by simp [hlocals], by simp⟩
  unfold ofChunk
  dsimp only
  split
  · exact ⟨_, rfl⟩
  · exact ⟨0, rfl⟩

end Routine

/-- **Locations and variables correspond one to one**, in every routine of a program and for all
requests: each finds its variable, whatever was asked for before. -/
theorem Program.locations_oneToOne (p : Program) (r : Routine) (hr : r ∈ p.routines)
    (qs : List VarLocation) :
    ∃ vs r', r.resolveAll qs = .ok (vs, r') ∧ vs.length = qs.length ∧
      r.OneToOne r' (qs.zip vs) := by
  obtain ⟨k, hk, rfl⟩ := mem_routines.mp hr
  obtain ⟨r', hqs, hin, htracks⟩ := (Routine.tracks_ofChunk k ((chunks p.code)[k])).resolveAll qs
  -- from here on all that counts of the routine is that `r'` tracks the locations asked for
  generalize Routine.ofChunk k ((chunks p.code)[k]) = r at hqs hin ⊢
  rw [List.nil_append] at htracks
  have hanswer : ∀ q v, (q, v) ∈ qs.zip (qs.map (VarLocation.ref r.inputs.length)) →
      q ∈ qs ∧ v = q.ref r.inputs.length := by
    intro q v hv
    rw [← List.map_prod_left_eq_zip, List.mem_map] at hv
    obtain ⟨q, hq, ⟨rfl, rfl⟩⟩ := hv
    exact ⟨hq, rfl⟩
  refine ⟨_, r', hqs, by simp, hin, ?_, ?_, ?_, ?_, ?_, ?_, ?_⟩
  · intro q v v' hv hv'
    rw [(hanswer q v hv).2, (hanswer q v' hv').2]
  · intro q q' v v' hv hv' hplace
    rw [(hanswer q v hv).2, (hanswer q' v' hv').2] at hplace
    exact VarLocation.place_injective hplace
  · intro q v hv
    obtain ⟨hq, rfl⟩ := hanswer q v hv
    rw [← hin]
    exact htracks.knows_ref hq
  · intro n v hv hn
    rw [(hanswer _ v hv).2, VarLocation.ref_of_lt hn]
  · intro n v hv hn
    obtain ⟨k, rfl⟩ := Nat.exists_eq_add_of_le hn
    rw [(hanswer _ v hv).2, VarLocation.ref_add]
  · intro u v hu hv huv
    obtain ⟨q, rfl⟩ := htracks.exists_location hu
    obtain ⟨q', rfl⟩ := htracks.exists_location hv
    rw [VarLocation.name_injective huv]
  · rw [← hin, List.map_fst_zip (by simp)]
    exact htracks.declaredLocals_eq

/-- A routine with two inputs is asked for a far slot first, then for an input and for a nearer
slot, and for the far one again.  Two slots are skipped, which stay undeclared. -/
theorem Program.locations_oneToOne_sparse :
    let p : Program := {
      name := "sparse"
      code := [⟨0, .op .enter, .enter 2 0 "f"⟩, ⟨1, .op .leave, .ret 2 0⟩] }
    let r : Routine := .ofChunk 0 p.code
    let qs : List VarLocation := [.slot 5, .slot 1, .static (-1), .slot 3, .global (-1), .slot 5]
    r ∈ p.routines ∧
      ∃ vs r', r.resolveAll qs = .ok (vs, r') ∧ vs.length = qs.length ∧
        r.OneToOne r' (qs.zip vs) := by
  intro p r qs
  have hr : r ∈ p.routines := List.mem_singleton.mpr rfl
  exact ⟨hr, p.locations_oneToOne r hr qs⟩

end ScriptLift
