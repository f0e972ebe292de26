import Mathlib
import ScriptLift.Program
import ScriptLift.Proofs.Lift.ReturnCounts

/-!
# Cutting a program into routines

The code of a program is cut before every `ENTER` and nowhere else (`divides_chunks`).  Each piece
becomes a routine, which takes its name and its inputs from the `ENTER` it begins with, if it begins
with one that has the operands of one, and is entered in the table of routines.

The routines are the code, divided; the table knows each of them at its first address, and nothing
else (`Program.routines_divide`).
-/

namespace ScriptLift

variable {code : List Instruction}

/-! ### Pieces -/

/-- The pieces make up the code, and a piece begins just where there is an `ENTER`; only the first
may begin with something else. -/
structure Divides (code : List Instruction) (cs : List (List Instruction)) : Prop where
  flatten : cs.flatten = code
  ne_nil : ∀ c ∈ cs, c ≠ []
  /-- Inside a piece there is no `ENTER`. -/
  inside : ∀ c ∈ cs, ∀ i ∈ c.tail, i.kind ≠ .op .enter
  begins : ∀ c ∈ cs.tail, ∃ i ∈ c.head?, i.kind = .op .enter

namespace Divides

variable {i : Instruction} {rest c : List Instruction} {cs : List (List Instruction)}

theorem singleton (i : Instruction) : Divides [i] [[i]] := by
  refine ⟨rfl, ?_, ?_, ?_⟩ <;> simp

/-- An instruction before an `ENTER` is a piece of its own. -/
theorem cut (h : Divides rest (c :: cs)) (hc : ∃ j ∈ c.head?, j.kind = .op .enter)
    (i : Instruction) :
    Divides (i :: rest) ([i] :: c :: cs) where
  flatten := by rw [List.flatten_cons, h.flatten, List.singleton_append]
  ne_nil := List.forall_mem_cons.mpr ⟨List.cons_ne_nil i [], h.ne_nil⟩
  inside := List.forall_mem_cons.mpr ⟨fun j hj => absurd hj List.not_mem_nil, h.inside⟩
  begins := List.forall_mem_cons.mpr ⟨hc, h.begins⟩

/-- An instruction before any other belongs to its piece. -/
theorem extend (h : Divides rest (c :: cs)) (hc : ¬ ∃ j ∈ c.head?, j.kind = .op .enter)
    (i : Instruction) :
    Divides (i :: rest) ((i :: c) :: cs) where
  flatten := by rw [← h.flatten, List.flatten_cons, List.flatten_cons, List.cons_append]
  ne_nil := by
    obtain ⟨-, hrest⟩ := List.forall_mem_cons.mp h.ne_nil
    exact List.forall_mem_cons.mpr ⟨List.cons_ne_nil i c, hrest⟩
  inside := by
    obtain ⟨hfirst, hrest⟩ := List.forall_mem_cons.mp h.inside
    refine List.forall_mem_cons.mpr ⟨fun j hj hkind => ?_, hrest⟩
    rw [List.tail_cons] at hj
    cases c with
    | nil => cases hj
    | cons first c =>
        rcases List.mem_cons.mp hj with rfl | hj
        · exact hc ⟨j, rfl, hkind⟩
        · exact hfirst j hj hkind
  begins := h.begins

end Divides

/-- **The code is cut before every `ENTER`.** -/
theorem divides_chunks (code : List Instruction) : Divides code (chunks code) := by
  induction code with
  | nil => refine ⟨rfl, ?_, ?_, ?_⟩ <;> simp [chunks]
  | cons i rest ih =>
      rw [chunks]
      cases hc : chunks rest with
      | nil =>
          obtain rfl : rest = [] := by rw [← ih.flatten, hc, List.flatten_nil]
          exact .singleton i
      | cons c cs =>
          rw [hc] at ih
          have hhead : c.head?.any (·.isEnter) = true ↔ ∃ j ∈ c.head?, j.kind = .op .enter := by
            simp [Option.any_eq_true, Instruction.isEnter]
          dsimp only
          split_ifs with henter
          · exact ih.cut (hhead.mp henter) i
          · exact ih.extend (fun h => henter (hhead.mpr h)) i

/-! ### Names and inputs -/

/-- The code begins with an `ENTER` that has the operands of one. -/
def HasHead (code : List Instruction) (args : Int) (name : String) : Prop :=
  ∃ address locals, code.head? = some ⟨address, .op .enter, .enter args locals name⟩

/-- The code begins with an `ENTER` that gives it a name. -/
def NamedBy (code : List Instruction) (name : String) : Prop :=
  name ≠ "" ∧ ∃ args, HasHead code args name

/-- A routine made of the `k`-th piece of code is named by it, or else by its number. -/
def NamedAt (k : Nat) (r : Routine) : Prop :=
  NamedBy r.code r.name ∨ (∀ name, ¬ NamedBy r.code name) ∧ r.name = "func_" ++ toString k

/-- A routine has as many inputs as the `ENTER` of its code says, and none without one. -/
def InputsDeclared (r : Routine) : Prop :=
  (∃ args name, HasHead r.code args name ∧ r.inputs.length = args.toNat) ∨
    (∀ args name, ¬ HasHead r.code args name) ∧ r.inputs = []

namespace Routine

/-- The two cases of a piece of code: it begins with an `ENTER` that has the operands of one, or
not. -/
theorem ofChunk_cases (k : Nat) (code : List Instruction) :
    (∃ args name, HasHead code args name ∧
      ofChunk k code
        = .ofCode ((givenName? (some name)).getD ("func_" ++ toString k)) code (inputsFor args)) ∨
    (∀ args name, ¬ HasHead code args name) ∧
      ofChunk k code = .ofCode ("func_" ++ toString k) code [] := by
  unfold ofChunk
  dsimp only
  split
  · rename_i address args locals name rest
    exact .inl ⟨args, name, ⟨address, locals, rfl⟩, rfl⟩
  · rename_i hhead
    refine .inr ⟨?_, rfl⟩
    rintro args name ⟨address, locals, h⟩
    obtain ⟨rest, rfl⟩ := List.head?_eq_some_iff.mp h
    exact hhead address args locals name rest rfl

/-- The name of a routine is that of its head, or one made of its number. -/
theorem namedAt_ofChunk (k : Nat) (code : List Instruction) : NamedAt k (ofChunk k code) := by
  obtain ⟨args, name, hhead, heq⟩ | ⟨hnone, heq⟩ := ofChunk_cases k code
  · rw [NamedAt, heq, ofCode]
    dsimp only
    by_cases hname : name = ""
    · -- an empty name counts as none
      refine .inr ⟨?_, by rw [hname]; rfl⟩
      rintro other ⟨hother, args', address', locals', hhead'⟩
      obtain ⟨address, locals, hhead⟩ := hhead
      cases hhead.symm.trans hhead'
      exact hother hname
    · rw [givenName?, if_neg hname]
      exact .inl ⟨hname, args, hhead⟩
  · rw [NamedAt, heq, ofCode]
    exact .inr ⟨fun name h => hnone _ _ h.2.choose_spec, rfl⟩

/-- The inputs of a routine are as many as its head says, and none without a head. -/
theorem inputsDeclared_ofChunk (k : Nat) (code : List Instruction) :
    InputsDeclared (ofChunk k code) := by
  obtain ⟨args, name, hhead, heq⟩ | ⟨hnone, heq⟩ := ofChunk_cases k code
  · rw [InputsDeclared, heq, ofCode]
    exact .inl ⟨args, name, hhead, by simp [inputsFor]⟩
  · rw [InputsDeclared, heq, ofCode]
    exact .inr ⟨hnone, rfl⟩

end Routine

/-! ### The table of routines -/

/-- The instruction is a return that says that it gives back `n` values. -/
def Instruction.GivesBack (i : Instruction) (n : Int) : Prop :=
  i.kind = .op .leave ∧ ∃ args, i.operands = .ret args n

/-- The first return that says how many values it gives back says `n`; without one it is none. -/
def FirstGivesBack (code : List Instruction) (n : Int) : Prop :=
  (∃ before i after, code = before ++ i :: after ∧ i.GivesBack n ∧
    ∀ j ∈ before, ∀ m, ¬ j.GivesBack m) ∨
  (∀ i ∈ code, ∀ m, ¬ i.GivesBack m) ∧ n = 0

theorem Instruction.returns?_eq_some_iff {i : Instruction} {n : Int} :
    i.returns? = some n ↔ i.GivesBack n := by
  obtain ⟨address, kind, operands⟩ := i
  unfold returns? GivesBack
  dsimp only
  split
  · rename_i args returns
    simp
  · rename_i hnot
    refine ⟨fun h => absurd h (by simp), ?_⟩
    rintro ⟨rfl, args, rfl⟩
    exact absurd rfl (hnot args n rfl)

theorem Instruction.returns?_eq_none_iff {i : Instruction} :
    i.returns? = none ↔ ∀ n, ¬ i.GivesBack n := by
  simp only [Option.eq_none_iff_forall_ne_some, ne_eq, returns?_eq_some_iff]

/-- The number declared is that of the first return in the piece. -/
theorem declaredReturns_eq_iff {n : Int} : declaredReturns code = n ↔ FirstGivesBack code n := by
  unfold declaredReturns FirstGivesBack
  cases hfirst : code.findSome? (·.returns?) with
  | none =>
      simp only [List.findSome?_eq_none_iff, Instruction.returns?_eq_none_iff] at hfirst
      constructor
      · rintro rfl
        exact .inr ⟨hfirst, rfl⟩
      · rintro (⟨before, i, after, rfl, hi, -⟩ | ⟨-, rfl⟩)
        · exact absurd hi (hfirst i (by simp) n)
        · rfl
  | some m =>
      obtain ⟨before, i, after, rfl, hi, hbefore⟩ := List.findSome?_eq_some_iff.mp hfirst
      simp only [Instruction.returns?_eq_none_iff] at hbefore
      constructor
      · rintro rfl
        exact .inl ⟨before, i, after, rfl, Instruction.returns?_eq_some_iff.mp hi, hbefore⟩
      · rintro (⟨before', i', after', heq, hi', hbefore'⟩ | ⟨hnone, -⟩)
        · have hsame : (before' ++ i' :: after').findSome? (·.returns?) = some n := by
            refine List.findSome?_eq_some_iff.mpr ⟨before', i', after', rfl, ?_, fun j hj => ?_⟩
            · exact Instruction.returns?_eq_some_iff.mpr hi'
            · exact Instruction.returns?_eq_none_iff.mpr (hbefore' j hj)
          rw [← heq, hfirst] at hsame
          exact Option.some.inj hsame
        · exact absurd (Instruction.returns?_eq_some_iff.mp hi) (hnone i (by simp) m)

namespace Program

variable {p : Program}

/-- A fresh table holds the routines entered in it, where none takes the place of another. -/
theorem callee?_register_iff {rs : List Routine} (hn : (rs.map (·.address)).Nodup)
    (hp : p.callees = []) {a : Int} {c : Callee} :
    (p.register rs).callee? a = some c ↔ ∃ r ∈ rs, r.address = a ∧ r.callee = c := by
  constructor
  · intro h
    by_cases ha : a ∈ rs.map (·.address)
    · obtain ⟨r, hr, rfl⟩ := List.mem_map.mp ha
      rw [callee?_register hn hr] at h
      exact ⟨r, hr, rfl, Option.some.inj h⟩
    · rw [callee?_register_of_not_mem ha, callee?, hp] at h
      cases h
  · rintro ⟨r, hr, rfl, rfl⟩
    exact callee?_register hn hr

theorem map_code_routines (p : Program) : p.routines.map (·.code) = chunks p.code := by
  refine List.ext_getElem (by simp [routines]) fun k _ _ => ?_
  simp only [routines, List.getElem_map, List.getElem_mapIdx, (Routine.ofChunk_eq k _).1]

theorem exists_of_getElem?_routines {k : Nat} {r : Routine} (h : p.routines[k]? = some r) :
    ∃ c, r = .ofChunk k c := by
  rw [routines, List.getElem?_mapIdx] at h
  obtain ⟨c, -, rfl⟩ := Option.map_eq_some_iff.mp h
  exact ⟨c, rfl⟩

/-- A routine is entered at its first instruction. -/
theorem head_of_mem_routines {r : Routine} (hr : r ∈ p.routines) :
    ∃ i ∈ r.code.head?, i.address = r.address := by
  obtain ⟨k, hk, rfl⟩ := mem_routines.mp hr
  obtain ⟨hcode, haddress⟩ := Routine.ofChunk_eq k ((chunks p.code)[k])
  obtain ⟨i, hi⟩ := Option.isSome_iff_exists.mp
    (List.isSome_head?.mpr (ne_nil_of_mem_chunks (List.getElem_mem hk)))
  refine ⟨i, by rw [hcode]; exact hi, ?_⟩
  rw [haddress, hi]
  rfl

/-- **The routines of a program divide its code.**  Together they are the code; none is empty; an
`ENTER` stands at the beginning of a routine only, and every routine but perhaps the first begins
with one.  A routine is named by its `ENTER`, or else by its number, and has the inputs that its
`ENTER` declares.  If their addresses differ, then a table that was empty knows the routines at
their first addresses and nothing at any other, each with its name, the number of its inputs and
what its first return says. -/
theorem routines_divide (p : Program) :
    Divides p.code (p.routines.map (·.code)) ∧
    (∀ k r, p.routines[k]? = some r → NamedAt k r ∧ InputsDeclared r) ∧
    ((p.routines.map (·.address)).Nodup → p.callees = [] → ∀ a c,
      (p.register p.routines).callee? a = some c ↔
        ∃ r ∈ p.routines, (∃ i ∈ r.code.head?, i.address = a) ∧ c.name = r.name ∧
          c.args = r.inputs.length ∧ FirstGivesBack r.code c.returns) := by
  refine ⟨?_, fun k r hr => ?_, fun hn hp a c => ?_⟩
  · rw [map_code_routines]
    exact divides_chunks p.code
  · obtain ⟨code, rfl⟩ := exists_of_getElem?_routines hr
    exact ⟨Routine.namedAt_ofChunk k code, Routine.inputsDeclared_ofChunk k code⟩
  · rw [callee?_register_iff hn hp]
    refine exists_congr fun r => and_congr_right fun hr => and_congr ?_ ?_
    · obtain ⟨i, hi, haddress⟩ := head_of_mem_routines hr
      rw [Option.mem_def] at hi
      simp [hi, haddress]
    · obtain ⟨name, args, returns⟩ := c
      simp only [Routine.callee, Callee.mk.injEq, declaredReturns_eq_iff]
      exact and_congr eq_comm (and_congr_left fun _ => eq_comm)

/-- Code before the first `ENTER`, a routine with a name whose first `LEAVE` says nothing of its
values, one with an empty name and a negative number of arguments, and one whose `ENTER` has the
operands of a jump. -/
theorem routines_divide_unnamed :
    let p : Program := {
      name := "script"
      code := [⟨0, .op .nop, .enter 1 0 "x"⟩, ⟨1, .op .enter, .enter 2 0 "f"⟩,
        ⟨2, .op .leave, .none⟩, ⟨3, .op .leave, .ret 2 1⟩, ⟨4, .op .enter, .enter (-1) 0 ""⟩,
        ⟨5, .op .leave, .ret 0 0⟩, ⟨6, .op .enter, .branch 0⟩] }
    (p.routines.map (·.address)).Nodup ∧ p.callees = [] ∧
      p.routines.map (·.name) = ["func_0", "f", "func_2", "func_3"] ∧
      Divides p.code (p.routines.map (·.code)) ∧
      (p.register p.routines).callee? 1 = some ⟨"f", 2, 1⟩ ∧
      ∀ c, (p.register p.routines).callee? 2 ≠ some c := by
  intro p
  have hn : (p.routines.map (·.address)).Nodup := by decide
  have hnames : p.routines.map (·.name) = ["func_0", "f", "func_2", "func_3"] := by
    dsimp only [p]
    cbv
  obtain ⟨hdivides, -, htable⟩ := routines_divide p
  have hheads : ∀ r ∈ p.routines, ∀ i ∈ r.code.head?, i.address ≠ 2 := by decide
  have hf : p.routines[1]? = some (.ofChunk 1 ((p.code.drop 1).take 3)) := by
    dsimp only [p]
    cbv
  refine ⟨hn, rfl, hnames, hdivides, (htable hn rfl 1 _).mpr ⟨_, List.mem_of_getElem? hf, ?_⟩, ?_⟩
  · refine ⟨⟨_, rfl, rfl⟩, ?_, ?_, .inl ⟨[⟨1, .op .enter, .enter 2 0 "f"⟩, ⟨2, .op .leave, .none⟩],
      ⟨3, .op .leave, .ret 2 1⟩, [], rfl, ⟨rfl, 2, rfl⟩, ?_⟩⟩
    · rfl
    · rfl
    · simp [Instruction.GivesBack]
  · intro c hc
    obtain ⟨r, hr, ⟨i, hi, haddress⟩, -⟩ := (htable hn rfl 2 c).mp hc
    exact hheads r hr i hi haddress

end Program

end ScriptLift
