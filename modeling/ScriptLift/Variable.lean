import ScriptLift.Event
import ScriptLift.Expr

/-!
# Variables

A variable is an identifier with what is known of its type.  Types of variables that all routines
share are kept by place (`Typing`).
-/

namespace ScriptLift

/-- A variable by its name, and the type known of it. -/
structure Variable where
  name : String
  type : DataType
  deriving DecidableEq, Repr, Inhabited

namespace Variable

/-- A variable of open type. -/
def fresh (name : String) : Variable :=
  ⟨name, .unknown⟩

/-- A declaration of the variable. -/
def text (v : Variable) : String :=
  v.type.text ++ " " ++ v.name

/-- The variable after learning `new` about its type. -/
def learn (v : Variable) (new : DataType) : Variable :=
  { v with type := v.type.refine new }

/-- The first of the variables with a given identifier. -/
def byName? (vs : List Variable) (name : String) : Option Variable :=
  vs.find? fun v => v.name = name

/-- The variable at an index; a negative one is no index. -/
def byIndex? (vs : List Variable) (index : Int) : Option Variable :=
  if index < 0 then none else vs[index.toNat]?

theorem byIndex?_natCast (vs : List Variable) (n : Nat) : byIndex? vs n = vs[n]? := by
  rw [byIndex?, if_neg (by omega), Int.toNat_natCast]

/-- The variable found by an identifier is the one at the first index that has the identifier. -/
theorem byName?_eq_some_iff {vs : List Variable} {name : String} {v : Variable} :
    byName? vs name = some v ↔
      ∃ n : Nat, byIndex? vs n = some v ∧ v.name = name ∧
        ∀ m : Nat, m < n → ∀ w, byIndex? vs m = some w → w.name ≠ name := by
  simp only [byName?, byIndex?_natCast, List.find?_eq_some_iff_getElem, decide_eq_true_eq]
  constructor
  · rintro ⟨hname, n, hn, rfl, hbefore⟩
    refine ⟨n, List.getElem?_eq_getElem hn, hname, fun m hm w hw => ?_⟩
    obtain ⟨hlt, rfl⟩ := List.getElem?_eq_some_iff.mp hw
    simpa using hbefore m hm
  · rintro ⟨n, hv, hname, hbefore⟩
    obtain ⟨hn, rfl⟩ := List.getElem?_eq_some_iff.mp hv
    refine ⟨hname, n, hn, rfl, fun m hm => ?_⟩
    simpa using hbefore m hm vs[m] (List.getElem?_eq_getElem (Nat.lt_trans hm hn))

end Variable

/-- What is reported when `new` is learnt about a variable of type `known`. -/
def learnEvents (name : String) (known new : DataType) : List Event :=
  if known.Contradicts new then [.typeKept known name new] else []

/-- What is known of the places that no routine owns. -/
structure Typing where
  entries : List (Place × DataType) := []
  deriving Repr, Inhabited

namespace Typing

/-- What is known of a place. -/
def get (t : Typing) (p : Place) : DataType :=
  (t.entries.lookup p).getD .unknown

/-- The typing with one entry replaced. -/
def set (t : Typing) (p : Place) (type : DataType) : Typing :=
  ⟨(p, type) :: t.entries.filter fun e => e.1 ≠ p⟩

/-- The typing after learning `new` about a place. -/
def learn (t : Typing) (p : Place) (new : DataType) : Typing :=
  t.set p ((t.get p).refine new)

end Typing

end ScriptLift
