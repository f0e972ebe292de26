import Mathlib
import ScriptLift.Proofs.ControlFlow
import ScriptLift.Proofs.Structured.Syntax

/-!
# Code in its place

What compiled code looks like from outside.  Only the last operation of a piece transfers control or
has a target (`Act.exists_endsIn`), the positions that jumps name are starts of pieces
(`Source.target_mem_starts`), and control gets to every position (`Source.reaches`).

A conditional jump looks at the instruction before its target to tell whether there is a second
part.  Before the second part of a choice that is the jump over it; before the end of a branch or of
a loop it is never a jump further forward (`Body.jump_le_of_last`).
-/

namespace ScriptLift.Structured

/-! ### Placing operations -/

section Place

variable {address : Nat → Int} {k j : Nat} {xs ys : List Op} {x : Op}

@[simp]
theorem length_place : (place address k xs).length = xs.length := by
  induction xs generalizing k with
  | nil => rfl
  | cons x xs ih => simp [place, ih]

/-- Operations behind others are placed behind them. -/
theorem place_append :
    place address k (xs ++ ys) = place address k xs ++ place address (k + xs.length) ys := by
  induction xs generalizing k with
  | nil => rfl
  | cons x xs ih => simp [place, ih, Nat.add_assoc, Nat.add_comm 1]

/-- The operation at a position is placed at the address of that position. -/
theorem getElem?_place (address : Nat → Int) (k : Nat) (xs : List Op) (j : Nat) :
    (place address k xs)[j]? = xs[j]?.map (·.instruction (address (k + j))) := by
  induction xs generalizing k j with
  | nil => rfl
  | cons x xs ih =>
      cases j with
      | zero => rfl
      | succ j => simp [place, ih, Nat.add_assoc, Nat.add_comm 1]

/-- Every instruction is an operation at its position. -/
theorem mem_place {i : Instruction} :
    i ∈ place address k xs ↔
      ∃ (j : Nat) (x : Op), xs[j]? = some x ∧ x.instruction (address (k + j)) = i := by
  rw [List.mem_iff_getElem?]
  simp only [getElem?_place, Option.map_eq_some_iff]

/-- The code around a position. -/
theorem place_split (hx : xs[j]? = some x) :
    place address 0 xs = place address 0 (xs.take j)
      ++ x.instruction (address j) :: place address (j + 1) (xs.drop (j + 1)) := by
  obtain ⟨hj, rfl⟩ := List.getElem?_eq_some_iff.mp hx
  have hlen : (xs.take j).length = j := by simp; omega
  conv_lhs => rw [← List.take_append_drop j xs, place_append, List.drop_eq_getElem_cons hj, hlen]
  simp [place]

/-- The addresses in use are those of the positions. -/
theorem mem_addresses_place (address : Nat → Int) (xs : List Op) :
    address j ∈ (place address 0 xs).map (·.address) ↔ ∃ n < xs.length, address n = address j := by
  simp only [List.mem_map, mem_place]
  constructor
  · rintro ⟨i, ⟨n, x, hx, rfl⟩, ha⟩
    exact ⟨n, (List.getElem?_eq_some_iff.mp hx).1, by simpa [Op.instruction] using ha⟩
  · rintro ⟨n, hn, ha⟩
    exact ⟨_, ⟨n, xs[n], by simp [hn], rfl⟩, by simpa [Op.instruction] using ha⟩

/-- Increasing addresses are distinct. -/
theorem nodup_addresses_place (h : StrictMono address) (k : Nat) (xs : List Op) :
    ((place address k xs).map (·.address)).Nodup := by
  induction xs generalizing k with
  | nil => simp [place]
  | cons x xs ih =>
      rw [place, List.map_cons, List.nodup_cons]
      refine ⟨?_, ih _⟩
      rw [List.mem_map]
      rintro ⟨i, hi, ha⟩
      obtain ⟨j, y, -, rfl⟩ := mem_place.mp hi
      have := h.injective (show address (k + 1 + j) = address k from ha)
      omega

end Place

/-! ### Pieces -/

/-- The operation does not transfer control and has no target. -/
def Op.IsPlain (x : Op) : Prop :=
  ∀ a, (x.instruction a).isTransfer = false ∧ (x.instruction a).branchTarget? = none

theorem isPlain_of {o : Opcode} {y : Operands} (ho : o.isTransfer = false)
    (hy : ∀ t, y ≠ .branch t) : (⟨o, y⟩ : Op).IsPlain := by
  intro a
  refine ⟨ho, ?_⟩
  cases y <;> first | rfl | exact absurd rfl (hy _)

/-- Behind a plain operation control goes on with the next. -/
theorem Op.IsPlain.code_ne {x : Op} (h : x.IsPlain) : x.code ≠ .leave ∧ x.code ≠ .jump := by
  have hcode : x.code.isTransfer = false := (h 0).1
  constructor <;> intro hc <;> simp [hc, Opcode.isTransfer] at hcode

namespace Term

mutual

/-- To evaluate a term transfers no control; by recursion on the term. -/
theorem isPlain_of_mem_ops {x : Op} : ∀ (e : Term), x ∈ e.ops → x.IsPlain
  | int value, h => by
      rw [List.mem_singleton.mp h]
      exact isPlain_of rfl (by simp)
  | var v, h => by
      rw [List.mem_singleton.mp h]
      exact isPlain_of rfl (by simp)
  | binary o left right, h => by
      rcases List.mem_append.mp h with h | h
      · exact isPlain_of_mem_ops left h
      rcases List.mem_append.mp h with h | h
      · exact isPlain_of_mem_ops right h
      · rw [List.mem_singleton.mp h]
        exact isPlain_of (by cases o <;> rfl) (by simp)
  | unary o operand, h => by
      rcases List.mem_append.mp h with h | h
      · exact isPlain_of_mem_ops operand h
      · rw [List.mem_singleton.mp h]
        exact isPlain_of rfl (by simp)
  | native f args, h => by
      rcases List.mem_append.mp h with h | h
      · exact isPlain_of_mem_opsAll args h
      · rw [List.mem_singleton.mp h]
        exact isPlain_of rfl (by simp [Native.operands])

theorem isPlain_of_mem_opsAll {x : Op} : ∀ (es : List Term), x ∈ opsAll es → x.IsPlain
  | e :: es, h => by
      rcases List.mem_append.mp h with h | h
      · exact isPlain_of_mem_ops e h
      · exact isPlain_of_mem_opsAll es h

end

end Term

/-- Nor does a simple statement. -/
theorem Simple.isPlain_of_mem_ops {x : Op} (s : Simple) (h : x ∈ s.ops) : x.IsPlain := by
  cases s with
  | store v e =>
      rcases List.mem_append.mp h with h | h
      · exact e.isPlain_of_mem_ops h
      · rw [List.mem_singleton.mp h]
        exact isPlain_of rfl (by simp)
  | call f args =>
      rcases List.mem_append.mp h with h | h
      · exact Term.isPlain_of_mem_opsAll args h
      · rw [List.mem_singleton.mp h]
        exact isPlain_of rfl (by simp [Native.operands])
  | drop f args =>
      rcases List.mem_append.mp h with h | h
      · exact Term.isPlain_of_mem_opsAll args h
      rcases List.mem_cons.mp h with rfl | h
      · exact isPlain_of rfl (by simp [Native.operands])
      · rw [List.mem_singleton.mp h]
        exact isPlain_of rfl (by simp)

theorem Simple.ops_ne_nil (s : Simple) : s.ops ≠ [] := by
  cases s <;> simp [Simple.ops]

namespace Act

/-- The number of instructions. -/
def size : Act → Nat
  | enter _ => 1
  | run s => s.ops.length
  | test c _ => c.ops.length + 1
  | jump _ => 1
  | ret _ result => (Term.opsAll result.toList).length + 1

/-- The last instruction of the act ends its block. -/
def isTransfer : Act → Bool
  | enter _ | run _ => false
  | _ => true

/-- Control goes on behind the piece. -/
def passes : Act → Bool
  | jump _ | ret .. => false
  | _ => true

/-- The position that the piece may jump to. -/
def target? : Act → Option Nat
  | test _ target => some target
  | jump target => some target
  | _ => none

variable {address : Nat → Int} {a : Act}

/-- The size of an act does not depend on the addresses. -/
@[simp]
theorem length_ops (address : Nat → Int) (a : Act) : (a.ops address).length = a.size := by
  cases a <;> simp [ops, size]

/-- No act is empty. -/
theorem size_pos : 0 < a.size := by
  cases a with
  | run s => exact List.length_pos_iff.mpr s.ops_ne_nil
  | _ => simp [size]

/-- The operations of the piece are `init` and then `last`, which alone transfers control or has a
target. -/
structure EndsIn (address : Nat → Int) (a : Act) (init : List Op) (last : Op) : Prop where
  ops : a.ops address = init ++ [last]
  plain : ∀ x ∈ init, x.IsPlain
  transfer : last.code.isTransfer = a.isTransfer
  passes : a.passes = true → last.code ≠ .leave ∧ last.code ≠ .jump
  branchTarget : ∀ c, (last.instruction c).branchTarget? = a.target?.map address
  jumpTarget : ∀ c, (last.instruction c).jumpTarget? = a.target?.map address

/-- One operation transfers control, and the others stand in front of it. -/
theorem EndsIn.size {init : List Op} {last : Op} (h : a.EndsIn address init last) :
    a.size = init.length + 1 := by
  rw [← a.length_ops address, h.ops, List.length_append, List.length_singleton]

theorem endsIn_jump (address : Nat → Int) (t : Nat) :
    (jump t).EndsIn address [] ⟨.jump, .branch (address t)⟩ where
  ops := rfl
  plain := by simp
  transfer := rfl
  passes := by simp [Act.passes]
  branchTarget _ := rfl
  jumpTarget _ := rfl

/-- **Only the last operation of a piece transfers control or has a target.** -/
theorem exists_endsIn (address : Nat → Int) (a : Act) :
    ∃ init last, a.EndsIn address init last := by
  cases a with
  | enter h => exact ⟨[], _, rfl, by simp, rfl, by simp, fun _ => rfl, fun _ => rfl⟩
  | run s =>
      obtain ⟨init, last, hs⟩ := (List.eq_nil_or_concat s.ops).resolve_left s.ops_ne_nil
      have hs' : s.ops = init ++ [last] := by rw [hs, List.concat_eq_append]
      have hlast := s.isPlain_of_mem_ops (x := last) (by simp [hs'])
      refine ⟨init, last, hs', fun x hx => s.isPlain_of_mem_ops (by simp [hs', hx]), (hlast 0).1,
        fun _ => hlast.code_ne, fun c => (hlast c).2, fun c => ?_⟩
      rw [Instruction.jumpTarget?, (hlast c).2]
      simp [target?]
  | test c t =>
      exact ⟨c.ops, _, rfl, fun x hx => c.isPlain_of_mem_ops hx, rfl, by simp, fun _ => rfl,
        fun _ => rfl⟩
  | jump t => exact ⟨[], _, endsIn_jump address t⟩
  | ret args result =>
      exact ⟨_, _, rfl, fun x hx => Term.isPlain_of_mem_opsAll _ hx, rfl, by simp [Act.passes],
        fun _ => rfl, fun _ => rfl⟩

end Act

/-- The number of instructions of several pieces. -/
def totalSize (acts : List Act) : Nat :=
  (acts.map Act.size).sum

/-- The positions of several pieces, the first of them at `k`. -/
def starts (k : Nat) : List Act → List Nat
  | [] => []
  | a :: acts => k :: starts (k + a.size) acts

section Acts

variable {address : Nat → Int} {k j : Nat} {a : Act} {as bs : List Act}

@[simp]
theorem totalSize_nil : totalSize [] = 0 := rfl

@[simp]
theorem totalSize_cons : totalSize (a :: as) = a.size + totalSize as := by
  simp [totalSize]

/-- Acts one behind the other take the sum of their sizes. -/
@[simp]
theorem totalSize_append : totalSize (as ++ bs) = totalSize as + totalSize bs := by
  simp [totalSize]

@[simp]
theorem opsOf_cons : opsOf address (a :: as) = a.ops address ++ opsOf address as := by
  simp [opsOf]

@[simp]
theorem opsOf_append : opsOf address (as ++ bs) = opsOf address as ++ opsOf address bs := by
  simp [opsOf]

/-- As many operations as the acts are large. -/
@[simp]
theorem length_opsOf : (opsOf address as).length = totalSize as := by
  induction as with
  | nil => rfl
  | cons a as ih => simp [ih]

/-- Acts behind others start where those end. -/
theorem starts_append : starts k (as ++ bs) = starts k as ++ starts (k + totalSize as) bs := by
  induction as generalizing k with
  | nil => rfl
  | cons a as ih => simp [starts, ih, Nat.add_assoc]

/-- Acts start within the space they take. -/
theorem le_of_mem_starts (h : j ∈ starts k as) : k ≤ j ∧ j < k + totalSize as := by
  induction as generalizing k with
  | nil => simp [starts] at h
  | cons a as ih =>
      have := a.size_pos
      rcases List.mem_cons.mp h with rfl | h
      · simp; omega
      · have := ih h
        simp; omega

end Acts

namespace Body

variable {k : Nat}

/-- The acts of a body take as much space as its size says; by recursion on the body. -/
@[simp]
theorem totalSize_acts (b : Body) (k : Nat) : totalSize (b.acts k) = b.size := by
  induction b generalizing k with
  | done => rfl
  | act s next ih => simp [acts, size, Act.size, ih]
  | branch c body next ihb ihn => simp [acts, size, Act.size, ihb, ihn]; omega
  | choice c yes no next ihy ihn ihx => simp [acts, size, Act.size, ihy, ihn, ihx]; omega
  | loop c body next ihb ihn => simp [acts, size, Act.size, ihb, ihn]; omega

/-- A body starts with a piece, if there is any. -/
theorem start_mem (b : Body) (k : Nat) : k ∈ starts k (b.acts k) ∨ k = k + b.size := by
  cases b with
  | done => exact Or.inr rfl
  | act | branch | choice | loop => exact Or.inl (List.mem_cons_self ..)

/-- **Jumps go to pieces**, of the body or right behind it. -/
theorem target_mem {b : Body} {a : Act} {t : Nat} (ha : a ∈ b.acts k) (ht : a.target? = some t) :
    t ∈ starts k (b.acts k) ∨ t = k + b.size := by
  -- positions of a part are positions of the whole
  induction b generalizing k with
  | done => simp [acts] at ha
  | act s next ih =>
      simp only [acts, starts, size, List.mem_cons, Act.size] at ha ⊢
      rcases ha with rfl | ha
      · simp [Act.target?] at ht
      · have := ih ha
        grind
  | branch c body next ihb ihn =>
      have hn := next.start_mem (k + c.ops.length + 1 + body.size)
      simp only [acts, starts, starts_append, size, List.mem_cons, List.mem_append, Act.size,
        totalSize_acts] at ha ⊢
      rcases ha with rfl | ha | ha
      · cases ht
        grind
      · have := ihb ha
        grind
      · have := ihn ha
        grind
  | choice c yes no next ihy ihn ihx =>
      have hn := no.start_mem (k + c.ops.length + 1 + yes.size + 1)
      have hx := next.start_mem (k + c.ops.length + 1 + yes.size + 1 + no.size)
      simp only [acts, starts, starts_append, size, List.mem_cons, List.mem_append, Act.size,
        totalSize_acts] at ha ⊢
      rcases ha with rfl | ha | rfl | ha | ha
      · cases ht
        grind
      · have := ihy ha
        grind
      · cases ht
        grind
      · have := ihn ha
        grind
      · have := ihx ha
        grind
  | loop c body next ihb ihn =>
      have hn := next.start_mem (k + c.ops.length + 1 + body.size + 1)
      simp only [acts, starts, starts_append, size, List.mem_cons, List.mem_append, Act.size,
        totalSize_acts] at ha ⊢
      rcases ha with rfl | ha | rfl | ha
      · cases ht
        grind
      · have := ihb ha
        grind
      · cases ht
        grind
      · have := ihn ha
        grind

end Body

theorem Source.totalSize_enter (s : Source) :
    totalSize (s.head.toList.map .enter) = s.first := by
  cases h : s.head <;> simp [first, Act.size, h]

/-- Every jump goes to the start of an act. -/
theorem Source.target_mem_starts {s : Source} {a : Act} {t : Nat} (ha : a ∈ s.acts)
    (ht : a.target? = some t) : t ∈ starts 0 s.acts := by
  simp only [acts, List.mem_append, List.mem_map, List.mem_singleton] at ha
  simp only [acts, starts_append, totalSize_enter, Nat.zero_add, starts, List.mem_append,
    List.mem_singleton, Body.totalSize_acts]
  rcases ha with ⟨h, -, rfl⟩ | ha | rfl
  · simp [Act.target?] at ht
  · exact Or.inr (Body.target_mem ha ht)
  · simp [Act.target?] at ht

/-! ### Control gets everywhere -/

/-- Control gets to the operation at a position. -/
def Reaches (address : Nat → Int) (xs : List Op) (j : Nat) : Prop :=
  ∀ x, xs[j]? = some x → Reachable (place address 0 xs) (address 0) (x.instruction (address j))

namespace Reaches

variable {address : Nat → Int} {xs : List Op} {j t : Nat} {x : Op}

/-- An operation is placed at the address of its position. -/
theorem mem_of_getElem? (hx : xs[j]? = some x) :
    x.instruction (address j) ∈ place address 0 xs :=
  mem_place.mpr ⟨j, x, hx, by rw [Nat.zero_add]⟩

/-- Control goes from an operation to an address that is one of its ways out. -/
theorem of_goesTo (h : Reaches address xs j) (hx : xs[j]? = some x)
    (ht : (x.instruction (address j)).fallThrough? (place address 0 xs) = some (address t) ∨
      (x.instruction (address j)).jumpTarget? = some (address t)) : Reaches address xs t := by
  intro y hy
  refine .step (h x hx) (mem_of_getElem? hy) (List.mem_filter.mpr ⟨?_, ?_⟩)
  · rw [List.mem_append, Option.mem_toList, Option.mem_toList]
    exact ht
  · exact decide_eq_true (List.mem_map_of_mem (f := (·.address)) (mem_of_getElem? hy))

/-- Control goes on behind an operation that neither returns nor jumps. -/
theorem succ (hm : StrictMono address) (h : Reaches address xs j) (hx : xs[j]? = some x)
    (hl : x.code ≠ .leave) (hj : x.code ≠ .jump) : Reaches address xs (j + 1) := by
  intro y hy
  have hd := nodup_addresses_place hm 0 xs
  have hdrop : place address (j + 1) (xs.drop (j + 1))
      = y.instruction (address (j + 1)) :: place address (j + 2) (xs.drop (j + 2)) := by
    obtain ⟨hlt, rfl⟩ := List.getElem?_eq_some_iff.mp hy
    rw [List.drop_eq_getElem_cons hlt]
    rfl
  refine of_goesTo h hx (Or.inl ?_) y hy
  have hk : ¬ ((x.instruction (address j)).kind = .op .leave ∨
      (x.instruction (address j)).kind = .op .jump) := by
    simp [Op.instruction, hl, hj]
  rw [Instruction.fallThrough?, if_neg hk]
  rw [place_split hx] at hd ⊢
  rw [addressBehind?_append (notMem_of_nodup hd), hdrop]
  rfl

end Reaches

/-- The pieces `as` make up the rest of `all` from position `k` on. -/
def RestAt (all : List Act) (k : Nat) (as : List Act) : Prop :=
  ∃ before, all = before ++ as ∧ totalSize before = k

namespace RestAt

variable {all as bs : List Act} {k : Nat} {a : Act} {address : Nat → Int}

/-- What follows some of the acts. -/
theorem append (h : RestAt all k (as ++ bs)) : RestAt all (k + totalSize as) bs := by
  obtain ⟨before, rfl, rfl⟩ := h
  exact ⟨before ++ as, by simp, by simp⟩

/-- What follows the first act. -/
theorem cons (h : RestAt all k (a :: as)) : RestAt all (k + a.size) as := by
  have : RestAt all k ([a] ++ as) := h
  simpa using this.append

theorem lt (h : RestAt all k as) (has : as ≠ []) : k < totalSize all := by
  obtain ⟨before, rfl, rfl⟩ := h
  obtain ⟨a, as, rfl⟩ := List.exists_cons_of_ne_nil has
  have := a.size_pos
  rw [totalSize_append, totalSize_cons]
  omega

/-- A rest that is not empty starts with an act. -/
theorem mem_starts (h : RestAt all k (a :: as)) : k ∈ starts 0 all := by
  obtain ⟨before, rfl, rfl⟩ := h
  simp [starts_append, starts]

/-- There is a piece at every start. -/
theorem of_mem_starts {j : Nat} (h : j ∈ starts 0 all) : ∃ a as, RestAt all j (a :: as) := by
  have general : ∀ (k : Nat) (xs : List Act), j ∈ starts k xs →
      ∃ before a as, xs = before ++ a :: as ∧ k + totalSize before = j := by
    intro k xs
    induction xs generalizing k with
    | nil => simp [starts]
    | cons b xs ih =>
        intro hj
        rcases List.mem_cons.mp hj with rfl | hj
        · exact ⟨[], b, xs, rfl, rfl⟩
        · obtain ⟨before, a, as, rfl, hk⟩ := ih _ hj
          exact ⟨b :: before, a, as, rfl, by simpa [Nat.add_assoc] using hk⟩
  obtain ⟨before, a, as, hall, hk⟩ := general 0 all h
  exact ⟨a, as, before, hall, by simpa using hk⟩

/-- What is behind a position is known by the position. -/
theorem unique (h : RestAt all k as) (h' : RestAt all k bs) : as = bs := by
  have nil_of_size : ∀ xs : List Act, totalSize xs = 0 → xs = [] := by
    intro xs hxs
    cases xs with
    | nil => rfl
    | cons a xs =>
        have := a.size_pos
        rw [totalSize_cons] at hxs
        omega
  obtain ⟨before, rfl, rfl⟩ := h
  obtain ⟨before', heq, hk⟩ := h'
  rcases List.append_eq_append_iff.mp heq with ⟨xs, rfl, rfl⟩ | ⟨xs, rfl, rfl⟩
  · rw [totalSize_append] at hk
    rw [nil_of_size xs (by omega), List.nil_append]
  · rw [totalSize_append] at hk
    rw [nil_of_size xs (by omega), List.nil_append]

/-- The operations of the rest are the rest of the operations. -/
theorem opsOf_eq (h : RestAt all k as) (address : Nat → Int) :
    ∃ before, opsOf address all = before ++ opsOf address as ∧ before.length = k := by
  obtain ⟨before, rfl, rfl⟩ := h
  exact ⟨opsOf address before, by simp, by simp⟩

/-- The last operation of a piece in its place. -/
theorem last {init : List Op} {last : Op} (hr : RestAt all k (a :: as))
    (he : a.EndsIn address init last) : (opsOf address all)[k + a.size - 1]? = some last := by
  obtain ⟨before, hops, rfl⟩ := hr.opsOf_eq address
  have hsize := he.size
  rw [hops, opsOf_cons, he.ops, hsize, List.getElem?_append_right (by omega)]
  simp

end RestAt

/-- **What control gets to from a piece**: its operations, what is behind it unless it leaves, and
what it jumps to. -/
theorem Reaches.act {address : Nat → Int} {all as : List Act} {k : Nat} {a : Act}
    (hm : StrictMono address) (hr : RestAt all k (a :: as))
    (h : Reaches address (opsOf address all) k) :
    (∀ j, k ≤ j → j < k + a.size → Reaches address (opsOf address all) j) ∧
      (a.passes = true → Reaches address (opsOf address all) (k + a.size)) ∧
      ∀ t, a.target? = some t → Reaches address (opsOf address all) t := by
  obtain ⟨init, last, hends⟩ := a.exists_endsIn address
  obtain ⟨before, hops, hk⟩ := hr.opsOf_eq address
  have hsize := hends.size
  rw [opsOf_cons, hends.ops] at hops
  have hinit : ∀ n, (hn : n < init.length) → (opsOf address all)[k + n]? = some init[n] := by
    intro n hn
    rw [hops, ← hk, List.getElem?_append_right (by omega)]
    simp [List.getElem?_append, hn]
  have hlast : (opsOf address all)[k + init.length]? = some last := by
    simpa [hsize] using hr.last hends
  -- straight through the operations before the last
  have inner : ∀ n, n ≤ init.length → Reaches address (opsOf address all) (k + n) := by
    intro n
    induction n with
    | zero => exact fun _ => h
    | succ n ih =>
        intro hn
        have hplain := hends.plain _ (List.getElem_mem (l := init) (show n < init.length by omega))
        exact (ih (by omega)).succ hm (hinit n (by omega)) hplain.code_ne.1 hplain.code_ne.2
  refine ⟨fun j hkj hj => ?_, fun hp => ?_, fun t ht => ?_⟩
  · obtain ⟨n, rfl⟩ := Nat.exists_eq_add_of_le hkj
    exact inner n (by omega)
  · rw [hsize, ← Nat.add_assoc]
    exact (inner _ (Nat.le_refl _)).succ hm hlast (hends.passes hp).1 (hends.passes hp).2
  · refine (inner _ (Nat.le_refl _)).of_goesTo hlast (Or.inr ?_)
    rw [hends.jumpTarget, ht]
    rfl

namespace Body

variable {address : Nat → Int} {all rest : List Act} {k : Nat} {s : Simple} {c : Term}
  {body yes no next : Body}

/-! Where the parts of a body are. -/

/-- Behind a simple statement. -/
theorem restAt_act (h : RestAt all k ((act s next).acts k ++ rest)) :
    RestAt all k (.run s :: (next.acts (k + s.ops.length) ++ rest)) ∧
      RestAt all (k + s.ops.length) (next.acts (k + s.ops.length) ++ rest) :=
  ⟨h, RestAt.cons h⟩

/-- In a branch: the test, the part behind it, and what follows. -/
theorem restAt_branch (h : RestAt all k ((branch c body next).acts k ++ rest)) :
    let first := k + c.ops.length + 1
    let exit := first + body.size
    RestAt all k (.test c exit :: (body.acts first ++ (next.acts exit ++ rest))) ∧
      RestAt all first (body.acts first ++ (next.acts exit ++ rest)) ∧
      RestAt all exit (next.acts exit ++ rest) := by
  intro first exit
  have h₁ : RestAt all k (.test c exit :: (body.acts first ++ (next.acts exit ++ rest))) := by
    simpa [acts, first, exit] using h
  have h₂ : RestAt all first (body.acts first ++ (next.acts exit ++ rest)) := h₁.cons
  refine ⟨h₁, h₂, ?_⟩
  simpa using h₂.append

/-- In a choice: the test, the first part, the jump over the second, the second, and what
follows. -/
theorem restAt_choice (h : RestAt all k ((choice c yes no next).acts k ++ rest)) :
    let first := k + c.ops.length + 1
    let second := first + yes.size + 1
    let exit := second + no.size
    RestAt all k (.test c second :: (yes.acts first
        ++ .jump exit :: (no.acts second ++ (next.acts exit ++ rest)))) ∧
      RestAt all first
        (yes.acts first ++ .jump exit :: (no.acts second ++ (next.acts exit ++ rest))) ∧
      RestAt all (first + yes.size) (.jump exit :: (no.acts second ++ (next.acts exit ++ rest))) ∧
      RestAt all second (no.acts second ++ (next.acts exit ++ rest)) ∧
      RestAt all exit (next.acts exit ++ rest) := by
  intro first second exit
  have h₁ : RestAt all k (.test c second :: (yes.acts first
      ++ .jump exit :: (no.acts second ++ (next.acts exit ++ rest)))) := by
    simpa [acts, first, second, exit] using h
  have h₂ : RestAt all first (yes.acts first
      ++ .jump exit :: (no.acts second ++ (next.acts exit ++ rest))) := h₁.cons
  have h₃ : RestAt all (first + yes.size)
      (.jump exit :: (no.acts second ++ (next.acts exit ++ rest))) := by
    simpa using h₂.append
  have h₄ : RestAt all second (no.acts second ++ (next.acts exit ++ rest)) := h₃.cons
  refine ⟨h₁, h₂, h₃, h₄, ?_⟩
  simpa using h₄.append

/-- In a loop: the test, the body, the jump back, and what follows. -/
theorem restAt_loop (h : RestAt all k ((loop c body next).acts k ++ rest)) :
    let first := k + c.ops.length + 1
    let exit := first + body.size + 1
    RestAt all k (.test c exit :: (body.acts first ++ .jump k :: (next.acts exit ++ rest))) ∧
      RestAt all first (body.acts first ++ .jump k :: (next.acts exit ++ rest)) ∧
      RestAt all (first + body.size) (.jump k :: (next.acts exit ++ rest)) ∧
      RestAt all exit (next.acts exit ++ rest) := by
  intro first exit
  have h₁ : RestAt all k (.test c exit :: (body.acts first
      ++ .jump k :: (next.acts exit ++ rest))) := by
    simpa [acts, first, exit] using h
  have h₂ : RestAt all first (body.acts first ++ .jump k :: (next.acts exit ++ rest)) := h₁.cons
  have h₃ : RestAt all (first + body.size) (.jump k :: (next.acts exit ++ rest)) := by
    simpa using h₂.append
  exact ⟨h₁, h₂, h₃, h₃.cons⟩

/-- **Control goes through a whole body and on behind it.** -/
theorem reaches {b : Body} (hm : StrictMono address) (hr : RestAt all k (b.acts k ++ rest))
    (h : Reaches address (opsOf address all) k) {j : Nat} (hkj : k ≤ j) (hj : j ≤ k + b.size) :
    Reaches address (opsOf address all) j := by
  -- the test of a branch, a choice or a loop leads to its parts and behind it, both times by
  -- `Reaches.act`; the jumps at the end of parts are not needed
  induction b generalizing k rest j with
  | done =>
      obtain rfl : j = k := by simp only [size] at hj; omega
      exact h
  | act s next ih =>
      obtain ⟨hs, hn⟩ := restAt_act hr
      obtain ⟨inner, pass, -⟩ := h.act hm hs
      simp only [size, Act.size] at hj inner pass
      by_cases hlt : j < k + s.ops.length
      · exact inner j hkj hlt
      · exact ih hn (pass rfl) (by omega) (by omega)
  | branch c body next ihb ihn =>
      obtain ⟨ht, hb, hn⟩ := restAt_branch hr
      obtain ⟨inner, pass, jump⟩ := h.act hm ht
      simp only [size, Act.size] at hj inner pass
      by_cases h₁ : j < k + (c.ops.length + 1)
      · exact inner j hkj h₁
      by_cases h₂ : j ≤ k + c.ops.length + 1 + body.size
      · exact ihb hb (pass rfl) (by omega) (by omega)
      · exact ihn hn (jump _ rfl) (by omega) (by omega)
  | choice c yes no next ihy ihn ihx =>
      obtain ⟨ht, hy, hj', hno, hx⟩ := restAt_choice hr
      obtain ⟨inner, pass, jump⟩ := h.act hm ht
      have hsecond := fun j => ihn (j := j) hno (jump _ rfl)
      simp only [size, Act.size] at hj inner pass
      by_cases h₁ : j < k + (c.ops.length + 1)
      · exact inner j hkj h₁
      by_cases h₂ : j ≤ k + c.ops.length + 1 + yes.size
      · exact ihy hy (pass rfl) (by omega) (by omega)
      by_cases h₃ : j ≤ k + c.ops.length + 1 + yes.size + 1 + no.size
      · exact hsecond j (by omega) (by omega)
      · exact ihx hx (hsecond _ (by omega) (by omega)) (by omega) (by omega)
  | loop c body next ihb ihn =>
      obtain ⟨ht, hb, hj', hn⟩ := restAt_loop hr
      obtain ⟨inner, pass, jump⟩ := h.act hm ht
      simp only [size, Act.size] at hj inner pass
      by_cases h₁ : j < k + (c.ops.length + 1)
      · exact inner j hkj h₁
      by_cases h₂ : j ≤ k + c.ops.length + 1 + body.size
      · exact ihb hb (pass rfl) (by omega) (by omega)
      · exact ihn hn (jump _ rfl) (by omega) (by omega)

end Body

namespace Source

variable {s : Source} {address : Nat → Int}

theorem restAt_head {e : Head} (h : s.head = some e) :
    RestAt s.acts 0 (.enter e :: (s.body.acts s.first ++ [.ret s.args s.result])) :=
  ⟨[], by simp [acts, h], rfl⟩

/-- The body stands behind the head, if there is one. -/
theorem restAt_body (s : Source) :
    RestAt s.acts s.first (s.body.acts s.first ++ [.ret s.args s.result]) :=
  ⟨s.head.toList.map .enter, rfl, s.totalSize_enter⟩

/-- The last return stands behind the body. -/
theorem restAt_ret (s : Source) : RestAt s.acts (s.first + s.body.size) [.ret s.args s.result] := by
  simpa using s.restAt_body.append

/-- **Control gets to all of the code.** -/
theorem reaches (hm : StrictMono address) (j : Nat) : Reaches address (opsOf address s.acts) j := by
  have hstart : Reaches address (opsOf address s.acts) 0 :=
    fun x hx => .entry (Reaches.mem_of_getElem? hx) rfl
  have hfirst : Reaches address (opsOf address s.acts) s.first := by
    cases h : s.head with
    | none => simpa [first, h] using hstart
    | some e => simpa [first, h, Act.size] using (hstart.act hm (restAt_head h)).2.1 rfl
  by_cases hj : j < s.first
  · -- there is nothing before the body but the head
    obtain rfl : j = 0 := by
      have : s.first ≤ 1 := by cases h : s.head <;> simp [first, h]
      omega
    exact hstart
  by_cases hj' : j ≤ s.first + s.body.size
  · exact Body.reaches hm s.restAt_body hfirst (by omega) hj'
  · have hend :=
      Body.reaches hm s.restAt_body hfirst (Nat.le_add_right _ s.body.size) (Nat.le_refl _)
    by_cases hin : j < s.first + s.body.size + (Act.ret s.args s.result).size
    · exact (hend.act hm s.restAt_ret).1 j (by omega) hin
    · intro x hx
      have hlt := (List.getElem?_eq_some_iff.mp hx).1
      simp only [length_opsOf, acts, totalSize_append, totalSize_enter, Body.totalSize_acts,
        totalSize_cons, totalSize_nil] at hlt
      omega

end Source

/-! ### Looking back from a target -/

section ElseBranch

variable {address : Nat → Int} {xs : List Op} {r : Routine} {n t m : Nat}

/-- Where addresses increase, the position of one is found by searching. -/
theorem indexOf?_place (hm : StrictMono address) (hc : r.code = place address 0 xs)
    (ht : t < xs.length) : r.indexOf? (address t) = some t := by
  have hx : xs[t]? = some xs[t] := List.getElem?_eq_getElem ht
  rw [Routine.indexOf?, hc, List.findIdx?_eq_some_iff_getElem]
  refine ⟨by simpa using ht, ?_, fun j hj => ?_⟩
  · have := getElem?_place address 0 xs t
    rw [List.getElem?_eq_getElem (by simpa using ht), hx, Option.map_some, Option.some.injEq]
      at this
    simp [this, Op.instruction]
  · have hj' : j < xs.length := by omega
    have := getElem?_place address 0 xs j
    rw [List.getElem?_eq_getElem (by simpa using hj'), List.getElem?_eq_getElem hj',
      Option.map_some, Option.some.injEq] at this
    simp [this, Op.instruction, hm.injective.eq_iff]
    omega

/-- A jump further forward before the target makes the target the second part. -/
theorem elseBranch_of_jump (hm : StrictMono address) (hc : r.code = place address 0 xs)
    (hx : xs[t]? = some ⟨.jump, .branch (address m)⟩) (hn : n ≤ t) (htm : t + 1 < m)
    (hlen : m < xs.length) :
    r.elseBranch (address n) (address (t + 1)) = (some (address (t + 1)), address m) := by
  have hat : r.code[t]? = some ⟨address t, .op .jump, .branch (address m)⟩ := by
    rw [hc, getElem?_place, hx, Nat.zero_add]
    rfl
  have hhas : r.hasAddress (address m) = true := by
    have := (mem_addresses_place address xs).mpr ⟨m, hlen, rfl⟩
    simpa [Routine.hasAddress, hc] using this
  simp [Routine.elseBranch, indexOf?_place hm hc (show t + 1 < xs.length by omega), hat, hhas,
    hm.lt_iff_lt, htm, hm.le_iff_le, hn]

/-- Without such a jump the target is the join. -/
theorem elseBranch_of_not_jump (hm : StrictMono address) (hc : r.code = place address 0 xs)
    (ht : t < xs.length)
    (hx : ∀ join, xs[t - 1]? = some ⟨.jump, .branch join⟩ → join ≤ address t) :
    r.elseBranch (address n) (address t) = (none, address t) := by
  rw [Routine.elseBranch, indexOf?_place hm hc ht]
  cases t with
  | zero => rfl
  | succ t =>
      dsimp only
      split
      · rename_i a join hat
        rw [hc, getElem?_place] at hat
        obtain ⟨⟨o, y⟩, hxt, hi⟩ := Option.map_eq_some_iff.mp hat
        obtain ⟨-, ho, rfl⟩ := Instruction.mk.inj hi
        obtain rfl : o = .jump := by simpa using ho
        have := hx join hxt
        rw [if_neg]
        simp
        omega
      · rfl

end ElseBranch

theorem Body.size_pos {b : Body} (h : b ≠ done) : 0 < b.size := by
  cases b with
  | done => exact absurd rfl h
  | act s next =>
      have := List.length_pos_iff.mpr s.ops_ne_nil
      simp only [size]
      omega
  | branch | choice | loop => simp only [size]; omega

/-- **No body ends with a jump further forward than its end.** -/
theorem Body.jump_le_of_last {address : Nat → Int} {all rest : List Act} {k : Nat} {b : Body}
    (hm : StrictMono address) (hr : RestAt all k (b.acts k ++ rest)) (hb : b.IsProper)
    (hpos : 0 < b.size) {join : Int}
    (h : (opsOf address all)[k + b.size - 1]? = some ⟨.jump, .branch join⟩) :
    join ≤ address (k + b.size) := by
  -- the last operation of a construct is that of its last part that has any
  induction b generalizing k rest with
  | done => simp [size] at hpos
  | act s next ih =>
      obtain ⟨hs, hn⟩ := restAt_act hr
      simp only [size, ← Nat.add_assoc] at h hpos ⊢
      by_cases hnext : 0 < next.size
      · exact ih hn hb hnext h
      · obtain ⟨init, last, he⟩ := (Act.run s).exists_endsIn address
        rw [Nat.eq_zero_of_not_pos hnext, Nat.add_zero] at h
        have hlast := hs.last he
        rw [Act.size, h, Option.some.injEq] at hlast
        have := he.transfer
        simp [← hlast, Act.isTransfer, Opcode.isTransfer] at this
  | branch c body next ihb ihn =>
      obtain ⟨ht, hbody, hn⟩ := restAt_branch hr
      simp only [size, ← Nat.add_assoc] at h hpos ⊢
      by_cases hnext : 0 < next.size
      · exact ihn hn hb.2 hnext h
      rw [Nat.eq_zero_of_not_pos hnext, Nat.add_zero] at h ⊢
      by_cases hbpos : 0 < body.size
      · exact ihb hbody hb.1 hbpos h
      · obtain ⟨init, last, he⟩ := (Act.test c _).exists_endsIn address
        rw [Nat.eq_zero_of_not_pos hbpos, Nat.add_zero] at h
        have hlast := ht.last he
        rw [Act.size, ← Nat.add_assoc, h, Option.some.injEq] at hlast
        have := (he.passes rfl).2
        simp [← hlast] at this
  | choice c yes no next ihy ihn ihx =>
      obtain ⟨-, -, -, hno, hx⟩ := restAt_choice hr
      obtain ⟨hne, -, hnoP, hnextP⟩ := hb
      simp only [size, ← Nat.add_assoc] at h hpos ⊢
      by_cases hnext : 0 < next.size
      · exact ihx hx hnextP hnext h
      · rw [Nat.eq_zero_of_not_pos hnext, Nat.add_zero] at h ⊢
        exact ihn hno hnoP (size_pos hne) h
  | loop c body next ihb ihn =>
      obtain ⟨-, -, hj, hn⟩ := restAt_loop hr
      simp only [size, ← Nat.add_assoc] at h hpos ⊢
      by_cases hnext : 0 < next.size
      · exact ihn hn hb.2 hnext h
      · rw [Nat.eq_zero_of_not_pos hnext, Nat.add_zero] at h ⊢
        have hlast := hj.last (Act.endsIn_jump address k)
        rw [Act.size, h, Option.some.injEq] at hlast
        obtain rfl : join = address k := by simpa using hlast
        rw [hm.le_iff_le]
        omega

end ScriptLift.Structured
