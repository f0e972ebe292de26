import ScriptLift.Proofs.Lift.Completion
import ScriptLift.Proofs.Structured.Execution

/-!
# Lifting compiled code

Lifting the code of a program succeeds, and the block at a leader holds the statements of its pieces
and goes on where the last of them does (`Source.IsCodeOf.lift`).
-/

namespace ScriptLift.Structured

variable {address : Nat → Int} {k : Nat} {a : Act} {as : List Act} {s : Source} {p : Program}
  {r : Routine}

/-- Where the layout goes on behind a piece that ends before position `n`. -/
def Act.onward (r : Routine) (address : Nat → Int) (n : Nat) : Act → Option Int
  | test _ t => some (r.elseBranch (address n) (address t)).2
  | jump _ | ret .. => none
  | enter _ | run _ => some (address n)

/-- Where the layout goes on behind several pieces, the first of them at `k`. -/
def onwardOf (r : Routine) (address : Nat → Int) (k : Nat) : List Act → Option Int
  | [] => none
  | [a] => a.onward r address (k + a.size)
  | a :: as => onwardOf r address (k + a.size) as

theorem onwardOf_concat (init : List Act) :
    onwardOf r address k (init ++ [a]) = a.onward r address (k + totalSize (init ++ [a])) := by
  induction init generalizing k with
  | nil => simp [onwardOf]
  | cons b init ih =>
      obtain ⟨c, rest, hc⟩ := List.exists_cons_of_ne_nil (l := init ++ [a]) (by simp)
      rw [List.cons_append, hc, onwardOf, ← hc, ih]
      · simp [Nat.add_assoc]
      · simp

theorem stmtsOf_append (xs ys : List Act) :
    stmtsOf r address k (xs ++ ys)
      = stmtsOf r address k xs ++ stmtsOf r address (k + totalSize xs) ys := by
  induction xs generalizing k with
  | nil => rfl
  | cons b xs ih => simp [stmtsOf, ih, Nat.add_assoc]

theorem mem_addresses_of_restAt (hr : RestAt s.acts k (a :: as)) :
    address k ∈ (s.code address).map (·.address) := by
  refine (mem_addresses_place address _).mpr ⟨k, ?_, rfl⟩
  rw [length_opsOf]
  exact hr.lt (List.cons_ne_nil a as)

/-- Blocks start at leaders, and so at pieces. -/
theorem Source.IsCodeOf.exists_restAt (hm : StrictMono address) (hs : s.IsCodeOf address r)
    {g : Graph} {order : List Int} (hinv : r.survey.Inv r.address g order []) {c : Int}
    (hc : c ∈ g.starts) :
    ∃ k a as, c = address k ∧ c ∈ s.leaders address ∧ RestAt s.acts k (a :: as) := by
  have hl := hinv.leader c (hinv.starts c hc)
  obtain ⟨i, hi, rfl⟩ := List.mem_map.mp (hinv.code c (hinv.starts c hc))
  rw [Routine.survey, hs.code] at hi
  obtain ⟨k, x, -, rfl⟩ := mem_place.mp hi
  rw [Nat.zero_add] at hl ⊢
  rw [Routine.survey, hs.code, hs.entry] at hl
  obtain ⟨a, as, hr⟩ := RestAt.of_mem_starts (s.mem_starts_of_leader hm hl)
  exact ⟨k, a, as, rfl, hl, hr⟩

/-- **A block of the code yields the statements of its pieces.** -/
theorem Source.IsCodeOf.yields (hm : StrictMono address) (hs : s.IsCodeOf address r) {g : Graph}
    {order : List Int} (hinv : r.survey.Inv r.address g order []) {c : Int} {b : Block}
    (hb : g.block? c = some b) :
    ∃ ss, b.Yields r ss ∧ ∀ k a as, c = address k → RestAt s.acts k (a :: as) →
      ss = stmtsOf r address k (blockActs address (s.leaders address) k (a :: as)) := by
  obtain ⟨k, a, as, rfl, hl, hr⟩ := hs.exists_restAt hm hinv (Graph.exists_block?_iff.mp ⟨b, hb⟩)
  obtain ⟨b', hb', hinstr, hft⟩ := hs.exists_block hm hinv hr hl
  obtain rfl : b' = b := Option.some.inj (hb'.symm.trans hb)
  refine ⟨stmtsOf r address k (blockActs address (s.leaders address) k (a :: as)),
    fun f hf hi => ?_, fun k' a' as' hk hr' => ?_⟩
  · obtain ⟨hrun, hunread⟩ := Lift.exec_runBlock f
    rw [hi, hinstr] at hrun hunread
    rw [length_place] at hrun
    rw [hrun]
    exact (does_blockActs hft).exec
      ⟨hf.handled, hf.code, hf.names, hf.fallthrough, hf.stack⟩ hunread
  · obtain rfl := hm.injective hk
    rw [hr.unique hr']

/-- A block whose last instruction transfers no control goes on where it falls through. -/
theorem continuation_of_pass {r' : Routine} {b : Block} {last : Instruction} {plain : List Stmt}
    {e : Ending} (hb : b.Lifted r' last plain e) (ht : last.isTransfer = false) :
    b.continuation = b.fallthrough := by
  have hn : ¬ last.isTransfer = true := by simp [ht]
  rw [isTransfer_iff, not_or, not_or] at hn
  rw [hb.continuation]
  cases hb.fits with
  | stop h => exact absurd h hn.1
  | goto h _ => exact absurd h hn.2.1
  | dangling h _ _ => exact absurd h hn.2.2
  | fork h _ _ => exact absurd h hn.2.2
  | pass _ => rfl

/-- **A lifted block goes on where its last piece does.** -/
theorem continuation_eq {r' : Routine} {b : Block} {last : Instruction} {plain : List Stmt}
    {e : Ending} {init : List Act} (hends : b.EndsWith r' last) (hb : b.Lifted r' last plain e)
    (hinstr : b.tape.instructions = place address k (opsOf address (init ++ [a])))
    (hft : a.passes = true → b.fallthrough = some (address (k + totalSize (init ++ [a]))))
    (hst : b.statements = stmtsOf r address k (init ++ [a])) :
    b.continuation = onwardOf r address k (init ++ [a]) := by
  have hst' : b.statements = stmtsOf r address k init
      ++ a.stmts r address (k + totalSize (init ++ [a])) := by
    rw [hst, stmtsOf_append]
    simp [stmtsOf, Nat.add_assoc]
  have htransfer : last.isTransfer = a.isTransfer := by
    obtain ⟨ops, op, he⟩ := a.exists_endsIn address
    obtain ⟨c, hc⟩ := getLast?_place_opsOf he k init
    obtain ⟨rest, hrest, -⟩ := hends.ends
    rw [← hinstr, hrest, List.getLast?_concat, Option.some.injEq] at hc
    rw [hc]
    exact he.transfer
  have hending := hb.ending_eq
  rw [Block.ending, hst'] at hending
  rw [onwardOf_concat]
  generalize k + totalSize (init ++ [a]) = n at hending hft
  cases a with
  | enter h => rw [continuation_of_pass hb htransfer, hft rfl, Act.onward]
  | run st => rw [continuation_of_pass hb htransfer, hft rfl, Act.onward]
  | test c t =>
      obtain rfl : e = .fork _ _ _ _ := by simpa [Act.stmts] using hending.symm
      exact hb.continuation
  | jump t =>
      obtain rfl : e = .goto _ := by simpa [Act.stmts] using hending.symm
      exact hb.continuation
  | ret args result =>
      obtain rfl : e = .stop _ := by simpa [Act.stmts] using hending.symm
      exact hb.continuation

/-- The blocks of `g` hold what the pieces of the program say. -/
def Source.IsLiftedTo (address : Nat → Int) (s : Source) (r : Routine) (g : Graph) : Prop :=
  ∀ k a as, RestAt s.acts k (a :: as) → address k ∈ s.leaders address →
    ∃ b, g.block? (address k) = some b ∧
      b.statements = stmtsOf r address k (blockActs address (s.leaders address) k (a :: as)) ∧
      b.continuation = onwardOf r address k (blockActs address (s.leaders address) k (a :: as))

/-- **Lifting compiled code succeeds**, and each block holds what its pieces say. -/
theorem Source.IsCodeOf.lift (hm : StrictMono address) (hs : s.IsCodeOf address r)
    (hp : p.handled = Opcode.all) :
    (p.lift r).value = .ok () ∧ (p.lift r).state.2.address = r.address ∧
      s.IsLiftedTo address r (p.lift r).state.2.graph := by
  have he : r.address ∈ r.code.map (·.address) := by
    obtain ⟨a, as, hr⟩ := s.exists_restAt_zero
    rw [hs.code, hs.entry]
    exact mem_addresses_of_restAt hr
  obtain ⟨hok, g, order, hinv, hblocks⟩ := Program.lift_yields hp (hs.nodup hm) he
    fun g order hinv c b hb => hs.yields hm hinv hb
  have hcode : r.code ≠ [] := by
    intro h
    simp [h] at he
  obtain ⟨-, hadr, hlifted⟩ := Program.isLifted_lift hp (hs.nodup hm) hcode hok
  refine ⟨hok, hadr, fun k a as hr hl => ?_⟩
  obtain ⟨b₀, hb₀, hinstr, hft⟩ := hs.exists_block hm hinv hr hl
  obtain ⟨b, hb, hflow, hst⟩ := hblocks _ b₀ hb₀
  obtain ⟨last, plain, e, hends, hb'⟩ := hlifted.blocks _ b hb
  refine ⟨b, hb, hst k a as rfl hr, ?_⟩
  obtain ⟨init, c, hinit⟩ := (List.eq_nil_or_concat
    (blockActs address (s.leaders address) k (a :: as))).resolve_left (by simp [blockActs])
  rw [List.concat_eq_append] at hinit
  have hst' := hst k a as rfl hr
  rw [hinit] at hinstr hst' hft ⊢
  exact continuation_eq hends hb' (hflow.instructions.trans hinstr)
    (fun hp => hflow.fallthrough.trans (hft init c rfl hp)) hst'

end ScriptLift.Structured
