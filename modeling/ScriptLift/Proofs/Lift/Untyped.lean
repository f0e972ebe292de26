import ScriptLift.Proofs.Lift.Success
import ScriptLift.Proofs.Lift.Visit

/-!
# Types do not matter

What is learnt about the types of variables and of the result is never asked for but to learn more
of it and to report.  So two lifts of the same code go the same way, whatever is known at their
start, and whichever locals are there from an earlier lift: they come to the same value or fault,
and they leave the same graph.

`Routine.Uses r touched returned s` says what a lift may have made of the routine `r` besides its
graph: up to types, the locals at the positions `touched` have been declared, and return sites with
the numbers of values in `returned` have been met.  `InStep` relates two lifts that are at the same
point; each computation keeps them there (`Lift.Blind`), and so does a whole lift
(`Program.lift_inStep`).
-/

namespace ScriptLift

/-! ### Locals without types -/

/-- The local without what is known of its type. -/
def Local.untyped (l : Local) : Local :=
  { l with type := .unknown }

/-- The local that is made up at a position behind a number of inputs. -/
def Local.placeholder (inputs position : Nat) : Local :=
  { Variable.fresh ("local_" ++ toString (inputs + position)) with declared := false }

/-- The locals with the one at a position made where needed, and declared. -/
def declareAt (inputs : Nat) (locals : List Local) (position : Nat) : List Local :=
  (locals ++ (List.range' locals.length (position + 1 - locals.length)).map
    (Local.placeholder inputs)).modify position fun l => { l with declared := true }

/-- The locals with those at several positions declared, one after the other. -/
def declareAll (inputs : Nat) (locals : List Local) (positions : List Nat) : List Local :=
  positions.foldl (declareAt inputs) locals

/-- The local at a position is there and declared. -/
def IsDeclared (locals : List Local) (position : Nat) : Prop :=
  ∃ l, locals[position]? = some l ∧ l.declared = true

section Declared

variable {inputs p q : Nat} {locals : List Local} {positions : List Nat}

/-- To declare a local and to forget types can be done in either order. -/
theorem map_untyped_declareAt (inputs p : Nat) (locals : List Local) :
    (declareAt inputs locals p).map Local.untyped
      = declareAt inputs (locals.map Local.untyped) p := by
  have hgrown : ∀ ns : List Nat, locals.map Local.untyped ++ ns.map (Local.placeholder inputs)
      = (locals ++ ns.map (Local.placeholder inputs)).map Local.untyped := by
    intro ns
    rw [List.map_append, List.map_map]
    rfl
  rw [declareAt, declareAt, List.length_map, hgrown]
  generalize locals ++ _ = grown
  refine List.ext_getElem? fun n => ?_
  rw [List.getElem?_map, List.getElem?_modify, List.getElem?_modify, List.getElem?_map]
  cases grown[n]? with
  | none => rfl
  | some l => by_cases h : p = n <;> simp [h, Local.untyped]

/-- What is declared is not declared again. -/
theorem declareAt_of_declared (h : IsDeclared locals p) : declareAt inputs locals p = locals := by
  obtain ⟨l, hl, hd⟩ := h
  have hlt : p < locals.length := (List.getElem?_eq_some_iff.mp hl).1
  refine List.ext_getElem? fun n => ?_
  rw [declareAt, Nat.sub_eq_zero_of_le hlt, List.range'_zero, List.map_nil, List.append_nil,
    List.getElem?_modify]
  by_cases hn : p = n
  · subst hn
    simp [hl, ← hd]
  · simp [hn]

/-- A local is declared afterwards, even if it was not there. -/
theorem isDeclared_declareAt (inputs p : Nat) (locals : List Local) :
    IsDeclared (declareAt inputs locals p) p := by
  have hlt : p < (locals ++ (List.range' locals.length (p + 1 - locals.length)).map
      (Local.placeholder inputs)).length := by
    simp
    omega
  refine ⟨{ (locals ++ _)[p] with declared := true }, ?_, rfl⟩
  rw [declareAt, List.getElem?_modify, List.getElem?_eq_getElem hlt]
  simp

/-- What was declared stays declared. -/
theorem IsDeclared.declareAt (h : IsDeclared locals q) :
    IsDeclared (declareAt inputs locals p) q := by
  obtain ⟨l, hl, hd⟩ := h
  have hlt : q < locals.length := (List.getElem?_eq_some_iff.mp hl).1
  refine ⟨if p = q then { l with declared := true } else l, ?_, by split <;> simp [hd]⟩
  rw [ScriptLift.declareAt, List.getElem?_modify, List.getElem?_append_left hlt, hl]
  by_cases h : p = q <;> simp [h]

/-- Nothing happens if all are declared. -/
theorem declareAll_of_declared (h : ∀ p ∈ positions, IsDeclared locals p) :
    declareAll inputs locals positions = locals := by
  induction positions with
  | nil => rfl
  | cons p positions ih =>
      obtain ⟨hp, hrest⟩ := List.forall_mem_cons.mp h
      rw [declareAll, List.foldl_cons, declareAt_of_declared hp]
      exact ih hrest

/-- By induction on the positions: each is declared in its turn, and stays so. -/
theorem isDeclared_declareAll (h : q ∈ positions ∨ IsDeclared locals q) :
    IsDeclared (declareAll inputs locals positions) q := by
  induction positions generalizing locals with
  | nil => exact h.resolve_left List.not_mem_nil
  | cons p positions ih =>
      refine ih ?_
      rcases h with h | h
      · rcases List.mem_cons.mp h with rfl | h
        · exact Or.inr (isDeclared_declareAt inputs q locals)
        · exact Or.inl h
      · exact Or.inr h.declareAt

/-- **To declare the same locals again changes nothing.** -/
theorem declareAll_declareAll (inputs : Nat) (locals : List Local) (positions : List Nat) :
    declareAll inputs (declareAll inputs locals positions) positions
      = declareAll inputs locals positions :=
  declareAll_of_declared fun _ hp => isDeclared_declareAll (Or.inl hp)

end Declared

/-! ### What a lift makes of a routine -/

namespace Routine

/-- The two have the same code and the same variables, up to types and to what is declared. -/
structure Twin (r s : Routine) : Prop where
  name : s.name = r.name
  address : s.address = r.address
  code : s.code = r.code
  names : r.SameNames s

theorem Twin.refl (r : Routine) : r.Twin r :=
  ⟨rfl, rfl, rfl, .refl r⟩

theorem Twin.trans {r s t : Routine} (h : r.Twin s) (h' : s.Twin t) : r.Twin t :=
  ⟨h'.name.trans h.name, h'.address.trans h.address, h'.code.trans h.code, h.names.trans h'.names⟩

/-- Up to types, `s` is what becomes of `r` when the locals at `touched` are declared and the
numbers of values in `returned` are given back.  Nothing is said of the graph, nor of the marks of a
walk. -/
structure Uses (r : Routine) (touched : List Nat) (returned : List Int) (s : Routine) : Prop
    extends r.Twin s where
  labels : s.labels = r.labels
  locals : s.locals.map Local.untyped
    = declareAll r.inputs.length (r.locals.map Local.untyped) touched
  count : s.result.map (·.count) = (r.result.map (·.count)).or returned.head?

variable {r s : Routine} {touched : List Nat} {returned : List Int}

/-- The graph and the marks of a walk do not count. -/
theorem uses_refl (r : Routine) (graph : Graph) (visited : List Int) :
    r.Uses [] [] { r with graph, visited } :=
  ⟨⟨rfl, rfl, rfl, rfl, fun _ => rfl⟩, rfl, rfl, by simp⟩

theorem Uses.regraph (h : r.Uses touched returned s) (graph : Graph) (visited : List Int) :
    r.Uses touched returned { s with graph, visited } :=
  ⟨⟨h.name, h.address, h.code, h.names.inputs, h.names.slots⟩, h.labels, h.locals, h.count⟩

theorem locals_declareLocal (r : Routine) (p : Nat) :
    (r.declareLocal p).locals = declareAt r.inputs.length r.locals p := rfl

/-- One more local that was touched. -/
theorem Uses.declareLocal (h : r.Uses touched returned s) (p : Nat) :
    r.Uses (touched ++ [p]) returned (s.declareLocal p) where
  name := h.name
  address := h.address
  code := h.code
  names := h.names.trans (s.sameNames_declareLocal p)
  labels := h.labels
  locals := by
    rw [locals_declareLocal, map_untyped_declareAt, h.locals, h.names.inputs, declareAll,
      declareAll, List.foldl_append, List.foldl_cons, List.foldl_nil]
  count := h.count

/-- A type that is learnt does not count. -/
theorem Uses.learn (h : r.Uses touched returned s) (place : Place) (new : DataType) :
    r.Uses touched returned (s.learn place new) := by
  have hlocals : (s.learn place new).locals.map Local.untyped = s.locals.map Local.untyped := by
    cases place with
    | auto n =>
        exact map_modify_of_name Local.untyped
          (g := fun l : Local => { l with type := l.type.refine new }) (fun _ => rfl) s.locals n
    | input | static | global | loose => rfl
  have hnames := h.names.trans (s.sameNames_learn place new)
  obtain ⟨inputs, locals, heq⟩ := s.learn_eq place new
  rw [heq] at hnames hlocals ⊢
  exact ⟨⟨h.name, h.address, h.code, hnames⟩, h.labels, hlocals.trans h.locals, h.count⟩

/-- The first number of values stays. -/
theorem Uses.giveBack (h : r.Uses touched returned s) {result : Option Result} {count : Int}
    (hr : result.map (·.count) = (s.result.map (·.count)).or (some count)) :
    r.Uses touched (returned ++ [count]) { s with result } where
  name := h.name
  address := h.address
  code := h.code
  names := ⟨h.names.inputs, h.names.slots⟩
  labels := h.labels
  locals := h.locals
  count := by rw [hr, h.count, List.head?_append, Option.or_assoc, List.head?_singleton]

/-- A slot means the same variable, if it means one, whatever is declared. -/
theorem slot_eq (r : Routine) (n : Int) :
    r.slot n
      = if n < r.inputs.length then
          match resolve? r.inputs.length n with
          | some position => .ok (r.localRef position, r)
          | none => .error .badPosition
        else .ok (r.localRef n.toNat, r.declareLocal (n - r.inputs.length).toNat) := by
  by_cases hn : n < r.inputs.length
  · rw [slot, if_pos hn, if_pos hn]
    cases hres : resolve? r.inputs.length n with
    | none => rfl
    | some position => simp [localRef, resolve?_lt hres]
  · obtain ⟨m, rfl⟩ := Int.eq_ofNat_of_zero_le (by omega : 0 ≤ n)
    obtain ⟨locals, hslot, -⟩ := r.slot_natCast m
    rw [if_neg hn, hslot]
    rw [slot, if_neg hn] at hslot
    injection hslot with hslot
    injection hslot with href hroutine
    rw [← hroutine]
    rfl

/-- The first return site settles how many values are returned. -/
theorem count_inferReturn {count : Int} {top : DataType} {events : List Event}
    (h : r.inferReturn count top = .ok (s, events)) :
    s.result.map (·.count) = (r.result.map (·.count)).or (some count) := by
  unfold inferReturn at h
  split at h
  · cases h
  cases hr : r.result with
  | none =>
      rw [hr] at h
      cases h
      rfl
  | some known =>
      rw [hr] at h
      dsimp only at h
      split at h
      · cases h
        simp [hr]
      split at h
      · cases h
        simp [hr]
      · cases h
        simp

end Routine

/-! ### Lifts in step -/

/-- The text of the statement is the same whatever is known of types. -/
def Stmt.IsUntyped (s : Stmt) : Prop :=
  ∀ known known', s.text known' = s.text known

/-- A return is written without types. -/
theorem Stmt.isUntyped_ret (values : List Expr) : (ret values).IsUntyped := by
  cases values <;> exact fun _ _ => rfl

/-- No text of a statement in the blocks depends on types. -/
def Graph.IsUntyped (g : Graph) : Prop :=
  ∀ b ∈ g.blocks, ∀ s ∈ b.statements, s.IsUntyped

/-- A block may be changed, if its new statements are written without types. -/
theorem Graph.IsUntyped.update {g : Graph} (h : g.IsUntyped) {a : Int} {f : Block → Block}
    (hf : ∀ b ∈ g.blocks, ∀ s ∈ (f b).statements, s.IsUntyped) : (g.update a f).IsUntyped := by
  intro b hb
  obtain ⟨b₀, hb₀, rfl⟩ := List.mem_map.mp hb
  split
  · exact hf b₀ hb₀
  · exact h b₀ hb₀

/-- A lift of `r₁` that has come to `s₁` in the program `q₁` and a lift of `r₂` that has come to
`s₂` in `q₂` are at the same point, up to types.  The programs have the tables of `p`. -/
structure InStep (p : Program) (r₁ r₂ : Routine) (q₁ : Program) (s₁ : Routine) (q₂ : Program)
    (s₂ : Routine) : Prop where
  twin : r₁.Twin r₂
  left : p.SameTables q₁
  right : p.SameTables q₂
  uses : ∃ touched returned, r₁.Uses touched returned s₁ ∧ r₂.Uses touched returned s₂
  graph : s₂.graph = s₁.graph
  visited : s₂.visited = s₁.visited
  untyped : s₁.graph.IsUntyped

namespace InStep

variable {p q₁ q₂ : Program} {r₁ r₂ s₁ s₂ : Routine}

/-- The routines that two lifts have come to are twins as those they started from. -/
theorem twins (h : InStep p r₁ r₂ q₁ s₁ q₂ s₂) : s₁.Twin s₂ := by
  obtain ⟨_, _, h₁, h₂⟩ := h.uses
  refine ⟨?_, ?_, ?_, ?_, fun n => ?_⟩
  · rw [h₂.name, h.twin.name, h₁.name]
  · rw [h₂.address, h.twin.address, h₁.address]
  · rw [h₂.code, h.twin.code, h₁.code]
  · rw [h₂.names.inputs, h.twin.names.inputs, h₁.names.inputs]
  · rw [h₂.names.slots, h.twin.names.slots, h₁.names.slots]

/-- Both programs have the tables of `p`. -/
theorem tables (h : InStep p r₁ r₂ q₁ s₁ q₂ s₂) : q₁.SameTables q₂ :=
  ⟨h.right.handled.trans h.left.handled.symm, h.right.callees.trans h.left.callees.symm⟩

/-- Both go on with the same graph. -/
theorem regraph (h : InStep p r₁ r₂ q₁ s₁ q₂ s₂) {graph : Graph} (hg : graph.IsUntyped) :
    InStep p r₁ r₂ q₁ { s₁ with graph } q₂ { s₂ with graph } := by
  obtain ⟨touched, returned, h₁, h₂⟩ := h.uses
  exact ⟨h.twin, h.left, h.right, ⟨touched, returned, h₁.regraph _ _, h₂.regraph _ _⟩, rfl,
    h.visited, hg⟩

/-- Both leave the same marks of where they have been. -/
theorem mark (h : InStep p r₁ r₂ q₁ s₁ q₂ s₂) (visited : List Int) :
    InStep p r₁ r₂ q₁ { s₁ with visited } q₂ { s₂ with visited } := by
  obtain ⟨touched, returned, h₁, h₂⟩ := h.uses
  exact ⟨h.twin, h.left, h.right, ⟨touched, returned, h₁.regraph _ _, h₂.regraph _ _⟩, h.graph, rfl,
    h.untyped⟩

end InStep

/-- Two frames of lifts in step, with the same block and the same stack. -/
structure Frame.InStep (p : Program) (r₁ r₂ : Routine) (f g : Frame) : Prop
    extends ScriptLift.InStep p r₁ r₂ f.program f.routine g.program g.routine where
  block : g.block = f.block
  stack : g.stack = f.stack
  statements : ∀ s ∈ f.block.statements, s.IsUntyped

namespace Lift

variable {α β : Type} {m : Lift α} {k : α → Lift β}

/-- Types make no difference to the computation: frames in step stay in step, and the value or the
fault is the same. -/
def Blind (m : Lift α) : Prop :=
  ∀ ⦃p r₁ r₂ f g⦄, Frame.InStep p r₁ r₂ f g →
    (m.exec g).1 = (m.exec f).1 ∧ (m.exec f).2.InStep p r₁ r₂ (m.exec g).2

/-- The second computation is given the same value on both sides. -/
theorem Blind.bind (h : Blind m) (hk : ∀ a, Blind (k a)) : Blind (m >>= k) := by
  intro p r₁ r₂ f g hfg
  obtain ⟨hv, hs⟩ := h hfg
  rw [exec_bind, exec_bind]
  generalize m.exec f = left at hv hs
  generalize m.exec g = right at hv hs
  obtain ⟨v, f'⟩ := left
  obtain ⟨v', g'⟩ := right
  obtain rfl : v' = v := hv
  cases v' with
  | error e => exact ⟨rfl, hs⟩
  | ok a => exact hk a hs

/-- The frame may be looked at where the difference cannot be seen. -/
theorem Blind.get_bind {k : Frame → Lift β}
    (heq : ∀ ⦃p r₁ r₂ f g⦄, Frame.InStep p r₁ r₂ f g → k g = k f) (hk : ∀ f, Blind (k f)) :
    Blind (get >>= k) := by
  intro p r₁ r₂ f g hfg
  simp only [exec_bind, exec_get]
  rw [heq hfg]
  exact hk f hfg

theorem blind_pure (a : α) : Blind (pure a : Lift α) :=
  fun _ _ _ _ _ h => ⟨rfl, h⟩

theorem blind_liftM (x : Except Fault α) : Blind (liftM x : Lift α) := by
  intro p r₁ r₂ f g h
  rw [exec_liftM, exec_liftM]
  exact ⟨rfl, h⟩

theorem blind_push (e : Expr) : Blind (push e) :=
  fun _ _ _ _ _ h => ⟨rfl, h.toInStep, h.block, congrArg (e :: ·) h.stack, h.statements⟩

/-- Both stacks are the same. -/
theorem blind_pop : Blind pop := by
  intro p r₁ r₂ f g h
  rw [exec_pop, exec_pop, h.stack]
  exact ⟨rfl, h.toInStep, h.block, rfl, h.statements⟩

theorem blind_popMany (n : Int) : Blind (popMany n) := by
  intro p r₁ r₂ f g h
  rw [exec_popMany, exec_popMany, h.stack]
  exact ⟨rfl, h.toInStep, h.block, rfl, h.statements⟩

theorem blind_peek : Blind peek := by
  intro p r₁ r₂ f g h
  rw [exec_peek, exec_peek, h.stack]
  exact ⟨rfl, h.toInStep, h.block, h.stack, h.statements⟩

theorem blind_report (e : Event) : Blind (report e) :=
  fun _ _ _ _ _ h => ⟨rfl, h.toInStep, h.block, h.stack, h.statements⟩

/-- A statement may be emitted whose text is the same whatever is known of types. -/
theorem blind_emit {s : Stmt} (hs : s.IsUntyped) : Blind (emit s) := by
  intro p r₁ r₂ f g h
  refine ⟨rfl, h.toInStep, congrArg (·.emit s) h.block, h.stack, fun t ht => ?_⟩
  rcases List.mem_append.mp ht with ht | ht
  · exact h.statements t ht
  · exact List.mem_singleton.mp ht ▸ hs

/-! ### Operations -/

/-- On both sides the same local is declared. -/
theorem blind_locate (st : Storage) (i : Instruction) : Blind (locate st i) := by
  refine (blind_liftM i.slot).bind fun n => ?_
  cases st with
  | «local» =>
      intro p r₁ r₂ f g h
      obtain ⟨_, returned, h₁, h₂⟩ := h.uses
      simp only [exec_bind, exec_get, exec_liftM, Routine.slot_eq, h.twins.names.inputs,
        h.twins.names.slots]
      by_cases hn : n < f.routine.inputs.length
      · rw [if_pos hn, if_pos hn]
        cases resolve? f.routine.inputs.length n with
        | none => exact ⟨rfl, h⟩
        | some position => exact ⟨rfl, h⟩
      · rw [if_neg hn, if_neg hn]
        exact ⟨rfl, ⟨h.twin, h.left, h.right, ⟨_, returned, h₁.declareLocal _, h₂.declareLocal _⟩,
          h.graph, h.visited, h.untyped⟩, h.block, h.stack, h.statements⟩
  | static => exact blind_pure _
  | global => exact blind_pure _

/-- What is learnt about a variable may be different, but makes no difference. -/
theorem blind_learn (ref : Reference) (new : Frame → DataType) :
    Blind (modify fun f => f.learn ref (new f)) := by
  intro p r₁ r₂ f g h
  obtain ⟨touched, returned, h₁, h₂⟩ := h.uses
  have hf₁ := h₁.learn ref.place (new f)
  have hg₂ := h₂.learn ref.place (new g)
  obtain ⟨_, _, hf⟩ := f.routine.learn_eq ref.place (new f)
  obtain ⟨_, _, hg⟩ := g.routine.learn_eq ref.place (new g)
  rw [hf] at hf₁
  rw [hg] at hg₂
  simp only [exec_modify, Frame.learn, Program.learn, Frame.report, true_and, hf, hg]
  exact ⟨⟨h.twin, ⟨h.left.handled, h.left.callees⟩, ⟨h.right.handled, h.right.callees⟩,
    ⟨touched, returned, hf₁, hg₂⟩, h.graph, h.visited, h.untyped⟩, h.block, h.stack, h.statements⟩

/-- The types learnt may differ; the assignment is the same. -/
theorem blind_store (ref : Reference) : Blind (store ref) :=
  blind_pop.bind fun value => (blind_learn ref fun f => value.type f.typeOf).bind fun _ =>
    blind_emit fun _ _ => rfl

theorem blind_binary (op : String) (t : DataType) : Blind (binary op t) :=
  blind_pop.bind fun _ => blind_pop.bind fun _ => blind_push _

/-- A call depends on the number of its arguments only. -/
theorem blind_invoke (name : String) (args returns : Int) (t : DataType) :
    Blind (invoke name args returns t) := by
  refine (blind_popMany args).bind fun es => ?_
  split
  · exact blind_emit fun _ _ => rfl
  split
  · exact (blind_report _).bind fun _ => blind_push _
  · exact blind_push _

theorem blind_callRoutine (target : Int) : Blind (callRoutine target) := by
  refine .get_bind (fun p r₁ r₂ f g h => ?_) fun f => ?_
  · rw [h.tables.callee?]
  · split
    · exact blind_invoke _ _ _ _
    · exact (blind_report _).bind fun _ => blind_emit fun _ _ => rfl

/-- A return site with no value or one is learnt from, but the first has settled how many. -/
theorem exec_inferReturn {count : Int} (h : count = 0 ∨ count = 1) (values : List Expr)
    (f : Frame) :
    ∃ result events, result.map (·.count) = (f.routine.result.map (·.count)).or (some count) ∧
      (inferReturn count values).exec f
        = (.ok (), { f.report events with routine := { f.routine with result } }) := by
  simp only [inferReturn, exec_bind, exec_get, exec_liftM]
  generalize hout : f.routine.inferReturn count _ = out
  obtain ⟨n, hn, rfl⟩ : ∃ n : Nat, n ≤ 1 ∧ count = n := ⟨count.toNat, by omega, by omega⟩
  obtain ⟨⟨s, events⟩, hs⟩ := f.routine.exists_inferReturn hn _
  obtain rfl := hout.symm.trans hs
  have hcount := Routine.count_inferReturn hs
  obtain ⟨result, rfl⟩ := inferReturn_ok hs
  exact ⟨result, events, hcount, rfl⟩

/-- Any other is refused, whatever the type of its value. -/
theorem exec_inferReturn_of_not {count : Int} (h : ¬ (count = 0 ∨ count = 1)) (values : List Expr)
    (f : Frame) :
    (inferReturn count values).exec f = (.error (.returnCount f.routine.name count), f) := by
  simp only [inferReturn, exec_bind, exec_get, exec_liftM, Routine.inferReturn, Routine.siteType?,
    not_or.mp h, if_false]

/-- The types of results may differ; their number is the same. -/
theorem blind_inferReturn (count : Int) (values : List Expr) :
    Blind (inferReturn count values) := by
  intro p r₁ r₂ f g h
  by_cases hcount : count = 0 ∨ count = 1
  · obtain ⟨_, _, hcf, hf⟩ := exec_inferReturn hcount values f
    obtain ⟨_, _, hcg, hg⟩ := exec_inferReturn hcount values g
    obtain ⟨touched, _, h₁, h₂⟩ := h.uses
    rw [hf, hg]
    exact ⟨rfl, ⟨h.twin, h.left, h.right, ⟨touched, _, h₁.giveBack hcf, h₂.giveBack hcg⟩, h.graph,
      h.visited, h.untyped⟩, h.block, h.stack, h.statements⟩
  · rw [exec_inferReturn_of_not hcount, exec_inferReturn_of_not hcount, h.twins.name]
    exact ⟨rfl, h⟩

/-- The values given back are the same. -/
theorem blind_leave (returns : Int) : Blind (leave returns) := by
  have tail : Blind (do
      let values ← popMany returns
      inferReturn returns values
      emit (.ret values)) :=
    (blind_popMany returns).bind fun values => (blind_inferReturn returns values).bind fun _ =>
      blind_emit (Stmt.isUntyped_ret values)
  unfold leave
  split
  · exact (blind_inferReturn returns []).bind fun _ => tail
  · exact tail

/-- The continuation goes into the block, which is the same on both sides. -/
theorem blind_continueAt (join : Int) :
    Blind (modify fun f => { f with block := { f.block with continuation := some join } }) := by
  intro p r₁ r₂ f g h
  refine ⟨rfl, h.toInStep, ?_, h.stack, h.statements⟩
  simp only [exec_modify, h.block]

/-- The second part of a branch is told by the code, which twins share. -/
theorem blind_branch (i : Instruction) (condition : Expr) : Blind (branch i condition) := by
  refine (blind_liftM _).bind fun target => .get_bind (fun p r₁ r₂ f g h => ?_) fun f => ?_
  · simp only [h.block, Ending.elseBranch_congr h.twins.code]
  · split
    · exact (blind_emit fun _ _ => rfl).bind fun _ => blind_emit fun _ _ => rfl
    · exact (blind_emit fun _ _ => rfl).bind fun _ => blind_continueAt _

theorem blind_forM_push (values : List Literal) :
    Blind (values.forM fun v => push (.ofLiteral v)) := by
  induction values with
  | nil => exact blind_pure _
  | cons v values ih => exact (blind_push _).bind fun _ => ih

/-- Every operation, by cases. -/
theorem blind_execute (o : Opcode) (i : Instruction) : Blind (execute o i) := by
  cases o with
  | nop | enter => exact blind_pure _
  | push =>
      simp only [execute]
      split
      · exact blind_forM_push _
      · exact blind_liftM (.error .badOperands)
  | dup => exact blind_peek.bind fun _ => blind_push _
  | drop =>
      refine blind_pop.bind fun e => ?_
      split
      · exact blind_emit fun _ _ => rfl
      · exact blind_pure _
  | load st => exact (blind_locate st i).bind fun _ => blind_push _
  | store st => exact (blind_locate st i).bind fun _ => blind_store _
  | int o | float o | intCompare r | floatCompare r => exact blind_binary _ _
  | unary o => exact blind_pop.bind fun _ => blind_push _
  | native =>
      simp only [execute]
      split
      · exact blind_invoke _ _ _ _
      · exact blind_liftM (.error .badOperands)
  | call =>
      simp only [execute]
      split
      · exact blind_callRoutine _
      · exact blind_liftM (.error .badOperands)
  | leave =>
      simp only [execute]
      split
      · exact blind_leave _
      · exact blind_liftM (.error .badOperands)
  | jump => exact (blind_liftM _).bind fun _ => blind_emit fun _ _ => rfl
  | jumpIfZero => exact blind_pop.bind fun _ => blind_branch i _
  | compareJump r => exact blind_pop.bind fun _ => blind_pop.bind fun _ => blind_branch i _

theorem blind_skip (i : Instruction) : Blind (skip i) := by
  refine .get_bind (fun p r₁ r₂ f g h => ?_) fun f => ?_
  · rw [h.twins.name]
  · exact (blind_report _).bind fun _ => blind_emit fun _ _ => rfl

/-- **Types make no difference to an instruction.** -/
theorem blind_step (i : Instruction) : Blind (step i) := by
  unfold step
  cases i.kind with
  | op o =>
      refine .get_bind (fun p r₁ r₂ f g h => ?_) fun f => ?_
      · rw [h.tables.handled]
      · split
        · exact blind_execute o i
        · exact blind_skip i
  | other name => exact blind_skip i

/-- The tapes are the same. -/
theorem blind_next : Blind next := by
  intro p r₁ r₂ f g h
  simp only [next, exec_bind, exec_get, exec_set, exec_liftM, h.block, h.stack, true_and]
  exact ⟨h.toInStep, rfl, rfl, h.statements⟩

/-- By induction on the number of instructions. -/
theorem blind_steps (n : Nat) : Blind (steps n) := by
  induction n with
  | zero =>
      intro p r₁ r₂ f g h
      refine ⟨rfl, h.toInStep, ?_, h.stack, h.statements⟩
      simp only [steps, exec_modify, h.block, h.stack]
  | succ n ih => exact blind_next.bind fun i => (blind_step i).bind fun _ => ih

/-- **Types make no difference to a block.** -/
theorem blind_runBlock : Blind runBlock := by
  refine Blind.bind (fun p r₁ r₂ f g h => ?_) fun _ => .get_bind (fun p r₁ r₂ f g h => ?_) fun f =>
    blind_steps _
  · refine ⟨rfl, h.toInStep, ?_, h.stack, h.statements⟩
    simp only [exec_modify, h.block]
  · rw [h.block]

end Lift

/-! ### Whole lifts -/

namespace Stage

variable {p : Program} {r₁ r₂ : Routine} {s t : Stage}

/-- The stages of two lifts in step. -/
abbrev InStep (p : Program) (r₁ r₂ : Routine) (s t : Stage) : Prop :=
  ScriptLift.InStep p r₁ r₂ s.program s.routine t.program t.routine

/-- Two stages in step run one block. -/
theorem InStep.runBlock (h : s.InStep p r₁ r₂ t) {b : Block}
    (hb : ∀ st ∈ b.statements, st.IsUntyped) :
    ∃ v s' t', s.runBlock b = (v, s') ∧ t.runBlock b = (v, t') ∧ s'.InStep p r₁ r₂ t' := by
  have hframe : Frame.InStep p r₁ r₂ ⟨s.program, s.routine, b, b.entryStack, s.events⟩
      ⟨t.program, t.routine, b, b.entryStack, t.events⟩ := ⟨h, rfl, rfl, hb⟩
  obtain ⟨hv, hs⟩ := Lift.blind_runBlock hframe
  unfold Stage.runBlock
  generalize Lift.runBlock.exec ⟨s.program, s.routine, b, b.entryStack, s.events⟩ = left at hv hs
  generalize Lift.runBlock.exec ⟨t.program, t.routine, b, b.entryStack, t.events⟩ = right at hv hs
  obtain ⟨v, f⟩ := left
  obtain ⟨v', g⟩ := right
  obtain rfl : v' = v := hv
  have hstack : g.stack = f.stack := hs.stack
  have hblock : g.block = f.block := hs.block
  have hgraph : g.routine.graph = f.routine.graph := hs.graph
  simp only [hstack, hblock, hgraph]
  exact ⟨_, _, _, rfl, rfl, hs.regraph (hs.untyped.update fun _ _ => hs.statements)⟩

/-- The block gets the same entry stack on both sides. -/
theorem InStep.enter (h : s.InStep p r₁ r₂ t) (a : Int) (stack : OperandStack) :
    InStep p r₁ r₂
      { s with routine := { s.routine with graph := s.routine.graph.update a fun b =>
          { b with entryStack := stack, seeded := true } } }
      { t with routine := { t.routine with graph := t.routine.graph.update a fun b =>
          { b with entryStack := stack, seeded := true } } } := by
  have hgraph : (s.routine.graph.update a fun b =>
      { b with entryStack := stack, seeded := true }).IsUntyped :=
    h.untyped.update fun b hb => h.untyped b hb
  rw [h.graph]
  exact h.regraph hgraph

theorem InStep.seed (h : s.InStep p r₁ r₂ t) (source : Int) (stack : OperandStack) (b : Block) :
    (s.seed source stack b).InStep p r₁ r₂ (t.seed source stack b) := by
  unfold Stage.seed
  split
  · split
    · exact h
    · exact h
  · exact h.enter b.start stack

/-- The same stacks are handed on, whether or not they fit. -/
theorem InStep.seedAll (h : s.InStep p r₁ r₂ t) (source : Int) (stack : OperandStack)
    (targets : List Int) :
    ∃ v s' t', Stage.seedAll source stack targets s = (v, s') ∧
      Stage.seedAll source stack targets t = (v, t') ∧ s'.InStep p r₁ r₂ t' := by
  induction targets generalizing s t with
  | nil => exact ⟨_, _, _, rfl, rfl, h⟩
  | cons a targets ih =>
      rw [Stage.seedAll, Stage.seedAll, h.graph]
      cases s.routine.graph.block? a with
      | none => exact ⟨_, _, _, rfl, rfl, h⟩
      | some b => exact ih (h.seed source stack b)

/-- One visit keeps stages in step. -/
theorem InStep.visit (h : s.InStep p r₁ r₂ t) (a : Int) :
    ∃ v s' t', s.visit a = (v, s') ∧ t.visit a = (v, t') ∧ s'.InStep p r₁ r₂ t' := by
  unfold Stage.visit
  rw [h.graph]
  cases hb : s.routine.graph.block? a with
  | none => exact ⟨_, _, _, rfl, rfl, h⟩
  | some b =>
      obtain ⟨v, s₁, t₁, hs, ht, h₁⟩ := h.runBlock (h.untyped b (Graph.mem_of_block? hb))
      simp only [hs, ht]
      cases v with
      | error f => exact ⟨_, _, _, rfl, rfl, h₁⟩
      | ok stack =>
          obtain ⟨v, s₂, t₂, hs, ht, h₂⟩ := h₁.seedAll a stack b.successors
          simp only [hs, ht]
          cases v with
          | error f => exact ⟨_, _, _, rfl, rfl, h₂⟩
          | ok _ => exact ⟨_, _, _, rfl, rfl, h₂⟩

/-- So does a whole walk, by induction on its steps. -/
theorem InStep.walk (h : s.InStep p r₁ r₂ t) (keys visited queue : List Int) :
    ∃ v s' t', Stage.walk keys s visited queue = (v, s') ∧
      Stage.walk keys t visited queue = (v, t') ∧ s'.InStep p r₁ r₂ t' := by
  -- the second walk is unfolded along the first
  fun_induction Stage.walk keys s visited queue generalizing t with
  | case1 s visited =>
      rw [Stage.walk]
      exact ⟨_, _, _, rfl, rfl, h.mark []⟩
  | case2 s visited a queue ha ih =>
      rw [Stage.walk, if_pos ha]
      exact ih h
  | case3 s visited a queue ha hk f s₁ hv =>
      obtain ⟨v, s₂, t₁, hs, ht, h₁⟩ := h.visit a
      cases hs.symm.trans hv
      rw [Stage.walk, if_neg ha, if_pos hk, ht]
      exact ⟨_, _, _, rfl, rfl, h₁.mark _⟩
  | case4 s visited a queue ha hk found s₁ hv ih =>
      obtain ⟨v, s₂, t₁, hs, ht, h₁⟩ := h.visit a
      cases hs.symm.trans hv
      rw [Stage.walk, if_neg ha, if_pos hk, ht]
      exact ih h₁
  | case5 s visited a queue ha hk =>
      rw [Stage.walk, if_neg ha, if_neg hk]
      exact ⟨_, _, _, rfl, rfl, h.mark _⟩

/-- And the interpretation of a routine. -/
theorem InStep.interpret (h : s.InStep p r₁ r₂ t) :
    ∃ v s' t', s.interpret = (v, s') ∧ t.interpret = (v, t') ∧ s'.InStep p r₁ r₂ t' := by
  unfold Stage.interpret
  rw [h.graph, h.twins.address]
  cases s.routine.graph.block? s.routine.address with
  | none => exact ⟨_, _, _, rfl, rfl, h⟩
  | some b =>
      have henter := h.enter b.start []
      rw [h.graph] at henter
      exact henter.walk _ _ _

end Stage

namespace Routine

variable {r s : Routine}

/-- Nothing has been lifted from the blocks that discovery finds. -/
theorem isUntyped_discover (hcode : r.code ≠ []) : r.discover.state.graph.IsUntyped := by
  cases hd : r.discover with
  | mk value r₀ events =>
    cases value with
    | ok order =>
        obtain ⟨-, hshape, hvisits⟩ := discover_visits hcode hd
        obtain ⟨hstarts, -⟩ := starts_discover hcode hd
        intro b hb
        have hfind := Graph.block?_start (hstarts ▸ hvisits.nodup List.nodup_nil) hb
        obtain ⟨run, last, next, -, hin⟩ := hshape.filled_of_block? hfind
        have hnone : b.statements = [] := congrArg (·.statements) hin
        simp [hnone]
    | error f =>
        have hempty : r.code.isEmpty = false := by simpa using hcode
        simp only [discover, hempty, Bool.false_eq_true, if_false] at hd
        split at hd
        · cases hd
        · cases hd
          simp [Graph.IsUntyped, Graph.ensure, Graph.starts]

/-- **Discovery looks at the code alone.** -/
theorem Twin.discover (h : r.Twin s) (hcode : r.code ≠ []) :
    ∃ value graph visited events events', r.discover = ⟨value, { r with graph, visited }, events⟩ ∧
      s.discover = ⟨value, { s with graph, visited }, events'⟩ := by
  have hempty : r.code.isEmpty = false := by simpa using hcode
  have hempty' : s.code.isEmpty = false := by rw [h.code, hempty]
  have hwalk : s.survey.walk {} [] [] [s.address] = r.survey.walk {} [] [] [r.address] := by
    rw [survey, survey, h.name, h.code, h.address]
  have hhas : s.hasAddress s.address = r.hasAddress r.address := by
    rw [hasAddress, hasAddress, h.code, h.address]
  unfold Routine.discover
  rw [hempty, hempty', hhas, hwalk]
  cases r.hasAddress r.address with
  | true => exact ⟨_, _, _, _, _, rfl, rfl⟩
  | false => exact ⟨.error .noEntry, _, _, _, _, rfl, by rw [← h.address]; rfl⟩

end Routine

/-- **Two lifts of the same code go the same way**, whatever is known of types and whichever locals
are declared at their start. -/
theorem Program.lift_inStep {p q : Program} {r s : Routine} (hp : p.SameTables q) (h : r.Twin s)
    (hcode : r.code ≠ []) :
    (q.lift s).value = (p.lift r).value ∧
      InStep p r s (p.lift r).state.1 (p.lift r).state.2 (q.lift s).state.1 (q.lift s).state.2 := by
  obtain ⟨value, graph, visited, events, events', hr, hs⟩ := h.discover hcode
  have huntyped := Routine.isUntyped_discover hcode
  rw [hr] at huntyped
  have hstart : InStep p r s p { r with graph, visited } q { s with graph, visited } :=
    ⟨h, .refl p, hp, ⟨[], [], r.uses_refl _ _, s.uses_refl _ _⟩, rfl, rfl, huntyped⟩
  unfold lift
  rw [hr, hs]
  cases value with
  | error f => exact ⟨rfl, hstart⟩
  | ok order =>
      have hstage : Stage.InStep p r s ⟨p, { r with graph, visited }, events⟩
          ⟨q, { s with graph, visited }, events'⟩ := hstart
      obtain ⟨v, s₁, t₁, hs₁, ht₁, h₁⟩ := hstage.interpret
      simp only [hs₁, ht₁, true_and]
      exact h₁

end ScriptLift
