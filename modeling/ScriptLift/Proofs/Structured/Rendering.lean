import ScriptLift.Proofs.Layout.Shape
import ScriptLift.Proofs.Structured.Lifting

/-!
# The layout of compiled code

The layout of a body is its text, and goes on behind the body (`Body.renders`).  What is left of the
code from a position on is laid out either as a region, if a block starts there, or as the rest of
the block that the position is in (`tasksAt`); entering a block makes the one into the other, up to
a label.  The induction is on the body.  It carries along that no block from the body on has been
placed before, and that the layout stops, if at all, behind the body.
-/

namespace ScriptLift.Structured

open Layout

/-- The blocks of `g` were lifted from the code of `s`. -/
structure Source.IsLiftedIn (address : Nat → Int) (s : Source) (r : Routine) (g : Graph) :
    Prop where
  mono : StrictMono address
  code : r.code = s.code address
  blocks : s.IsLiftedTo address r g

/-! ### Leaders -/

section Leaders

variable {address : Nat → Int} {s : Source} {k t : Nat} {a : Act} {as : List Act}

/-- A piece jumps to a leader. -/
theorem target_mem_leaders (address : Nat → Int) (hr : RestAt s.acts k (a :: as))
    (ht : a.target? = some t) :
    address t ∈ s.leaders address := by
  obtain ⟨init, last, he⟩ := a.exists_endsIn address
  have hmem : last.instruction (address (k + a.size - 1)) ∈ s.code address :=
    Reaches.mem_of_getElem? (hr.last he)
  refine branchTarget_mem_leaders hmem ?_
  rw [he.branchTarget, ht]
  rfl

/-- Behind a transfer of control there is a leader. -/
theorem behind_transfer_mem_leaders (address : Nat → Int) (hr : RestAt s.acts k (a :: as))
    (ha : a.isTransfer = true) (has : as ≠ []) : address (k + a.size) ∈ s.leaders address := by
  obtain ⟨init, last, he⟩ := a.exists_endsIn address
  obtain ⟨before, hops, hk⟩ := hr.opsOf_eq address
  obtain ⟨i, rest, hi⟩ := List.exists_cons_of_ne_nil
    (l := place address (k + a.size) (opsOf address as)) (by
      intro h
      have := head?_place_opsOf address (k + a.size) has
      simp [h] at this)
  have hia : i.address = address (k + a.size) := by
    have := head?_place_opsOf address (k + a.size) has
    simpa [hi] using this
  rw [← hia, Source.leaders, Source.code, hops, place_append, Nat.zero_add, hk, place_opsOf_cons he,
    hi, ← List.append_assoc]
  refine behind_mem_leaders ?_
  rw [← ha]
  exact he.transfer

end Leaders

/-! ### Rendering -/

section Renders

variable (address : Nat → Int) (g : Graph) (labels : List Int)

/-- With the blocks in `v` placed, laying out `ts` writes `ls` and then goes on with `ts'`; the
blocks placed by then are those in `v'`.  What is placed in between starts at a position from `m` to
`n`. -/
structure Renders (m n : Nat) (v : List Int) (ts : List Task) (ls : List Line) (v' : List Int)
    (ts' : List Task) : Prop where
  lines_eq : ∀ us, lines (lay g labels v (ts ++ us)) = ls ++ lines (lay g labels v' (ts' ++ us))
  le : m ≤ n
  kept : ∀ c ∈ v, c ∈ v'
  placed : ∀ c ∈ v', c ∈ v ∨ ∃ j, m ≤ j ∧ j < n ∧ c = address j

/-- No block from position `k` on has been placed. -/
def Fresh (k : Nat) (v : List Int) : Prop :=
  ∀ j, k ≤ j → address j ∉ v

end Renders

namespace Renders

variable {address : Nat → Int} {g : Graph} {labels v v' v'' : List Int} {m l n : Nat}
  {ts ts' ts'' : List Task} {ls ls' : List Line}

/-- Laying out without placing a block. -/
theorem of_lay
    (h : ∀ us, lines (lay g labels v (ts ++ us)) = ls ++ lines (lay g labels v (ts' ++ us))) :
    Renders address g labels m m v ts ls v ts' :=
  ⟨h, Nat.le_refl m, fun _ hc => hc, fun _ hc => Or.inl hc⟩

theorem refl (v : List Int) (ts : List Task) : Renders address g labels m m v ts [] v ts :=
  .of_lay fun _ => rfl

theorem trans (h : Renders address g labels m l v ts ls v' ts')
    (h' : Renders address g labels l n v' ts' ls' v'' ts'') :
    Renders address g labels m n v ts (ls ++ ls') v'' ts'' := by
  have hml := h.le
  have hln := h'.le
  refine ⟨fun us => by rw [h.lines_eq, h'.lines_eq, List.append_assoc], by omega,
    fun c hc => h'.kept c (h.kept c hc), fun c hc => ?_⟩
  rcases h'.placed c hc with hc | ⟨j, h₁, h₂, rfl⟩
  · rcases h.placed c hc with hc | ⟨j, h₁, h₂, rfl⟩
    · exact Or.inl hc
    · exact Or.inr ⟨j, h₁, by omega, rfl⟩
  · exact Or.inr ⟨j, by omega, h₂, rfl⟩

theorem mono (h : Renders address g labels m l v ts ls v' ts') (hn : l ≤ n) :
    Renders address g labels m n v ts ls v' ts' := by
  refine ⟨h.lines_eq, Nat.le_trans h.le hn, h.kept, fun c hc => ?_⟩
  rcases h.placed c hc with hc | ⟨j, h₁, h₂, rfl⟩
  · exact Or.inl hc
  · exact Or.inr ⟨j, h₁, by omega, rfl⟩

/-- What comes behind the tasks does not matter. -/
theorem append (h : Renders address g labels m n v ts ls v' ts') (us : List Task) :
    Renders address g labels m n v (ts ++ us) ls v' (ts' ++ us) :=
  ⟨fun ws => by rw [List.append_assoc, List.append_assoc]; exact h.lines_eq _, h.le, h.kept,
    h.placed⟩

theorem fresh (h : Renders address g labels m n v ts ls v' ts') (hm : StrictMono address)
    (hv : Fresh address m v) : Fresh address n v' := by
  have hmn := h.le
  intro j hj hmem
  rcases h.placed _ hmem with hc | ⟨n, -, hn, heq⟩
  · exact hv j (by omega) hc
  · have := hm.injective heq
    omega

end Renders

/-! ### From a position on -/

section Tasks

variable (address : Nat → Int) (s : Source) (r : Routine) (k : Nat) (as : List Act) (i : Int)
  (stop : Option Int)

/-- What is left of the block at position `k`. -/
def insideAt : List Task :=
  [.statements (stmtsOf r address k (blockActs address (s.leaders address) k as)) i stop,
    .region (onwardOf r address k (blockActs address (s.leaders address) k as)) i stop]

/-- What is left of the code at position `k`. -/
def tasksAt : List Task :=
  if address k ∈ s.leaders address then [.region (some (address k)) i stop]
  else insideAt address s r k as i stop

end Tasks

section Pieces

variable {address : Nat → Int} {s : Source} {r : Routine} {g : Graph} {labels v : List Int}
  {m k t : Nat} {a : Act} {as : List Act} {i : Int} {stop : Option Int}

/-- At a leader a block is entered, with its label if it needs one. -/
theorem Source.IsLiftedIn.renders_place (h : s.IsLiftedIn address r g)
    (hr : RestAt s.acts k (a :: as)) (hv : Fresh address k v) (hs : stop ≠ some (address k))
    (hk : address k ∈ s.leaders address) (labels : List Int) (i : Int) :
    Renders address g labels k (k + 1) v (tasksAt address s r k (a :: as) i stop)
      (Layout.lines (labelLine labels (address k) i)) (v ++ [address k])
      (insideAt address s r k (a :: as) i stop) := by
  obtain ⟨b, hb, hst, hcont⟩ := h.blocks k a as hr hk
  refine ⟨fun us => ?_, Nat.le_succ k, fun c hc => List.mem_append_left _ hc, fun c hc => ?_⟩
  · rw [tasksAt, if_pos hk, List.singleton_append,
      lay_region_place hs hb (hv k (Nat.le_refl k)), hst, hcont, lines_append]
    rfl
  · rcases List.mem_append.mp hc with hc | hc
    · exact Or.inl hc
    · exact Or.inr ⟨k, Nat.le_refl k, Nat.lt_succ_self k, List.mem_singleton.mp hc⟩

/-- A position without a label is entered without a line, whether a block starts there or not. -/
theorem Source.IsLiftedIn.renders_enter (h : s.IsLiftedIn address r g)
    (hr : RestAt s.acts k (a :: as)) (hv : Fresh address k v) (hs : stop ≠ some (address k))
    (hl : address k ∉ labels) :
    ∃ v', Renders address g labels k (k + 1) v (tasksAt address s r k (a :: as) i stop) [] v'
      (insideAt address s r k (a :: as) i stop) := by
  by_cases hk : address k ∈ s.leaders address
  · have hplace := h.renders_place hr hv hs hk labels i
    rw [labelLine, if_neg hl] at hplace
    exact ⟨_, hplace⟩
  · refine ⟨v, ?_⟩
    rw [tasksAt, if_neg hk]
    exact (Renders.refl v _).mono (Nat.le_succ k)

/-- At the stop nothing is laid out. -/
theorem renders_stop (hk : address k ∈ s.leaders address) :
    Renders address g labels m m v (tasksAt address s r k as i (some (address k))) [] v [] := by
  refine .of_lay fun us => ?_
  rw [tasksAt, if_pos hk, List.singleton_append, lay_region_stop]
  rfl

/-- Statements that are lines of their own. -/
theorem lines_lay_simple {ss : List Stmt} (hss : ∀ x ∈ ss, x.IsPlain) (rest : List Stmt)
    (us : List Task) :
    lines (lay g labels v (.statements (ss ++ rest) i stop :: us))
      = ss.map (.simple i) ++ lines (lay g labels v (.statements rest i stop :: us)) := by
  induction ss with
  | nil => rfl
  | cons x ss ih =>
      have hx := hss x (by simp)
      rw [List.cons_append,
        lay_simple (by rintro c n j o rfl; exact hx) (by rintro t rfl; exact hx), lines_line,
        ih fun y hy => hss y (by simp [hy])]
      rfl

/-- **A piece that transfers no control is its statements**, and what is behind it follows. -/
theorem renders_plain (ha : a.isTransfer = false) (has : as ≠ []) :
    Renders address g labels m m v (insideAt address s r k (a :: as) i stop)
      ((a.stmts r address (k + a.size)).map (.simple i)) v
      (tasksAt address s r (k + a.size) as i stop) := by
  have hplain : ∀ x ∈ a.stmts r address (k + a.size), x.IsPlain := by
    intro x hx
    cases a with
    | enter => simp [Act.stmts] at hx
    | run st =>
        rw [Act.stmts, List.mem_singleton] at hx
        rw [hx]
        cases st <;> trivial
    | test | jump | ret => simp [Act.isTransfer] at ha
  have honward : a.onward r address (k + a.size) = some (address (k + a.size)) := by
    cases a with
    | enter | run => rfl
    | test | jump | ret => simp [Act.isTransfer] at ha
  refine .of_lay fun us => ?_
  by_cases hn : address (k + a.size) ∈ s.leaders address
  · have hblock : blockActs address (s.leaders address) k (a :: as) = [a] := by
      simp [blockActs, hn]
    rw [insideAt, hblock, tasksAt, if_pos hn, stmtsOf, onwardOf, honward, stmtsOf, List.cons_append,
      lines_lay_simple hplain, lay_statements_nil]
  · have hblock : blockActs address (s.leaders address) k (a :: as)
        = a :: blockActs address (s.leaders address) (k + a.size) as := by
      simp [blockActs, hn, ha]
    obtain ⟨b, bs, hbs⟩ := List.exists_cons_of_ne_nil has
    have honw : onwardOf r address k (a :: blockActs address (s.leaders address) (k + a.size) as)
        = onwardOf r address (k + a.size)
          (blockActs address (s.leaders address) (k + a.size) as) := by
      rw [hbs, blockActs, onwardOf]
      simp
    rw [insideAt, hblock, honw, stmtsOf, tasksAt, if_neg hn, insideAt, List.cons_append,
      lines_lay_simple hplain]
    rfl

/-- A piece that transfers control is the last one of its block. -/
theorem insideAt_transfer (ha : a.isTransfer = true) :
    insideAt address s r k (a :: as) i stop
      = [.statements (a.stmts r address (k + a.size)) i stop,
        .region (a.onward r address (k + a.size)) i stop] := by
  have hblock : blockActs address (s.leaders address) k (a :: as) = [a] := by
    simp [blockActs, ha]
  rw [insideAt, hblock, stmtsOf, stmtsOf, onwardOf, List.append_nil]

/-- **A test opens a branch**, and the layout goes on at its join. -/
theorem renders_test {c : Term} {n : Nat} {join : Int} {other : Option Int}
    (hn : n = k + c.ops.length + 1)
    (he : r.elseBranch (address n) (address t) = (other, join)) :
    Renders address g labels m m v (insideAt address s r k (.test c t :: as) i stop)
      [.opening i (c.expr r.localRef)] v
      (branchTasks (address n) (some join) other i ++ [.region (some join) i stop]) := by
  refine .of_lay fun us => ?_
  have hn' : k + (Act.test c t).size = n := by
    rw [hn, Act.size, Nat.add_assoc]
  rw [insideAt_transfer rfl, Act.stmts, Act.onward, hn', he, List.cons_append, lay_branch,
    lines_line, lay_append, lay_statements_nil, ← lay_append, List.append_assoc]
  rfl

/-- A jump to the stop is left out. -/
theorem renders_jump_stop :
    Renders address g labels m m v (insideAt address s r k (.jump t :: as) i (some (address t))) []
      v [] := by
  refine .of_lay fun us => ?_
  rw [insideAt_transfer rfl, Act.stmts, Act.onward, List.cons_append, lay_goto, lay_region_stop,
    lay_statements_nil, List.cons_append, lay_region_none]
  rfl

/-- A jump back is a line. -/
theorem renders_jump_back (hs : stop ≠ some (address t)) (ht : address t ∈ v) :
    Renders address g labels m m v (insideAt address s r k (.jump t :: as) i stop)
      [.goto i (address t)] v [] := by
  refine .of_lay fun us => ?_
  rw [insideAt_transfer rfl, Act.stmts, Act.onward, List.cons_append, lay_goto,
    lay_region_jump hs (Or.inr ht), lines_line, lay_statements_nil, List.cons_append,
    lay_region_none]
  rfl

theorem renders_ret {args : Int} {result : Option Term} :
    Renders address g labels m m v (insideAt address s r k (.ret args result :: as) i stop)
      [.simple i (.ret (Term.exprAll r.localRef result.toList))] v [] := by
  refine .of_lay fun us => ?_
  rw [insideAt_transfer rfl, Act.stmts, Act.onward, List.cons_append,
    lay_simple (by simp) (by simp), lines_line, lay_statements_nil, List.cons_append,
    lay_region_none]
  rfl

/-- A line is written. -/
theorem renders_line (l : Line) : Renders address g labels m m v [.line l] [l] v [] := by
  refine .of_lay fun us => ?_
  rw [List.singleton_append, lay_line, lines_line]
  rfl

end Pieces

/-! ### Bodies -/

/-- The heads of loops have labels, and no other piece of the body has. -/
def Body.Marked (address : Nat → Int) (labels : List Int) (k : Nat) : Body → Prop
  | done => True
  | act s next => address k ∉ labels ∧ next.Marked address labels (k + s.ops.length)
  | branch c body next =>
    let first := k + c.ops.length + 1
    address k ∉ labels ∧ body.Marked address labels first ∧
      next.Marked address labels (first + body.size)
  | choice c yes no next =>
    let first := k + c.ops.length + 1
    let second := first + yes.size + 1
    address k ∉ labels ∧ yes.Marked address labels first ∧ address (first + yes.size) ∉ labels ∧
      no.Marked address labels second ∧ next.Marked address labels (second + no.size)
  | loop c body next =>
    let first := k + c.ops.length + 1
    address k ∈ labels ∧ body.Marked address labels first ∧ address (first + body.size) ∉ labels ∧
      next.Marked address labels (first + body.size + 1)

section Bodies

variable {address : Nat → Int} {s : Source} {r : Routine} {g : Graph} {labels v : List Int}
  {k : Nat} {rest : List Act} {c : Term} {body yes no next : Body}

/-- Where a body ends, no second part is found. -/
theorem Source.IsLiftedIn.elseBranch_end (h : s.IsLiftedIn address r g)
    (hr : RestAt s.acts k (body.acts k ++ rest)) (hb : body.IsProper) (hne : body ≠ .done)
    (hrest : rest ≠ []) (n : Nat) :
    r.elseBranch (address n) (address (k + body.size)) = (none, address (k + body.size)) := by
  refine elseBranch_of_not_jump h.mono h.code ?_ fun join hjoin => ?_
  · rw [length_opsOf]
    simpa using hr.append.lt hrest
  · exact Body.jump_le_of_last h.mono hr hb (Body.size_pos hne) hjoin

/-- The end of a branch is its join. -/
theorem Source.IsLiftedIn.elseBranch_branch (h : s.IsLiftedIn address r g)
    (hr : RestAt s.acts k ((Body.branch c body next).acts k ++ rest)) (hb : body.IsProper)
    (hrest : rest ≠ []) :
    r.elseBranch (address (k + c.ops.length + 1)) (address (k + c.ops.length + 1 + body.size))
      = (none, address (k + c.ops.length + 1 + body.size)) := by
  -- the branch alone is a body that ends there
  have halone : RestAt s.acts k ((Body.branch c body .done).acts k
      ++ (next.acts (k + c.ops.length + 1 + body.size) ++ rest)) := by
    simpa [Body.acts] using (Body.restAt_branch hr).1
  simpa [Body.size, Nat.add_assoc] using
    h.elseBranch_end halone ⟨hb, trivial⟩ (by simp) (by simp [hrest]) (k + c.ops.length + 1)

/-- The end of a loop is its join. -/
theorem Source.IsLiftedIn.elseBranch_loop (h : s.IsLiftedIn address r g)
    (hr : RestAt s.acts k ((Body.loop c body next).acts k ++ rest)) (hb : body.IsProper)
    (hrest : rest ≠ []) :
    r.elseBranch (address (k + c.ops.length + 1)) (address (k + c.ops.length + 1 + body.size + 1))
      = (none, address (k + c.ops.length + 1 + body.size + 1)) := by
  have halone : RestAt s.acts k ((Body.loop c body .done).acts k
      ++ (next.acts (k + c.ops.length + 1 + body.size + 1) ++ rest)) := by
    simpa [Body.acts] using (Body.restAt_loop hr).1
  simpa [Body.size, Nat.add_assoc] using
    h.elseBranch_end halone ⟨hb, trivial⟩ (by simp) (by simp [hrest]) (k + c.ops.length + 1)

/-- The second part of a choice is found, and its end is the join. -/
theorem Source.IsLiftedIn.elseBranch_choice (h : s.IsLiftedIn address r g)
    (hr : RestAt s.acts k ((Body.choice c yes no next).acts k ++ rest)) (hno : no ≠ .done)
    (hrest : rest ≠ []) :
    r.elseBranch (address (k + c.ops.length + 1)) (address (k + c.ops.length + 1 + yes.size + 1))
      = (some (address (k + c.ops.length + 1 + yes.size + 1)),
        address (k + c.ops.length + 1 + yes.size + 1 + no.size)) := by
  obtain ⟨-, -, hj, -, hn⟩ := Body.restAt_choice hr
  have hpos := Body.size_pos hno
  refine elseBranch_of_jump h.mono h.code (hj.last (Act.endsIn_jump address _)) (by omega)
    (by omega) ?_
  rw [length_opsOf]
  exact hn.lt (by simp [hrest])

theorem tasksAt_of_leader {i : Int} {stop : Option Int} (as : List Act)
    (hk : address k ∈ s.leaders address) :
    tasksAt address s r k as i stop = [.region (some (address k)) i stop] := by
  rw [tasksAt, if_pos hk]

/-- A part of a construct is a region of its own. -/
theorem Renders.region {m n : Nat} {v' : List Int} {i : Int} {stop : Option Int} {as : List Act}
    {ls : List Line} (h : Renders address g labels m n v (tasksAt address s r k as i stop) ls v' [])
    (hk : address k ∈ s.leaders address) (us : List Task) :
    Renders address g labels m n v (.region (some (address k)) i stop :: us) ls v' us := by
  have hpart := h.append us
  rwa [tasksAt_of_leader as hk] at hpart

/-- The layout stops at a position from `n` on, if at all. -/
def StopsFrom (address : Nat → Int) (n : Nat) (stop : Option Int) : Prop :=
  ∀ a, stop = some a → ∃ j, n ≤ j ∧ a = address j

theorem stopsFrom_none (address : Nat → Int) (n : Nat) : StopsFrom address n none := by
  simp [StopsFrom]

theorem stopsFrom_self (address : Nat → Int) (n : Nat) : StopsFrom address n (some (address n)) :=
  fun _ ha => ⟨n, Nat.le_refl n, (Option.some.inj ha).symm⟩

theorem StopsFrom.mono {m n : Nat} {stop : Option Int} (h : StopsFrom address n stop) (hm : m ≤ n) :
    StopsFrom address m stop := by
  intro a ha
  obtain ⟨j, hj, rfl⟩ := h a ha
  exact ⟨j, by omega, rfl⟩

theorem StopsFrom.ne {n : Nat} {stop : Option Int} (h : StopsFrom address n stop)
    (hm : StrictMono address) (hk : k < n) : stop ≠ some (address k) := by
  intro hs
  obtain ⟨j, hj, ha⟩ := h _ hs
  have := hm.injective ha
  omega

/-- **The layout of a body is its text**, and goes on behind the body. -/
theorem Body.renders (h : s.IsLiftedIn address r g) {b : Body} {i : Int} {stop : Option Int}
    (hr : RestAt s.acts k (b.acts k ++ rest)) (hrest : rest ≠ []) (hb : b.IsProper)
    (hl : b.Marked address labels k) (hv : Fresh address k v)
    (hs : StopsFrom address (k + b.size) stop) :
    ∃ v', Renders address g labels k (k + b.size) v
      (tasksAt address s r k (b.acts k ++ rest) i stop) (b.lines r.localRef address k i) v'
      (tasksAt address s r (k + b.size) rest i stop) := by
  induction b generalizing k rest i stop v with
  | done => exact ⟨v, .refl v _⟩
  | act st next ih =>
      obtain ⟨hst, hn⟩ := restAt_act hr
      obtain ⟨hlk, hln⟩ := hl
      have hpos := List.length_pos_iff.mpr st.ops_ne_nil
      simp only [size, ← Nat.add_assoc] at hs ⊢
      obtain ⟨v₁, h₁⟩ := h.renders_enter (i := i) hst hv (hs.ne h.mono (by omega)) hlk
      have h₂ := (h₁.mono (n := k + st.ops.length) (by omega)).trans
        (renders_plain rfl (by simp [hrest]))
      obtain ⟨v₂, h₃⟩ := ih hn hrest hb hln (h₂.fresh h.mono hv) hs
      exact ⟨v₂, h₂.trans h₃⟩
  | branch c body next ihb ihn =>
      obtain ⟨ht, hbody, hn⟩ := restAt_branch hr
      obtain ⟨hlk, hlb, hln⟩ := hl
      have hjoin := h.elseBranch_branch hr hb.1 hrest
      have hfirst := behind_transfer_mem_leaders address ht rfl (by simp [hrest])
      have hexit := target_mem_leaders address ht rfl
      simp only [size, ← Nat.add_assoc, Act.size] at hs hfirst ⊢
      obtain ⟨v₁, h₁⟩ := h.renders_enter (i := i) ht hv (hs.ne h.mono (by omega)) hlk
      have h₂ := (h₁.trans (renders_test rfl hjoin)).mono (n := k + c.ops.length + 1) (by omega)
      obtain ⟨v₂, h₃⟩ := ihb (i := i + 1) hbody (by simp [hrest]) hb.1 hlb (h₂.fresh h.mono hv)
        (stopsFrom_self address _)
      have h₄ := h₂.trans ((h₃.trans (renders_stop hexit)).region hfirst _)
      have h₅ := h₄.trans ((renders_line (.closing i)).append _)
      obtain ⟨v₃, h₆⟩ := ihn hn hrest hb.2 hln (h₅.fresh h.mono hv) hs
      rw [tasksAt_of_leader _ hexit] at h₆
      refine ⟨v₃, ?_⟩
      simpa [lines, acts] using h₅.trans h₆
  | choice c yes no next ihy ihn ihx =>
      obtain ⟨ht, hyes, hj, hno, hn⟩ := restAt_choice hr
      obtain ⟨hne, hby, hbn, hbx⟩ := hb
      obtain ⟨hlk, hly, hlj, hlno, hln⟩ := hl
      have hpos := size_pos hne
      have hjoin := h.elseBranch_choice hr hne hrest
      have hfirst := behind_transfer_mem_leaders address ht rfl (by simp)
      have hsecond := target_mem_leaders address ht rfl
      have hexit := target_mem_leaders address hj rfl
      simp only [size, ← Nat.add_assoc, Act.size] at hs hfirst ⊢
      obtain ⟨v₁, h₁⟩ := h.renders_enter (i := i) ht hv (hs.ne h.mono (by omega)) hlk
      have h₂ := (h₁.trans (renders_test rfl hjoin)).mono (n := k + c.ops.length + 1) (by omega)
      have hstop := stopsFrom_self address (k + c.ops.length + 1 + yes.size + 1 + no.size)
      -- the first part, and the jump over the second
      obtain ⟨v₂, h₃⟩ := ihy (i := i + 1) hyes (by simp) hby hly (h₂.fresh h.mono hv)
        (hstop.mono (by omega))
      obtain ⟨v₃, h₄⟩ := h.renders_enter (i := i + 1) hj (h₃.fresh h.mono (h₂.fresh h.mono hv))
        (hstop.ne h.mono (by omega)) hlj
      have h₅ := h₂.trans ((h₃.trans (h₄.trans renders_jump_stop)).region hfirst _)
      have h₆ := h₅.trans ((renders_line (.otherwise i)).append _)
      -- the second part
      obtain ⟨v₄, h₇⟩ := ihn (i := i + 1) hno (by simp [hrest]) hbn hlno (h₆.fresh h.mono hv)
        hstop
      have h₈ := h₆.trans ((h₇.trans (renders_stop hexit)).region hsecond _)
      have h₉ := h₈.trans ((renders_line (.closing i)).append _)
      obtain ⟨v₅, h₁₀⟩ := ihx hn hrest hbx hln (h₉.fresh h.mono hv) hs
      rw [tasksAt_of_leader _ hexit] at h₁₀
      refine ⟨v₅, ?_⟩
      simpa [lines, acts] using h₉.trans h₁₀
  | loop c body next ihb ihn =>
      obtain ⟨ht, hbody, hj, hn⟩ := restAt_loop hr
      obtain ⟨hlk, hlb, hlj, hln⟩ := hl
      have hjoin := h.elseBranch_loop hr hb.1 hrest
      have hhead := target_mem_leaders address hj rfl
      have hfirst := behind_transfer_mem_leaders address ht rfl (by simp)
      have hexit := target_mem_leaders address ht rfl
      simp only [size, ← Nat.add_assoc, Act.size] at hs hfirst ⊢
      have h₁ := h.renders_place ht hv (hs.ne h.mono (by omega)) hhead labels i
      rw [labelLine, if_pos hlk] at h₁
      have h₂ := (h₁.trans (renders_test rfl hjoin)).mono (n := k + c.ops.length + 1) (by omega)
      have hstop := stopsFrom_self address (k + c.ops.length + 1 + body.size + 1)
      -- the body, and the jump back to the head, which has been placed
      obtain ⟨v₂, h₃⟩ := ihb (i := i + 1) hbody (by simp) hb.1 hlb (h₂.fresh h.mono hv)
        (hstop.mono (by omega))
      obtain ⟨v₃, h₄⟩ := h.renders_enter (i := i + 1) hj (h₃.fresh h.mono (h₂.fresh h.mono hv))
        (hstop.ne h.mono (by omega)) hlj
      have hplaced : address k ∈ v₃ := h₄.kept _ (h₃.kept _ (by simp))
      have h₅ := h₂.trans ((h₃.trans (h₄.trans (renders_jump_back
        (hstop.ne h.mono (by omega)) hplaced))).region hfirst _)
      have h₆ := h₅.trans ((renders_line (.closing i)).append _)
      obtain ⟨v₄, h₇⟩ := ihn hn hrest hb.2 hln (h₆.fresh h.mono hv) hs
      rw [tasksAt_of_leader _ hexit] at h₇
      refine ⟨v₄, ?_⟩
      simpa [lines, acts] using h₆.trans h₇

end Bodies

end ScriptLift.Structured
