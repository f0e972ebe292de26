import ScriptLift.Proofs.Discovery
import ScriptLift.Proofs.Structured.Placement

/-!
# The blocks of compiled code

Leaders are starts of pieces (`Source.mem_starts_of_leader`), so a block is made up of whole pieces:
from its start to the first piece that transfers control or that a leader follows (`blockActs`).  As
control gets to all of the code, discovery makes a block for every leader
(`Source.IsCodeOf.exists_block`).
-/

namespace ScriptLift

/-- A run that nothing breaks off goes into the block whole. -/
theorem cutBlock_append {leaders : List Int} {xs rest : List Instruction} {i : Instruction}
    (hx : ∀ x ∈ xs, x.isTransfer = false) (hl : ∀ y ∈ (xs ++ [i]).tail, y.address ∉ leaders) :
    cutBlock leaders (xs ++ i :: rest)
      = (xs ++ (cutBlock leaders (i :: rest)).1, (cutBlock leaders (i :: rest)).2) := by
  induction xs with
  | nil => rfl
  | cons x xs ih =>
      have hnext : ((xs ++ i :: rest).head?.any fun y => decide (y.address ∈ leaders)) = false := by
        cases xs with
        | nil => simpa using hl i (by simp)
        | cons y ys => simpa using hl y (by simp)
      have htail : ∀ y ∈ (xs ++ [i]).tail, y.address ∉ leaders :=
        fun y hy => hl y (List.mem_of_mem_tail hy)
      rw [List.cons_append, cutBlock, hx x (by simp), hnext,
        ih (fun y hy => hx y (by simp [hy])) htail]
      rfl

/-- What neither transfers control nor has a target calls for no leader. -/
theorem leadersWithin_append {xs ys : List Instruction}
    (h : ∀ x ∈ xs, x.isTransfer = false ∧ x.branchTarget? = none) :
    leadersWithin (xs ++ ys) = leadersWithin ys := by
  induction xs with
  | nil => rfl
  | cons x xs ih =>
      have hx := h x (by simp)
      rw [List.cons_append, leadersWithin, ih fun y hy => h y (by simp [hy])]
      simp [hx.1, hx.2]

namespace Structured

variable {address : Nat → Int} {k j : Nat} {a : Act} {as all : List Act}

theorem isPlain_place {xs : List Op} (h : ∀ x ∈ xs, x.IsPlain) {i : Instruction}
    (hi : i ∈ place address k xs) : i.isTransfer = false ∧ i.branchTarget? = none := by
  obtain ⟨j, x, hx, rfl⟩ := mem_place.mp hi
  exact h x (List.mem_of_getElem? hx) _

/-- The code of a piece and of what follows it. -/
theorem place_opsOf_cons {init : List Op} {last : Op} (he : a.EndsIn address init last) :
    place address k (opsOf address (a :: as))
      = place address k init ++ last.instruction (address (k + init.length))
        :: place address (k + a.size) (opsOf address as) := by
  rw [opsOf_cons, he.ops, List.append_assoc, place_append, List.singleton_append, place, he.size,
    ← Nat.add_assoc]

theorem head?_place_opsOf (address : Nat → Int) (k : Nat) (h : as ≠ []) :
    (place address k (opsOf address as)).head?.map (·.address) = some (address k) := by
  obtain ⟨a, as, rfl⟩ := List.exists_cons_of_ne_nil h
  obtain ⟨x, xs, hx⟩ := List.exists_cons_of_ne_nil
    (List.length_pos_iff.mp (Nat.lt_of_lt_of_eq a.size_pos (a.length_ops address).symm))
  rw [opsOf_cons, hx]
  rfl

/-! ### Leaders -/

/-- A leader is the target of a piece, or a piece starts there. -/
theorem mem_leadersWithin {c : Int} (h : c ∈ leadersWithin (place address k (opsOf address as))) :
    (∃ a ∈ as, ∃ t, a.target? = some t ∧ c = address t) ∨ ∃ j ∈ starts k as, c = address j := by
  induction as generalizing k with
  | nil => simp [opsOf, place, leadersWithin] at h
  | cons a as ih =>
      obtain ⟨init, last, he⟩ := a.exists_endsIn address
      rw [place_opsOf_cons he, leadersWithin_append fun i hi => isPlain_place he.plain hi,
        leadersWithin, he.branchTarget] at h
      rcases List.mem_append.mp h with h | h
      · rcases List.mem_append.mp h with h | h
        · obtain ⟨t, ht, rfl⟩ := Option.map_eq_some_iff.mp (Option.mem_toList.mp h)
          exact Or.inl ⟨a, List.mem_cons_self .., t, ht, rfl⟩
        · split at h
          · rw [Option.mem_toList] at h
            cases as with
            | nil => simp [opsOf, place] at h
            | cons b bs =>
                rw [head?_place_opsOf _ _ (by simp), Option.some.injEq] at h
                exact Or.inr ⟨_, List.mem_cons_of_mem _ (List.mem_cons_self ..), h.symm⟩
          · simp at h
      · rcases ih h with ⟨b, hb, t, ht, hc⟩ | ⟨j, hj, hc⟩
        · exact Or.inl ⟨b, List.mem_cons_of_mem _ hb, t, ht, hc⟩
        · exact Or.inr ⟨j, List.mem_cons_of_mem _ hj, hc⟩

/-- The leaders of a program's code. -/
def Source.leaders (address : Nat → Int) (s : Source) : List Int :=
  ScriptLift.leaders (address 0) (s.code address)

theorem Source.exists_restAt_zero (s : Source) : ∃ a as, RestAt s.acts 0 (a :: as) := by
  obtain ⟨a, as, hacts⟩ := List.exists_cons_of_ne_nil (l := s.acts) (by simp [Source.acts])
  exact ⟨a, as, [], hacts, rfl⟩

/-- **Leaders are starts of pieces.** -/
theorem Source.mem_starts_of_leader {s : Source} (hm : StrictMono address)
    (h : address j ∈ s.leaders address) : j ∈ starts 0 s.acts := by
  rcases List.mem_cons.mp h with h | h
  · obtain ⟨a, as, hr⟩ := s.exists_restAt_zero
    rw [hm.injective h]
    exact hr.mem_starts
  rcases mem_leadersWithin h with ⟨a, ha, t, ht, hj⟩ | ⟨t, ht, hj⟩
  · rw [hm.injective hj]
    exact s.target_mem_starts ha ht
  · rwa [hm.injective hj]

/-- No leader is inside a piece. -/
theorem Source.not_leader_inside {s : Source} (hm : StrictMono address)
    (hr : RestAt s.acts k (a :: as)) (hkj : k < j) (hj : j < k + a.size) :
    address j ∉ s.leaders address := by
  intro h
  have hmem := s.mem_starts_of_leader hm h
  obtain ⟨before, hacts, rfl⟩ := hr
  rw [hacts, starts_append, Nat.zero_add, starts] at hmem
  rcases List.mem_append.mp hmem with h | h
  · have := le_of_mem_starts h
    omega
  rcases List.mem_cons.mp h with h | h
  · omega
  · have := le_of_mem_starts h
    omega

/-! ### Cutting -/

/-- The pieces of the block that starts at `k`, where `as` is the rest of the code. -/
def blockActs (address : Nat → Int) (leaders : List Int) (k : Nat) : List Act → List Act
  | [] => []
  | a :: as =>
    a :: if a.isTransfer || decide (address (k + a.size) ∈ leaders) then []
      else blockActs address leaders (k + a.size) as

/-- A piece goes into the block whole, and the block goes on behind it unless the piece transfers
control or a leader follows. -/
theorem Source.cutBlock_cons {s : Source} (hm : StrictMono address)
    (hr : RestAt s.acts k (a :: as)) :
    cutBlock (s.leaders address) (place address k (opsOf address (a :: as)))
      = if a.isTransfer || decide (address (k + a.size) ∈ s.leaders address) then
          (place address k (a.ops address), place address (k + a.size) (opsOf address as))
        else
          (place address k (a.ops address)
            ++ (cutBlock (s.leaders address) (place address (k + a.size) (opsOf address as))).1,
          (cutBlock (s.leaders address) (place address (k + a.size) (opsOf address as))).2) := by
  obtain ⟨init, last, he⟩ := a.exists_endsIn address
  have hops : place address k (a.ops address)
      = place address k init ++ [last.instruction (address (k + init.length))] := by
    rw [he.ops, place_append]
    rfl
  -- no leader stands inside the piece
  have hin : ∀ y ∈ (place address k (a.ops address)).tail, y.address ∉ s.leaders address := by
    intro y hy
    rw [← List.drop_one] at hy
    obtain ⟨n, hn⟩ := List.mem_iff_getElem?.mp hy
    rw [List.getElem?_drop, getElem?_place] at hn
    obtain ⟨x, hx, rfl⟩ := Option.map_eq_some_iff.mp hn
    have hlt := (List.getElem?_eq_some_iff.mp hx).1
    rw [Act.length_ops] at hlt
    exact s.not_leader_inside hm hr (by omega) (by omega)
  rw [place_opsOf_cons he, cutBlock_append (fun i hi => (isPlain_place he.plain hi).1) (hops ▸ hin),
    cutBlock, show (last.instruction (address (k + init.length))).isTransfer = a.isTransfer from
      he.transfer, hops]
  cases as with
  | nil => simp [opsOf, place, cutBlock]
  | cons b bs =>
      obtain ⟨i, hi, ha⟩ := Option.map_eq_some_iff.mp
        (head?_place_opsOf address (k + a.size) (List.cons_ne_nil b bs))
      rw [hi, Option.any_some, ha]
      split <;> simp

/-- **A block is made up of whole pieces.** -/
theorem Source.cutBlock_eq {s : Source} (hm : StrictMono address) (hr : RestAt s.acts k as) :
    ∃ behind, as = blockActs address (s.leaders address) k as ++ behind ∧
      cutBlock (s.leaders address) (place address k (opsOf address as))
        = (place address k (opsOf address (blockActs address (s.leaders address) k as)),
          place address (k + totalSize (blockActs address (s.leaders address) k as))
            (opsOf address behind)) := by
  induction as generalizing k with
  | nil => exact ⟨[], rfl, rfl⟩
  | cons a as ih =>
      rw [s.cutBlock_cons hm hr, blockActs]
      split
      · exact ⟨as, rfl, by simp [opsOf]⟩
      · obtain ⟨behind, has, hcut⟩ := ih hr.cons
        refine ⟨behind, by rw [List.cons_append, ← has], ?_⟩
        rw [hcut, opsOf_cons, place_append, Act.length_ops, totalSize_cons, Nat.add_assoc]

theorem dropWhile_place (hm : StrictMono address) (k : Nat) (xs ys : List Op) :
    ((place address k (xs ++ ys)).dropWhile fun i => i.address ≠ address (k + xs.length))
      = place address (k + xs.length) ys := by
  induction xs generalizing k with
  | nil => cases ys <;> simp [place, Op.instruction]
  | cons x xs ih =>
      have hne : (x.instruction (address k)).address ≠ address (k + (x :: xs).length) := by
        intro h
        have := hm.injective h
        simp at this
      rw [List.cons_append, place, List.dropWhile_cons, if_pos (decide_eq_true hne)]
      have := ih (k + 1)
      rwa [Nat.add_assoc, Nat.add_comm 1, ← List.length_cons] at this

/-- A piece that control passes is not the last one. -/
theorem Source.ne_nil_of_passes {s : Source} (hr : RestAt s.acts k (a :: as))
    (hp : a.passes = true) : as ≠ [] := by
  rintro rfl
  obtain ⟨before, hacts, -⟩ := hr
  have := congrArg List.getLast? hacts
  rw [Source.acts, ← List.append_assoc, List.getLast?_concat, List.getLast?_concat,
    Option.some.injEq] at this
  simp [← this, Act.passes] at hp

/-- The routine `r` consists of the code of `s`. -/
structure Source.IsCodeOf (address : Nat → Int) (s : Source) (r : Routine) : Prop where
  code : r.code = s.code address
  entry : r.address = address 0

variable {s : Source} {r : Routine} {g : Graph} {order : List Int}

theorem Source.IsCodeOf.nodup (hs : s.IsCodeOf address r) (hm : StrictMono address) :
    (r.code.map (·.address)).Nodup := by
  rw [hs.code]
  exact nodup_addresses_place hm _ _

/-- What discovery makes of the block at `k`. -/
theorem Source.IsCodeOf.blockAt? (hm : StrictMono address) (hs : s.IsCodeOf address r)
    (hr : RestAt s.acts k as) :
    ∃ behind, as = blockActs address (s.leaders address) k as ++ behind ∧
      r.survey.blockAt? (address k)
        = (place address k
            (opsOf address (blockActs address (s.leaders address) k as))).getLast?.map fun last =>
          (place address k (opsOf address (blockActs address (s.leaders address) k as)), last,
            (place address (k + totalSize (blockActs address (s.leaders address) k as))
              (opsOf address behind)).head?.map (·.address)) := by
  obtain ⟨behind, has, hcut⟩ := s.cutBlock_eq hm hr
  obtain ⟨before, hops, hk⟩ := hr.opsOf_eq address
  have hdrop : (r.survey.code.dropWhile fun i => i.address ≠ address k)
      = place address k (opsOf address as) := by
    have := dropWhile_place hm 0 before (opsOf address as)
    rw [Nat.zero_add, hk, ← hops] at this
    rw [Routine.survey, hs.code]
    exact this
  have hleaders : r.survey.leaders = s.leaders address := by
    rw [Routine.survey, hs.code, hs.entry]
    rfl
  exact ⟨behind, has, by rw [Survey.blockAt?, hdrop, hleaders, hcut]⟩

/-- Every leader starts a block. -/
theorem Source.IsCodeOf.mem_starts (hm : StrictMono address) (hs : s.IsCodeOf address r)
    (hinv : r.survey.Inv r.address g order []) (hj : j < totalSize s.acts)
    (hl : address j ∈ s.leaders address) : address j ∈ g.starts := by
  obtain ⟨x, hx⟩ : ∃ x, (opsOf address s.acts)[j]? = some x :=
    ⟨_, List.getElem?_eq_getElem (by simpa using hj)⟩
  have hreach : Reachable r.survey.code r.address (x.instruction (address j)) := by
    have := s.reaches hm j x hx
    rwa [← Source.code, ← hs.code, ← hs.entry] at this
  obtain ⟨b, hb, hxb⟩ := hinv.covers_reachable (hs.nodup hm) hreach
  obtain ⟨run, last, next, hcut, hin, -⟩ := hinv.filled_of_mem hb
  rw [Block.instructions_of_filled hin] at hxb
  obtain ⟨i, rest, rfl, hi⟩ := hcut.first
  rcases List.mem_cons.mp hxb with rfl | hxb
  · have hmem := Graph.mem_starts hb
    rwa [← hi] at hmem
  · refine absurd ?_ (hcut.tail _ hxb)
    rw [Routine.survey, hs.code, hs.entry]
    exact hl

theorem getLast?_place_opsOf {ops : List Op} {last : Op} (he : a.EndsIn address ops last)
    (k : Nat) (init : List Act) :
    ∃ c, (place address k (opsOf address (init ++ [a]))).getLast? = some (last.instruction c) := by
  refine ⟨address (k + (opsOf address init).length + ops.length), ?_⟩
  rw [opsOf_append, opsOf_cons, he.ops, place_append, List.getLast?_append]
  simp [opsOf, place_append, place]

/-- **Every leader has a block**, with the instructions of its pieces.  It falls through where its
last piece does. -/
theorem Source.IsCodeOf.exists_block (hm : StrictMono address) (hs : s.IsCodeOf address r)
    (hinv : r.survey.Inv r.address g order []) (hr : RestAt s.acts k (a :: as))
    (hl : address k ∈ s.leaders address) :
    ∃ b, g.block? (address k) = some b ∧
      b.tape.instructions = place address k
        (opsOf address (blockActs address (s.leaders address) k (a :: as))) ∧
      ∀ init c, blockActs address (s.leaders address) k (a :: as) = init ++ [c] → c.passes = true →
        b.fallthrough
          = some (address (k + totalSize (blockActs address (s.leaders address) k (a :: as)))) := by
  obtain ⟨b, hb⟩ := Graph.exists_block?_iff.mpr
    (hs.mem_starts hm hinv (hr.lt (List.cons_ne_nil a as)) hl)
  obtain ⟨run, last, next, hcut, hin, -⟩ := hinv.filled_of_mem (Graph.mem_of_block? hb)
  obtain ⟨behind, has, hat⟩ := hs.blockAt? hm hr
  rw [← Graph.start_of_block? hb, hcut.found] at hat
  obtain ⟨last', hlast', heq⟩ := Option.map_eq_some_iff.mp hat.symm
  obtain ⟨rfl, rfl, rfl⟩ : _ ∧ _ ∧ _ := by simpa only [Prod.mk.injEq] using heq
  refine ⟨b, hb, Block.instructions_of_filled hin, fun init c hinit hp => ?_⟩
  -- the last piece is not that of the return, so there is code behind it
  have hbehind : behind ≠ [] := by
    rw [hinit, List.append_assoc] at has
    rw [has] at hr
    exact s.ne_nil_of_passes hr.append hp
  obtain ⟨ops, op, he⟩ := c.exists_endsIn address
  obtain ⟨d, hd⟩ := getLast?_place_opsOf he k init
  rw [hinit, hd, Option.some.injEq] at hlast'
  have hft : b.fallthrough = if last'.kind = .op .leave || last'.kind = .op .jump then none
      else _ := congrArg (·.fallthrough) hin
  rw [hft, head?_place_opsOf _ _ hbehind, ← hlast', if_neg]
  simpa [Op.instruction] using he.passes hp

end Structured

end ScriptLift
