/-!
# Machines that do the same

A machine moves from state to state; a move does some actions and may ask for the outcome of a
condition (`Move`).  The outcomes come from a stream fixed beforehand, so that a machine has one run
(`Runs`), as long as it does not stop.  Two machines do the same (`SameBehavior`) when for every
stream they do the same actions in the same order and stop after the same ones.

A machine that follows another move for move does the same as that one (`Follows.sameBehavior`).  It
may take any number of moves for one, also none, but then a rank has to go down.
-/

namespace ScriptLift

/-- What a machine does next. -/
inductive Move (α σ : Type) where
  | halt
  | go (actions : List α) (next : σ)
  /-- The next outcome decides. -/
  | ask (actions : List α) (next : Bool → σ)

/-- The outcomes of the conditions still to be tested. -/
abbrev Outcomes : Type :=
  Nat → Bool

/-- The outcomes behind the first. -/
def Outcomes.rest (ω : Outcomes) : Outcomes :=
  fun n => ω (n + 1)

variable {α σ τ : Type} {f : σ → Move α σ} {g : τ → Move α τ} {m n : Nat} {ω ω' ω'' : Outcomes}
  {s s' s'' : σ} {as bs : List α}

/-- `Runs f n ω s as ω' s'`: in `n` moves from `s`, with the outcomes `ω`, the machine does `as` and
comes to `s'`, with the outcomes `ω'` left. -/
inductive Runs (f : σ → Move α σ) : Nat → Outcomes → σ → List α → Outcomes → σ → Prop where
  | refl {ω : Outcomes} {s : σ} : Runs f 0 ω s [] ω s
  | go {n : Nat} {ω ω' : Outcomes} {s s₁ s' : σ} {as bs : List α} : f s = .go as s₁ →
      Runs f n ω s₁ bs ω' s' → Runs f (n + 1) ω s (as ++ bs) ω' s'
  | ask {n : Nat} {ω ω' : Outcomes} {s s' : σ} {k : Bool → σ} {as bs : List α} :
      f s = .ask as k → Runs f n ω.rest (k (ω 0)) bs ω' s' → Runs f (n + 1) ω s (as ++ bs) ω' s'

namespace Runs

theorem trans (h : Runs f m ω s as ω' s') (h' : Runs f n ω' s' bs ω'' s'') :
    Runs f (m + n) ω s (as ++ bs) ω'' s'' := by
  induction h with
  | refl => simpa using h'
  | go hf _ ih =>
      rw [Nat.add_right_comm, List.append_assoc]
      exact .go hf (ih h')
  | ask hf _ ih =>
      rw [Nat.add_right_comm, List.append_assoc]
      exact .ask hf (ih h')

/-- One move that asks for no outcome. -/
theorem one (h : f s = .go as s') : Runs f 1 ω s as ω s' := by
  simpa using Runs.go h (.refl (ω := ω))

/-- One move that asks for an outcome. -/
theorem choose {k : Bool → σ} (h : f s = .ask as k) : Runs f 1 ω s as ω.rest (k (ω 0)) := by
  simpa using Runs.ask h (.refl (ω := ω.rest))

/-- A machine that has stopped does nothing more. -/
theorem of_halt (h : Runs f n ω s as ω' s') (hs : f s = .halt) :
    n = 0 ∧ as = [] ∧ ω' = ω ∧ s' = s := by
  cases h with
  | refl => exact ⟨rfl, rfl, rfl, rfl⟩
  | go hf _ | ask hf _ =>
      rw [hs] at hf
      cases hf

/-- **There is one run.**  A longer run goes on where a shorter one has come to. -/
theorem split (h : Runs f m ω s as ω' s') (h' : Runs f n ω s bs ω'' s'') (hmn : m ≤ n) :
    ∃ cs, bs = as ++ cs ∧ Runs f (n - m) ω' s' cs ω'' s'' := by
  induction h generalizing n bs with
  | refl => exact ⟨bs, rfl, h'⟩
  | go hf _ ih =>
      cases h' with
      | refl => omega
      | go hf' hrest =>
          rw [hf] at hf'
          cases hf'
          obtain ⟨cs, rfl, hcs⟩ := ih hrest (by omega)
          exact ⟨cs, by simp, by simpa using hcs⟩
      | ask hf' _ =>
          rw [hf] at hf'
          cases hf'
  | ask hf _ ih =>
      cases h' with
      | refl => omega
      | go hf' _ =>
          rw [hf] at hf'
          cases hf'
      | ask hf' hrest =>
          rw [hf] at hf'
          cases hf'
          obtain ⟨cs, rfl, hcs⟩ := ih hrest (by omega)
          exact ⟨cs, by simp, by simpa using hcs⟩

/-- A run that has come to a stop is the longest. -/
theorem le_of_halt (h : Runs f m ω s as ω' s') (hs : f s' = .halt) (h' : Runs f n ω s bs ω'' s'') :
    n ≤ m := by
  refine Nat.le_of_not_lt fun hlt => ?_
  obtain ⟨cs, -, hcs⟩ := h.split h' (Nat.le_of_lt hlt)
  have := (hcs.of_halt hs).1
  omega

end Runs

/-! ### Behavior -/

/-- With the outcomes `ω` the machine comes to do `t`, and then perhaps more. -/
def Does (f : σ → Move α σ) (ω : Outcomes) (s : σ) (t : List α) : Prop :=
  ∃ n as ω' s', Runs f n ω s as ω' s' ∧ t <+: as

/-- With the outcomes `ω` the machine does `t` and stops. -/
def Finishes (f : σ → Move α σ) (ω : Outcomes) (s : σ) (t : List α) : Prop :=
  ∃ n ω' s', Runs f n ω s t ω' s' ∧ f s' = .halt

/-- Whatever the outcomes are, the machines do the same actions in the same order, and stop after
the same ones if they stop. -/
def SameBehavior (f : σ → Move α σ) (s : σ) (g : τ → Move α τ) (t : τ) : Prop :=
  ∀ ω as, (Does f ω s as ↔ Does g ω t as) ∧ (Finishes f ω s as ↔ Finishes g ω t as)

/-- `f` follows `g` along `R`: where `g` stops `f` does too, without doing anything more, and every
move of `g` is matched by a run of `f`.  The rank goes down where `f` does not move. -/
def Follows (f : σ → Move α σ) (g : τ → Move α τ) (R : Nat → σ → τ → Prop) : Prop :=
  ∀ k x y, R k x y → ∀ ω,
    (g y = .halt ∧ ∃ m x', Runs f m ω x [] ω x' ∧ f x' = .halt) ∨
    ∃ m as ω' x' y' k', Runs f m ω x as ω' x' ∧ Runs g 1 ω y as ω' y' ∧ R k' x' y' ∧
      (m = 0 → k' < k)

namespace Follows

variable {R : Nat → σ → τ → Prop} {k : Nat} {x : σ} {y : τ}

/-- What the follower does, the other does too. -/
theorem does (h : Follows f g R) (hR : R k x y) {x' : σ} (hx : Runs f n ω x as ω' x') :
    Does g ω y as := by
  -- on the number of moves of the follower, and on the rank where it does not move
  induction n using Nat.strongRecOn generalizing k x y ω as with
  | ind n ihn =>
    induction k using Nat.strongRecOn generalizing x y ω as with
    | ind k ihk =>
      rcases h k x y hR ω with ⟨hy, m, x₁, hrun, hhalt⟩
        | ⟨m, bs, ω₁, x₁, y₁, k', hrun, hg, hR', hrank⟩
      · have hle := hrun.le_of_halt hhalt hx
        obtain ⟨cs, hcs, -⟩ := hx.split hrun hle
        obtain rfl : as = [] := (List.append_eq_nil_iff.mp hcs.symm).1
        exact ⟨0, [], ω, y, .refl, List.prefix_rfl⟩
      · rcases Nat.le_total n m with hnm | hmn
        · obtain ⟨cs, rfl, -⟩ := hx.split hrun hnm
          exact ⟨1, _, ω₁, y₁, hg, List.prefix_append _ _⟩
        · obtain ⟨cs, rfl, hcs⟩ := hrun.split hx hmn
          have hrest : Does g ω₁ y₁ cs := by
            rcases Nat.eq_zero_or_pos m with rfl | hpos
            · exact ihk k' (hrank rfl) hR' hcs
            · exact ihn (n - m) (by omega) hR' hcs
          obtain ⟨j, ds, ω₂, y₂, hds, hpre⟩ := hrest
          exact ⟨1 + j, bs ++ ds, ω₂, y₂, hg.trans hds, (List.prefix_append_right_inj bs).mpr hpre⟩

/-- Where the follower stops, the other does too. -/
theorem finishes (h : Follows f g R) (hR : R k x y) {x' : σ} (hx : Runs f n ω x as ω' x')
    (hx' : f x' = .halt) : Finishes g ω y as := by
  induction n using Nat.strongRecOn generalizing k x y ω as with
  | ind n ihn =>
    induction k using Nat.strongRecOn generalizing x y ω as with
    | ind k ihk =>
      rcases h k x y hR ω with ⟨hy, m, x₁, hrun, hhalt⟩
        | ⟨m, bs, ω₁, x₁, y₁, k', hrun, hg, hR', hrank⟩
      · obtain ⟨cs, hcs, -⟩ := hx.split hrun (hrun.le_of_halt hhalt hx)
        obtain rfl : as = [] := (List.append_eq_nil_iff.mp hcs.symm).1
        exact ⟨0, ω, y, .refl, hy⟩
      · have hmn := hx.le_of_halt hx' hrun
        obtain ⟨cs, rfl, hcs⟩ := hrun.split hx hmn
        have hrest : Finishes g ω₁ y₁ cs := by
          rcases Nat.eq_zero_or_pos m with rfl | hpos
          · exact ihk k' (hrank rfl) hR' hcs
          · exact ihn (n - m) (by omega) hR' hcs
        obtain ⟨j, ω₂, y₂, hds, hhalt⟩ := hrest
        exact ⟨1 + j, ω₂, y₂, hg.trans hds, hhalt⟩

/-- What the other does, the follower does too. -/
theorem does_of (h : Follows f g R) (hR : R k x y) {y' : τ} (hy : Runs g n ω y as ω' y') :
    Does f ω x as := by
  induction n using Nat.strongRecOn generalizing k x y ω as with
  | ind n ih =>
    rcases h k x y hR ω with ⟨hy₀, -⟩ | ⟨m, bs, ω₁, x₁, y₁, k', hrun, hg, hR', -⟩
    · obtain ⟨-, rfl, -, -⟩ := hy.of_halt hy₀
      exact ⟨0, [], ω, x, .refl, List.prefix_rfl⟩
    · rcases Nat.le_total n 1 with hn | hn
      · obtain ⟨cs, rfl, -⟩ := hy.split hg hn
        exact ⟨m, _, ω₁, x₁, hrun, List.prefix_append _ _⟩
      · obtain ⟨cs, rfl, hcs⟩ := hg.split hy hn
        obtain ⟨j, ds, ω₂, x₂, hds, hpre⟩ := ih (n - 1) (by omega) hR' hcs
        exact ⟨m + j, bs ++ ds, ω₂, x₂, hrun.trans hds, (List.prefix_append_right_inj bs).mpr hpre⟩

/-- Where the other stops, the follower does too. -/
theorem finishes_of (h : Follows f g R) (hR : R k x y) {y' : τ} (hy : Runs g n ω y as ω' y')
    (hy' : g y' = .halt) : Finishes f ω x as := by
  induction n using Nat.strongRecOn generalizing k x y ω as with
  | ind n ih =>
    rcases h k x y hR ω with ⟨hy₀, m, x₁, hrun, hhalt⟩ | ⟨m, bs, ω₁, x₁, y₁, k', hrun, hg, hR', -⟩
    · obtain ⟨-, rfl, -, -⟩ := hy.of_halt hy₀
      exact ⟨m, ω, x₁, hrun, hhalt⟩
    · have hn := hy.le_of_halt hy' hg
      obtain ⟨cs, rfl, hcs⟩ := hg.split hy hn
      obtain ⟨j, ω₂, x₂, hds, hhalt⟩ := ih (n - 1) (by omega) hR' hcs
      exact ⟨m + j, ω₂, x₂, hrun.trans hds, hhalt⟩

/-- **A machine does the same as the one it follows.** -/
theorem sameBehavior (h : Follows f g R) (hR : R k x y) : SameBehavior f x g y := by
  intro ω as
  refine ⟨⟨?_, ?_⟩, ⟨?_, ?_⟩⟩
  · rintro ⟨n, bs, ω', x', hx, hpre⟩
    obtain ⟨n', cs, ω'', y', hy, hpre'⟩ := h.does hR hx
    exact ⟨n', cs, ω'', y', hy, hpre.trans hpre'⟩
  · rintro ⟨n, bs, ω', y', hy, hpre⟩
    obtain ⟨n', cs, ω'', x', hx, hpre'⟩ := h.does_of hR hy
    exact ⟨n', cs, ω'', x', hx, hpre.trans hpre'⟩
  · rintro ⟨n, ω', x', hx, hhalt⟩
    exact h.finishes hR hx hhalt
  · rintro ⟨n, ω', y', hy, hhalt⟩
    exact h.finishes_of hR hy hhalt

end Follows

end ScriptLift
