import Mathlib
import ScriptLift.Proofs.Lift.FirstStore
import ScriptLift.Proofs.Lift.Untyped

/-!
# The first return site settles the result

A return site is accepted if it returns no value or one.  Of a sequence of sites the first accepted
one settles the number of values (`ReturnSite.keptCount`), and of the accepted sites with that
number the first whose type is known settles the type (`ReturnSite.agreedTypes`).  Every other site
leaves the routine as it is: one that is not accepted is refused, and one that disagrees is reported
once.

`Routine.inferReturns_eq` says what is kept after any sequence of sites, by induction on the last of
them, and `Routine.firstSiteWins` adds what one more site does.
-/

namespace ScriptLift

/-- A return site: the number of values returned and the type of the top one. -/
structure ReturnSite where
  count : Int
  top : DataType
  deriving DecidableEq, Repr

namespace ReturnSite

/-- The site returns no value or one. -/
def isAccepted (s : ReturnSite) : Bool :=
  s.count = 0 || s.count = 1

/-- The type that the site gives the result. -/
def type (s : ReturnSite) : DataType :=
  if s.count = 0 then .void else s.top

/-- The number of values at the first site that is accepted. -/
def keptCount (sites : List ReturnSite) : Option Int :=
  (sites.find? (·.isAccepted)).map (·.count)

/-- The types at the sites that are accepted and return as many values as the first of them. -/
def agreedTypes (sites : List ReturnSite) : List DataType :=
  (sites.filter fun s => s.isAccepted && keptCount sites == some s.count).map (·.type)

/-- Behind the sites `before`, the site has not the number of values that is kept, or its type is
known and differs from one that was known before. -/
def Disagrees (before : List ReturnSite) (s : ReturnSite) : Prop :=
  keptCount (before ++ [s]) ≠ some s.count ∨
    s.type ≠ .unknown ∧ firstKnown (agreedTypes before) ≠ .unknown ∧
      s.type ≠ firstKnown (agreedTypes before)

variable {s : ReturnSite} {sites : List ReturnSite}

/-- A site is accepted exactly if it returns no value or one. -/
theorem siteType?_eq (s : ReturnSite) :
    Routine.siteType? s.count s.top = if s.isAccepted then some s.type else none := by
  unfold Routine.siteType? isAccepted type
  by_cases h0 : s.count = 0
  · simp [h0]
  · by_cases h1 : s.count = 1 <;> simp [h0, h1]

/-- A number that is kept is not replaced. -/
theorem keptCount_append (sites : List ReturnSite) (s : ReturnSite) :
    keptCount (sites ++ [s])
      = (keptCount sites).or (if s.isAccepted then some s.count else none) := by
  unfold keptCount
  rw [List.find?_append]
  cases sites.find? (·.isAccepted) with
  | some first => rfl
  | none => cases h : s.isAccepted <;> simp [h]

/-- Before a site is accepted no type is agreed on. -/
theorem agreedTypes_of_keptCount_eq_none (h : keptCount sites = none) : agreedTypes sites = [] := by
  simp [agreedTypes, h]

/-- A site adds its type if it returns the number that is kept. -/
theorem agreedTypes_append (sites : List ReturnSite) (s : ReturnSite) :
    agreedTypes (sites ++ [s]) = agreedTypes sites
      ++ if s.isAccepted && keptCount (sites ++ [s]) == some s.count then [s.type] else [] := by
  have hold : (sites.filter fun s' => s'.isAccepted && keptCount (sites ++ [s]) == some s'.count)
      = sites.filter fun s' => s'.isAccepted && keptCount sites == some s'.count := by
    cases hk : keptCount sites with
    | some k => rw [keptCount_append, hk, Option.some_or]
    | none =>
        -- no site before is accepted
        refine List.filter_congr fun s' hs' => ?_
        have hnot : s'.isAccepted = false := by
          simpa using List.find?_eq_none.mp (Option.map_eq_none_iff.mp hk) s' hs'
        rw [hnot, Bool.false_and, Bool.false_and]
  rw [agreedTypes, List.filter_append, List.map_append, hold]
  congr 1
  split <;> rename_i h <;> simp [h]

end ReturnSite

/-- The first type known, with one more behind. -/
theorem firstKnown_concat (ts : List DataType) (t : DataType) :
    firstKnown (ts ++ [t]) = (firstKnown ts).refine t := by
  have h := firstKnown_append .unknown ts [t]
  rw [firstKnown_cons_unknown, firstKnown_cons_unknown] at h
  rw [← h, ← firstKnown_refine, firstKnown_singleton]

/-! ### What one site does -/

/-- The type of the top one of some values. -/
def Frame.topType (f : Frame) (values : List Expr) : DataType :=
  (values.getLast?.map (·.type f.typeOf)).getD .unknown

namespace Lift

variable {f : Frame} {count : Int} {values : List Expr}

/-- A site that the routine accepts. -/
theorem inferReturn_exec_ok {r : Routine} {events : List Event}
    (h : f.routine.inferReturn count (f.topType values) = .ok (r, events)) :
    (inferReturn count values).exec f = (.ok (), { f.report events with routine := r }) := by
  have hexec : (inferReturn count values).exec f
      = (liftM (f.routine.inferReturn count (f.topType values)) >>= fun out =>
          (set { f.report out.2 with routine := out.1 } : Lift Unit)).exec f := by
    rw [inferReturn, exec_bind, exec_get, Frame.topType]
    cases values.getLast? <;> rfl
  rw [hexec, exec_bind, exec_liftM, h]
  rfl

end Lift

namespace Routine

open ReturnSite

variable {r : Routine} {s : ReturnSite} {sites : List ReturnSite}

/-- The routine behind a return site, which has no effect if it is refused. -/
def atSite (r : Routine) (s : ReturnSite) : Routine :=
  match r.inferReturn s.count s.top with
  | .ok (r, _) => r
  | .error _ => r

/-- The routine behind several return sites. -/
def inferReturns (r : Routine) (sites : List ReturnSite) : Routine :=
  sites.foldl atSite r

theorem inferReturns_append (r : Routine) (sites : List ReturnSite) (s : ReturnSite) :
    r.inferReturns (sites ++ [s]) = (r.inferReturns sites).atSite s := by
  rw [inferReturns, List.foldl_append]
  rfl

/-- A site that is refused has no effect. -/
theorem atSite_of_not (h : s.isAccepted = false) (r : Routine) : r.atSite s = r := by
  rw [atSite, inferReturn, siteType?_eq, h]
  rfl

/-- What is known of the result behind sites. -/
def resultAt (sites : List ReturnSite) : Option Result :=
  (keptCount sites).map fun count => ⟨count, firstKnown (agreedTypes sites)⟩

theorem resultAt_concat_of_not (h : s.isAccepted = false) (sites : List ReturnSite) :
    resultAt (sites ++ [s]) = resultAt sites := by
  simp [resultAt, keptCount_append, agreedTypes_append, h]

/-- The first site that is accepted settles the number. -/
theorem resultAt_concat_of_none (h : s.isAccepted = true) (hk : keptCount sites = none) :
    resultAt (sites ++ [s]) = some ⟨s.count, s.type⟩ := by
  simp [resultAt, keptCount_append, agreedTypes_append, h, hk, agreedTypes_of_keptCount_eq_none hk,
    firstKnown_singleton]

/-- A site with another number adds nothing. -/
theorem resultAt_concat_of_ne {k : Int} (hk : keptCount sites = some k) (hne : k ≠ s.count) :
    resultAt (sites ++ [s]) = resultAt sites := by
  simp [resultAt, keptCount_append, agreedTypes_append, hk, hne]

/-- One with the same number may settle the type. -/
theorem resultAt_concat_of_eq (h : s.isAccepted = true) (hk : keptCount sites = some s.count) :
    resultAt (sites ++ [s])
      = some ⟨s.count, (firstKnown (agreedTypes sites)).refine s.type⟩ := by
  simp [resultAt, keptCount_append, agreedTypes_append, h, hk, firstKnown_concat]

/-- **A site that is accepted** makes the result what it is behind one site more.  It is reported if
it disagrees. -/
theorem inferReturn_of_accepted (h : s.isAccepted = true) (hr : r.result = resultAt sites) :
    ∃ events, r.inferReturn s.count s.top
        = .ok ({ r with result := resultAt (sites ++ [s]) }, events) ∧
      (events = [] ∨ ∃ w, events = [w] ∧ w.level = .warning) ∧
      (events ≠ [] ↔ Disagrees sites s) := by
  have hsame : ∀ result, r.result = result → { r with result } = r := by
    rintro result rfl
    rfl
  have hkept := keptCount_append sites s
  rw [h, if_pos rfl] at hkept
  rw [inferReturn, siteType?_eq, h, if_pos rfl]
  cases hk : keptCount sites with
  | none =>
      have hnone : r.result = none := by rw [hr, resultAt, hk, Option.map_none]
      rw [hk, Option.none_or] at hkept
      refine ⟨[], ?_, .inl rfl, ?_⟩
      · simp only [hnone, resultAt_concat_of_none h hk]
      · simp [Disagrees, hkept, agreedTypes_of_keptCount_eq_none hk, firstKnown]
  | some k =>
      have hsome : r.result = some ⟨k, firstKnown (agreedTypes sites)⟩ := by
        rw [hr, resultAt, hk, Option.map_some]
      rw [hk, Option.some_or] at hkept
      simp only [hsome]
      by_cases hne : k = s.count
      · subst hne
        rw [if_neg (not_not.mpr rfl), resultAt_concat_of_eq h hk]
        have hiff : Disagrees sites s ↔ (firstKnown (agreedTypes sites)).Contradicts s.type := by
          simp only [Disagrees, hkept, DataType.Contradicts]
          tauto
        split
        · rename_i hc
          refine ⟨[.returnTypes r.name (firstKnown (agreedTypes sites)) s.type], ?_,
            .inr ⟨_, rfl, rfl⟩, by simp [hiff, hc]⟩
          rw [DataType.refine_of_ne hc.1, hsame _ hsome]
        · rename_i hc
          exact ⟨[], rfl, .inl rfl, by simp [hiff, hc]⟩
      · rw [if_pos hne, resultAt_concat_of_ne hk hne]
        refine ⟨[.returnCounts r.name k s.count], ?_, .inr ⟨_, rfl, rfl⟩,
          by simp [Disagrees, hkept, hne]⟩
        rw [hsame _ hr]

/-- **What is kept behind any sequence of sites.** -/
theorem inferReturns_eq (hr : r.result = none) (sites : List ReturnSite) :
    r.inferReturns sites = { r with result := resultAt sites } := by
  induction sites using List.reverseRecOn with
  | nil =>
      change r = { r with result := none }
      rw [← hr]
  | append_singleton sites s ih =>
      rw [inferReturns_append, ih]
      cases h : s.isAccepted with
      | false => rw [atSite_of_not h, resultAt_concat_of_not h]
      | true =>
          obtain ⟨events, hs, -⟩ := inferReturn_of_accepted h
            (show Routine.result { r with result := resultAt sites } = resultAt sites from rfl)
          rw [atSite, hs]

/-- **The first return site wins.**  Behind any sequence of return sites a routine that had no
result before keeps the number of values of the first that is accepted, and the first type that is
known among those that agree with it; without one the result is of type `void`.  One more site that
is not accepted is refused and changes nothing.  One that is accepted is reported, by one warning,
just if it disagrees. -/
theorem firstSiteWins (hr : r.result = none) (sites : List ReturnSite) :
    let after := r.inferReturns sites
    after = { r with result := after.result } ∧
    after.result.map (·.count) = keptCount sites ∧
    after.returnType
      = (if keptCount sites = none then .void else firstKnown (agreedTypes sites)) ∧
    ∀ (f : Frame) (count : Int) (values : List Expr), f.routine = after →
      let s : ReturnSite := ⟨count, f.topType values⟩
      (s.isAccepted = false →
        (Lift.inferReturn count values).exec f = (.error (.returnCount r.name count), f) ∧
        r.inferReturns (sites ++ [s]) = after) ∧
      (s.isAccepted = true → ∃ events,
        (Lift.inferReturn count values).exec f
          = (.ok (), { f.report events with routine := r.inferReturns (sites ++ [s]) }) ∧
        (events = [] ∨ ∃ w, events = [w] ∧ w.level = .warning) ∧
        (events ≠ [] ↔ Disagrees sites s)) := by
  intro after
  have hafter : after = { r with result := resultAt sites } := inferReturns_eq hr sites
  have hresult : after.result = resultAt sites := by rw [hafter]
  refine ⟨by rw [hresult, ← hafter], ?_, ?_,
    fun f count values hf => ⟨fun h => ⟨?_, ?_⟩, fun h => ?_⟩⟩
  · rw [hresult, resultAt, Option.map_map]
    exact Option.map_id'
  · rw [returnType, hresult, resultAt]
    cases keptCount sites <;> rfl
  · have hcount : ¬ (count = 0 ∨ count = 1) := by simpa [isAccepted] using h
    rw [Lift.exec_inferReturn_of_not hcount, hf, hafter]
  · rw [inferReturns_append, atSite_of_not h]
  · obtain ⟨events, hs, hone, hiff⟩ := inferReturn_of_accepted h hresult
    refine ⟨events, ?_, hone, hiff⟩
    rw [inferReturns_append, atSite, hs]
    exact Lift.inferReturn_exec_ok (hf ▸ hs)

/-- Two values are refused, and no value comes too late.  The type is settled by the last site, and
one that returns an integer behind it is reported. -/
theorem firstSiteWins_late :
    let r : Routine := .ofCode "f" [] []
    let sites : List ReturnSite := [⟨2, .int⟩, ⟨1, .unknown⟩, ⟨0, .unknown⟩, ⟨1, .bool⟩]
    let f : Frame := ⟨{ name := "", code := [] }, r.inferReturns sites, { start := 0 }, [], []⟩
    let value : Expr := .ofLiteral (.int 5)
    r.result = none ∧ (r.inferReturns sites).result.map (·.count) = some 1 ∧
      (r.inferReturns sites).returnType = .bool ∧
      ∃ w, (Lift.inferReturn 1 [value]).exec f
          = (.ok (), { f.report [w] with routine := r.inferReturns (sites ++ [⟨1, .int⟩]) }) ∧
        w.level = .warning := by
  intro r sites f value
  obtain ⟨-, hcount, htype, hnext⟩ := firstSiteWins (r := r) rfl sites
  obtain ⟨events, hexec, hone, hiff⟩ := (hnext f 1 [value] rfl).2 rfl
  have hne : events ≠ [] := hiff.mpr (.inr (by decide))
  obtain ⟨w, rfl, hw⟩ := hone.resolve_left hne
  exact ⟨rfl, hcount, htype, w, hexec, hw⟩

end Routine

end ScriptLift
