import ScriptLift.Depth
import ScriptLift.Proofs.Layout.Shape

/-!
# How deep a layout goes

Laying out with levels is laying out (`Layout.map_snd_layLevels`): the steps are the same and stand
in the same order, so the depth of a routine is told from the steps that write its lines.
-/

namespace ScriptLift

namespace Layout

variable {g : Graph} {labels v : List Int} {n : Nat} {i : Int} {stop : Option Int}
  {ts : List (Nat × Task)}

/-- **Levels change nothing about a layout.** -/
theorem map_snd_layLevels :
    (layLevels g labels v ts).map (·.2) = lay g labels v (ts.map (·.2)) := by
  fun_induction layLevels g labels v ts with
  | case1 v => rw [List.map_nil, List.map_nil, lay_nil]
  | case2 v n l ts ih => rw [List.map_cons, List.map_cons, lay_line, ih]
  | case3 v n i stop ts ih => rw [List.map_cons, lay_statements_nil, ih]
  | case4 v n ss i stop ts c m join other ih =>
      rw [List.map_cons, List.map_cons, lay_branch, ih, List.map_append, map_snd_atLevel,
        List.map_cons]
  | case5 v n ss i ts a ih => rw [List.map_cons, lay_goto, lay_region_stop, ih, List.map_cons]
  | case6 v n ss i stop ts a hs ha ih =>
      rw [List.map_cons, List.map_cons, lay_goto, lay_region_jump hs (Or.inr ha), ih,
        List.map_cons]
  | case7 v n ss i stop ts a hs ha ih =>
      rw [List.map_cons, lay_goto, ih, List.map_cons, List.map_cons]
  | case8 v n ss i stop ts s hb hg ih =>
      rw [List.map_cons, List.map_cons, lay_simple hb hg, ih, List.map_cons]
  | case9 v n i stop ts ih => rw [List.map_cons, lay_region_none, ih]
  | case10 v n a i ts ih => rw [List.map_cons, lay_region_stop, ih]
  | case11 v n a i stop ts hs hb ih =>
      rw [List.map_cons, List.map_cons, lay_region_jump hs (Or.inl hb), ih]
  | case12 v n a i stop ts hs b hb ha ih =>
      rw [List.map_cons, List.map_cons, lay_region_jump hs (Or.inr ha), ih]
  | case13 v n a i stop ts hs b hb ha ih =>
      rw [List.map_append, List.map_cons, List.map_cons, map_snd_atLevel,
        lay_region_place hs hb ha, ih, List.map_cons, List.map_cons]

/-! ### Statements -/

/-- The tasks are inside a region, and none of them is to write a statement as it is. -/
def Inside (ts : List (Nat × Task)) : Prop :=
  ∀ t ∈ ts, 1 ≤ t.1 ∧ ∀ i s, t.2 ≠ .line (.simple i s)

@[simp]
theorem inside_append {us : List (Nat × Task)} : Inside (ts ++ us) ↔ Inside ts ∧ Inside us :=
  List.forall_mem_append

@[simp]
theorem inside_cons {t : Nat × Task} :
    Inside (t :: ts) ↔ (1 ≤ t.1 ∧ ∀ i s, t.2 ≠ .line (.simple i s)) ∧ Inside ts :=
  List.forall_mem_cons

@[simp]
theorem inside_branchTasks (n : Nat) (c : Int) (join other : Option Int) (i : Int) :
    Inside (atLevel (n + 3) (branchTasks c join other i)) := by
  intro t ht
  obtain ⟨task, htask, rfl⟩ := List.mem_map.mp ht
  refine ⟨Nat.le_add_left 1 (n + 2), fun j s h => ?_⟩
  obtain rfl : task = .line (.simple j s) := h
  cases other <;> simp [branchTasks] at htask

theorem simple_notMem_labelLine {m : Nat} {a j : Int} {s : Stmt} :
    (m, .line (.simple i s)) ∉ atLevel n (labelLine labels a j) := by
  intro h
  obtain ⟨step, hstep, heq⟩ := List.mem_map.mp h
  obtain ⟨-, rfl⟩ := Prod.mk.inj heq
  unfold labelLine at hstep
  split at hstep <;> simp at hstep

/-- **Three calls are around each statement that is written.** -/
theorem le_of_simple_mem {m : Nat} {s : Stmt} (hts : Inside ts)
    (h : (m, .line (.simple i s)) ∈ layLevels g labels v ts) : s.depth + 3 ≤ m := by
  fun_induction layLevels g labels v ts with
  | case1 v => cases h
  | case2 v n l ts ih =>
      obtain ⟨⟨-, hl⟩, hts⟩ := inside_cons.mp hts
      rcases List.mem_cons.mp h with h | h
      · cases h
        exact absurd rfl (hl _ _)
      · exact ih hts h
  | case4 v n ss j stop ts c b join other ih | case6 v n ss j stop ts a hs ha ih =>
      exact ih (by simpa using hts) (by simpa using h)
  | case3 v n j stop ts ih | case5 v n ss j ts a ih | case9 v n j stop ts ih
  | case10 v n a j ts ih =>
      exact ih (by simp_all) h
  | case7 v n ss j stop ts a hs ha ih =>
      refine ih ?_ h
      simp_all
  | case8 v n ss j stop ts st hb hg ih =>
      -- the one case that writes a statement: in a region, which is a call itself
      have hn : 1 ≤ n := (inside_cons.mp hts).1.1
      rcases List.mem_cons.mp h with h | h
      · cases h
        omega
      · exact ih (by simpa using hts) h
  | case11 v n a j stop ts hs hb ih | case12 v n a j stop ts hs b hb ha ih =>
      exact ih (inside_cons.mp hts).2 (by simpa using h)
  | case13 v n a j stop ts hs b hb ha ih =>
      rcases List.mem_append.mp h with h | h
      · exact absurd ((List.mem_cons.mp h).resolve_left (by simp)) simple_notMem_labelLine
      · refine ih ?_ h
        simp_all

theorem le_deepest {x : Nat × Step} {steps : List (Nat × Step)} (h : x ∈ steps) :
    x.1 ≤ deepest steps := by
  induction steps with
  | nil => cases h
  | cons y steps ih =>
      rw [deepest, List.foldr_cons]
      rcases List.mem_cons.mp h with rfl | h
      · exact Nat.le_max_left ..
      · exact Nat.le_trans (ih h) (Nat.le_max_right ..)

end Layout

/-- **A body is deeper than each statement it writes.** -/
theorem Routine.le_depth_of_simple {r : Routine} {i : Int} {s : Stmt}
    (h : .simple i s ∈ r.body []) : s.depth + 3 ≤ r.depth := by
  unfold body at h
  split at h
  · rename_i hentry
    rw [depth, if_pos hentry]
    have hlay : (Layout.layLevels r.graph [] [] [(1, .region (some r.address) 1 none)]).map (·.2)
        = Layout.lay r.graph [] [] [.region (some r.address) 1 none] := Layout.map_snd_layLevels
    obtain ⟨step, hstep, hline⟩ := List.mem_filterMap.mp h
    obtain rfl : step = .line (.simple i s) := by
      cases step <;> simp_all [Layout.Step.line?]
    rw [← hlay] at hstep
    obtain ⟨⟨m, step⟩, hmem, rfl⟩ := List.mem_map.mp hstep
    exact Nat.le_trans (Layout.le_of_simple_mem (by simp [Layout.Inside]) hmem)
      (Layout.le_deepest hmem)
  · cases h

/-! ### Texts -/

variable {shared : Typing} {limit : Nat}

/-- A routine whose lines have texts has one itself, unless it is too deep. -/
theorem Routine.text?_eq {r : Routine}
    (h : ∃ texts, lineTexts (r.typeOf shared) r.lines = .ok texts) :
    r.text? shared limit = if limit < r.depth then .error .tooDeep else .ok (r.text shared) := by
  obtain ⟨texts, htexts⟩ := h
  have hlines : texts = r.lines.map (·.text (r.typeOf shared)) := by
    unfold lineTexts at htexts
    split at htexts
    · exact (Except.ok.inj htexts).symm
    · cases htexts
  rw [text?, htexts, hlines]
  rfl

namespace Listing

/-- A script is too deep exactly if one of its routines is. -/
theorem lt_depth_iff {l : Listing} : limit < l.depth ↔ ∃ r ∈ l.routines, limit < r.depth := by
  obtain ⟨name, routines⟩ := l
  unfold depth
  induction routines with
  | nil => simp
  | cons r rs ih =>
      simp only [List.foldr_cons, List.mem_cons, exists_eq_or_imp, ← ih]
      omega

/-- The routines of a script whose lines have texts are written one by one, up to one that is too
deep. -/
theorem mapM_text? (name : String) {rs : List Routine}
    (h : ∀ r ∈ rs, ∃ texts, lineTexts (r.typeOf shared) r.lines = .ok texts) :
    rs.mapM (fun r => r.text? shared limit)
      = if limit < (⟨name, rs⟩ : Listing).depth then .error .tooDeep
        else .ok (rs.map (·.text shared)) := by
  induction rs with
  | nil => rfl
  | cons r rs ih =>
      obtain ⟨hr, hrest⟩ := List.forall_mem_cons.mp h
      have hdepth : (⟨name, r :: rs⟩ : Listing).depth
          = max r.depth (⟨name, rs⟩ : Listing).depth := rfl
      rw [List.mapM_cons, Routine.text?_eq hr, ih hrest, hdepth]
      by_cases hd : limit < r.depth
      · have hmax : limit < max r.depth (⟨name, rs⟩ : Listing).depth := by omega
        rw [if_pos hd, if_pos hmax]
        rfl
      · by_cases hds : limit < (⟨name, rs⟩ : Listing).depth
        · have hmax : limit < max r.depth (⟨name, rs⟩ : Listing).depth := by omega
          rw [if_neg hd, if_pos hds, if_pos hmax]
          rfl
        · have hmax : ¬ limit < max r.depth (⟨name, rs⟩ : Listing).depth := by omega
          rw [if_neg hd, if_neg hds, if_neg hmax]
          rfl

/-- **A script whose lines have texts has one itself, unless it is too deep.** -/
theorem text?_eq {l : Listing}
    (h : ∀ r ∈ l.routines, ∃ texts, lineTexts (r.typeOf shared) r.lines = .ok texts) :
    l.text? shared limit = if limit < l.depth then .error .tooDeep else .ok (l.text shared) := by
  rw [text?, mapM_text? l.name h]
  split <;> rfl

end Listing

end ScriptLift
