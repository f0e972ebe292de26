import Mathlib
import ScriptLift.Natives.Dictionary

/-!
# The last entry for a hash counts

A dictionary is made by putting entries into tables one after the other, so what is found under a
key is what was put there last (`Assoc.lookup_putAll_iff`).  That goes for both files.  In the first
an entry counts if its key is a number and its value an object with a name; it describes a native
then (`Mention.Describes`), whatever the name space and however the number is spelled.  In the
second every pair counts.

So a hash in a script leads to another hash by the last pair that starts with it, and to itself if
there is none (`Dictionary.Leads`), and from there on no further: what is known is what the last
entry that counts says of that hash (`Dictionary.native?_last`).  What is malformed in the first
file is as if it were not there (`Dictionary.readSpaces_of_addsJunk`).
-/

namespace ScriptLift

/-- `x` is the last of `xs` that has the property. -/
def IsLast {α : Type} (p : α → Prop) (x : α) (xs : List α) : Prop :=
  ∃ before behind, xs = before ++ x :: behind ∧ p x ∧ ∀ y ∈ behind, ¬ p y

namespace IsLast

variable {α : Type} {p : α → Prop} {x y : α} {xs : List α}

theorem holds (h : IsLast p x xs) : p x := by
  obtain ⟨before, behind, -, hx, -⟩ := h
  exact hx

/-- What is added last is the last if it has the property. -/
theorem append_singleton_iff :
    IsLast p x (xs ++ [y]) ↔ p y ∧ x = y ∨ ¬ p y ∧ IsLast p x xs := by
  constructor
  · rintro ⟨before, behind, heq, hx, hbehind⟩
    rcases behind.eq_nil_or_concat with rfl | ⟨behind, z, rfl⟩
    · obtain ⟨-, hyx⟩ := List.append_inj' heq rfl
      obtain rfl : y = x := by simpa using hyx
      exact Or.inl ⟨hx, rfl⟩
    · have heq' : xs ++ [y] = (before ++ x :: behind) ++ [z] := by simpa using heq
      obtain ⟨rfl, hyz⟩ := List.append_inj' heq' rfl
      obtain rfl : y = z := by simpa using hyz
      refine Or.inr ⟨hbehind y (by simp), before, behind, rfl, hx, ?_⟩
      intro w hw
      exact hbehind w (by simp [hw])
  · rintro (⟨hy, rfl⟩ | ⟨hy, before, behind, rfl, hx, hbehind⟩)
    · exact ⟨xs, [], rfl, hy, by simp⟩
    · refine ⟨before, behind ++ [y], by simp, hx, ?_⟩
      intro w hw
      rcases List.mem_append.mp hw with hw | hw
      · exact hbehind w hw
      · rwa [List.mem_singleton.mp hw]

/-- The last in an image comes from the last that has an image with the property. -/
theorem filterMap_iff {β : Type} {q : β → Prop} {z : β} {f : α → Option β} :
    IsLast q z (xs.filterMap f) ↔
      ∃ x, IsLast (fun x => ∃ y, f x = some y ∧ q y) x xs ∧ f x = some z := by
  induction xs using List.reverseRecOn with
  | nil =>
      constructor
      · rintro ⟨before, behind, heq, -⟩
        simp at heq
      · rintro ⟨x, ⟨before, behind, heq, -⟩, -⟩
        simp at heq
  | append_singleton xs x ih =>
      simp only [append_singleton_iff]
      cases hx : f x with
      | none =>
          have hfilter : (xs ++ [x]).filterMap f = xs.filterMap f := by simp [hx]
          rw [hfilter, ih]
          simp
      | some y =>
          have hfilter : (xs ++ [x]).filterMap f = xs.filterMap f ++ [y] := by simp [hx]
          rw [hfilter, append_singleton_iff, ih]
          constructor
          · rintro (⟨hq, rfl⟩ | ⟨hq, x', hlast, hx'⟩)
            · exact ⟨x, Or.inl ⟨⟨z, rfl, hq⟩, rfl⟩, hx⟩
            · refine ⟨x', Or.inr ⟨?_, hlast⟩, hx'⟩
              rintro ⟨y', hy', hq'⟩
              cases hy'
              exact hq hq'
          · rintro ⟨x', ⟨⟨y', hy', hq'⟩, rfl⟩ | ⟨hnot, hlast⟩, hx'⟩
            · cases hy'
              exact Or.inl ⟨hq', Option.some.inj (hx'.symm.trans hx)⟩
            · exact Or.inr ⟨fun hq => hnot ⟨y, rfl, hq⟩, x', hlast, hx'⟩

end IsLast

/-- If some element has the property, there is a last one. -/
theorem exists_isLast {α : Type} {p : α → Prop} {xs : List α} (h : ∃ x ∈ xs, p x) :
    ∃ x, IsLast p x xs := by
  induction xs using List.reverseRecOn with
  | nil => simp at h
  | append_singleton xs y ih =>
      by_cases hy : p y
      · exact ⟨y, IsLast.append_singleton_iff.mpr (Or.inl ⟨hy, rfl⟩)⟩
      · obtain ⟨x, hx, hpx⟩ := h
        rcases List.mem_append.mp hx with hx | hx
        · obtain ⟨z, hz⟩ := ih ⟨x, hx, hpx⟩
          exact ⟨z, IsLast.append_singleton_iff.mpr (Or.inr ⟨hy, hz⟩)⟩
        · exact absurd (List.mem_singleton.mp hx ▸ hpx) hy

/-! ### Tables -/

namespace Assoc

variable {α β : Type} {k : α} {v : β}

theorem exists_isLast_key {es : List (α × β)} (h : ∃ e ∈ es, e.1 = k) :
    ∃ v, IsLast (fun e => e.1 = k) (k, v) es := by
  obtain ⟨⟨k₀, v⟩, hlast⟩ := exists_isLast h
  obtain rfl : k₀ = k := hlast.holds
  exact ⟨v, hlast⟩

variable [DecidableEq α]

/-- The table with several entries put in, one after the other. -/
def putAll (es : List (α × β)) (table : List (α × β)) : List (α × β) :=
  es.foldl (fun table e => put e.1 e.2 table) table

/-- **A table filled in order holds the last value of a key.** -/
theorem lookup_putAll_iff {es : List (α × β)} :
    (putAll es []).lookup k = some v ↔ IsLast (fun e => e.1 = k) (k, v) es := by
  induction es using List.reverseRecOn with
  | nil =>
      constructor
      · intro h
        cases h
      · rintro ⟨before, behind, heq, -⟩
        simp at heq
  | append_singleton es e ih =>
      have hput : putAll (es ++ [e]) [] = put e.1 e.2 (putAll es []) := by simp [putAll]
      rw [hput, IsLast.append_singleton_iff, ← ih]
      by_cases h : e.1 = k
      · obtain ⟨k₀, v₀⟩ := e
        obtain rfl : k₀ = k := h
        simp [eq_comm]
      · rw [lookup_put_of_ne (Ne.symm h)]
        simp [h]

/-- It holds none exactly if the key was never put in. -/
theorem lookup_putAll_eq_none_iff {es : List (α × β)} :
    (putAll es []).lookup k = none ↔ ∀ e ∈ es, e.1 ≠ k := by
  constructor
  · intro hnone e he hk
    obtain ⟨v, hlast⟩ := exists_isLast_key ⟨e, he, hk⟩
    rw [lookup_putAll_iff.mpr hlast] at hnone
    cases hnone
  · intro hne
    rw [Option.eq_none_iff_forall_ne_some]
    intro v hv
    obtain ⟨before, behind, rfl, hk, -⟩ := lookup_putAll_iff.mp hv
    exact hne (k, v) (by simp) hk

end Assoc

namespace Dictionary

/-! ### The first file -/

/-- What an entry has to have to be one: a name that is given; a result may be missing. -/
theorem entry?_eq_some_iff {space : String} {hash : Int} {entry : JsonValue} {n : Native} :
    entry? space hash entry = some n ↔
      n.hash = hash ∧
      (∃ name, entry.get? "name" = some name ∧ name.isGiven = true ∧ n.name = name.text) ∧
      n.space = space ∧
      ∀ t, n.resultType = some t ↔
        ∃ result, entry.get? "results" = some result ∧ result.isGiven = true ∧
          t = result.text.text := by
  have hresult : ∀ t, ((entry.get? "results").filter (·.isGiven)).map (·.text.text) = some t ↔
      ∃ result, entry.get? "results" = some result ∧ result.isGiven = true ∧
        t = result.text.text := by
    intro t
    constructor
    · intro h
      obtain ⟨result, hfilter, rfl⟩ := Option.map_eq_some_iff.mp h
      obtain ⟨hresult, hgiven⟩ := Option.filter_eq_some_iff.mp hfilter
      exact ⟨result, hresult, hgiven, rfl⟩
    · rintro ⟨result, hresult, hgiven, rfl⟩
      exact Option.map_eq_some_iff.mpr ⟨result,
        Option.filter_eq_some_iff.mpr ⟨hresult, hgiven⟩, rfl⟩
  constructor
  · intro h
    unfold entry? at h
    split at h
    · rename_i name hname
      split at h
      · rename_i hgiven
        cases h
        exact ⟨rfl, ⟨name, hname, hgiven, rfl⟩, rfl, hresult⟩
      · cases h
    · cases h
  · rintro ⟨hhash, ⟨name, hname, hgiven, htext⟩, hspace, htype⟩
    have hsame : n.resultType = ((entry.get? "results").filter (·.isGiven)).map (·.text.text) :=
      Option.ext fun t => (htype t).trans (hresult t).symm
    simp only [ entry?, hname, hgiven, if_true, ← hhash, ← htext, ← hspace, ← hsame]

/-- An entry of a name space, with the name space and its key in it. -/
structure Mention where
  space : CodeText
  key : CodeText
  value : JsonValue

/-- The members of an object; nothing else has any. -/
def membersOf : JsonValue → List (CodeText × JsonValue)
  | .object members => members
  | _ => []

/-- The entries of all name spaces, in order. -/
def mentions (spaces : List (CodeText × JsonValue)) : List Mention :=
  spaces.flatMap fun s => (membersOf s.2).map fun e => ⟨s.1, e.1, e.2⟩

namespace Mention

/-- The entry describes the native: its key is the hash, and it is an object with a name and perhaps
the type of the result. -/
structure Describes (m : Mention) (n : Native) : Prop where
  hash : Number.integer? m.key.text = some n.hash
  isObject : ∃ members, m.value = .object members
  name : ∃ name, m.value.get? "name" = some name ∧ name.isGiven = true ∧ n.name = name.text
  space : n.space = m.space.text
  resultType : ∀ t, n.resultType = some t ↔
    ∃ result, m.value.get? "results" = some result ∧ result.isGiven = true ∧ t = result.text.text

/-- The entry describes a native with the given hash. -/
def IsFor (hash : Int) (m : Mention) : Prop :=
  ∃ n, m.Describes n ∧ n.hash = hash

/-- The native that an entry describes. -/
def native? (m : Mention) : Option Native :=
  match Number.integer? m.key.text, m.value with
  | some hash, .object members => entry? m.space.text hash (.object members)
  | _, _ => none

variable {m : Mention} {n : Native}

/-- That an entry describes a native can be computed. -/
theorem describes_iff : m.Describes n ↔ m.native? = some n := by
  constructor
  · rintro ⟨hhash, ⟨members, hvalue⟩, hname, hspace, htype⟩
    simp only [native?, hhash, hvalue]
    rw [hvalue] at hname htype
    exact entry?_eq_some_iff.mpr ⟨rfl, hname, hspace, htype⟩
  · intro h
    unfold native? at h
    split at h
    · rename_i hash members hhash hvalue
      obtain ⟨rfl, hname, hspace, htype⟩ := entry?_eq_some_iff.mp h
      rw [← hvalue] at hname htype
      exact ⟨hhash, ⟨members, hvalue⟩, hname, hspace, htype⟩
    · cases h

end Mention

/-- A table of natives by their hashes. -/
def tableOf (ms : List Mention) : List (Int × Native) :=
  ms.filterMap fun m => m.native?.map fun n => (n.hash, n)

/-- One entry goes into the table if it describes a native. -/
theorem readSpace_cons (space key : CodeText) (entry : JsonValue)
    (entries : List (CodeText × JsonValue)) (known : List (Int × Native)) :
    (readSpace space.text ((key, entry) :: entries) known).1
      = (readSpace space.text entries (Assoc.putAll (tableOf [⟨space, key, entry⟩]) known)).1 := by
  cases hkey : Number.integer? key.text with
  | none => simp [readSpace, tableOf, Mention.native?, hkey, Assoc.putAll]
  | some hash =>
      cases entry with
      | object members =>
          cases hentry : entry? space.text hash (.object members) with
          | none => simp [readSpace, tableOf, Mention.native?, hkey, hentry, Assoc.putAll]
          | some n =>
              obtain ⟨rfl, -⟩ := entry?_eq_some_iff.mp hentry
              simp [readSpace, tableOf, Mention.native?, hkey, hentry, Assoc.putAll]
      | null | bool | int | float | string | list =>
          simp [readSpace, tableOf, Mention.native?, hkey, Assoc.putAll]

/-- Entries further down are put in later. -/
theorem putAll_tableOf_append (ms ms' : List Mention) (known : List (Int × Native)) :
    Assoc.putAll (tableOf (ms ++ ms')) known
      = Assoc.putAll (tableOf ms') (Assoc.putAll (tableOf ms) known) := by
  simp [tableOf, Assoc.putAll]

/-- Reading one name space puts what its entries describe into the table. -/
theorem readSpace_eq (space : CodeText) (entries : List (CodeText × JsonValue))
    (known : List (Int × Native)) :
    (readSpace space.text entries known).1
      = Assoc.putAll (tableOf (entries.map fun e => ⟨space, e.1, e.2⟩)) known := by
  induction entries generalizing known with
  | nil => rfl
  | cons e entries ih =>
      calc (readSpace space.text (e :: entries) known).1
          = (readSpace space.text entries (Assoc.putAll (tableOf [⟨space, e.1, e.2⟩]) known)).1 :=
            readSpace_cons space e.1 e.2 entries known
        _ = Assoc.putAll (tableOf (entries.map fun e => ⟨space, e.1, e.2⟩))
              (Assoc.putAll (tableOf [⟨space, e.1, e.2⟩]) known) := ih _
        _ = Assoc.putAll (tableOf ((e :: entries).map fun e => ⟨space, e.1, e.2⟩)) known :=
            (putAll_tableOf_append [_] _ known).symm

/-- **Reading the first file** puts what the entries of all name spaces describe into the table. -/
theorem readSpaces_eq (spaces : List (CodeText × JsonValue)) (known : List (Int × Native)) :
    (readSpaces spaces known).1 = Assoc.putAll (tableOf (mentions spaces)) known := by
  induction spaces generalizing known with
  | nil => rfl
  | cons s spaces ih =>
      obtain ⟨space, value⟩ := s
      have hmentions : mentions ((space, value) :: spaces)
          = (membersOf value).map (fun e => ⟨space, e.1, e.2⟩) ++ mentions spaces := by
        simp [mentions]
      rw [hmentions, putAll_tableOf_append, ← ih]
      cases value with
      | object members =>
          rw [membersOf, ← readSpace_eq]
          rfl
      | null | bool | int | float | string | list => rfl

/-! ### The second file -/

/-- The `j`-th word of eight bytes, the least significant first. -/
def wordAt (bs : List UInt8) (j : Nat) : Int :=
  littleEndian ((bs.drop (8 * j)).take 8)

/-- The pairs of words. -/
def aliasPairs (bs : List UInt8) : List (Int × Int) :=
  (List.range (bs.length / 16)).map fun j => (wordAt bs (2 * j), wordAt bs (2 * j + 1))

/-- The hash that the last pair with `hash` in front leads to, and `hash` itself if there is
none. -/
def Leads (bs : List UInt8) (hash target : Int) : Prop :=
  IsLast (fun p => p.1 = hash) (hash, target) (aliasPairs bs) ∨
    (∀ p ∈ aliasPairs bs, p.1 ≠ hash) ∧ target = hash

/-- **Reading the second file** puts its pairs into the table. -/
theorem readAliases_eq (count : Nat) (bs : List UInt8) (known : List (Int × Int)) :
    readAliases count bs known
      = Assoc.putAll ((List.range count).map fun j => (wordAt bs (2 * j), wordAt bs (2 * j + 1)))
        known := by
  induction count generalizing bs known with
  | zero => rfl
  | succ count ih =>
      have hword : ∀ j, wordAt (bs.drop 16) j = wordAt bs (j + 2) := by
        intro j
        have hoffset : 16 + 8 * j = 8 * (j + 2) := by omega
        rw [wordAt, wordAt, List.drop_drop, hoffset]
      rw [readAliases, ih, List.range_succ_eq_map, List.map_cons, List.map_map]
      simp only [hword]
      rfl

/-- A file of whole pairs is read as a table of them. -/
theorem aliasTable_eq {bs : List UInt8} (h : bs.length % 16 = 0) :
    aliasTable bs = .ok (Assoc.putAll (aliasPairs bs) []) := by
  rw [aliasTable, if_pos h, readAliases_eq, aliasPairs]

/-! ### Looking up -/

/-- Every hash leads somewhere, if only to itself. -/
theorem exists_leads (bs : List UInt8) (hash : Int) : ∃ target, Leads bs hash target := by
  by_cases h : ∀ p ∈ aliasPairs bs, p.1 ≠ hash
  · exact ⟨hash, Or.inr ⟨h, rfl⟩⟩
  · push Not at h
    obtain ⟨target, hlast⟩ := Assoc.exists_isLast_key h
    exact ⟨target, Or.inl hlast⟩

/-- Where a hash leads is what the look-up goes on with. -/
theorem getD_lookup_of_leads {bs : List UInt8} {hash target : Int} (h : Leads bs hash target) :
    ((Assoc.putAll (aliasPairs bs) []).lookup hash).getD hash = target := by
  rcases h with hlast | ⟨hnone, rfl⟩
  · rw [Assoc.lookup_putAll_iff.mpr hlast]
    rfl
  · rw [Assoc.lookup_putAll_eq_none_iff.mpr hnone]
    rfl

theorem isFor_iff {m : Mention} {hash : Int} :
    m.IsFor hash ↔ ∃ e, m.native?.map (fun n => (n.hash, n)) = some e ∧ e.1 = hash := by
  constructor
  · rintro ⟨n, hdescribes, rfl⟩
    rw [Mention.describes_iff.mp hdescribes]
    exact ⟨(n.hash, n), rfl, rfl⟩
  · rintro ⟨e, he, rfl⟩
    obtain ⟨n, hn, rfl⟩ := Option.map_eq_some_iff.mp he
    exact ⟨n, Mention.describes_iff.mpr hn, rfl⟩

/-- What is found under a hash is what the last entry for it describes. -/
theorem lookup_tableOf_iff {ms : List Mention} {hash : Int} {n : Native} :
    (Assoc.putAll (tableOf ms) []).lookup hash = some n ↔
      ∃ m, IsLast (Mention.IsFor hash) m ms ∧ m.Describes n := by
  have hfor : Mention.IsFor hash
      = fun m => ∃ e, m.native?.map (fun n => (n.hash, n)) = some e ∧ e.1 = hash :=
    funext fun m => propext isFor_iff
  rw [Assoc.lookup_putAll_iff, tableOf, IsLast.filterMap_iff, hfor]
  refine exists_congr fun m => and_congr_right fun hlast => ?_
  obtain ⟨e, he, rfl⟩ := hlast.holds
  obtain ⟨n', hn', rfl⟩ := Option.map_eq_some_iff.mp he
  rw [Mention.describes_iff, hn']
  simp

/-- A hash is not found exactly if no entry is for it. -/
theorem lookup_tableOf_eq_none_iff {ms : List Mention} {hash : Int} :
    (Assoc.putAll (tableOf ms) []).lookup hash = none ↔ ∀ m ∈ ms, ¬ m.IsFor hash := by
  rw [Assoc.lookup_putAll_eq_none_iff]
  constructor
  · intro hnone m hm hfor
    obtain ⟨e, he, hhash⟩ := isFor_iff.mp hfor
    exact hnone e (List.mem_filterMap.mpr ⟨m, hm, he⟩) hhash
  · intro hnone e he hhash
    obtain ⟨m, hm, he⟩ := List.mem_filterMap.mp he
    exact hnone m hm (isFor_iff.mpr ⟨e, he, hhash⟩)

/-! ### What is malformed -/

/-- A key that is no number, an entry that is no object, or an entry without a name. -/
inductive Malformed (key : CodeText) (entry : JsonValue) : Prop where
  | key : Number.integer? key.text = none → Malformed key entry
  | entry : (∀ members, entry ≠ .object members) → Malformed key entry
  | nameless : (∀ name, entry.get? "name" = some name → name.isGiven = false) → Malformed key entry

/-- Something malformed was added anywhere to the first file. -/
inductive AddsJunk : List (CodeText × JsonValue) → List (CodeText × JsonValue) → Prop where
  /-- A name space that is no object. -/
  | space {before behind : List (CodeText × JsonValue)} {space : CodeText} {value : JsonValue} :
      (∀ members, value ≠ .object members) →
      AddsJunk (before ++ behind) (before ++ (space, value) :: behind)
  /-- A malformed entry of a name space. -/
  | entry {before behind first rest : List (CodeText × JsonValue)} {space key : CodeText}
      {entry : JsonValue} : Malformed key entry →
      AddsJunk (before ++ (space, .object (first ++ rest)) :: behind)
        (before ++ (space, .object (first ++ (key, entry) :: rest)) :: behind)

/-- Nothing malformed describes a native. -/
theorem Malformed.native? {space key : CodeText} {entry : JsonValue} (h : Malformed key entry) :
    Mention.native? ⟨space, key, entry⟩ = none := by
  rw [Option.eq_none_iff_forall_ne_some]
  intro n hn
  obtain ⟨hhash, ⟨members, hvalue⟩, ⟨name, hname, hgiven, -⟩, -, -⟩ := Mention.describes_iff.mpr hn
  cases h with
  | key hkey => simp [hkey] at hhash
  | entry hentry => exact hentry members hvalue
  | nameless hnameless => simp [hnameless name hname] at hgiven

/-- **What is malformed changes nothing**, wherever it is added. -/
theorem readSpaces_of_addsJunk {spaces spaces' : List (CodeText × JsonValue)}
    (h : AddsJunk spaces spaces') : (readSpaces spaces' []).1 = (readSpaces spaces []).1 := by
  rw [readSpaces_eq, readSpaces_eq]
  cases h with
  | @space before behind space value hvalue =>
      have hnone : membersOf value = [] := by
        cases value with
        | object members => exact absurd rfl (hvalue members)
        | null | bool | int | float | string | list => rfl
      simp [mentions, hnone]
  | @entry before behind first rest space key entry hmalformed =>
      simp [mentions, tableOf, membersOf, hmalformed.native?]

/-- **The last entry counts, behind one step of translation.**  With a second file of whole pairs, a
hash leads to another one; what is known under it is what the last entry for that one describes, in
the order of the first file across all name spaces, and nothing if there is no such entry.  Whatever
is malformed in the first file makes no difference. -/
theorem native?_last (spaces : List (CodeText × JsonValue)) (bs : List UInt8)
    (hpairs : bs.length % 16 = 0) :
    ∃ aliases, aliasTable bs = .ok aliases ∧
      (∀ hash, ∃ target, Leads bs hash target) ∧
      (∀ hash target, Leads bs hash target →
        (∀ n, native? ⟨(readSpaces spaces []).1, aliases⟩ hash = some n ↔
          ∃ m, IsLast (Mention.IsFor target) m (mentions spaces) ∧ m.Describes n) ∧
        (native? ⟨(readSpaces spaces []).1, aliases⟩ hash = none ↔
          ∀ m ∈ mentions spaces, ¬ m.IsFor target)) ∧
      ∀ spaces', AddsJunk spaces spaces' → ∀ hash,
        native? ⟨(readSpaces spaces' []).1, aliases⟩ hash
          = native? ⟨(readSpaces spaces []).1, aliases⟩ hash := by
  refine ⟨Assoc.putAll (aliasPairs bs) [], aliasTable_eq hpairs, exists_leads bs, ?_, ?_⟩
  · intro hash target hleads
    rw [native?, getD_lookup_of_leads hleads, readSpaces_eq]
    exact ⟨fun n => lookup_tableOf_iff, lookup_tableOf_eq_none_iff⟩
  · intro spaces' hjunk hash
    rw [readSpaces_of_addsJunk hjunk]

/-- One hash is spelled in two ways in two name spaces, and a third time by an entry without a name.
Of the two pairs for a hash the last counts, and the pair for the hash it leads to is not
followed. -/
theorem native?_last_spelled :
    let text : String → CodeText := CodeText.ofString
    let named : String → JsonValue := fun name => .object [(text "name", .string (text name))]
    let first : Mention := ⟨text "A", text "0x20", named "FIRST"⟩
    let last : Mention := ⟨text "B", text " 32", named "LAST"⟩
    let nameless : Mention :=
      ⟨text "B", text "0b100000", .object [(text "results", .string (text "int"))]⟩
    let spaces : List (CodeText × JsonValue) := [(text "A", .object [(first.key, first.value)]),
      (text "_", .null),
      (text "B", .object [(last.key, last.value), (nameless.key, nameless.value)])]
    let bs := [0x99, 0x10, 0x99, 0x20, 0x20, 0x30].flatMap (toLittleEndian 8)
    bs.length % 16 = 0 ∧ Leads bs 0x99 0x20 ∧
      ∃ aliases, aliasTable bs = .ok aliases ∧
        native? ⟨(readSpaces spaces []).1, aliases⟩ 0x99 = some ⟨0x20, text "LAST", "B", none⟩ := by
  intro text named first last nameless spaces bs
  have hpairs : bs.length % 16 = 0 := by decide
  have hleads : Leads bs 0x99 0x20 :=
    Or.inl ⟨[(0x99, 0x10)], [(0x20, 0x30)], by decide +kernel, rfl, by decide⟩
  have hlast : last.Describes ⟨0x20, text "LAST", "B", none⟩ :=
    Mention.describes_iff.mpr (by decide +kernel)
  obtain ⟨aliases, hok, -, hfound, -⟩ := native?_last spaces bs hpairs
  refine ⟨hpairs, hleads, aliases, hok, ?_⟩
  rw [(hfound 0x99 0x20 hleads).1]
  refine ⟨last, ⟨[first], [nameless], rfl, ⟨_, hlast, rfl⟩, ?_⟩, hlast⟩
  intro m hm
  rintro ⟨n, hdescribes, -⟩
  have hnone : nameless.native? = none := by decide +kernel
  rw [List.mem_singleton.mp hm, Mention.describes_iff, hnone] at hdescribes
  cases hdescribes

end Dictionary

end ScriptLift
