import Mathlib.Data.Finmap

/-!
# Ranging over a Go map

A Go map is a finite map, and `for k, v := range m` visits its entries once each
in an order the language leaves open.  A map is modelled by Mathlib's `Finmap`
and one execution of such a loop by a list of the entries, in the order visited.

* `IsOrder o m` — the list `o` is a possible order of a loop over `m`; every map
  has one (`exists_isOrder`), and an order visits exactly the entries of the map
  (`mem_of_isOrder`).
* `firstKey p o` — the key at which a loop of the shape
  `for k, v := range m { if p(v) { …; break } }` stops.
* `firstKey_congr` — such a loop does not depend on the order when at most one
  entry of the map satisfies `p`.
* `mem_of_lookup_foldl`, `lookup_foldl_of_mem` — what a map holds after assignments.
-/

namespace GoMap

variable {K V : Type}

/-- A Go map from `K` to `V`. -/
abbrev Map (K V : Type) := Finmap (fun _ : K => V)

/-- An entry of a map, as a `range` loop sees it. -/
abbrev Entry (K V : Type) := Sigma (fun _ : K => V)

/-- `o` is an order in which a `range` loop over `m` may visit its entries. -/
def IsOrder (o : List (Entry K V)) (m : Map K V) : Prop := (o : Multiset (Entry K V)) = m.entries

instance [DecidableEq K] [DecidableEq V] (o : List (Entry K V)) (m : Map K V) :
    Decidable (IsOrder o m) :=
  inferInstanceAs (Decidable ((o : Multiset (Entry K V)) = m.entries))

theorem exists_isOrder (m : Map K V) : ∃ o, IsOrder o m := by
  obtain ⟨o, ho⟩ := Quot.exists_rep m.entries
  exact ⟨o, ho⟩

/-- The key at which a loop that stops at the first value satisfying `p` stops. -/
def firstKey (p : V → Bool) (o : List (Entry K V)) : Option K :=
  (o.find? fun e => p e.2).map Sigma.fst

variable [DecidableEq K] {o o' : List (Entry K V)} {m : Map K V} {p : V → Bool}

theorem mem_of_isOrder (h : IsOrder o m) {k : K} {v : V} :
    (⟨k, v⟩ : Entry K V) ∈ o ↔ m.lookup k = some v := by
  rw [Finmap.lookup_eq_some_iff, ← h, Multiset.mem_coe]

theorem lookup_of_firstKey (h : IsOrder o m) {k : K} (hk : firstKey p o = some k) :
    ∃ v, m.lookup k = some v ∧ p v = true := by
  obtain ⟨e, he, rfl⟩ := Option.map_eq_some_iff.1 hk
  have hp : p e.2 = true := by simpa using List.find?_some he
  exact ⟨e.2, (mem_of_isOrder h).1 (List.mem_of_find?_eq_some he), hp⟩

theorem firstKey_eq_none (h : IsOrder o m) :
    firstKey p o = none ↔ ∀ k v, m.lookup k = some v → p v = false := by
  rw [firstKey, Option.map_eq_none_iff, List.find?_eq_none]
  constructor
  · intro hn k v hv
    simpa using hn ⟨k, v⟩ ((mem_of_isOrder h).2 hv)
  · rintro hn ⟨k, v⟩ hkv
    simpa using hn k v ((mem_of_isOrder h).1 hkv)

/-- **The order does not matter when the match is unique.** -/
theorem firstKey_congr (h : IsOrder o m) (h' : IsOrder o' m)
    (huniq : ∀ k k' v v', m.lookup k = some v → m.lookup k' = some v' → p v = true →
      p v' = true → k = k') : firstKey p o = firstKey p o' := by
  cases hk : firstKey p o with
  | none =>
      rw [firstKey_eq_none h] at hk
      exact ((firstKey_eq_none h').2 hk).symm
  | some k =>
      obtain ⟨v, hv, hpv⟩ := lookup_of_firstKey h hk
      cases hk' : firstKey p o' with
      | none =>
          rw [firstKey_eq_none h'] at hk'
          rw [hk' k v hv] at hpv
          exact absurd hpv (by simp)
      | some k' =>
          obtain ⟨v', hv', hpv'⟩ := lookup_of_firstKey h' hk'
          rw [huniq k k' v v' hv hv' hpv hpv']

/-! ## Assigning one entry after the other -/

theorem lookup_insert_ite (m : Map K V) (a k : K) (b : V) :
    (m.insert a b).lookup k = if k = a then some b else m.lookup k := by
  split_ifs with h
  · rw [h, Finmap.lookup_insert]
  · exact Finmap.lookup_insert_of_ne _ h

/-- What is in the map was among the entries. -/
theorem mem_of_lookup_foldl {es : List (K × V)} {m : Map K V} {k : K} {v : V}
    (h : (es.foldl (fun m e => m.insert e.1 e.2) m).lookup k = some v) :
    (k, v) ∈ es ∨ m.lookup k = some v := by
  induction es generalizing m with
  | nil => exact Or.inr h
  | cons e es ih =>
      rcases ih h with hmem | hlook
      · exact Or.inl (List.mem_cons_of_mem e hmem)
      · by_cases hk : k = e.1
        · subst hk
          rw [Finmap.lookup_insert, Option.some.injEq] at hlook
          rw [← hlook]
          exact Or.inl (List.mem_cons_self ..)
        · rw [Finmap.lookup_insert_of_ne _ hk] at hlook
          exact Or.inr hlook

/-- A key that was assigned to holds one of the values that were assigned to it. -/
theorem lookup_foldl_of_mem {es : List (K × V)} {k : K} {v : V} (h : (k, v) ∈ es) (m : Map K V) :
    ∃ v', (k, v') ∈ es ∧ (es.foldl (fun m e => m.insert e.1 e.2) m).lookup k = some v' := by
  induction es using List.reverseRecOn with
  | nil => exact absurd h List.not_mem_nil
  | append_singleton es e ih =>
      rw [List.foldl_append, List.foldl_cons, List.foldl_nil]
      by_cases hk : k = e.1
      · subst hk
        exact ⟨e.2, List.mem_append_right _ (List.mem_singleton_self _), Finmap.lookup_insert _⟩
      · have hmem : (k, v) ∈ es := by
          refine (List.mem_append.1 h).resolve_right fun hlast => hk ?_
          exact congrArg Prod.fst (List.mem_singleton.1 hlast)
        obtain ⟨v', hv', hlook⟩ := ih hmem
        refine ⟨v', List.mem_append_left _ hv', ?_⟩
        rw [Finmap.lookup_insert_of_ne _ hk, hlook]

end GoMap
