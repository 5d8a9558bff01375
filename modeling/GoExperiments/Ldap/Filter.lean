import GoExperiments.Ldap.Passwd
import GoExperiments.Lib.LdapFilter

/-!
# The search filter of a username (`ldap-explore/main.go`, `conf.json`)

`isValidLDAPUser` puts the username into the search filter as it is, with no escape.

* `searches_searchFilter` — a form leads to searches with this filter only.
* `isFilter_searchFilter` — how the filter built from a username can be read: the first test
  stands, the second ends at the first closing parenthesis of the username.
* `exists_isFilter_iff` — which usernames give a filter at all.
* `filter_unaltered_iff` — the filter says what the template says of the username exactly when
  the username needs no escape or the text is no filter.
-/

namespace Ldap

open LdapFilter Go

/-- The filter that is searched with. -/
def searchFilter (username : Bytes) : Bytes := conf.searchDN.sprintf username

/-- Whatever the server answers, a form leads to no other search. -/
theorem searches_searchFilter {srv : Server} {score : Bytes → ℤ} {req : Form}
    {base filter : Bytes} {r : Except Bytes (List Bytes)}
    (h : .search base filter r ∈ (changePasswordHandleFunc conf srv score req []).2) :
    filter = searchFilter req.username :=
  handle_searches h

/-- The attribute that the name of the user is compared with. -/
def uid : Bytes := ascii "uid"

/-- The attribute of the first test. -/
def objectClass : Bytes := ascii "objectClass"

/-- The value of the first test. -/
def organizationalPerson : Bytes := ascii "organizationalPerson"

/-- The first test of the template, that the entry is a person. -/
def personTest : Item := .simple objectClass .equal organizationalPerson

/-- What the template is meant to say. -/
def intended (username : Bytes) : Filter :=
  .and [.item personTest, .item (.simple uid .equal username)]

theorem searchFilter_eq (u : Bytes) :
    searchFilter u = 40 :: 38 :: (40 :: (objectClass ++ 61 :: (organizationalPerson ++
      41 :: (40 :: (uid ++ 61 :: (u ++ [41, 41])))))) := by
  have hbefore : conf.searchDN.before = 40 :: 38 :: (40 :: (objectClass ++ 61 ::
      (organizationalPerson ++ 41 :: (40 :: (uid ++ [61]))))) := by decide +kernel
  have hafter : conf.searchDN.after = [41, 41] := by decide +kernel
  rw [searchFilter, Template.sprintf, hbefore, hafter]
  simp

theorem isAttr_uid : IsAttr uid := by
  have huid : uid = 117 :: [105, 100] := by decide +kernel
  rw [huid]
  exact (isDescr_cons (by decide) (by decide)).isAttr

theorem isAttr_objectClass : IsAttr objectClass := by
  have hclass : objectClass = 111 :: objectClass.tail := by decide +kernel
  rw [hclass]
  exact (isDescr_cons (by decide) (by decide +kernel)).isAttr

theorem plain_organizationalPerson : plain organizationalPerson = true := by decide +kernel

/-- **How the filter can be read.** -/
theorem isFilter_searchFilter {u : Bytes} {f : Filter} (h : IsFilter (searchFilter u) f) :
    ∃ v x i fs, u ++ [41] = v ++ 41 :: x ∧ IsItem (uid ++ 61 :: v) i ∧ IsFilters x fs ∧
      f = .and (.item personTest :: .item i :: fs) := by
  rw [searchFilter_eq] at h
  obtain ⟨fs, l, hl, hfs, rfl⟩ := isFilter_and_cases h
  obtain rfl : l = 40 :: (objectClass ++ 61 :: (organizationalPerson ++
      41 :: (40 :: (uid ++ 61 :: (u ++ [41]))))) := by
    have hl' : l ++ [41] = 40 :: (objectClass ++ 61 :: (organizationalPerson ++
        41 :: (40 :: (uid ++ 61 :: (u ++ [41]))))) ++ [41] := by
      rw [hl]
      simp
    exact List.append_cancel_right hl'
  -- the first test ends at its own parenthesis, the second at the first one behind `uid=`
  obtain ⟨v, x, i, fs, hcut, hi, hrest, rfl⟩ := isFilters_cases isAttr_objectClass hfs
  obtain ⟨rfl, rfl⟩ := Lines.first_cut_unique hcut (by decide +kernel) hi.no_close
  obtain rfl := isItem_of_plain isAttr_objectClass plain_organizationalPerson hi
  obtain ⟨v, x, i, fs, hcut, hi, hx, rfl⟩ := isFilters_cases isAttr_uid hrest
  exact ⟨v, x, i, fs, hcut, hi, hx, rfl⟩

theorem isItem_personTest : IsItem (objectClass ++ 61 :: organizationalPerson) personTest := by
  simpa [FilterType.mark, personTest] using
    IsItem.simple .equal isAttr_objectClass (isValue_of_plain plain_organizationalPerson)

/-- And every such reading is one. -/
theorem searchFilter_of_cut {u v x : Bytes} {i : Item} {fs : List Filter}
    (hcut : u ++ [41] = v ++ 41 :: x) (hi : IsItem (uid ++ 61 :: v) i) (hx : IsFilters x fs) :
    IsFilter (searchFilter u) (.and (.item personTest :: .item i :: fs)) := by
  have huid := IsFilters.cons (.paren (.item hi)) hx
  have hall := IsFilter.paren (.and (.cons (.paren (.item isItem_personTest)) huid))
  rw [searchFilter_eq]
  have hcut' : u ++ [41, 41] = v ++ 41 :: (x ++ [41]) := by
    calc u ++ [41, 41] = u ++ [41] ++ [41] := by simp
      _ = v ++ 41 :: (x ++ [41]) := by rw [hcut]; simp
  rw [hcut']
  simpa using hall

/-- Usernames that give a filter: values with asterisks between them, or one of these that closes
the test and goes on with filters, the last of which the template closes. -/
def Accepted (u : Bytes) : Prop :=
  IsPattern u ∨ ∃ v w fs, u = v ++ 41 :: w ∧ IsPattern v ∧ IsFilters (w ++ [41]) fs

theorem exists_isFilter_iff {u : Bytes} :
    (∃ f, IsFilter (searchFilter u) f) ↔ Accepted u := by
  constructor
  · rintro ⟨f, h⟩
    obtain ⟨v, x, i, fs, hcut, hi, hx, -⟩ := isFilter_searchFilter h
    have hv : IsPattern v := (exists_isItem_iff isAttr_uid).1 ⟨i, hi⟩
    obtain rfl | ⟨w, b, rfl⟩ := List.eq_nil_or_concat' x
    · exact .inl (List.append_cancel_right hcut ▸ hv)
    · have hcut' : u ++ [41] = (v ++ 41 :: w) ++ [b] := by simpa using hcut
      obtain ⟨hu, hb⟩ := List.append_inj' hcut' rfl
      obtain rfl := (List.cons.inj hb).1
      exact .inr ⟨v, w, fs, hu, hv, hx⟩
  · rintro (hu | ⟨v, w, fs, rfl, hv, hw⟩)
    · obtain ⟨i, hi⟩ := (exists_isItem_iff isAttr_uid).2 hu
      exact ⟨_, searchFilter_of_cut rfl hi .nil⟩
    · obtain ⟨i, hi⟩ := (exists_isItem_iff isAttr_uid).2 hv
      exact ⟨_, searchFilter_of_cut (by simp) hi hw⟩

/-- **The filter is altered by no username** but those that are accepted and not plain. -/
theorem filter_unaltered_iff (username : Bytes) :
    (∀ f, IsFilter (searchFilter username) f → f = intended username) ↔
      plain username = true ∨ ¬ Accepted username := by
  constructor
  · intro h
    by_cases hacc : Accepted username
    · obtain ⟨f, hf⟩ := exists_isFilter_iff.2 hacc
      obtain ⟨v, x, i, fs, hcut, hi, hx, rfl⟩ := isFilter_searchFilter hf
      have heq := h _ hf
      simp only [intended, Filter.and.injEq, List.cons.injEq, Filter.item.injEq, true_and] at heq
      obtain ⟨rfl, rfl⟩ := heq
      obtain rfl := hx.nil_iff.2 rfl
      obtain rfl := List.append_cancel_right hcut
      obtain ⟨v, hv, hi⟩ | ⟨-, hi⟩ | ⟨_, _, _, _, _, _, -, -, -, -, hi⟩ :=
        isItem_cases isAttr_uid hi
      · cases hi
        exact .inl (isValue_self_iff.1 hv)
      · cases hi
      · cases hi
    · exact .inr hacc
  · rintro (hplain | hrej) f hf
    · obtain ⟨v, x, i, fs, hcut, hi, hx, rfl⟩ := isFilter_searchFilter hf
      obtain ⟨rfl, rfl⟩ := Lines.first_cut_unique hcut (not_mem_of_plain hplain rfl) hi.no_close
      obtain rfl := hx.nil_iff.1 rfl
      obtain rfl := isItem_of_plain isAttr_uid hplain hi
      rfl
    · exact absurd (exists_isFilter_iff.1 ⟨f, hf⟩) hrej

/-- The username `*` asks for the presence of any uid. -/
theorem filter_altered_by_asterisk :
    IsFilter (searchFilter [42]) (.and [.item personTest, .item (.present uid)]) ∧
      Filter.and [.item personTest, .item (.present uid)] ≠ intended [42] := by
  refine ⟨searchFilter_of_cut rfl (.present isAttr_uid) .nil, ?_⟩
  simp [intended]

end Ldap
