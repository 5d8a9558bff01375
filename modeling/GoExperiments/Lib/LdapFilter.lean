import GoExperiments.Lib.Lines
import GoExperiments.Lib.Utf8

/-!
# LDAP search filters

The string form of LDAP search filters (RFC 4515), as a relation between a text and the filter
it stands for.

* `IsValue` — assertion values: characters other than NUL, the parentheses, the asterisk and
  the backslash stand for themselves, and `\HH` for the byte with that hexadecimal value.
* `IsAttr` — attribute descriptions.
* `IsItem`, `IsFilter` — the tests, and filters built from them.
* `isValue_self_iff` — which texts stand for themselves.
* `isItem_cases` — the tests that start with a given attribute and an equals sign;
  `exists_isItem_iff` says for which texts behind it there is one.
* `isFilters_cases` — the first of a list of filters, if it starts with an attribute, is a test
  that ends at a closing parenthesis.
-/

namespace LdapFilter

/-! ## Assertion values -/

/-- NUL, the parentheses, the asterisk and the backslash are written with an escape. -/
def special (b : UInt8) : Bool := b == 0 || b == 40 || b == 41 || b == 42 || b == 92

/-- The value of a hexadecimal digit, in either case. -/
def hexValue (b : UInt8) : Option ℕ :=
  if 48 ≤ b ∧ b ≤ 57 then some (b.toNat - 48)
  else if 65 ≤ b ∧ b ≤ 70 then some (b.toNat - 55)
  else if 97 ≤ b ∧ b ≤ 102 then some (b.toNat - 87)
  else none

/-- `valueencoding`: the text and the value. -/
inductive IsValue : List UInt8 → List UInt8 → Prop
  | nil : IsValue [] []
  | normal {r t v : List UInt8} (hr : GoUtf8.IsRune r) (hplain : ∀ b ∈ r, special b = false)
      (ht : IsValue t v) : IsValue (r ++ t) (r ++ v)
  | escaped {h l : UInt8} {m n : ℕ} {t v : List UInt8} (hh : hexValue h = some m)
      (hl : hexValue l = some n) (ht : IsValue t v) :
      IsValue (92 :: h :: l :: t) (UInt8.ofNat (16 * m + n) :: v)

/-! ## Attribute descriptions -/

def isAlpha (b : UInt8) : Bool := (65 ≤ b && b ≤ 90) || (97 ≤ b && b ≤ 122)

def isDigit (b : UInt8) : Bool := 48 ≤ b && b ≤ 57

def isKeychar (b : UInt8) : Bool := isAlpha b || isDigit b || b == 45

/-- `keystring`. -/
def IsDescr (t : List UInt8) : Prop :=
  ∃ b bs, t = b :: bs ∧ isAlpha b = true ∧ ∀ c ∈ bs, isKeychar c = true

theorem isDescr_cons {b : UInt8} {bs : List UInt8} (hb : isAlpha b = true)
    (hbs : bs.all isKeychar = true) : IsDescr (b :: bs) :=
  ⟨b, bs, rfl, hb, List.all_eq_true.1 hbs⟩

/-- `number`: digits without a leading zero. -/
def IsNumber (t : List UInt8) : Prop :=
  t ≠ [] ∧ (∀ c ∈ t, isDigit c = true) ∧ (t.head? = some 48 → t.length = 1)

/-- `numericoid`: two or more numbers. -/
inductive IsNumericOid : List UInt8 → Prop
  | two {a b : List UInt8} (ha : IsNumber a) (hb : IsNumber b) : IsNumericOid (a ++ 46 :: b)
  | more {a b : List UInt8} (ha : IsNumber a) (hb : IsNumericOid b) : IsNumericOid (a ++ 46 :: b)

def IsOid (t : List UInt8) : Prop := IsDescr t ∨ IsNumericOid t

/-- `options`. -/
inductive IsOptions : List UInt8 → Prop
  | nil : IsOptions []
  | cons {o t : List UInt8} (hne : o ≠ []) (ho : ∀ c ∈ o, isKeychar c = true) (ht : IsOptions t) :
      IsOptions (59 :: o ++ t)

/-- `attributedescription`. -/
def IsAttr (t : List UInt8) : Prop := ∃ a o, t = a ++ o ∧ IsOid a ∧ IsOptions o

theorem IsDescr.isAttr {t : List UInt8} (h : IsDescr t) : IsAttr t :=
  ⟨t, [], by simp, .inl h, .nil⟩

/-! ## Filters -/

/-- `filtertype`. -/
inductive FilterType
  | equal | approx | greaterOrEqual | lessOrEqual
deriving DecidableEq, Repr

/-- What a `filtertype` has in front of its equals sign. -/
def FilterType.mark : FilterType → List UInt8
  | .equal => []
  | .approx => [126]
  | .greaterOrEqual => [62]
  | .lessOrEqual => [60]

/-- The tests.  Attributes are kept as they are written; of a substring test the parts at the
ends are empty when they are missing. -/
inductive Item
  | simple (attr : List UInt8) (type : FilterType) (value : List UInt8)
  | present (attr : List UInt8)
  | substring (attr initial : List UInt8) (any : List (List UInt8)) (final : List UInt8)
  | extensible (attr : Option (List UInt8)) (dnattrs : Bool) (rule : Option (List UInt8))
      (value : List UInt8)
deriving DecidableEq, Repr

inductive Filter
  | and (fs : List Filter)
  | or (fs : List Filter)
  | not (f : Filter)
  | item (i : Item)

/-- The middle of a substring test, behind its first asterisk. -/
inductive IsAny : List UInt8 → List (List UInt8) → Prop
  | nil : IsAny [] []
  | cons {t v ts : List UInt8} {vs : List (List UInt8)} (ht : IsValue t v) (hts : IsAny ts vs) :
      IsAny (t ++ 42 :: ts) (v :: vs)

/-- `[dnattrs]`: `:dn`, in either case, or nothing. -/
inductive IsDnAttrs : List UInt8 → Bool → Prop
  | absent : IsDnAttrs [] false
  | given {d n : UInt8} (hd : d = 100 ∨ d = 68) (hn : n = 110 ∨ n = 78) :
      IsDnAttrs [58, d, n] true

/-- `[matchingrule]`. -/
inductive IsRule : List UInt8 → Option (List UInt8) → Prop
  | absent : IsRule [] none
  | given {r : List UInt8} (hr : IsOid r) : IsRule (58 :: r) (some r)

/-- The parts of an `extensible` test in front of `:=`; without an attribute there is a rule. -/
inductive IsRuleHead : List UInt8 → Option (List UInt8) → Bool → Option (List UInt8) → Prop
  | attr {a d r : List UInt8} {dn : Bool} {rule : Option (List UInt8)} (ha : IsAttr a)
      (hd : IsDnAttrs d dn) (hr : IsRule r rule) : IsRuleHead (a ++ d ++ r) (some a) dn rule
  | rule {d r rule : List UInt8} {dn : Bool} (hd : IsDnAttrs d dn) (hr : IsRule r (some rule)) :
      IsRuleHead (d ++ r) none dn (some rule)

/-- `item`.  `attr=*` denotes presence only, so a substring test has more than one asterisk or
something beside it. -/
inductive IsItem : List UInt8 → Item → Prop
  | simple {a t v : List UInt8} (type : FilterType) (ha : IsAttr a) (ht : IsValue t v) :
      IsItem (a ++ type.mark ++ 61 :: t) (.simple a type v)
  | present {a : List UInt8} (ha : IsAttr a) : IsItem (a ++ 61 :: [42]) (.present a)
  | substring {a ti vi ta tf vf : List UInt8} {vs : List (List UInt8)} (ha : IsAttr a)
      (hi : IsValue ti vi) (hany : IsAny ta vs) (hf : IsValue tf vf)
      (hmore : ti ≠ [] ∨ ta ≠ [] ∨ tf ≠ []) :
      IsItem (a ++ 61 :: (ti ++ 42 :: (ta ++ tf))) (.substring a vi vs vf)
  | extensible {h t v : List UInt8} {a r : Option (List UInt8)} {dn : Bool}
      (hh : IsRuleHead h a dn r) (ht : IsValue t v) :
      IsItem (h ++ [58] ++ 61 :: t) (.extensible a dn r v)

mutual

/-- `filter`. -/
inductive IsFilter : List UInt8 → Filter → Prop
  | paren {t : List UInt8} {f : Filter} (h : IsComp t f) : IsFilter (40 :: (t ++ [41])) f

/-- `filtercomp`. -/
inductive IsComp : List UInt8 → Filter → Prop
  | and {t : List UInt8} {f : Filter} {fs : List Filter} (h : IsFilters t (f :: fs)) :
      IsComp (38 :: t) (.and (f :: fs))
  | or {t : List UInt8} {f : Filter} {fs : List Filter} (h : IsFilters t (f :: fs)) :
      IsComp (124 :: t) (.or (f :: fs))
  | not {t : List UInt8} {f : Filter} (h : IsFilter t f) : IsComp (33 :: t) (.not f)
  | item {t : List UInt8} {i : Item} (h : IsItem t i) : IsComp t (.item i)

/-- A list of filters, one behind the other. -/
inductive IsFilters : List UInt8 → List Filter → Prop
  | nil : IsFilters [] []
  | cons {t ts : List UInt8} {f : Filter} {fs : List Filter} (h : IsFilter t f)
      (hs : IsFilters ts fs) : IsFilters (t ++ ts) (f :: fs)

end

/-! ## What a value can be -/

theorem special_hex {b : UInt8} {n : ℕ} (h : hexValue b = some n) : special b = false := by
  -- none of the special bytes is a digit
  by_contra hspecial
  simp only [special, Bool.not_eq_false, Bool.or_eq_true, beq_iff_eq] at hspecial
  obtain (((rfl | rfl) | rfl) | rfl) | rfl := hspecial <;> simp [hexValue] at h

/-- A value has no special byte but the backslashes of its escapes. -/
theorem IsValue.bytes {t v : List UInt8} (h : IsValue t v) :
    ∀ b ∈ t, b = 92 ∨ special b = false := by
  induction h with
  | nil => simp
  | normal _ hplain _ ih =>
      intro b hb
      rcases List.mem_append.1 hb with hb | hb
      · exact .inr (hplain b hb)
      · exact ih b hb
  | escaped hh hl _ ih =>
      intro b hb
      simp only [List.mem_cons] at hb
      obtain rfl | rfl | rfl | hb := hb
      · exact .inl rfl
      · exact .inr (special_hex hh)
      · exact .inr (special_hex hl)
      · exact ih b hb

/-- Each escape makes the value two bytes shorter than its text. -/
theorem IsValue.length {t v : List UInt8} (h : IsValue t v) :
    v.length + 2 * t.count 92 = t.length := by
  induction h with
  | nil => rfl
  | @normal r t v _ hplain _ ih =>
      have hr : r.count 92 = 0 :=
        List.count_eq_zero.2 fun hmem => absurd (hplain 92 hmem) (by decide)
      simp only [List.length_append, List.count_append, hr]
      omega
  | @escaped h l m n t v hh hl _ ih =>
      have hh' : h ≠ 92 := fun heq => absurd (special_hex hh) (by rw [heq]; decide)
      have hl' : l ≠ 92 := fun heq => absurd (special_hex hl) (by rw [heq]; decide)
      simp only [List.length_cons, List.count_cons, beq_iff_eq, hh', hl', if_false, if_true]
      omega

/-- Texts that need no escape. -/
def plain (t : List UInt8) : Bool := GoUtf8.valid t && t.all fun b => !special b

theorem plain_iff {t : List UInt8} :
    plain t = true ↔ GoUtf8.valid t = true ∧ ∀ b ∈ t, special b = false := by
  simp [plain]

theorem plain_append_rune {r : List UInt8} (hr : GoUtf8.IsRune r) (t : List UInt8) :
    plain (r ++ t) = true ↔ (∀ b ∈ r, special b = false) ∧ plain t = true := by
  simp only [plain_iff, GoUtf8.valid_rune hr, List.mem_append, or_imp, forall_and]
  exact ⟨fun ⟨hv, hsr, hst⟩ => ⟨hsr, hv, hst⟩, fun ⟨hsr, hv, hst⟩ => ⟨hv, hsr, hst⟩⟩

/-- Without an escape the value is the text, and the text is plain. -/
theorem IsValue.of_no_escape {t v : List UInt8} (h : IsValue t v) (hno : 92 ∉ t) :
    v = t ∧ plain t = true := by
  induction h with
  | nil => exact ⟨rfl, rfl⟩
  | normal hr hplain _ ih =>
      obtain ⟨rfl, ht⟩ := ih fun hmem => hno (List.mem_append_right _ hmem)
      exact ⟨rfl, (plain_append_rune hr _).2 ⟨hplain, ht⟩⟩
  | escaped _ _ _ _ => exact absurd (List.mem_cons_self ..) hno

theorem isValue_of_plain {t : List UInt8} : plain t = true → IsValue t t := by
  induction t using GoUtf8.rune_induction with
  | nil => exact fun _ => .nil
  | invalid b bs hb _ =>
      intro h
      rw [plain_iff, GoUtf8.valid_invalid hb] at h
      exact absurd h.1 (by decide)
  | rune u t hu ih =>
      intro h
      obtain ⟨hu', ht⟩ := (plain_append_rune hu t).1 h
      exact .normal hu hu' (ih ht)

theorem not_mem_of_plain {t : List UInt8} (h : plain t = true) {b : UInt8}
    (hb : special b = true) : b ∉ t := by
  intro hmem
  rw [(plain_iff.1 h).2 b hmem] at hb
  cases hb

/-- **The texts that stand for themselves.** -/
theorem isValue_self_iff {t : List UInt8} : IsValue t t ↔ plain t = true := by
  refine ⟨fun h => ?_, isValue_of_plain⟩
  have hcount : t.count 92 = 0 := by
    have := h.length
    omega
  exact (h.of_no_escape (List.count_eq_zero.1 hcount)).2

/-! ## What a test can be -/

/-- The bytes of an attribute description. -/
def attrByte (b : UInt8) : Bool := isKeychar b || b == 46 || b == 59

theorem attrByte_of_keychar {b : UInt8} (h : isKeychar b = true) : attrByte b = true := by
  simp [attrByte, h]

theorem IsNumber.bytes {t : List UInt8} (h : IsNumber t) : ∀ b ∈ t, attrByte b = true := by
  intro b hb
  refine attrByte_of_keychar ?_
  simp [isKeychar, h.2.1 b hb]

/-- Two parts with a dot between them. -/
theorem attrByte_dotted {u v : List UInt8} (hu : ∀ b ∈ u, attrByte b = true)
    (hv : ∀ b ∈ v, attrByte b = true) : ∀ b ∈ u ++ 46 :: v, attrByte b = true := by
  intro b hb
  obtain hb | hb := List.mem_append.1 hb
  · exact hu b hb
  obtain rfl | hb := List.mem_cons.1 hb
  · decide
  · exact hv b hb

theorem IsOid.bytes {t : List UInt8} (h : IsOid t) : ∀ b ∈ t, attrByte b = true := by
  obtain ⟨b, bs, rfl, hb, hbs⟩ | h := h
  · intro c hc
    refine attrByte_of_keychar ?_
    obtain rfl | hc := List.mem_cons.1 hc
    · simp [isKeychar, hb]
    · exact hbs c hc
  · induction h with
    | two ha hb => exact attrByte_dotted ha.bytes hb.bytes
    | more ha _ ih => exact attrByte_dotted ha.bytes ih

theorem IsOptions.bytes {t : List UInt8} (h : IsOptions t) : ∀ b ∈ t, attrByte b = true := by
  induction h with
  | nil => simp
  | cons _ ho _ ih =>
      intro c hc
      simp only [List.cons_append, List.mem_cons, List.mem_append] at hc
      obtain rfl | hc | hc := hc
      · decide
      · exact attrByte_of_keychar (ho c hc)
      · exact ih c hc

theorem IsAttr.bytes {t : List UInt8} (h : IsAttr t) : ∀ b ∈ t, attrByte b = true := by
  obtain ⟨a, o, rfl, ha, ho⟩ := h
  intro b hb
  obtain hb | hb := List.mem_append.1 hb
  · exact ha.bytes b hb
  · exact ho.bytes b hb

theorem IsAttr.not_mem {t : List UInt8} (h : IsAttr t) {b : UInt8} (hb : attrByte b = false) :
    b ∉ t :=
  fun hmem => absurd (h.bytes b hmem) (by rw [hb]; decide)

theorem IsDnAttrs.bytes {t : List UInt8} {dn : Bool} (h : IsDnAttrs t dn) :
    ∀ b ∈ t, attrByte b = true ∨ b = 58 := by
  cases h with
  | absent => simp
  | given hd hn =>
      obtain rfl | rfl := hd <;> obtain rfl | rfl := hn <;> simp [attrByte, isKeychar, isAlpha]

theorem IsRule.bytes {t : List UInt8} {rule : Option (List UInt8)} (h : IsRule t rule) :
    ∀ b ∈ t, attrByte b = true ∨ b = 58 := by
  cases h with
  | absent => simp
  | given hr =>
      intro b hb
      obtain rfl | hb := List.mem_cons.1 hb
      · exact .inr rfl
      · exact .inl (hr.bytes b hb)

theorem IsRuleHead.bytes {t : List UInt8} {a r : Option (List UInt8)} {dn : Bool}
    (h : IsRuleHead t a dn r) : ∀ b ∈ t, attrByte b = true ∨ b = 58 := by
  intro b hb
  cases h with
  | attr ha hd hr =>
      simp only [List.mem_append] at hb
      obtain (hb | hb) | hb := hb
      · exact .inl (ha.bytes b hb)
      · exact hd.bytes b hb
      · exact hr.bytes b hb
  | rule hd hr =>
      obtain hb | hb := List.mem_append.1 hb
      · exact hd.bytes b hb
      · exact hr.bytes b hb

/-- A parenthesis. -/
def isParen (b : UInt8) : Bool := b == 40 || b == 41

theorem IsValue.no_paren {t v : List UInt8} (h : IsValue t v) : ∀ b ∈ t, isParen b = false := by
  intro b hb
  obtain rfl | hb := h.bytes b hb
  · decide
  · simp only [special, isParen, Bool.or_eq_false_iff] at hb ⊢
    exact ⟨hb.1.1.1.2, hb.1.1.2⟩

theorem isParen_of_attrByte {b : UInt8} (h : attrByte b = true) : isParen b = false := by
  by_contra hparen
  simp only [isParen, Bool.not_eq_false, Bool.or_eq_true, beq_iff_eq] at hparen
  obtain rfl | rfl := hparen <;> exact absurd h (by decide)

theorem IsAny.no_paren {t : List UInt8} {vs : List (List UInt8)} (h : IsAny t vs) :
    ∀ b ∈ t, isParen b = false := by
  induction h with
  | nil => simp
  | cons ht _ ih =>
      intro b hb
      obtain hb | hb := List.mem_append.1 hb
      · exact ht.no_paren b hb
      obtain rfl | hb := List.mem_cons.1 hb
      · decide
      · exact ih b hb

/-- **Tests have no parentheses.** -/
theorem IsItem.no_paren {t : List UInt8} {i : Item} (h : IsItem t i) :
    ∀ b ∈ t, isParen b = false := by
  intro b hb
  cases h with
  | simple type ha ht =>
      simp only [List.mem_append, List.mem_cons] at hb
      obtain (hb | hb) | rfl | hb := hb
      · exact isParen_of_attrByte (ha.bytes b hb)
      · cases type <;> simp only [FilterType.mark, List.mem_singleton, List.not_mem_nil] at hb <;>
          (subst hb; decide)
      · decide
      · exact ht.no_paren b hb
  | present ha =>
      simp only [List.mem_append, List.mem_cons, List.not_mem_nil, or_false] at hb
      obtain hb | rfl | rfl := hb
      · exact isParen_of_attrByte (ha.bytes b hb)
      · decide
      · decide
  | substring ha hi hany hf _ =>
      simp only [List.mem_append, List.mem_cons] at hb
      obtain hb | rfl | hb | rfl | hb | hb := hb
      · exact isParen_of_attrByte (ha.bytes b hb)
      · decide
      · exact hi.no_paren b hb
      · decide
      · exact hany.no_paren b hb
      · exact hf.no_paren b hb
  | extensible hh ht =>
      simp only [List.mem_append, List.mem_cons, List.not_mem_nil, or_false] at hb
      obtain (hb | rfl) | rfl | hb := hb
      · obtain hb | rfl := hh.bytes b hb
        · exact isParen_of_attrByte hb
        · decide
      · decide
      · decide
      · exact ht.no_paren b hb

theorem IsItem.no_close {a v : List UInt8} {i : Item} (h : IsItem (a ++ 61 :: v) i) : 41 ∉ v := by
  intro hmem
  have hparen := h.no_paren 41 (List.mem_append_right _ (List.mem_cons_of_mem _ hmem))
  exact absurd hparen (by decide)

/-- **The tests of one attribute.**  What stands in front of the first equals sign leaves only
equality, presence and substrings. -/
theorem isItem_cases {a u : List UInt8} {i : Item} (ha : IsAttr a) (h : IsItem (a ++ 61 :: u) i) :
    (∃ v, IsValue u v ∧ i = .simple a .equal v) ∨ (u = [42] ∧ i = .present a) ∨
      ∃ ti vi ta vs tf vf, u = ti ++ 42 :: (ta ++ tf) ∧ IsValue ti vi ∧ IsAny ta vs ∧
        IsValue tf vf ∧ i = .substring a vi vs vf := by
  have h61 : 61 ∉ a := ha.not_mem rfl
  generalize ht : a ++ 61 :: u = t at h
  cases h with
  | @simple b w v type hb hv =>
      have hb61 : 61 ∉ b ++ type.mark := by
        rw [List.mem_append]
        rintro (hmem | hmem)
        · exact hb.not_mem rfl hmem
        · cases type <;> exact absurd hmem (by decide)
      obtain ⟨rfl, rfl⟩ := Lines.first_cut_unique ht h61 hb61
      cases type with
      | equal => exact .inl ⟨v, hv, by rw [FilterType.mark, List.append_nil]⟩
      | approx => exact absurd (by simp [FilterType.mark]) (ha.not_mem (b := 126) rfl)
      | greaterOrEqual => exact absurd (by simp [FilterType.mark]) (ha.not_mem (b := 62) rfl)
      | lessOrEqual => exact absurd (by simp [FilterType.mark]) (ha.not_mem (b := 60) rfl)
  | present hb =>
      obtain ⟨rfl, rfl⟩ := Lines.first_cut_unique ht h61 (hb.not_mem rfl)
      exact .inr (.inl ⟨rfl, rfl⟩)
  | substring hb hi hany hf _ =>
      obtain ⟨rfl, rfl⟩ := Lines.first_cut_unique ht h61 (hb.not_mem rfl)
      exact .inr (.inr ⟨_, _, _, _, _, _, rfl, hi, hany, hf, rfl⟩)
  | @extensible w _ _ _ _ _ hh hv =>
      have hw : 61 ∉ w ++ [58] := by
        rw [List.mem_append, List.mem_singleton]
        rintro (hmem | heq)
        · exact absurd (hh.bytes 61 hmem) (by decide)
        · exact absurd heq (by decide)
      obtain ⟨rfl, -⟩ := Lines.first_cut_unique ht h61 hw
      exact absurd (by simp) (ha.not_mem (b := 58) rfl)

/-- With a plain text behind the equals sign only equality is left. -/
theorem isItem_of_plain {a u : List UInt8} {i : Item} (ha : IsAttr a) (hu : plain u = true)
    (h : IsItem (a ++ 61 :: u) i) : i = .simple a .equal u := by
  have hstar : 42 ∉ u := not_mem_of_plain hu rfl
  obtain ⟨v, hv, rfl⟩ | ⟨rfl, -⟩ | ⟨ti, vi, ta, vs, tf, vf, rfl, -⟩ := isItem_cases ha h
  · rw [(hv.of_no_escape (not_mem_of_plain hu rfl)).1]
  · exact absurd (List.mem_singleton_self _) hstar
  · exact absurd (by simp) hstar

/-- What can stand behind the equals sign: values with asterisks between them. -/
def IsPattern (t : List UInt8) : Prop :=
  ∃ ta vs tf vf, t = ta ++ tf ∧ IsAny ta vs ∧ IsValue tf vf

theorem exists_isItem_iff {a u : List UInt8} (ha : IsAttr a) :
    (∃ i, IsItem (a ++ 61 :: u) i) ↔ IsPattern u := by
  constructor
  · rintro ⟨i, h⟩
    obtain ⟨v, hv, -⟩ | ⟨rfl, -⟩ | ⟨ti, vi, ta, vs, tf, vf, rfl, hi, hany, hf, -⟩ :=
      isItem_cases ha h
    · exact ⟨[], [], u, v, rfl, .nil, hv⟩
    · exact ⟨[42], [[]], [], [], rfl, IsAny.cons .nil .nil, .nil⟩
    · exact ⟨ti ++ 42 :: ta, vi :: vs, tf, vf, by simp, .cons hi hany, hf⟩
  · rintro ⟨ta, vs, tf, vf, rfl, hta, htf⟩
    cases hta with
    | nil => exact ⟨_, by simpa [FilterType.mark] using IsItem.simple .equal ha htf⟩
    | @cons t v ts vs ht hts =>
        by_cases hmore : t ≠ [] ∨ ts ≠ [] ∨ tf ≠ []
        · exact ⟨_, by simpa using IsItem.substring ha ht hts htf hmore⟩
        · -- a lone asterisk is the presence test
          simp only [not_or, not_not] at hmore
          obtain ⟨rfl, rfl, rfl⟩ := hmore
          exact ⟨_, .present ha⟩

/-! ## What a list of filters can be -/

/-- What an attribute and an equals sign start with. -/
theorem head_of_isAttr {a y t : List UInt8} {b : UInt8} (ha : IsAttr a)
    (h : a ++ 61 :: y = b :: t) : attrByte b = true ∨ b = 61 := by
  cases a with
  | nil => exact .inr (List.cons.inj h).1.symm
  | cons c a =>
      obtain ⟨rfl, -⟩ := List.cons.inj h
      exact .inl (ha.bytes c List.mem_cons_self)

/-- **The first filter of a list**, if it starts with an attribute, is a test that ends at a closing
parenthesis. -/
theorem isFilters_cases {a y : List UInt8} {fs : List Filter} (ha : IsAttr a)
    (h : IsFilters (40 :: (a ++ 61 :: y)) fs) :
    ∃ v x i fs', y = v ++ 41 :: x ∧ IsItem (a ++ 61 :: v) i ∧ IsFilters x fs' ∧
      fs = .item i :: fs' := by
  generalize ht : 40 :: (a ++ 61 :: y) = t at h
  cases h with
  | nil => exact absurd ht (List.cons_ne_nil _ _)
  | @cons t x f fs h hs =>
      cases h with
      | @paren c f h =>
          have hy : a ++ 61 :: y = c ++ 41 :: x := by simpa using ht
          cases h with
          | and _ => exact absurd (head_of_isAttr ha hy) (by decide)
          | or _ => exact absurd (head_of_isAttr ha hy) (by decide)
          | not _ => exact absurd (head_of_isAttr ha hy) (by decide)
          | item hi =>
              have hend : 41 ∉ a ++ [61] := by
                rw [List.mem_append, List.mem_singleton]
                rintro (hmem | heq)
                · exact ha.not_mem rfl hmem
                · exact absurd heq (by decide)
              obtain ⟨v, rfl, hv⟩ := Lines.cut_after (p := a ++ [61]) (by simpa using hy) hend
              exact ⟨v, x, _, fs, hv, by simpa using hi, hs, rfl⟩

/-- A conjunction is written as one. -/
theorem isFilter_and_cases {t : List UInt8} {f : Filter} (h : IsFilter (40 :: 38 :: (40 :: t)) f) :
    ∃ fs l, l ++ [41] = 40 :: t ∧ IsFilters l fs ∧ f = .and fs := by
  generalize ht : 40 :: 38 :: (40 :: t) = w at h
  cases h with
  | @paren c f h =>
      have hc : 38 :: (40 :: t) = c ++ [41] := by simpa using ht
      cases h with
      | @and l f fs hl => exact ⟨f :: fs, l, by simpa using hc.symm, hl, rfl⟩
      | or _ => exact absurd (List.cons.inj hc).1 (by decide)
      | not _ => exact absurd (List.cons.inj hc).1 (by decide)
      | item hi =>
          -- a test would hold the second parenthesis
          have hmem : (40 : UInt8) ∈ c ++ [41] := by rw [← hc]; simp
          have h40 : (40 : UInt8) ∈ c := by simpa using hmem
          exact absurd (hi.no_paren 40 h40) (by decide)

theorem IsFilter.ne_nil {t : List UInt8} {f : Filter} (h : IsFilter t f) : t ≠ [] := by
  cases h
  exact List.cons_ne_nil _ _

theorem IsFilters.nil_iff {t : List UInt8} {fs : List Filter} (h : IsFilters t fs) :
    t = [] ↔ fs = [] := by
  cases h with
  | nil => exact ⟨fun _ => rfl, fun _ => rfl⟩
  | cons h _ => simp [h.ne_nil]

end LdapFilter
