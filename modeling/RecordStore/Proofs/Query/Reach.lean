import RecordStore.Query.Match

/-!
# What a path leads to

`Reaches path v x`: the path leads to the content `x` in the document `v`. Following a path on an array means following
it in every element, and in the element that the segment indexes; so one path may lead to many contents, or to none.

* A walk settles on the outcome that it seeks iff some content of the path gives it (`walk_eq_seeks_iff`), hence
  holds iff some content passes, or iff all of them do (`walk_true_eq_true_iff`, `walk_false_eq_true_iff`).
* `Condition.Meaning` says what a condition asks for in terms of `Reaches` alone, with quantifiers in the place of
  searches, and `holds_iff_meaning` that matching decides it.
-/

namespace RecordStore.Query

/-- The contents that a path leads to: what is absent reads as null, and a scalar in the way leads nowhere. -/
inductive Reaches : List String → Value → Value → Prop
  | here (v : Value) : Reaches [] v v
  | null (s : String) (path : List String) : Reaches (s :: path) .null .null
  | missing {s : String} {path : List String} {ms : Members} : Path.child? ms s = none →
      Reaches (s :: path) (.map ms) .null
  | member {s : String} {path : List String} {ms : Members} {v x : Value} : Path.child? ms s = some v →
      Reaches path v x → Reaches (s :: path) (.map ms) x
  | element {s : String} {path : List String} {items : List Value} {v x : Value} : v ∈ items →
      Reaches (s :: path) v x → Reaches (s :: path) (.arr items) x
  | index {s : String} {path : List String} {items : List Value} {v x : Value} : Path.element? items s = some v →
      Reaches path v x → Reaches (s :: path) (.arr items) x

/-! ## Inversion, by the kind of the document -/

section Inversion

variable {s : String} {path : List String} {v x : Value}

theorem reaches_nil_iff : Reaches [] v x ↔ x = v := by
  constructor
  · intro h
    cases h
    rfl
  · rintro rfl
    exact .here _

theorem reaches_null_iff : Reaches path .null x ↔ x = .null := by
  cases path with
  | nil => exact reaches_nil_iff
  | cons s path =>
    constructor
    · intro h
      cases h
      rfl
    · rintro rfl
      exact .null s path

theorem reaches_map_iff {ms : Members} :
    Reaches (s :: path) (.map ms) x ↔ Reaches path ((Path.child? ms s).getD .null) x := by
  constructor
  · intro h
    cases h with
    | missing hc => rw [hc]; exact reaches_null_iff.2 rfl
    | member hc h => rw [hc]; exact h
  · intro h
    cases hc : Path.child? ms s with
    | none =>
      rw [hc] at h
      obtain rfl := reaches_null_iff.1 h
      exact .missing hc
    | some v =>
      rw [hc] at h
      exact .member hc h

theorem reaches_arr_iff {items : List Value} :
    Reaches (s :: path) (.arr items) x ↔
      (∃ v ∈ items, Reaches (s :: path) v x) ∨ ∃ v, Path.element? items s = some v ∧ Reaches path v x := by
  constructor
  · intro h
    cases h with
    | element hv h => exact .inl ⟨_, hv, h⟩
    | index hv h => exact .inr ⟨_, hv, h⟩
  · rintro (⟨v, hv, h⟩ | ⟨v, hv, h⟩)
    · exact .element hv h
    · exact .index hv h

end Inversion

/-! ## Paths in sequence -/

section Sequence

variable {path path' : List String} {v y x : Value}

/-- From a content of a path one can go on. Null leads to nothing but null, however long the path. -/
theorem Reaches.append (h : Reaches path v y) (h' : Reaches path' y x) : Reaches (path ++ path') v x := by
  induction h with
  | here v => exact h'
  | null s path => exact reaches_null_iff.2 (reaches_null_iff.1 h')
  | missing hc =>
    obtain rfl := reaches_null_iff.1 h'
    exact .missing hc
  | member hc _ ih => exact .member hc (ih h')
  | element hv _ ih => exact .element hv (ih h')
  | index hv _ ih => exact .index hv (ih h')

/-- A path that leads to an array, and then one that is followed in an element of it. -/
theorem Reaches.append_item {items : List Value} {item : Value} (h : Reaches path v (.arr items)) (hitem : item ∈ items)
    (hne : path' ≠ []) (h' : Reaches path' item x) : Reaches (path ++ path') v x := by
  obtain ⟨s, rest, rfl⟩ := List.exists_cons_of_ne_nil hne
  exact h.append (.element hitem h')

end Sequence

/-! ## Walking -/

section Walk

variable {seeks : Bool} {test : Value → Bool} {s : String} {path : List String}

theorem stepFinds_iff {missing : Bool} {next : Value → Bool} {items : List Value} :
    stepFinds seeks missing s next items = true ↔ ∃ v ∈ items, step seeks missing s next v = seeks := by
  induction items with
  | nil => simp [stepFinds]
  | cons v vs ih => simp [stepFinds, ih]

/-- On an array a step finds the outcome in an element, or at the element that the segment indexes. -/
theorem step_arr_eq_seeks_iff {missing : Bool} {next : Value → Bool} {items : List Value} :
    step seeks missing s next (.arr items) = seeks ↔
      (∃ v ∈ items, step seeks missing s next v = seeks) ∨ ∃ v, Path.element? items s = some v ∧ next v = seeks := by
  rw [step, ← stepFinds_iff]
  cases stepFinds seeks missing s next items <;> cases Path.element? items s <;> simp

/-- One segment, when the rest of the path is understood. -/
theorem step_eq_seeks_iff (ih : ∀ v, walk seeks test path v = seeks ↔ ∃ x, Reaches path v x ∧ test x = seeks)
    (v : Value) : step seeks (test .null) s (walk seeks test path) v = seeks ↔
      ∃ x, Reaches (s :: path) v x ∧ test x = seeks := by
  induction v using Value.induction with
  | null => simp [step, reaches_null_iff]
  | map ms _ => simp only [step, ih, reaches_map_iff]
  | arr items ihItems =>
    rw [step_arr_eq_seeks_iff]
    constructor
    · rintro (⟨v, hv, h⟩ | ⟨v, hv, h⟩)
      · obtain ⟨x, hx, ht⟩ := (ihItems v hv).1 h
        exact ⟨x, .element hv hx, ht⟩
      · obtain ⟨x, hx, ht⟩ := (ih v).1 h
        exact ⟨x, .index hv hx, ht⟩
    · rintro ⟨x, hx, ht⟩
      rcases reaches_arr_iff.1 hx with ⟨v, hv, hx⟩ | ⟨v, hv, hx⟩
      · exact .inl ⟨v, hv, (ihItems v hv).2 ⟨x, hx, ht⟩⟩
      · exact .inr ⟨v, hv, (ih v).2 ⟨x, hx, ht⟩⟩
  -- a scalar in the way gives the outcome that is not sought, and nothing is reached
  | bool _ | int _ | real _ | str _ =>
    constructor
    · intro h
      simp [step] at h
    · rintro ⟨x, hx, _⟩
      cases hx

/-- A walk settles on the outcome that it seeks iff some content of the path gives it. -/
theorem walk_eq_seeks_iff (v : Value) :
    walk seeks test path v = seeks ↔ ∃ x, Reaches path v x ∧ test x = seeks := by
  induction path generalizing v with
  | nil => simp [walk, reaches_nil_iff]
  | cons s path ih => exact step_eq_seeks_iff ih v

theorem walk_true_eq_true_iff {v : Value} :
    walk true test path v = true ↔ ∃ x, Reaches path v x ∧ test x = true := walk_eq_seeks_iff v

theorem walk_false_eq_true_iff {v : Value} :
    walk false test path v = true ↔ ∀ x, Reaches path v x → test x = true := by
  rw [← Bool.not_eq_false, walk_eq_seeks_iff]
  simp

end Walk

/-! ## Conditions -/

mutual

/-- What a condition asks of a document. A comparison asks that some content of its path passes, but one with a negated
operator that all do, and a null target turns this round; a group asks for one element that meets all its conditions. -/
def Condition.Meaning : Condition → Value → Prop
  | .compare path op target, v =>
    if target.isNull = op.isNegated then ∃ x, Reaches path v x ∧ op.holds target x = true
    else ∀ x, Reaches path v x → op.holds target x = true
  | .each path conditions, v =>
    ∃ items item, Reaches path v (.arr items) ∧ item ∈ items ∧ Condition.AllMean conditions item

/-- All conditions of a list are met. -/
def Condition.AllMean : List Condition → Value → Prop
  | [], _ => True
  | c :: cs, v => c.Meaning v ∧ Condition.AllMean cs v

end

theorem allMean_iff {cs : List Condition} {v : Value} : Condition.AllMean cs v ↔ ∀ c ∈ cs, c.Meaning v := by
  induction cs with
  | nil => simp [Condition.AllMean]
  | cons c cs ih => simp [Condition.AllMean, ih]

theorem allHold_iff {cs : List Condition} {v : Value} : allHold cs v = true ↔ ∀ c ∈ cs, c.holds v = true := by
  induction cs with
  | nil => simp [allHold]
  | cons c cs ih => simp [allHold, ih]

theorem holds_compare_iff {path : List String} {op : Operator} {target v : Value} :
    (Condition.compare path op target).holds v = true ↔
      if target.isNull = op.isNegated then ∃ x, Reaches path v x ∧ op.holds target x = true
      else ∀ x, Reaches path v x → op.holds target x = true := by
  rw [Condition.holds, Operator.seeks]
  split
  case isTrue h => rw [beq_iff_eq.2 h, walk_true_eq_true_iff]
  case isFalse h => rw [beq_eq_false_iff_ne.2 h, walk_false_eq_true_iff]

theorem holds_each_iff {path : List String} {conditions : List Condition} {v : Value} :
    (Condition.each path conditions).holds v = true ↔
      ∃ items item, Reaches path v (.arr items) ∧ item ∈ items ∧ ∀ c ∈ conditions, c.holds item = true := by
  rw [Condition.holds, walk_true_eq_true_iff]
  constructor
  · rintro ⟨x, hx, h⟩
    cases x with
    | arr items =>
      obtain ⟨item, hitem, h⟩ := List.any_eq_true.1 h
      exact ⟨items, item, hx, hitem, allHold_iff.1 h⟩
    | _ => cases h
  · rintro ⟨items, item, hx, hitem, h⟩
    exact ⟨.arr items, hx, List.any_eq_true.2 ⟨item, hitem, allHold_iff.2 h⟩⟩

/-- Matching decides what a condition asks for, at every depth of groups. -/
theorem holds_iff_meaning (c : Condition) (v : Value) : c.holds v = true ↔ c.Meaning v := by
  induction c using Condition.induction generalizing v with
  | compare path op target => rw [holds_compare_iff, Condition.Meaning]
  | each path conditions ih =>
    rw [holds_each_iff, Condition.Meaning]
    constructor
    · rintro ⟨items, item, hx, hitem, h⟩
      exact ⟨items, item, hx, hitem, allMean_iff.2 fun c hc => (ih c hc item).1 (h c hc)⟩
    · rintro ⟨items, item, hx, hitem, h⟩
      exact ⟨items, item, hx, hitem, fun c hc => (ih c hc item).2 (allMean_iff.1 h c hc)⟩

end RecordStore.Query
