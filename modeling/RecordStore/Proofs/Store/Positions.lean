import RecordStore.Store.Write

/-!
# Changing records by position

Operations find positions in a table first and change the records at them afterwards. What comes of it is told without
positions: erasing all that were found is filtering (`eraseAll_found`), erasing or setting the first is `List.eraseP`
and `updateFirst` (`found_first`), and putting amended records back amends every matching record where it stands
(`putAll_amendAll`). The inductions run over the records still to come, behind those already passed, whose number is
the next position.
-/

namespace RecordStore

namespace Update

/-- The record after an update that changes it, and as it was otherwise. -/
def onto (u : Update) (record : Value) : Value :=
  match u.apply record with
  | .ok true new => new
  | _ => record

/-- The update succeeds and changes the record. -/
def changes (u : Update) (record : Value) : Bool :=
  match u.apply record with
  | .ok changed _ => changed
  | .error _ _ => false

end Update

namespace Store

variable {p : Value → Bool} {rows : List Value}

/-! ## What is found -/

theorem map_fst_found (p : Value → Bool) (rows : List Value) (start : Nat) :
    ((rows.zipIdx start).filter (p ·.1)).map Prod.fst = rows.filter p := by
  calc ((rows.zipIdx start).filter (p ·.1)).map Prod.fst
      = ((rows.zipIdx start).map Prod.fst).filter p := by rw [List.filter_map]; rfl
    _ = rows.filter p := by rw [List.zipIdx_map_fst]

theorem length_found (p : Value → Bool) (rows : List Value) (start : Nat) :
    ((rows.zipIdx start).filter (p ·.1)).length = (rows.filter p).length := by
  rw [← map_fst_found p rows start, List.length_map]

theorem found_cons_of_pos {row : Value} (hp : p row = true) (rows : List Value) (start : Nat) :
    ((row :: rows).zipIdx start).filter (p ·.1) = (row, start) :: (rows.zipIdx (start + 1)).filter (p ·.1) := by
  simp [hp]

/-! ## The first position -/

/-- The list with its first element that passes the test changed. -/
def updateFirst (p : Value → Bool) (new : Value) : List Value → List Value
  | [] => []
  | v :: vs => if p v then new :: vs else v :: updateFirst p new vs

theorem updateFirst_append {before : List Value} {record : Value} (hbefore : ∀ r ∈ before, p r = false)
    (hp : p record = true) (new : Value) (after : List Value) :
    updateFirst p new (before ++ record :: after) = before ++ new :: after := by
  induction before with
  | nil => simp [updateFirst, hp]
  | cons r before ih =>
    obtain ⟨hr, hbefore⟩ := List.forall_mem_cons.1 hbefore
    simp [updateFirst, hr, ih hbefore]

theorem found_none (h : rows.zipIdx.find? (p ·.1) = none) : rows.find? p = none := by
  rw [List.find?_eq_none] at h ⊢
  intro r hr
  obtain ⟨i, hi, rfl⟩ := List.getElem_of_mem hr
  exact h (rows[i], i) (by simp [List.mem_zipIdx_iff_getElem?, hi])

/-- What is found first is the first record that passes the test, and it stands at the position found with it. -/
theorem found_first {record : Value} {i : Nat} (h : rows.zipIdx.find? (p ·.1) = some (record, i)) :
    rows.find? p = some record ∧ rows.eraseIdx i = rows.eraseP p ∧ ∀ new, rows.set i new = updateFirst p new rows := by
  obtain ⟨hp, passed, rest, hzip, hpassed⟩ := List.find?_eq_some_iff_append.1 h
  have hrows : rows = passed.map Prod.fst ++ record :: rest.map Prod.fst := by
    rw [← List.zipIdx_map_fst 0 rows, hzip]
    simp
  -- the pairs before the first are those of the records before it, and their number is its position
  have hi : i = passed.length := by
    have hget : rows.zipIdx[passed.length]? = some (record, i) := by
      rw [hzip]
      simp
    rw [List.getElem?_zipIdx, Option.map_eq_some_iff] at hget
    obtain ⟨_, -, heq⟩ := hget
    simpa using (congrArg Prod.snd heq).symm
  have hbefore : ∀ r ∈ passed.map Prod.fst, p r = false := by
    simpa using hpassed
  have hlength : i = (passed.map Prod.fst).length := by rw [hi, List.length_map]
  have herase : ∀ r ∈ passed.map Prod.fst, ¬ p r = true := fun r hr => by simp [hbefore r hr]
  refine ⟨?_, ?_, fun new => ?_⟩
  · rw [hrows]
    exact List.find?_eq_some_iff_append.2 ⟨hp, _, _, rfl, fun r hr => by simp [hbefore r hr]⟩
  · rw [hrows, List.eraseP_append_right _ herase, List.eraseP_cons_of_pos hp, hlength,
      List.eraseIdx_append_of_length_le (Nat.le_refl _)]
    simp
  · rw [hrows, updateFirst_append hbefore hp, hlength, List.set_append_right _ _ (Nat.le_refl _)]
    simp

/-! ## All positions -/

/-- Erasing the matching records that come after the passed ones leaves the others. -/
theorem eraseAll_found_append (p : Value → Bool) (passed rows : List Value) :
    eraseAll (((rows.zipIdx passed.length).filter (p ·.1)).map Prod.snd) (passed ++ rows) =
      passed ++ rows.filter (!p ·) := by
  induction rows generalizing passed with
  | nil => simp [eraseAll]
  | cons row rows ih =>
    have hrest := ih (passed ++ [row])
    rw [List.length_append, List.length_singleton, List.append_assoc, List.singleton_append] at hrest
    cases hp : p row with
    | false => simpa [hp] using hrest
    | true =>
      -- all behind `row` are erased by then, and the passed records before it have not moved
      rw [found_cons_of_pos hp, List.map_cons, eraseAll, List.foldr_cons, ← eraseAll, hrest, List.append_assoc,
        List.eraseIdx_append_of_length_le (Nat.le_refl _)]
      simp [hp]

theorem eraseAll_found (p : Value → Bool) (rows : List Value) :
    eraseAll ((rows.zipIdx.filter (p ·.1)).map Prod.snd) rows = rows.filter (!p ·) :=
  eraseAll_found_append p [] rows

/-! ## Amending -/

variable {update : Update}

theorem amended?_eq_some {record new : Value} (h : amended? update record = .ok (some new)) :
    update.apply record = .ok true new ∧ sameId record new = true := by
  unfold amended? at h
  split at h
  · cases h
  · cases h
  case h_3 new' hu =>
    split at h
    case isTrue hs => cases h; exact ⟨hu, hs⟩
    case isFalse => cases h

theorem amended?_eq_none {record : Value} (h : amended? update record = .ok none) :
    ∃ new, update.apply record = .ok false new := by
  unfold amended? at h
  split at h
  · cases h
  case h_2 new hu => exact ⟨new, hu⟩
  case h_3 =>
    split at h
    · cases h
    · cases h

/-- A record is not amended because the update fails, or for its id. -/
theorem amended?_eq_error {record : Value} {e : Error} (h : amended? update record = .error e) :
    (∃ inner reached, update.apply record = .error inner reached ∧ e = .update inner) ∨ e = .idChanged := by
  unfold amended? at h
  split at h
  case h_1 inner reached hu =>
    cases h
    exact .inl ⟨inner, reached, hu, rfl⟩
  case h_2 => cases h
  case h_3 =>
    split at h
    · cases h
    · cases h
      exact .inr rfl

/-- What amending a record without an error says of the update. -/
theorem amended?_eq_ok {record : Value} {amended : Option Value} (h : amended? update record = .ok amended) :
    (amended = if update.changes record then some (update.onto record) else none) ∧
      (∃ changed new, update.apply record = .ok changed new) ∧
      (update.onto record = record ∨ sameId record (update.onto record) = true) := by
  cases amended with
  | none =>
    obtain ⟨new, hu⟩ := amended?_eq_none h
    have honto : update.onto record = record := by rw [Update.onto, hu]
    exact ⟨by simp [Update.changes, hu], ⟨false, new, hu⟩, .inl honto⟩
  | some new =>
    obtain ⟨hu, hsame⟩ := amended?_eq_some h
    have honto : update.onto record = new := by rw [Update.onto, hu]
    exact ⟨by simp [Update.changes, hu, honto], ⟨true, new, hu⟩, .inr (honto ▸ hsame)⟩

/-- Of records that can all be amended, those that change are kept, as they are then, at their positions. -/
theorem amendAll_eq_ok {found changed : List (Value × Nat)} (h : amendAll update found = .ok changed) :
    (∀ e ∈ found, ∃ amended, amended? update e.1 = .ok amended) ∧
      changed = (found.filter (update.changes ·.1)).map fun e => (update.onto e.1, e.2) := by
  induction found generalizing changed with
  | nil =>
    cases h
    exact ⟨nofun, rfl⟩
  | cons e found ih =>
    obtain ⟨record, i⟩ := e
    rw [amendAll] at h
    cases hamended : amended? update record with
    | error e =>
      rw [hamended] at h
      cases h
    | ok amended =>
      rw [hamended] at h
      obtain ⟨hif, -, -⟩ := amended?_eq_ok hamended
      cases hrest : amendAll update found with
      | error e =>
        rw [hrest] at h
        cases amended <;> cases h
      | ok rest =>
        obtain ⟨hfound, hchanged⟩ := ih hrest
        rw [hrest] at h
        refine ⟨List.forall_mem_cons.2 ⟨⟨amended, hamended⟩, hfound⟩, ?_⟩
        cases hc : update.changes record with
        | false =>
          rw [hif, hc] at h
          cases h
          simpa [hc] using hchanged
        | true =>
          rw [hif, hc] at h
          cases h
          simp [hc, hchanged]

/-- Records are not all amended because one cannot be, after others that can. -/
theorem amendAll_eq_error_iff {found : List (Value × Nat)} {e : Error} :
    amendAll update found = .error e ↔ ∃ before first after, found = before ++ first :: after ∧
      (∀ earlier ∈ before, ∃ amended, amended? update earlier.1 = .ok amended) ∧
      amended? update first.1 = .error e := by
  induction found with
  | nil =>
    refine ⟨nofun, ?_⟩
    rintro ⟨before, _, _, h, -⟩
    cases before <;> cases h
  | cons row found ih =>
    simp only [List.cons_eq_append_iff]
    cases hrow : amended? update row.1 with
    | error e' =>
      have hall : amendAll update (row :: found) = .error e' := by
        rw [amendAll, hrow]
        rfl
      rw [hall]
      constructor
      · intro h
        cases h
        exact ⟨[], row, found, .inl ⟨rfl, rfl⟩, nofun, hrow⟩
      · rintro ⟨before, first, after, ⟨rfl, h⟩ | ⟨before, rfl, -⟩, hbefore, hfirst⟩
        · cases h
          cases hrow.symm.trans hfirst
          rfl
        · obtain ⟨amended, h⟩ := hbefore row List.mem_cons_self
          cases hrow.symm.trans h
    | ok amended =>
      have hall : amendAll update (row :: found) = .error e ↔ amendAll update found = .error e := by
        rw [amendAll, hrow]
        cases amendAll update found with
        | error e' => cases amended <;> exact Iff.rfl
        | ok rest => cases amended <;> exact ⟨nofun, nofun⟩
      rw [hall, ih]
      constructor
      · rintro ⟨before, first, after, rfl, hbefore, hfirst⟩
        exact ⟨row :: before, first, after, .inr ⟨before, rfl, rfl⟩,
          List.forall_mem_cons.2 ⟨⟨amended, hrow⟩, hbefore⟩, hfirst⟩
      · rintro ⟨before, first, after, ⟨rfl, h⟩ | ⟨before, rfl, h⟩, hbefore, hfirst⟩
        · cases h
          cases hrow.symm.trans hfirst
        · exact ⟨before, first, after, h, (List.forall_mem_cons.1 hbefore).2, hfirst⟩

/-- Putting new records at the positions of those after the passed ones that pass a test changes these alone. -/
theorem putAll_found_append (q : Value → Bool) (f : Value → Value) (passed rows : List Value) :
    putAll (((rows.zipIdx passed.length).filter (q ·.1)).map fun e => (f e.1, e.2)) (passed ++ rows) =
      passed ++ rows.map fun r => if q r then f r else r := by
  induction rows generalizing passed with
  | nil => simp [putAll]
  | cons row rows ih =>
    have hrest (new : Value) := ih (passed ++ [new])
    simp only [List.length_append, List.length_singleton, List.append_assoc, List.singleton_append] at hrest
    cases hq : q row with
    | false => simpa [hq] using hrest row
    | true =>
      have hset : (passed ++ row :: rows).set passed.length (f row) = passed ++ f row :: rows := by
        rw [List.set_append_right _ _ (Nat.le_refl _)]
        simp
      rw [found_cons_of_pos hq, List.map_cons, putAll, List.foldl_cons, ← putAll, hset, hrest]
      simp [hq]

theorem onto_of_not_changes {record : Value} (h : update.changes record = false) : update.onto record = record := by
  unfold Update.changes at h
  unfold Update.onto
  split at h
  · rename_i hu
    subst h
    rw [hu]
  · rename_i hu
    rw [hu]

/-- Amending the matching records and putting those that changed back amends every matching record in its place. -/
theorem putAll_amendAll {changed : List (Value × Nat)}
    (h : amendAll update (rows.zipIdx.filter (p ·.1)) = .ok changed) :
    (∀ record ∈ rows, p record = true → ∃ amended, amended? update record = .ok amended) ∧
      changed.length = rows.countP (fun record => p record && update.changes record) ∧
      putAll changed rows = rows.map fun record => if p record then update.onto record else record := by
  obtain ⟨hfound, rfl⟩ := amendAll_eq_ok h
  have hfilter : (rows.zipIdx.filter (p ·.1)).filter (update.changes ·.1) =
      rows.zipIdx.filter fun e => p e.1 && update.changes e.1 := by
    rw [List.filter_filter]
    exact List.filter_congr fun e _ => Bool.and_comm _ _
  rw [hfilter]
  refine ⟨fun record hmem hp => ?_, ?_, ?_⟩
  · have hfst : record ∈ (rows.zipIdx.filter (p ·.1)).map Prod.fst := by
      rw [map_fst_found]
      exact List.mem_filter.2 ⟨hmem, hp⟩
    obtain ⟨e, he, rfl⟩ := List.mem_map.1 hfst
    exact hfound e he
  · rw [List.length_map, List.countP_eq_length_filter]
    exact length_found (fun record => p record && update.changes record) rows 0
  · refine (putAll_found_append (fun record => p record && update.changes record) update.onto [] rows).trans ?_
    refine List.map_congr_left fun record _ => ?_
    cases hp : p record with
    | false => rfl
    | true =>
      cases hc : update.changes record with
      | false => simp [onto_of_not_changes hc]
      | true => simp

end Store

end RecordStore
