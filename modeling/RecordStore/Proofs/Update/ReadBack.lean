import RecordStore.Proofs.Query.Compile
import RecordStore.Proofs.Query.Reach
import RecordStore.Proofs.Sequence
import RecordStore.Proofs.Update.Children
import RecordStore.Proofs.Value.Equality
import RecordStore.Update.Basic

/-!
# What is set is found

Setting and matching follow a path on their own, but agree on what a segment names: where a path leads after room was
made for it (`exists_lookup_of_populate`), the value that is set is looked up again (`lookup_setEntry`), and what can be
looked up is among the contents that a filter tests (`reaches_of_lookup`). So a scalar that was set at a path is found
there by a filter (`selects_of_set`).
-/

namespace RecordStore

namespace Query

/-- Matching reaches what can be looked up. -/
theorem reaches_of_lookup {path : List String} {v x : Value} (h : Path.lookup path v = some x) : Reaches path v x := by
  induction path generalizing v with
  | nil =>
    cases h
    exact .here _
  | cons s path ih =>
    cases v with
    | map ms =>
      obtain ⟨member, hmember, h⟩ := Option.bind_eq_some_iff.1 h
      exact .member hmember (ih h)
    | arr items =>
      obtain ⟨element, helement, h⟩ := Option.bind_eq_some_iff.1 h
      exact .index helement (ih h)
    | _ => cases h

theorem equalsOrContains_self {v : Value} (h : v.isScalar = true) : equalsOrContains v v = (v == v) := by
  cases v with
  | arr _ | map _ => cases h
  | _ => rfl

end Query

namespace Update

/-! ## Making room -/

/-- Room is made for a path so that it leads somewhere. -/
theorem exists_lookup_of_populate {path : List String} {v v' : Value} (h : populate path v = .ok v') :
    ∃ x, Path.lookup path v' = some x := by
  induction path generalizing v v' with
  | nil => exact ⟨v', rfl⟩
  | cons s path ih =>
    obtain ⟨hroom, c, hc, rfl⟩ := populate_cons_eq_ok.1 h
    obtain ⟨x, hx⟩ := ih hc
    exact ⟨x, by rw [Path.lookup_cons, lookup_withChild hroom, Option.bind_some, hx]⟩

/-! ## Setting -/

section Setting

variable {dotted : String} {v record record' : Value}

theorem populateAt_eq_ok {path : List String} :
    populateAt path record = .ok () record' ↔ populate path record = .ok record' := by
  unfold populateAt
  cases populate path record <;> simp

theorem populateAt_eq_error {path : List String} {e : Error} : populateAt path record = .error e record' ↔
    ∃ b, populate path record = .error b ∧ e = .blocked path b ∧ record' = record := by
  unfold populateAt
  cases populate path record <;> simp [eq_comm]

theorem patchAt_eq_ok {path : List String} : patchAt path v record = .ok () record' ↔
    ∃ new, Patch.apply v ((Path.lookup path record).getD .null) = .ok () new ∧
      record' = Path.replaceAt path new record := by
  unfold patchAt
  cases Patch.apply v ((Path.lookup path record).getD .null) <;> simp [eq_comm]

theorem patchAt_eq_error {path : List String} {e : Error} : patchAt path v record = .error e record' ↔
    ∃ inner reached, Patch.apply v ((Path.lookup path record).getD .null) = .error inner reached ∧ e = .patch inner ∧
      record' = Path.replaceAt path reached record := by
  unfold patchAt
  cases Patch.apply v ((Path.lookup path record).getD .null) <;> simp [eq_comm, and_assoc]

/-- A setting makes room at its path and puts there what its value makes, as a patch, of what is there. -/
theorem setEntry_eq_ok {path : List String} (hpath : Path.segments? dotted = some path) :
    setEntry dotted v record = .ok () record' ↔ ∃ roomy old new, populate path record = .ok roomy ∧
      Path.lookup path roomy = some old ∧ Patch.apply v old = .ok () new ∧ record' = Path.replaceAt path new roomy := by
  unfold setEntry withPath
  rw [hpath]
  dsimp only
  simp only [bind_eq_ok, patchAt_eq_ok]
  constructor
  · rintro ⟨_, roomy, hroom, new, hnew, hrecord⟩
    replace hroom := populateAt_eq_ok.1 hroom
    obtain ⟨old, hold⟩ := exists_lookup_of_populate hroom
    rw [hold] at hnew
    exact ⟨roomy, old, new, hroom, hold, hnew, hrecord⟩
  · rintro ⟨roomy, old, new, hroom, hold, hnew, hrecord⟩
    exact ⟨(), roomy, populateAt_eq_ok.2 hroom, new, by rwa [hold], hrecord⟩

/-- What is no map replaces what it is applied to. -/
theorem apply_of_ne_map (hv : ∀ ms, v ≠ .map ms) (old new : Value) : Patch.apply v old = .ok () new ↔ new = v := by
  cases v with
  | map ms => exact absurd rfl (hv ms)
  | _ => simp [Patch.apply, eq_comm]

/-- What is set at a path is looked up there, if it is no map. -/
theorem lookup_setEntry {path : List String} (hpath : Path.segments? dotted = some path) (hv : ∀ ms, v ≠ .map ms)
    (h : setEntry dotted v record = .ok () record') : Path.lookup path record' = some v := by
  obtain ⟨roomy, old, new, -, hold, hnew, rfl⟩ := (setEntry_eq_ok hpath).1 h
  rw [Path.lookup_replaceAt new hold, (apply_of_ne_map hv old new).1 hnew]

/-- An update that only sets. -/
def ofSet (set : List (String × Value)) : Update := ⟨set, [], [], [], [], []⟩

theorem apply_eq_ok {u : Update} {changed : Bool} :
    u.apply record = .ok changed record' ↔ u.run record = .ok () record' ∧ (!(record' == record)) = changed := by
  simp only [apply, bind_eq_ok, get_eq_ok, pure_eq_ok]
  constructor
  · rintro ⟨_, _, ⟨rfl, rfl⟩, _, _, hrun, _, _, ⟨rfl, rfl⟩, hchanged, rfl⟩
    exact ⟨hrun, hchanged⟩
  · rintro ⟨hrun, hchanged⟩
    exact ⟨_, _, ⟨rfl, rfl⟩, _, _, hrun, _, _, ⟨rfl, rfl⟩, hchanged, rfl⟩

theorem run_ofSet (set : List (String × Value)) : (ofSet set).run = set.forM fun (path, v) => setEntry path v := by
  simp [run, ofSet]

theorem run_ofSet_singleton (dotted : String) (v : Value) : (ofSet [(dotted, v)]).run = setEntry dotted v := by
  simp [run_ofSet]

end Setting

/-! ## Finding -/

/-- A scalar other than null and the words that are no number equals itself, so it passes as its own target. -/
theorem holds_compare_of_lookup {path : List String} {v record : Value} (hscalar : v.isScalar = true)
    (hnull : v ≠ .null) (hnan : ∀ x, v = .real x → x.isNaN = false) (h : Path.lookup path record = some v) :
    (Query.Condition.compare path .eq v).holds record = true := by
  have hpass : Query.Operator.eq.holds v v = true := by
    rw [Query.Operator.holds, Query.equalsOrContains_self hscalar]
    exact Value.beq_self_of_isScalar hscalar hnan
  have hseeks : v.isNull = Query.Operator.eq.isNegated := Value.isNull_eq_false_iff.2 hnull
  rw [Query.holds_compare_iff, if_pos hseeks]
  exact ⟨v, Query.reaches_of_lookup h, hpass⟩

/-- A scalar that an update sets at a dotted path, whatever the path crosses, is found by a filter on that path. -/
theorem selects_of_set {dotted : String} {path : List String} {v record record' : Value} {changed : Bool}
    (hpath : Path.segments? dotted = some path) (hinner : ¬ Query.HasInnerAnyIndex path)
    (hscalar : v.isScalar = true) (hnull : v ≠ .null) (hnan : ∀ x, v = .real x → x.isNaN = false)
    (h : (ofSet [(dotted, v)]).apply record = .ok changed record') :
    Query.Filter.selects [(Query.keyOf dotted .eq, v)] record' = .ok true := by
  have hset := (apply_eq_ok.1 h).1
  rw [run_ofSet_singleton] at hset
  have hmap : ∀ ms, v ≠ .map ms := by
    rintro ms rfl
    cases hscalar
  have hlookup := lookup_setEntry hpath hmap hset
  rw [Query.selects_keyOf hpath hinner, holds_compare_of_lookup hscalar hnull hnan hlookup]

/-- The path crosses an integer key, an array with an element at its index, an empty array, and a null that pads it. -/
theorem selects_of_set_padded :
    let record : Value := .map [(.int 7, .map [(.str "a", .arr [.null, .arr []])])]
    let record' : Value :=
      .map [(.int 7, .map [(.str "a", .arr [.null, .arr [.null, .null, .map [(.str "b", .bool false)]]])])]
    (ofSet [("7.a.1.2.b", .bool false)]).apply record = .ok true record' ∧
      Query.Filter.selects [("7.a.1.2.b.eq", .bool false)] record' = .ok true := by
  intro record record'
  let roomy : Value := .map [(.int 7, .map [(.str "a", .arr [.null, .arr [.null, .null, .map [(.str "b", .null)]]])])]
  have hpath : Path.segments? "7.a.1.2.b" = some ["7", "a", "1", "2", "b"] := rfl
  have hpadded : populate ["2", "b"] (.arr []) = .ok (.arr [.null, .null, .map [(.str "b", .null)]]) :=
    populate_arr_eq_ok.2 ⟨2, _, rfl, by decide, rfl, rfl⟩
  have helement : populate ["1", "2", "b"] (.arr [.null, .arr []]) =
      .ok (.arr [.null, .arr [.null, .null, .map [(.str "b", .null)]]]) :=
    populate_arr_eq_ok.2 ⟨1, _, rfl, by decide, hpadded, rfl⟩
  have hroom : populate ["7", "a", "1", "2", "b"] record = .ok roomy :=
    map_mapError_eq_ok.2 ⟨_, map_mapError_eq_ok.2 ⟨_, helement, rfl⟩, rfl⟩
  have hset : setEntry "7.a.1.2.b" (.bool false) record = .ok () record' :=
    (setEntry_eq_ok hpath).2 ⟨roomy, .null, .bool false, hroom, rfl, rfl, rfl⟩
  have happly : (ofSet [("7.a.1.2.b", .bool false)]).apply record = .ok true record' :=
    apply_eq_ok.2 ⟨by rw [run_ofSet_singleton, hset], rfl⟩
  exact ⟨happly, selects_of_set hpath (by decide) rfl nofun nofun happly⟩

end Update

end RecordStore
