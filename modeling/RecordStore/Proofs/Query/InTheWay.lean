import RecordStore.Proofs.Query.Range
import RecordStore.Proofs.Update.Children
import RecordStore.Proofs.Value.Equality

/-!
# Scalars in the way

Where a path comes to a scalar before its end, a comparison gives the outcome that it does not seek, and where it comes
to a map without the member, it tests null. These are the same outcome unless the target is a list with null in it: what
is missing is in the list, and a scalar in the way is not (`not_seeks_eq_iff`). So the scalar that a path through maps
comes to may be replaced by null, or its member taken away, and a comparison at a longer path says what it said before;
but with such a list as the target it then says the opposite (`scalar_reads_as_missing`).
-/

namespace RecordStore

namespace Query

/-- The target is a list with null in it. -/
def ListsNull (target : Value) : Prop := ∃ wanted, target = .arr wanted ∧ .null ∈ wanted

/-- The path leads through maps alone. -/
inductive ThroughMaps : List String → Value → Value → Prop
  | here (v : Value) : ThroughMaps [] v v
  | member {s : String} {path : List String} {ms : Members} {v x : Value} : Path.child? ms s = some v →
      ThroughMaps path v x → ThroughMaps (s :: path) (.map ms) x

section InTheWay

variable {path rest : List String} {s : String} {op : Operator} {target v x : Value} {ms : Members}

/-! ## One content -/

theorem holds_null (path : List String) (op : Operator) (target : Value) :
    (Condition.compare path op target).holds .null = op.holds target .null := by
  cases path <;> rfl

theorem holds_scalar (hscalar : x.isScalar = true) (hnull : x ≠ .null) (hrest : rest ≠ []) :
    (Condition.compare rest op target).holds x = !op.seeks target := by
  obtain ⟨s, rest, rfl⟩ := List.exists_cons_of_ne_nil hrest
  cases x with
  | null => exact absurd rfl hnull
  | arr _ | map _ => cases hscalar
  | _ => rfl

theorem holds_member (h : Path.child? ms s = some v) (path : List String) (op : Operator) (target : Value) :
    (Condition.compare (s :: path) op target).holds (.map ms) = (Condition.compare path op target).holds v := by
  rw [Condition.holds, walk, step, h]
  rfl

theorem holds_missing (h : Path.child? ms s = none) (path : List String) (op : Operator) (target : Value) :
    (Condition.compare (s :: path) op target).holds (.map ms) = op.holds target .null := by
  rw [← holds_null path, Condition.holds, walk, step, h]
  rfl

theorem equalsOrContains_null (h : ¬ ListsNull target) : equalsOrContains .null target = target.isNull := by
  cases target with
  | arr wanted =>
    refine List.any_eq_false.2 fun x hx hbeq => h ⟨wanted, rfl, ?_⟩
    rwa [← Value.eq_null_of_beq hbeq]
  | _ => rfl

theorem equalsOrContains_null_of_listsNull (h : ListsNull target) : equalsOrContains .null target = true := by
  obtain ⟨wanted, rfl, hnull⟩ := h
  exact List.any_eq_true.2 ⟨.null, hnull, rfl⟩

/-- A scalar in the way counts as null does, unless null is in a list of targets. -/
theorem not_seeks_eq_iff (hcomparable : ¬ (op.isRange = true ∧ target = .null)) :
    (!op.seeks target) = op.holds target .null ↔ op.isRange = true ∨ ¬ ListsNull target := by
  cases hrange : op.isRange with
  | true =>
    have htarget : target.isNull = false := Value.isNull_eq_false_iff.2 fun h => hcomparable ⟨hrange, h⟩
    have hholds : op.holds target .null = false := by
      rw [← Bool.not_eq_true, Operator.holds_iff_asks hrange]
      exact op.not_asks_incomparable
    rw [Operator.seeks, htarget, Operator.isNegated_of_isRange hrange, hholds]
    simp
  | false =>
    rw [Bool.false_eq_true, false_or]
    by_cases hlists : ListsNull target
    · have htarget : target.isNull = false := by
        obtain ⟨wanted, rfl, -⟩ := hlists
        rfl
      have hequals := equalsOrContains_null_of_listsNull hlists
      cases op with
      | gt | gte | lt | lte => cases hrange
      | _ => simp [Operator.seeks, Operator.isNegated, Operator.holds, htarget, hequals, hlists]
    · have hequals := equalsOrContains_null hlists
      cases op with
      | gt | gte | lt | lte => cases hrange
      | _ => simp [Operator.seeks, Operator.isNegated, Operator.holds, hequals, hlists]

/-! ## At the end of a path through maps -/

theorem ThroughMaps.holds_append (h : ThroughMaps path v x) (rest : List String) (op : Operator) (target : Value) :
    (Condition.compare (path ++ rest) op target).holds v = (Condition.compare rest op target).holds x := by
  induction h with
  | here v => rfl
  | member hchild _ ih => rw [List.cons_append, holds_member hchild, ih]

theorem ThroughMaps.replaceAt (h : ThroughMaps path v x) (new : Value) :
    ThroughMaps path (Path.replaceAt path new v) new := by
  induction h with
  | here v => exact .here new
  | @member s path ms v x hchild _ ih =>
    rw [Path.replaceAt, hchild]
    refine .member ?_ ih
    have hold : Entries.find? (Path.key ms s) ms = some v := hchild
    rw [Path.child?, Path.key_replace, Entries.find?_replace, hold, if_pos ⟨rfl, rfl⟩]

/-- Once the member is away and the segment names no other one, the rest of the path meets what is missing. -/
theorem ThroughMaps.holds_removeAt (h : ThroughMaps path v x) (hgone : Path.lookup path (Path.removeAt path v) = none)
    (rest : List String) (op : Operator) (target : Value) :
    (Condition.compare (path ++ rest) op target).holds (Path.removeAt path v) = op.holds target .null := by
  induction h with
  | here v => cases hgone
  | @member s path ms v x hchild hpath ih =>
    cases path with
    | nil =>
      have hmissing : Path.child? (Entries.erase (Path.key ms s) ms) s = none := by
        rw [← Path.lookup_singleton_map]
        exact hgone
      exact holds_missing hmissing rest op target
    | cons t path =>
      have hremove : Path.removeAt (s :: t :: path) (.map ms) =
          Path.replaceAt [s] (Path.removeAt (t :: path) v) (.map ms) := by
        rw [Path.removeAt, Path.lookup_singleton_map, hchild]
        exact nofun
      have hstep := (ThroughMaps.member hchild (.here v)).replaceAt (Path.removeAt (t :: path) v)
      rw [← hremove] at hstep
      rw [List.cons_append, ← List.singleton_append, hstep.holds_append]
      refine ih ?_
      generalize Path.removeAt (s :: t :: path) (.map ms) = removed at hstep hgone
      cases hstep with
      | member hchild' hhere =>
        cases hhere
        rwa [Path.lookup, hchild'] at hgone

/-! ## Reading as missing -/

/-- To a comparison other than a range operator with null as its target, a scalar in the way reads as what is missing
just when it is a range operator or null is not in a list of targets. Just then documents in which a path through maps
comes to the scalar read the same with it, with null in its place, and without the member; unless, without it, the path
leads to another member, as in a map that has the text of the segment for an integer key. -/
theorem scalar_reads_as_missing (hcomparable : ¬ (op.isRange = true ∧ target = .null)) (hscalar : x.isScalar = true)
    (hnull : x ≠ .null) (hrest : rest ≠ []) :
    (∀ ms s, Path.child? ms s = none →
      ((Condition.compare rest op target).holds x = (Condition.compare (s :: rest) op target).holds (.map ms) ↔
        op.isRange = true ∨ ¬ ListsNull target)) ∧
    ∀ path v, ThroughMaps path v x →
      ((Condition.compare (path ++ rest) op target).holds v =
          (Condition.compare (path ++ rest) op target).holds (Path.replaceAt path .null v) ↔
        op.isRange = true ∨ ¬ ListsNull target) ∧
      (Path.lookup path (Path.removeAt path v) = none →
        ((Condition.compare (path ++ rest) op target).holds v =
            (Condition.compare (path ++ rest) op target).holds (Path.removeAt path v) ↔
          op.isRange = true ∨ ¬ ListsNull target)) := by
  have hx : (Condition.compare rest op target).holds x = !op.seeks target := holds_scalar hscalar hnull hrest
  have hiff := not_seeks_eq_iff hcomparable
  refine ⟨fun ms s hmissing => ?_, fun path v hpath => ⟨?_, fun hgone => ?_⟩⟩
  · rw [holds_missing hmissing, hx, hiff]
  · rw [hpath.holds_append, (hpath.replaceAt .null).holds_append, holds_null, hx, hiff]
  · rw [hpath.holds_append, hpath.holds_removeAt hgone, hx, hiff]

/-- A number under an integer key, two segments before the end of the path. -/
theorem scalar_reads_as_missing_under_integer_key :
    let doc : Value := .map [(.str "a", .map [(.int 5, .int 4), (.str "b", .null)])]
    let condition := Condition.compare ["a", "5", "b", "c"] .ncont (.arr [.int 4, .str "x"])
    (¬ (Operator.ncont.isRange = true ∧ Value.arr [.int 4, .str "x"] = .null) ∧ (Value.int 4).isScalar = true ∧
        Value.int 4 ≠ .null ∧ ["b", "c"] ≠ [] ∧ ThroughMaps ["a", "5"] doc (.int 4) ∧
        Path.lookup ["a", "5"] (Path.removeAt ["a", "5"] doc) = none) ∧
      condition.holds doc = condition.holds (Path.replaceAt ["a", "5"] .null doc) ∧
      condition.holds doc = condition.holds (Path.removeAt ["a", "5"] doc) := by
  intro doc condition
  have hcomparable : ¬ (Operator.ncont.isRange = true ∧ Value.arr [.int 4, .str "x"] = .null) := nofun
  have hnull : Value.int 4 ≠ .null := nofun
  have hrest : ["b", "c"] ≠ [] := List.cons_ne_nil _ _
  have hpath : ThroughMaps ["a", "5"] doc (.int 4) := .member rfl (.member rfl (.here _))
  have hgone : Path.lookup ["a", "5"] (Path.removeAt ["a", "5"] doc) = none := rfl
  have hlists : Operator.ncont.isRange = true ∨ ¬ ListsNull (.arr [.int 4, .str "x"]) := by
    refine .inr ?_
    rintro ⟨_, ⟨⟩, hmem⟩
    simp at hmem
  obtain ⟨-, hdocs⟩ := scalar_reads_as_missing hcomparable rfl hnull hrest
  obtain ⟨hreplaced, hremoved⟩ := hdocs _ _ hpath
  exact ⟨⟨hcomparable, rfl, hnull, hrest, hpath, hgone⟩, hreplaced.2 hlists, (hremoved hgone).2 hlists⟩

/-- Null in a list of targets is met by what is missing alone; and without the scalar under a text key, its text may
name an integer key. -/
theorem not_reads_as_missing :
    (let doc : Value := .map [(.str "a", .int 4)]
      let condition := Condition.compare ["a", "b"] .eq (.arr [.null, .int 1])
      ThroughMaps ["a"] doc (.int 4) ∧ condition.holds doc ≠ condition.holds (Path.replaceAt ["a"] .null doc) ∧
        condition.holds doc ≠ condition.holds (Path.removeAt ["a"] doc)) ∧
    (let doc : Value := .map [(.int 5, .map [(.str "b", .int 1)]), (.str "5", .int 4)]
      let condition := Condition.compare ["5", "b"] .eq (.int 1)
      ThroughMaps ["5"] doc (.int 4) ∧ condition.holds doc ≠ condition.holds (Path.removeAt ["5"] doc)) :=
  ⟨⟨.member rfl (.here _), by decide, by decide⟩, .member rfl (.here _), by decide⟩

end InTheWay

end Query

end RecordStore
