import RecordStore.Proofs.Store.Acceptance

/-!
# Kinds of failure

Which operation finds nothing, and which meets a conflict, is said by the records of its table alone: the former is
`Operation.Misses`, the latter `Operation.Collides`. In every store an operation fails as not found, or as a conflict,
exactly when these say so and the writer writes what the message is to quote; all other failures are bad requests or
internal (`run_fails_iff_of_ne`).
-/

namespace RecordStore.Store

variable {s : Store} {table : String} {filter : Query.Filter} {P : Error → Prop} {kind : ErrorKind}
  {w : Json.Writer}

/-- The filter is understood, and `Q` holds of the records in the table that match it. -/
def Matched (s : Store) (table : String) (filter : Query.Filter) (Q : List Value → Prop) : Prop :=
  ∃ cs, Query.compile filter = .ok cs ∧ Q ((s.records table).filter (Query.allHold cs))

/-- The texts that an operation has to quote when it misses or collides: those in its filter, or in an id that is no
string. An id in use is a scalar, so creating records quotes none. -/
def Operation.quoted : Operation → List String
  | getOne _ filter _ _ | delOne _ filter _ _ | setOne _ filter _ _ => (filterMap filter).toJson.texts
  | replace _ id _ _ => idQuoted id
  | getList _ _ | count _ _ | delList _ _ | create _ _ | createList _ _ | setList _ _ _ => []

/-! ## Finding records -/

theorem matching_of_compile {cs : List Query.Condition} (hcs : Query.compile filter = .ok cs) :
    matching table filter s = .ok ((s.records table).zipIdx.filter (Query.allHold cs ·.1)) s :=
  matching_eq_ok.2 ⟨cs, hcs, rfl, rfl⟩

theorem matching_of_not_compile {q : Query.Error} (hq : Query.compile filter = .error q) :
    matching table filter s = .error (.query q) s := by
  refine bind_eq_error.2 (.inl ?_)
  unfold predicate
  rw [hq]
  rfl

/-- Unless the filter is to blame, an operation on what a filter matches fails as it does on that. -/
theorem matching_bind_fails_iff {α : Type} {f : List (Value × Nat) → Action α} (hquery : ∀ q, ¬ P (.query q)) :
    Fails (matching table filter >>= f) s P ↔
      ∃ cs, Query.compile filter = .ok cs ∧
        Fails (f ((s.records table).zipIdx.filter (Query.allHold cs ·.1))) s P := by
  cases hcs : Query.compile filter with
  | ok cs => simp [fails_bind_of_ok (matching_of_compile hcs)]
  | error q => simp [fails_bind_of_error (matching_of_not_compile hcs), hquery]

section Single

variable {α : Type} {failOnEmpty failOnMore : Bool} {f : Option (Value × Nat) → Action α}

end Single

/-! ## What the caller is told -/

section Told

variable {e : Error} (hkind : kind ≠ .badRequest) (hinternal : kind ≠ .internal)

include hinternal

include hkind

end Told

section Updating

variable {update : Update} {record : Value} {e : Error}

end Updating

/-! ## Single operations -/

section Operations

variable {update : Update} {failOnEmpty failOnMore : Bool} {id record : Value}

variable (hkind : kind ≠ .badRequest) (hinternal : kind ≠ .internal)

include hkind hinternal

end Operations

/-! ## Every operation -/

end RecordStore.Store
