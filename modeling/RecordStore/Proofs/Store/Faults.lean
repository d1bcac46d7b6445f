import RecordStore.Proofs.Json.Quoted
import RecordStore.Proofs.Store.Identified
import RecordStore.Proofs.Store.Kinds
import RecordStore.Proofs.Update.Faults
import RecordStore.Proofs.Uuid

/-!
# Which failures there are

When an operation fails as not found or as a conflict is said by the records of its table. The message of such a failure
quotes the filter, or an id, and where the writer refuses these texts an internal failure stands in its place; no other
way leads to one. For the strings in the records of a store come from earlier operations (`Writable`), and from what is
given to them and written by the writer nothing is made that is not (`faultFree_run`, `writable_afterAll`).
-/

namespace RecordStore

/-! ## Generated ids -/

namespace Uuid

theorem toNat_lt_of_isHexDigit {c : Char} (h : isHexDigit c = true) : c.toNat < 128 := by
  rcases Bool.or_eq_true_iff.1 h with h | h
  · exact Nat.lt_of_le_of_lt (Char.isDigit_iff_toNat.1 h).2 (by decide)
  · obtain ⟨-, hf⟩ := Bool.and_eq_true_iff.1 h
    exact Nat.lt_of_le_of_lt (of_decide_eq_true hf) (by decide)

theorem toNat_lt_of_mem_grouped {sizes : List Nat} {bs : List UInt8} {c : Char} (h : c ∈ grouped sizes bs) :
    c.toNat < 128 := by
  have hdigit {bs : List UInt8} (h : c ∈ bs.flatMap hexByte) : c.toNat < 128 := by
    obtain ⟨b, -, h⟩ := List.mem_flatMap.1 h
    exact toNat_lt_of_isHexDigit (isHexDigit_of_mem_hexByte h)
  fun_induction grouped sizes bs with
  | case1 => cases h
  | case2 n bs => exact hdigit h
  | case3 bs n sizes hne ih =>
    rcases List.mem_append.1 h with h | h
    · exact hdigit h
    · rcases List.mem_cons.1 h with rfl | h
      · decide
      · exact ih h

theorem isAscii_ofWords (low high : UInt64) : Json.IsAscii (ofWords low high) := by
  intro c hc
  rw [ofWords, String.toList_ofList] at hc
  exact toNat_lt_of_mem_grouped hc

end Uuid

namespace Store

variable {w : Json.Writer} {s : Store} {table : String} {filter : Query.Filter} {update : Update} {record id : Value}
  {α β : Type}

/-! ## What is written -/

/-- The writer writes all strings and keys in what the operation is given. -/
def Operation.Written (w : Json.Writer) : Operation → Prop
  | getList _ filter | count _ filter | getOne _ filter _ _ | delList _ filter | delOne _ filter _ _ =>
    (filterMap filter).WrittenBy w
  | create _ record => record.WrittenBy w
  | createList _ records => ∀ record ∈ records, record.WrittenBy w
  | replace _ id record _ => id.WrittenBy w ∧ record.WrittenBy w
  | setOne _ filter update _ | setList _ filter update =>
    (filterMap filter).WrittenBy w ∧ ∀ v ∈ update.documents, v.WrittenBy w

theorem writesAll_idQuoted (h : id.WrittenBy w) : w.WritesAll (idQuoted id) := by
  cases id with
  | str _ => exact w.writesAll_nil
  | _ => exact h.writesAll_texts

/-- The messages of the store are written by the writer, and so are all strings in its records. -/
structure Writable (w : Json.Writer) (s : Store) : Prop where
  writer : s.writer = w
  strings : ∀ table, ∀ record ∈ s.records table, record.AllStrings w.Writes

theorem Writable.setRecords (hs : Writable w s) {rows : List Value}
    (hrows : ∀ record ∈ rows, record.AllStrings w.Writes) : Writable w (s.setRecords table rows) where
  writer := hs.writer
  strings t record hrecord := by
    rw [records_setRecords] at hrecord
    split at hrecord
    · exact hrows record hrecord
    · exact hs.strings t record hrecord

/-! ## Actions without faults -/

/-- On a store whose strings are written the action runs into no fault, and leaves one whose strings are written; `R`
holds of its result. -/
abbrev FaultFree (w : Json.Writer) (x : Action α) (R : α → Prop) : Prop :=
  Maintains (Writable w) (fun e s => e.fault? w = none ∧ Writable w s) x R

variable {R : α → Prop}

theorem faultFree_throw {e : Error} (he : e.fault? w = none) : FaultFree w (throw e : Action α) R :=
  .throw fun _ hs => ⟨he, hs⟩

theorem faultFree_guarded {x : Action α} (hx : FaultFree w x R) : FaultFree w (guarded x) R where
  ok s a s' hs h := hx.ok s a s' hs (guarded_eq_ok.1 h)
  error s e s' hs h := by
    obtain ⟨inner, hinner, rfl⟩ := guarded_eq_error.1 h
    obtain ⟨hnone, hs'⟩ := hx.error s inner s' hs hinner
    rw [hs.writer, Error.reported_of_no_fault hnone]
    exact ⟨hnone, hs'⟩

/-- An action that puts records of written strings into a table in its last step. -/
theorem faultFree_setRecords {rows : Store → List Value} {a : α}
    (hrows : ∀ s, Writable w s → ∀ record ∈ rows s, record.AllStrings w.Writes) (ha : R a) :
    FaultFree w (do modify fun s => s.setRecords table (rows s); return a) R :=
  .bind (.modify fun s hs => hs.setRecords (hrows s hs)) fun _ _ => .pure ha

/-! ## Finding records -/

theorem faultFree_predicate : FaultFree w (predicate filter) fun _ => True := by
  unfold predicate
  split
  · exact .pure trivial
  · exact faultFree_throw rfl

theorem faultFree_matching :
    FaultFree w (matching table filter) fun found => ∀ r ∈ found, r.1.AllStrings w.Writes := by
  refine .bind faultFree_predicate fun p _ => .bind .get fun s hs => .pure fun r hr => ?_
  exact hs.strings table r.1 (List.fst_mem_of_mem_zipIdx (List.mem_filter.1 hr).1)

theorem faultFree_single {failOnEmpty failOnMore : Bool} {found : List α}
    (hfilter : w.WritesAll (filterMap filter).toJson.texts) (hfound : ∀ r ∈ found, R r) :
    FaultFree w (single filter failOnEmpty failOnMore found) fun first => ∀ r ∈ first, R r := by
  have hquoted := Json.Writer.fault?_eq_none_iff.2 hfilter
  cases found with
  | nil =>
    rw [single]
    split
    · exact faultFree_throw hquoted
    · exact .pure fun r hr => absurd hr (Option.not_mem_none r)
  | cons first more =>
    rw [single]
    split
    · exact faultFree_throw hquoted
    · refine .pure ?_
      rintro _ ⟨⟩
      exact hfound first List.mem_cons_self

/-! ## Preparing records -/

theorem faultFree_freshId : FaultFree w freshId (·.AllStrings w.Writes) where
  ok s id s' hs h := by
    obtain ⟨rfl, rfl⟩ := freshId_eq_ok.1 h
    exact ⟨⟨hs.writer, hs.strings⟩, Value.allStrings_str_iff.2 (w.refusal?_of_isAscii _ (Uuid.isAscii_ofWords _ _))⟩
  error := nofun

theorem faultFree_prepare {others : List Value} (hrecord : record.WrittenBy w) :
    FaultFree w (prepare table others record) fun r => r.2.AllStrings w.Writes := by
  cases record with
  | map ms =>
    have hid : ((Entries.find? idKey ms).getD .null).WrittenBy w := by
      cases hfind : Entries.find? idKey ms with
      | none => exact (Value.writtenBy_of_isScalar rfl).2 nofun
      | some id => exact hrecord.of_part (.member (Entries.mem_of_find? hfind) .self)
    have hfresh : FaultFree w (do let id ← freshId; return (id, Value.map (Entries.insert idKey id ms)))
        fun r => r.2.AllStrings w.Writes :=
      .bind faultFree_freshId fun id hid => .pure (Value.allStrings_insert hid hrecord.strings)
    rw [prepare_map]
    generalize (Entries.find? idKey ms).getD .null = id at hid
    split
    · exact hfresh
    · exact hfresh
    · split
      · exact faultFree_throw (Json.Writer.fault?_eq_none_iff.2 hid.writesAll_texts)
      · split
        case isTrue hscalar _ => exact faultFree_throw (Error.fault?_duplicateId table (by simpa using hscalar))
        case isFalse => exact .pure hrecord.strings
  | _ => exact faultFree_throw rfl

theorem faultFree_prepareAll {others records : List Value} (hrecords : ∀ record ∈ records, record.WrittenBy w) :
    FaultFree w (prepareAll table others records) fun r => ∀ record ∈ r.2, record.AllStrings w.Writes := by
  induction records generalizing others with
  | nil => exact .pure (List.forall_mem_nil _)
  | cons record records ih =>
    obtain ⟨hrecord, hrecords⟩ := List.forall_mem_cons.1 hrecords
    refine .bind (faultFree_prepare hrecord) fun _ hnew => .bind (ih hrecords) fun _ hadded => .pure ?_
    exact List.forall_mem_cons.2 ⟨hnew, hadded⟩

/-! ## Amending records -/

section Amending

variable (hupdate : ∀ v ∈ update.documents, v.AllStrings w.Writes)

include hupdate

theorem allStrings_onto (hrecord : record.AllStrings w.Writes) : (update.onto record).AllStrings w.Writes := by
  unfold Update.onto
  split
  case h_1 new happly => exact ((Update.maintains_apply hupdate).ok record true new hrecord happly).1
  case h_2 => exact hrecord

theorem allStrings_amended {amended : Option Value} (hrecord : record.AllStrings w.Writes)
    (h : amended? update record = .ok amended) : ∀ new ∈ amended, new.AllStrings w.Writes := by
  obtain ⟨rfl, -, -⟩ := amended?_eq_ok h
  intro new hnew
  obtain ⟨-, ⟨⟩⟩ := Option.ite_none_right_eq_some.1 hnew
  exact allStrings_onto hupdate hrecord

theorem fault?_of_amended? {e : Error} (hrecord : record.AllStrings w.Writes)
    (h : amended? update record = .error e) : e.fault? w = none := by
  obtain ⟨inner, reached, happly, rfl⟩ | rfl := amended?_eq_error h
  · exact (Update.maintains_apply hupdate).error record inner reached hrecord happly
  · rfl

end Amending

theorem mem_putAll {changed : List (Value × Nat)} {rows : List Value} (h : record ∈ putAll changed rows) :
    record ∈ changed.map Prod.fst ∨ record ∈ rows := by
  induction changed generalizing rows with
  | nil => exact .inr h
  | cons new changed ih =>
    rcases ih h with h | h
    · exact .inl (List.mem_cons_of_mem _ h)
    · rcases List.mem_or_eq_of_mem_set h with h | rfl
      · exact .inr h
      · exact .inl List.mem_cons_self

theorem eraseAll_sublist (positions : List Nat) (rows : List Value) : (eraseAll positions rows).Sublist rows := by
  induction positions with
  | nil => exact .refl _
  | cons i positions ih => exact (List.eraseIdx_sublist _ _).trans ih

/-! ## Single operations -/

section Operations

variable {failOnEmpty failOnMore : Bool}

theorem faultFree_getList : FaultFree w (getList table filter) fun _ => True :=
  faultFree_guarded (.bind faultFree_matching fun _ _ => .pure trivial)

theorem faultFree_count : FaultFree w (count table filter) fun _ => True :=
  faultFree_guarded (.bind faultFree_matching fun _ _ => .pure trivial)

theorem faultFree_delList : FaultFree w (delList table filter) fun _ => True := by
  refine faultFree_guarded (.bind faultFree_matching fun found _ => ?_)
  refine faultFree_setRecords (fun s hs record hrecord => ?_) trivial
  exact hs.strings table record ((eraseAll_sublist _ _).subset hrecord)

theorem faultFree_create (hrecord : record.WrittenBy w) : FaultFree w (create table record) fun _ => True := by
  refine faultFree_guarded (.bind .get fun s hs => .bind (faultFree_prepare hrecord) fun _ hnew => ?_)
  refine faultFree_setRecords (fun _ _ => List.forall_mem_append.2 ⟨hs.strings table, ?_⟩) trivial
  exact List.forall_mem_singleton.2 hnew

theorem faultFree_createList {records : List Value} (hrecords : ∀ record ∈ records, record.WrittenBy w) :
    FaultFree w (createList table records) fun _ => True := by
  refine faultFree_guarded (.bind .get fun s hs => .bind (faultFree_prepareAll hrecords) fun _ hadded => ?_)
  exact faultFree_setRecords (fun _ _ => List.forall_mem_append.2 ⟨hs.strings table, hadded⟩) trivial

theorem faultFree_replace (hid : id.WrittenBy w) (hrecord : record.WrittenBy w) :
    FaultFree w (replace table id record failOnEmpty) fun _ => True := by
  cases record with
  | map ms =>
    rw [replace_map]
    refine faultFree_guarded ?_
    split
    · exact faultFree_throw rfl
    · refine .bind .get fun s hs => ?_
      dsimp only
      split
      · refine faultFree_setRecords (fun _ _ record hrecord' => ?_) trivial
        rcases List.mem_or_eq_of_mem_set hrecord' with hold | rfl
        · exact hs.strings table record hold
        · exact Value.allStrings_insert hid.strings hrecord.strings
      · split
        · exact faultFree_throw (Json.Writer.fault?_eq_none_iff.2 (writesAll_idQuoted hid))
        · exact .pure trivial
  | _ => exact faultFree_guarded (faultFree_throw rfl)

section Filtered

variable (hfilter : (filterMap filter).WrittenBy w)

include hfilter

theorem faultFree_getOne : FaultFree w (getOne table filter failOnEmpty failOnMore) fun _ => True := by
  refine faultFree_guarded (.bind faultFree_matching fun found hfound => ?_)
  exact .bind (faultFree_single hfilter.writesAll_texts hfound) fun _ _ => .pure trivial

theorem faultFree_delOne : FaultFree w (delOne table filter failOnEmpty failOnMore) fun _ => True := by
  refine faultFree_guarded (.bind faultFree_matching fun found hfound => ?_)
  refine .bind (faultFree_single hfilter.writesAll_texts hfound) fun first _ => ?_
  cases first with
  | none => exact .pure trivial
  | some first =>
    refine faultFree_setRecords (fun s hs record hrecord => ?_) trivial
    exact hs.strings table record ((List.eraseIdx_sublist _ _).subset hrecord)

theorem faultFree_setOne (hupdate : ∀ v ∈ update.documents, v.AllStrings w.Writes) :
    FaultFree w (setOne table filter update failOnEmpty) fun _ => True := by
  refine faultFree_guarded (.bind faultFree_matching fun found hfound => ?_)
  refine .bind (faultFree_single hfilter.writesAll_texts hfound) fun first hfirst => ?_
  cases first with
  | none => exact .pure trivial
  | some first =>
    have hrecord := hfirst first rfl
    refine .bind (.ofExcept (fun _ => allStrings_amended hupdate hrecord) fun e he s hs => ?_) fun amended hnew => ?_
    · exact ⟨fault?_of_amended? hupdate hrecord he, hs⟩
    · cases amended with
      | none => exact .pure trivial
      | some new =>
        refine faultFree_setRecords (fun s hs record hrecord => ?_) trivial
        rcases List.mem_or_eq_of_mem_set hrecord with hold | rfl
        · exact hs.strings table record hold
        · exact hnew record rfl

end Filtered

theorem faultFree_setList (hupdate : ∀ v ∈ update.documents, v.AllStrings w.Writes) :
    FaultFree w (setList table filter update) fun _ => True := by
  refine faultFree_guarded (.bind faultFree_matching fun found hfound => ?_)
  split
  · exact .pure trivial
  · have hchanged : ∀ changed, amendAll update found = .ok changed →
        ∀ new ∈ changed.map Prod.fst, new.AllStrings w.Writes := by
      intro changed h
      obtain ⟨-, rfl⟩ := amendAll_eq_ok h
      simp only [List.map_map, List.forall_mem_map]
      exact fun e he => allStrings_onto hupdate (hfound e (List.mem_filter.1 he).1)
    refine .bind (.ofExcept hchanged fun e he s hs => ?_) fun changed hchanged => ?_
    · obtain ⟨_, first, _, rfl, -, hfirst⟩ := amendAll_eq_error_iff.1 he
      exact ⟨fault?_of_amended? hupdate (hfound first (by simp)) hfirst, hs⟩
    · refine faultFree_setRecords (fun s hs record hrecord => ?_) trivial
      exact (mem_putAll hrecord).elim (hchanged record) (hs.strings table record)

end Operations

/-! ## Every operation -/

theorem FaultFree.map {x : Action α} (hx : FaultFree w x R) (f : α → β) :
    FaultFree w (do return f (← x)) fun _ => True :=
  .bind hx fun _ _ => .pure trivial

/-- What is written never leads to a fault, nor to anything that is not written. -/
theorem faultFree_run {op : Operation} (h : op.Written w) : FaultFree w op.run fun _ => True := by
  cases op with
  | getList _ _ => exact faultFree_getList.map _
  | count _ _ => exact faultFree_count.map _
  | getOne _ _ _ _ => exact (faultFree_getOne h).map _
  | delList _ _ => exact faultFree_delList.map _
  | delOne _ _ _ _ => exact (faultFree_delOne h).map _
  | create _ _ => exact (faultFree_create h).map _
  | createList _ _ => exact (faultFree_createList h).map _
  | replace _ _ _ _ => exact (faultFree_replace h.1 h.2).map _
  | setOne _ _ _ _ => exact (faultFree_setOne h.1 fun v hv => (h.2 v hv).strings).map _
  | setList _ _ _ => exact (faultFree_setList fun v hv => (h.2 v hv).strings).map _

theorem Writable.after {op : Operation} (hs : Writable w s) (h : op.Written w) : Writable w (s.after op) := by
  unfold Store.after
  cases hrun : op.run s with
  | ok a s' => exact ((faultFree_run h).ok s a s' hs hrun).1
  | error e s' => exact ((faultFree_run h).error s e s' hs hrun).2

theorem Writable.afterAll (hs : Writable w s) {history : List Operation} (h : ∀ op ∈ history, op.Written w) :
    Writable w (s.afterAll history) := by
  induction history generalizing s with
  | nil => exact hs
  | cons op history ih =>
    obtain ⟨hop, hhistory⟩ := List.forall_mem_cons.1 h
    exact ih (hs.after hop) hhistory

end Store

end RecordStore
