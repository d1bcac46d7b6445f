import Mathlib.Data.List.Pairwise
import RecordStore.Proofs.Store.Identified

/-!
# Ids within a table

A new record is checked against all ids of its table, a changed one only against its own old id. That would do if
equality were transitive; but a real may equal two integers, and when it takes the place of one among the ids of a
table that has the other too (`Merges`), two ids are equal.

* `distinctIds_after_iff`: an operation keeps ids apart exactly when it merges none;
* `distinctIds_iff_no_merges`: the same along a history.
-/

namespace RecordStore.Store

variable {s s' : Store} {table : String} {others rows rows' all : List Value}

/-- No two of the records have equal ids. -/
abbrev DistinctIds (rows : List Value) : Prop := rows.Pairwise fun r r' => sameId r r' = false

/-- Two records before have different integer ids, and one after has a real id that equals both. -/
def Merges (rows rows' : List Value) : Prop :=
  ∃ r ∈ rows, ∃ r' ∈ rows, ∃ new ∈ rows', ∃ a b x, recordId? r = some a ∧ recordId? r' = some b ∧
    recordId? new = some (.real x) ∧ Value.Conflates x a b

theorem Merges.mono {before after : List Value} (h : Merges before after) (hb : before ⊆ rows) (ha : after ⊆ rows') :
    Merges rows rows' := by
  obtain ⟨r, hr, r', hr', new, hnew, h⟩ := h
  exact ⟨r, hb hr, r', hb hr', new, ha hnew, h⟩

theorem sameId_of_ids {r r' a b : Value} (ha : recordId? r = some a) (hb : recordId? r' = some b) :
    sameId r r' = (b == a) := by
  simp [sameId, hasId, ha, hb]

theorem sameId_comm (r r' : Value) : sameId r r' = sameId r' r := by
  unfold sameId hasId
  cases recordId? r <;> cases recordId? r' <;> simp [Value.beq_comm]

instance : Std.Symm fun r r' => sameId r r' = false := ⟨fun r r' h => (sameId_comm r' r).trans h⟩

theorem DistinctIds.getElem (hd : DistinctIds rows) {i j : Nat} (hi : i < rows.length) (hj : j < rows.length)
    (hne : i ≠ j) : sameId rows[i] rows[j] = false := by
  rw [DistinctIds, List.pairwise_iff_getElem] at hd
  rcases Nat.lt_or_gt_of_ne hne with hlt | hlt
  · exact hd i j hi hj hlt
  · rw [sameId_comm]
    exact hd j i hj hi hlt

/-- Nothing is merged among records that have different ids all together. -/
theorem not_merges (hd : DistinctIds all) (hb : rows ⊆ all) (ha : rows' ⊆ all) : ¬ Merges rows rows' := by
  rintro ⟨r, hr, r', hr', new, hnew, a, b, x, hra, -, hx, i, j, rfl, -, -, hi, -⟩
  have hne : r ≠ new := by
    rintro rfl
    cases hra.symm.trans hx
  have hdiff := List.Pairwise.forall hd (hb hr) (ha hnew) hne
  rw [sameId_of_ids hra hx, hi] at hdiff
  cases hdiff

/-! ## Fresh ids -/

/-- The ids generated for the records, when they are created beside the others, are not in use at that moment. -/
def FreshFor (table : String) : List Value → List Value → Store → Prop
  | _, [], _ => True
  | others, record :: records, s =>
    (wantsId record = true → others.any (hasId (.str s.nextId)) = false) ∧
      ∀ id new t, prepare table others record s = .ok (id, new) t → FreshFor table (others ++ [new]) records t

/-- The ids that the operation generates are not in use in its table. -/
def GeneratesFresh (s : Store) (op : Operation) : Prop :=
  FreshFor op.table (s.records op.table) op.newRecords s

/-- Every operation of the history generates ids that are not in use. -/
def FreshAlong : Store → List Operation → Prop
  | _, [] => True
  | s, op :: history => s.GeneratesFresh op ∧ FreshAlong (s.after op) history

/-! ## Creating -/

/-- No other record has the id of a new one. -/
theorem not_hasId_of_prepare {record id new : Value}
    (hfresh : wantsId record = true → others.any (hasId (.str s.nextId)) = false)
    (h : prepare table others record s = .ok (id, new) s') : others.any (hasId id) = false := by
  obtain ⟨ms, rfl, ⟨hw, rfl, -, -⟩ | ⟨-, -, -, hother, -, -⟩⟩ := prepare_ok h
  · exact hfresh hw
  · exact hother

theorem DistinctIds.prepare {record id new : Value} (hd : DistinctIds others)
    (hfresh : wantsId record = true → others.any (hasId (.str s.nextId)) = false)
    (h : prepare table others record s = .ok (id, new) s') : DistinctIds (others ++ [new]) := by
  have hid : recordId? new = some id := (identified_prepare h).1
  have hother := not_hasId_of_prepare hfresh h
  refine List.pairwise_append.2 ⟨hd, List.pairwise_singleton _ _, fun r hr r' hr' => ?_⟩
  obtain rfl := List.mem_singleton.1 hr'
  rw [sameId_eq_hasId hid]
  exact Bool.eq_false_iff.2 (List.any_eq_false.1 hother r hr)

theorem DistinctIds.prepareAll {records ids added : List Value} (hd : DistinctIds others)
    (hfresh : FreshFor table others records s) (h : prepareAll table others records s = .ok (ids, added) s') :
    DistinctIds (others ++ added) := by
  induction records generalizing others s ids added with
  | nil =>
    obtain ⟨h, -⟩ := pure_eq_ok.1 h
    cases h
    rwa [List.append_nil]
  | cons record records ih =>
    obtain ⟨id, new, t, ids', added', hp, hall, -, rfl⟩ := prepareAll_cons_ok h
    have := ih (hd.prepare hfresh.1 hp) (hfresh.2 id new t hp) hall
    rwa [List.append_assoc] at this

/-! ## Changing -/

/-- An id after the change is the old one, or equals it. -/
theorem exists_id_of_link {r r' a : Value} (hl : r' = r ∨ sameId r r' = true) (ha : recordId? r = some a) :
    ∃ c, recordId? r' = some c ∧ (c = a ∨ (c == a) = true) := by
  rcases hl with rfl | hl
  · exact ⟨a, ha, .inl rfl⟩
  · obtain ⟨a', c, ha', hc, heq⟩ := sameId_eq_true_iff.1 hl
    cases ha.symm.trans ha'
    exact ⟨c, hc, .inr heq⟩

/-- Two records with different ids that come to have equal ones are merged. -/
theorem merges_of_links {r₁ r₂ r₁' r₂' : Value} (h₁ : Identified r₁) (h₂ : Identified r₂) (hd : sameId r₁ r₂ = false)
    (hl₁ : r₁' = r₁ ∨ sameId r₁ r₁' = true) (hl₂ : r₂' = r₂ ∨ sameId r₂ r₂' = true) (hsame : sameId r₁' r₂' = true) :
    Merges [r₁, r₂] [r₁', r₂'] := by
  obtain ⟨a, ha, hsa, -⟩ := h₁
  obtain ⟨b, hb, hsb, -⟩ := h₂
  obtain ⟨c, hc, hca⟩ := exists_id_of_link hl₁ ha
  obtain ⟨d, hd', hdb⟩ := exists_id_of_link hl₂ hb
  rw [sameId_of_ids hc hd'] at hsame
  rcases Value.beq_or_conflates hsb hsa hdb hca hsame with hba | ⟨x, hx, hxba⟩
  · rw [sameId_of_ids ha hb, hba] at hd
    cases hd
  · rcases hx with rfl | rfl
    · exact ⟨r₂, by simp, r₁, by simp, r₂', by simp, b, a, x, hb, ha, hd', hxba⟩
    · exact ⟨r₂, by simp, r₁, by simp, r₁', by simp, b, a, x, hb, ha, hc, hxba⟩

theorem DistinctIds.amends (hamends : Amends rows rows') (hid : ∀ r ∈ rows, Identified r)
    (hm : ¬ Merges rows rows') (hd : DistinctIds rows) : DistinctIds rows' := by
  induction hamends with
  | nil => exact hd
  | @cons before after rows rows' hl hrest ih =>
    obtain ⟨hd, hrows⟩ := List.pairwise_cons.1 hd
    refine List.pairwise_cons.2 ⟨fun r' hr' => ?_, ?_⟩
    · obtain ⟨r, hr, hl'⟩ := Amends.exists_of_mem hrest hr'
      have hmem := List.mem_cons_of_mem before hr
      refine Bool.eq_false_iff.2 fun hsame => hm ?_
      have := merges_of_links (hid before List.mem_cons_self) (hid r hmem) (hd r hr) hl hl' hsame
      exact this.mono (by simp [hr]) (by simp [hr'])
    · have hb := List.subset_cons_self before rows
      have ha := List.subset_cons_self after rows'
      exact ih (fun r hr => hid r (hb hr)) (fun h => hm (h.mono hb ha)) hrows

/-- Only one of the two records that are merged can be the one with the real id after. -/
theorem not_distinctIds_of_merges (hamends : Amends rows rows') (hm : Merges rows rows') : ¬ DistinctIds rows' := by
  intro hd
  obtain ⟨r, hr, r', hr', new, hnew, a, b, x, ha, hb, hx, i, j, rfl, rfl, hij, hi, hj⟩ := hm
  obtain ⟨k, hk, rfl⟩ := List.getElem_of_mem hnew
  have position {m : Nat} (hm : m < rows.length) {i : Int64} (hid : recordId? rows[m] = some (.int i))
      (hxi : (Value.real x == .int i) = true) : m = k := by
    have hm' : m < rows'.length := by rwa [← hamends.length_eq]
    have hl : rows'[m] = rows[m] ∨ sameId rows[m] rows'[m] = true := hamends.get hm hm'
    obtain ⟨c, hc, hlink⟩ := exists_id_of_link hl hid
    by_contra hne
    have hdiff := hd.getElem hm' hk hne
    rw [sameId_of_ids hc hx, Value.real_beq_of_link hxi hlink] at hdiff
    cases hdiff
  obtain ⟨m, hm, rfl⟩ := List.getElem_of_mem hr
  obtain ⟨m', hm', rfl⟩ := List.getElem_of_mem hr'
  obtain rfl := position hm ha hi
  obtain rfl := position hm' hb hj
  cases ha.symm.trans hb
  exact hij rfl

/-! ## Every operation -/

/-- An operation gives two records of a table equal ids exactly when it merges two. -/
theorem distinctIds_after_iff {op : Operation} (hid : s.AllIdentified) (hfresh : s.GeneratesFresh op)
    (hd : ∀ table, DistinctIds (s.records table)) (table : String) :
    DistinctIds ((s.after op).records table) ↔ ¬ Merges (s.records table) ((s.after op).records table) := by
  obtain ⟨rows, hrows, hchange⟩ := after_changes s op
  rw [hrows]
  split
  case isFalse => exact iff_of_true (hd table) (not_merges (hd table) (List.Subset.refl _) (List.Subset.refl _))
  case isTrue htable =>
    rw [htable]
    cases hchange with
    | removed hsub =>
      exact iff_of_true ((hd op.table).sublist hsub) (not_merges (hd op.table) (List.Subset.refl _) hsub.subset)
    | appended hall =>
      have hd' := (hd op.table).prepareAll hfresh hall
      exact iff_of_true hd' (not_merges hd' (List.subset_append_left _ _) (List.Subset.refl _))
    | amended hamends =>
      exact ⟨fun hd' hm => not_distinctIds_of_merges hamends hm hd', (hd op.table).amends hamends (hid op.table)⟩

theorem distinctIds_afterAll_iff {history : List Operation} (hid : s.AllIdentified) (hfresh : FreshAlong s history)
    (hd : ∀ table, DistinctIds (s.records table)) :
    (∀ n ≤ history.length, ∀ table, DistinctIds ((s.afterAll (history.take n)).records table)) ↔
      ∀ n < history.length, ∀ table, ¬ Merges ((s.afterAll (history.take n)).records table)
        ((s.afterAll (history.take (n + 1))).records table) := by
  induction history generalizing s with
  | nil =>
    refine iff_of_true (fun n _ => ?_) nofun
    rw [List.take_nil]
    exact hd
  | cons op history ih =>
    have hstep := distinctIds_after_iff hid hfresh.1 hd
    constructor
    · intro h n hn
      have hd' := h 1 (Nat.succ_le_of_lt (Nat.zero_lt_succ _))
      cases n with
      | zero => exact fun table => (hstep table).1 (hd' table)
      | succ n =>
        exact (ih (hid.after op) hfresh.2 hd').1 (fun n hn => h (n + 1) (Nat.succ_le_succ hn)) n
          (Nat.lt_of_succ_lt_succ hn)
    · intro h n hn
      have hd' : ∀ table, DistinctIds ((s.after op).records table) := fun table =>
        (hstep table).2 (h 0 (Nat.zero_lt_succ _) table)
      cases n with
      | zero => exact hd
      | succ n =>
        exact (ih (hid.after op) hfresh.2 hd').2 (fun n hn => h (n + 1) (Nat.succ_lt_succ hn)) n
          (Nat.le_of_succ_le_succ hn)

/-- Along a history ids stay apart exactly when no operation merges two. -/
theorem distinctIds_iff_no_merges (words : Nat → UInt64 × UInt64) (writer : Json.Writer) (history : List Operation)
    (hfresh : FreshAlong (empty words writer) history) :
    (∀ n ≤ history.length, ∀ table, DistinctIds (((empty words writer).afterAll (history.take n)).records table)) ↔
      ∀ n < history.length, ∀ table, ¬ Merges (((empty words writer).afterAll (history.take n)).records table)
        (((empty words writer).afterAll (history.take (n + 1))).records table) :=
  distinctIds_afterAll_iff (allIdentified_empty words writer) hfresh fun _ => List.Pairwise.nil

theorem distinctIds_iff_no_merges_generated :
    let s := empty fun n => (.ofNat n, 0)
    let history := [.create "t" (.map []), .create "t" (.map [])]
    FreshAlong s history ∧
      ((∀ n ≤ 2, ∀ table, DistinctIds ((s.afterAll (history.take n)).records table)) ↔
        ∀ n < 2, ∀ table, ¬ Merges ((s.afterAll (history.take n)).records table)
          ((s.afterAll (history.take (n + 1))).records table)) := by
  intro s history
  have hfresh : FreshAlong s history := by
    refine ⟨⟨fun _ => rfl, fun _ _ _ _ => trivial⟩, ⟨fun _ => ?_, fun _ _ _ _ => trivial⟩, trivial⟩
    decide +kernel
  exact ⟨hfresh, distinctIds_iff_no_merges _ _ _ hfresh⟩

/-- The integers `2 ^ 53` and `2 ^ 53 + 1` are ids of two records until a real with the value `2 ^ 53` replaces one. -/
theorem not_distinctIds_of_real_id : ¬ ∀ words history, FreshAlong (empty words) history →
    ∀ table, DistinctIds (((empty words).afterAll history).records table) := by
  intro h
  let history : List Operation := [
    .create "t" (.map [(idKey, .int 9007199254740992)]),
    .create "t" (.map [(idKey, .int 9007199254740993)]),
    .replace "t" (.real ⟨0x4340000000000000⟩) (.map []) true]
  have hfresh : FreshAlong (empty fun _ => (0, 0)) history :=
    ⟨⟨nofun, fun _ _ _ _ => trivial⟩, ⟨nofun, fun _ _ _ _ => trivial⟩, trivial, trivial⟩
  have hd := h (fun _ => (0, 0)) history hfresh "t"
  revert hd
  decide +kernel

end RecordStore.Store
