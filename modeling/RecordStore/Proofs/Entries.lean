import RecordStore.Value.Basic

/-!
# Entries put in one after another

What is put under a key last stays (`insert_insert`, `replace_insert`), and under different keys the order does not
matter (`insert_comm`). So an entry that putting it in again would not change is still such an entry after other keys
were set or taken away (`insert_eq_self_insert`, `insert_eq_self_erase`). The entries need not be in key order for this,
only the keys.
-/

namespace RecordStore

namespace Entries

variable {κ β : Type} [DecidableEq κ] {k l : κ} {b c : β} {entries : List (κ × β)}

/-- The keys of the entries ascend. -/
def Ascending [Ord κ] (entries : List (κ × β)) : Prop := (entries.map Prod.fst).Pairwise fun k l => compare k l = .lt

/-! ## Present and absent keys -/

theorem mem_of_find? (h : find? k entries = some b) : (k, b) ∈ entries := by
  induction entries with
  | nil => cases h
  | cons e rest ih =>
    obtain ⟨l, c⟩ := e
    rw [find?_cons] at h
    split at h
    case isTrue hk =>
      cases h
      rw [hk]
      exact List.mem_cons_self
    case isFalse => exact List.mem_cons_of_mem _ (ih h)

/-- Where the key is there, the entries before and after its first one stay. -/
theorem exists_split_of_find? (h : find? k entries = some b) : ∃ before after,
    entries = before ++ (k, b) :: after ∧ (∀ e ∈ before, e.1 ≠ k) ∧
      ∀ c, replace k c entries = before ++ (k, c) :: after := by
  induction entries with
  | nil => cases h
  | cons e rest ih =>
    obtain ⟨l, c⟩ := e
    rw [find?_cons] at h
    split at h
    case isTrue hk =>
      subst hk
      cases h
      exact ⟨[], rest, rfl, List.forall_mem_nil _, fun c => if_pos rfl⟩
    case isFalse hk =>
      obtain ⟨before, after, rfl, hbefore, hreplace⟩ := ih h
      refine ⟨(l, c) :: before, after, rfl, List.forall_mem_cons.2 ⟨Ne.symm hk, hbefore⟩, fun d => ?_⟩
      rw [replace, if_neg hk, hreplace, List.cons_append]

theorem find?_eq_none_iff : find? k entries = none ↔ ∀ e ∈ entries, e.1 ≠ k := by
  induction entries with
  | nil => simp
  | cons e rest ih =>
    obtain ⟨l, c⟩ := e
    rw [find?_cons, List.forall_mem_cons, ← ih]
    split
    case isTrue h => simp [h]
    case isFalse h => simp [Ne.symm h]

theorem isSome_find?_iff : (find? k entries).isSome = true ↔ k ∈ entries.map Prod.fst := by
  rw [Option.isSome_iff_ne_none, ne_eq, find?_eq_none_iff, List.mem_map]
  simp

theorem find?_append (k : κ) (before after : List (κ × β)) :
    find? k (before ++ after) = (find? k before).or (find? k after) := by
  induction before with
  | nil => rfl
  | cons e before ih =>
    obtain ⟨l, b⟩ := e
    rw [List.cons_append, find?_cons, find?_cons, ih]
    split <;> rfl

theorem eq_nil_of_find? (h : ∀ k, find? k entries = none) : entries = [] := by
  cases entries with
  | nil => rfl
  | cons e rest => exact absurd rfl (find?_eq_none_iff.1 (h e.1) e List.mem_cons_self)

theorem erase_eq_self (h : find? k entries = none) : erase k entries = entries :=
  List.filter_eq_self.2 fun e he => by simpa using find?_eq_none_iff.1 h e he

/-! ## The same key twice -/

section Twice

variable [Ord κ]

theorem insert_insert (k : κ) (b c : β) (entries : List (κ × β)) :
    insert k b (insert k c entries) = insert k b entries := by
  induction entries with
  | nil => simp [insert]
  | cons e rest ih =>
    obtain ⟨l, d⟩ := e
    rw [insert, insert]
    split
    · rw [insert, if_pos rfl]
    · split
      · rw [insert, if_pos rfl]
      · rw [insert, if_neg ‹_›, if_neg ‹_›, ih]

theorem replace_insert (k : κ) (b c : β) (entries : List (κ × β)) :
    replace k b (insert k c entries) = insert k b entries := by
  induction entries with
  | nil => simp [insert, replace]
  | cons e rest ih =>
    obtain ⟨l, d⟩ := e
    rw [insert, insert]
    split
    · rw [replace, if_pos rfl]
    · split
      · rw [replace, if_pos rfl]
      · rw [replace, if_neg ‹_›, ih]

theorem find?_of_insert_eq_self (h : insert k b entries = entries) : find? k entries = some b := by
  rw [← h, find?_insert, if_pos rfl]

end Twice

/-! ## Two keys -/

section TwoKeys

variable [Ord κ]

theorem insert_cons_self (k : κ) (b c : β) (rest : List (κ × β)) : insert k b ((k, c) :: rest) = (k, b) :: rest := by
  rw [insert, if_pos rfl]

variable [Std.TransOrd κ] [Std.LawfulEqOrd κ]

omit [DecidableEq κ] in
theorem lt_trichotomy (k l : κ) : compare k l = .lt ∨ k = l ∨ compare l k = .lt := by
  cases h : compare k l with
  | lt => exact .inl rfl
  | eq => exact .inr (.inl (Std.compare_eq_iff_eq.1 h))
  | gt => exact .inr (.inr (Std.OrientedCmp.lt_of_gt h))

omit [DecidableEq κ] [Std.LawfulEqOrd κ] in
theorem ne_of_lt (h : compare k l = .lt) : k ≠ l := by
  rintro rfl
  rw [Std.ReflOrd.compare_self] at h
  cases h

omit [Std.LawfulEqOrd κ] in
theorem insert_cons_of_lt (h : compare k l = .lt) (b c : β) (rest : List (κ × β)) :
    insert k b ((l, c) :: rest) = (k, b) :: (l, c) :: rest := by
  rw [insert, if_neg (ne_of_lt h), if_pos h]

omit [Std.LawfulEqOrd κ] in
theorem insert_cons_of_gt (h : compare l k = .lt) (b c : β) (rest : List (κ × β)) :
    insert k b ((l, c) :: rest) = (l, c) :: insert k b rest := by
  have hgt : compare k l ≠ .lt := by simp [Std.OrientedCmp.gt_of_lt h]
  rw [insert, if_neg (ne_of_lt h).symm, if_neg hgt]

theorem insert_comm_of_lt (h : compare k l = .lt) (b c : β) (entries : List (κ × β)) :
    insert k b (insert l c entries) = insert l c (insert k b entries) := by
  induction entries with
  | nil => rw [insert, insert, insert_cons_of_lt h, insert_cons_of_gt h, insert]
  | cons e rest ih =>
    obtain ⟨m, d⟩ := e
    rcases lt_trichotomy l m with hl | rfl | hl
    · have hk := Std.TransCmp.lt_trans h hl
      rw [insert_cons_of_lt hl, insert_cons_of_lt h, insert_cons_of_lt hk, insert_cons_of_gt h, insert_cons_of_lt hl]
    · rw [insert_cons_self, insert_cons_of_lt h, insert_cons_of_lt h, insert_cons_of_gt h, insert_cons_self]
    · rw [insert_cons_of_gt hl]
      rcases lt_trichotomy k m with hk | rfl | hk
      · rw [insert_cons_of_lt hk, insert_cons_of_lt hk, insert_cons_of_gt h, insert_cons_of_gt hl]
      · rw [insert_cons_self, insert_cons_self, insert_cons_of_gt h]
      · rw [insert_cons_of_gt hk, insert_cons_of_gt hk, insert_cons_of_gt hl, ih]

theorem insert_comm (hne : k ≠ l) (b c : β) (entries : List (κ × β)) :
    insert k b (insert l c entries) = insert l c (insert k b entries) := by
  rcases lt_trichotomy k l with h | h | h
  · exact insert_comm_of_lt h b c entries
  · exact absurd h hne
  · exact (insert_comm_of_lt h c b entries).symm

/-- An entry that would change nothing does so after another key is set. -/
theorem insert_eq_self_insert (hne : k ≠ l) (c : β) (h : insert k b entries = entries) :
    insert k b (insert l c entries) = insert l c entries := by
  rw [insert_comm hne, h]

/-- An entry that would change nothing does so after another key is taken away. -/
theorem insert_eq_self_erase (hne : k ≠ l) (h : insert k b entries = entries) :
    insert k b (erase l entries) = erase l entries := by
  induction entries with
  | nil => cases h
  | cons e rest ih =>
    obtain ⟨m, d⟩ := e
    rcases lt_trichotomy k m with hk | rfl | hk
    · -- one more entry is a change
      rw [insert_cons_of_lt hk] at h
      exact absurd (congrArg List.length h) (by simp)
    · rw [insert_cons_self] at h
      cases h
      simp [erase, hne, insert_cons_self]
    · rw [insert_cons_of_gt hk] at h
      have ih := ih (List.cons.inj h).2
      by_cases hm : m = l
      · simpa [erase, hm] using ih
      · simpa [erase, hm, insert_cons_of_gt hk] using ih

end TwoKeys

theorem mem_replace {e : κ × β} (h : e ∈ replace k b entries) : e = (k, b) ∨ e ∈ entries := by
  induction entries with
  | nil => cases h
  | cons e' rest ih =>
    obtain ⟨l, c⟩ := e'
    rw [replace] at h
    split at h
    · rcases List.mem_cons.1 h with h | h
      · exact .inl h
      · exact .inr (List.mem_cons_of_mem _ h)
    · rcases List.mem_cons.1 h with rfl | h
      · exact .inr List.mem_cons_self
      · exact (ih h).imp id (List.mem_cons_of_mem _)

/-! ## Keys in order -/

section Order

variable [Ord κ]

theorem mem_insert {e : κ × β} (h : e ∈ insert k b entries) : e = (k, b) ∨ e ∈ entries := by
  induction entries with
  | nil => exact .inl (List.mem_singleton.1 h)
  | cons e' rest ih =>
    obtain ⟨l, c⟩ := e'
    rw [insert] at h
    split at h
    · rcases List.mem_cons.1 h with h | h
      · exact .inl h
      · exact .inr (List.mem_cons_of_mem _ h)
    · split at h
      · exact List.mem_cons.1 h
      · rcases List.mem_cons.1 h with rfl | h
        · exact .inr List.mem_cons_self
        · exact (ih h).imp_right (List.mem_cons_of_mem _)

omit [DecidableEq κ] in
theorem ascending_cons_iff {e : κ × β} :
    Ascending (e :: entries) ↔ (∀ e' ∈ entries, compare e.1 e'.1 = .lt) ∧ Ascending entries := by
  simp [Ascending]

variable [Std.TransOrd κ]

/-- What comes behind all keys is put at the end. -/
theorem insert_of_forall_lt (h : ∀ e ∈ entries, compare e.1 k = .lt) (b : β) :
    insert k b entries = entries ++ [(k, b)] := by
  induction entries with
  | nil => rfl
  | cons e rest ih =>
    obtain ⟨he, hrest⟩ := List.forall_mem_cons.1 h
    rw [insert_cons_of_gt he, ih hrest, List.cons_append]

omit [DecidableEq κ] [Std.TransOrd κ] in
theorem Ascending.lt_of_append {e : κ × β} {after : List (κ × β)} (h : Ascending (entries ++ e :: after)) :
    ∀ e' ∈ entries, compare e'.1 e.1 = .lt := by
  intro e' he'
  rw [Ascending, List.map_append, List.map_cons, List.pairwise_append] at h
  exact h.2.2 e'.1 (List.mem_map_of_mem he') e.1 List.mem_cons_self

theorem Ascending.insert [Std.LawfulEqOrd κ] (h : Ascending entries) (k : κ) (b : β) :
    Ascending (insert k b entries) := by
  induction entries with
  | nil => exact List.pairwise_singleton _ _
  | cons e rest ih =>
    obtain ⟨l, c⟩ := e
    obtain ⟨hl, hrest⟩ := ascending_cons_iff.1 h
    rcases lt_trichotomy k l with hk | rfl | hk
    · rw [insert_cons_of_lt hk]
      refine ascending_cons_iff.2 ⟨fun e he => ?_, h⟩
      rcases List.mem_cons.1 he with rfl | he
      · exact hk
      · exact Std.TransCmp.lt_trans hk (hl e he)
    · rw [insert_cons_self]
      exact ascending_cons_iff.2 ⟨hl, hrest⟩
    · rw [insert_cons_of_gt hk]
      refine ascending_cons_iff.2 ⟨fun e he => ?_, ih hrest⟩
      rcases mem_insert he with rfl | he
      · exact hk
      · exact hl e he

end Order

/-! ## Many entries -/

section Many

variable [Ord κ]

/-- The entries put in one after another. -/
def insertAll (entries sorted : List (κ × β)) : List (κ × β) :=
  entries.foldl (fun sorted e => insert e.1 e.2 sorted) sorted

/-- Of the entries under a key the last is found. -/
theorem find?_insertAll (k : κ) (entries sorted : List (κ × β)) :
    find? k (insertAll entries sorted) = (find? k entries.reverse).or (find? k sorted) := by
  induction entries generalizing sorted with
  | nil => rfl
  | cons e rest ih =>
    obtain ⟨l, b⟩ := e
    rw [insertAll, List.foldl_cons, ← insertAll, ih, find?_insert, List.reverse_cons, find?_append, Option.or_assoc,
      find?_cons, find?_nil]
    split <;> rfl

variable [Std.TransOrd κ]

/-- Entries that ascend stay as they are. -/
theorem insertAll_of_ascending {sorted : List (κ × β)} (h : Ascending (sorted ++ entries)) :
    insertAll entries sorted = sorted ++ entries := by
  induction entries generalizing sorted with
  | nil => rw [List.append_nil, insertAll, List.foldl_nil]
  | cons e rest ih =>
    have hrest : Ascending ((sorted ++ [e]) ++ rest) := by simpa using h
    rw [insertAll, List.foldl_cons, insert_of_forall_lt h.lt_of_append e.2, ← insertAll, ih hrest, List.append_assoc,
      List.singleton_append]

variable [Std.LawfulEqOrd κ]

theorem Ascending.insertAll {sorted : List (κ × β)} (h : Ascending sorted) : Ascending (insertAll entries sorted) := by
  induction entries generalizing sorted with
  | nil => exact h
  | cons e rest ih => exact ih (h.insert e.1 e.2)

/-- An entry is lost if one with the same key comes later. -/
theorem insertAll_insert_of_mem (h : ∃ e ∈ entries, e.1 = k) (b : β) (sorted : List (κ × β)) :
    insertAll entries (insert k b sorted) = insertAll entries sorted := by
  induction entries generalizing sorted with
  | nil => simp at h
  | cons e rest ih =>
    rw [insertAll, insertAll, List.foldl_cons, List.foldl_cons, ← insertAll, ← insertAll]
    by_cases he : e.1 = k
    · rw [he, insert_insert]
    · rw [insert_comm he]
      exact ih (by simpa [he] using h) _

/-- Entries may be left out if others come later under their keys. -/
theorem insertAll_map_filter {α : Type} {keep : α → Bool} {f : α → κ × β} {items : List α}
    (h : ∀ before x after, items = before ++ x :: after → keep x = false → ∃ y ∈ after, (f y).1 = (f x).1)
    (sorted : List (κ × β)) :
    insertAll ((items.filter keep).map f) sorted = insertAll (items.map f) sorted := by
  induction items generalizing sorted with
  | nil => rfl
  | cons x items ih =>
    have ih := ih fun before y after hitems => h (x :: before) y after (by rw [hitems, List.cons_append])
    cases hx : keep x with
    | true =>
      rw [List.filter_cons_of_pos hx, List.map_cons, List.map_cons]
      exact ih _
    | false =>
      obtain ⟨y, hy, hkey⟩ := h [] x items rfl hx
      have hlater : ∃ e ∈ items.map f, e.1 = (f x).1 := ⟨f y, List.mem_map_of_mem hy, hkey⟩
      rw [List.filter_cons_of_neg (by simp [hx]), ih]
      exact (insertAll_insert_of_mem hlater (f x).2 sorted).symm

end Many

end Entries

end RecordStore
