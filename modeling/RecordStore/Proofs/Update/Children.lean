import RecordStore.Proofs.Path.Naming
import RecordStore.Proofs.Value.Members
import RecordStore.Update.Populate

/-!
# Children of containers

What making room (`populate_cons_eq_ok`), looking up and replacing do at one segment of a path is told by the child that
the segment names (`child`) and by the container with another child there (`withChild`). A child that was put is the one
that is named, the last one put stays, and children that segments name apart do not disturb each other, in whatever
order they are put (`withChild_comm`). A null counts as an empty map in all of this.
-/

namespace RecordStore

namespace Path

theorem lookup_cons (s : String) (path : List String) (v : Value) :
    lookup (s :: path) v = (lookup [s] v).bind (lookup path) := by
  cases v with
  | map ms =>
    rw [lookup, lookup]
    cases child? ms s <;> rfl
  | arr items =>
    rw [lookup, lookup]
    cases element? items s <;> rfl
  | _ => rfl

theorem lookup_singleton_map (s : String) (ms : Members) : lookup [s] (.map ms) = child? ms s := by
  rw [lookup]
  cases child? ms s <;> rfl

theorem lookup_singleton_arr (s : String) (items : List Value) : lookup [s] (.arr items) = element? items s := by
  rw [lookup]
  cases element? items s <;> rfl

theorem element?_of_index? {s : String} {i : Nat} (h : index? s = some i) (items : List Value) :
    element? items s = items[i]? := by
  rw [element?, h]
  rfl

theorem key_nil (s : String) : key [] s = .str s := by
  unfold key
  cases index? s <;> rfl

end Path

namespace Update

open RecordStore.Path

/-- The segment names a child that the container has or can be given. -/
def HasRoom (s : String) : Value → Prop
  | .null | .map _ => True
  | .arr items => ∃ i, index? s = some i ∧ i - items.length ≤ maxPadding
  | _ => False

/-- The child that the segment names, null where there is none yet. -/
def child (s : String) (v : Value) : Value := (lookup [s] v).getD .null

/-- The container with a child where the segment names one. -/
def withChild (s : String) (c : Value) : Value → Value
  | .null => .map [(.str s, c)]
  | .map ms => .map (Entries.insert (key ms s) c ms)
  | .arr items =>
    match index? s with
    | some i => .arr ((padded items i).set i c)
    | none => .arr items
  | v => v

variable {s t : String} {path : List String} {v v' x : Value} {items : List Value} {i : Nat}

/-! ## One child -/

section Padding

theorem length_padded_set (items : List Value) (i : Nat) (c : Value) :
    ((padded items i).set i c).length = max items.length (i + 1) := by
  simp only [padded, List.length_set, List.length_append, List.length_replicate]
  omega

/-- Behind the end of the array there are nulls up to the index. -/
theorem getElem?_padded_set (items : List Value) (i : Nat) (c : Value) (k : Nat) : ((padded items i).set i c)[k]? =
    if k = i then some c else if k < items.length then items[k]? else if k < i then some .null else none := by
  by_cases hk : k = i
  · subst hk
    rw [if_pos rfl, List.getElem?_set_self]
    simp only [padded, List.length_append, List.length_replicate]
    omega
  · rw [if_neg hk, List.getElem?_set_ne (Ne.symm hk), padded, List.getElem?_append]
    split
    · rfl
    · rw [List.getElem?_replicate]
      split <;> split <;> first | rfl | omega

theorem padded_of_lt (h : i < items.length) : padded items i = items := by
  rw [padded, Nat.sub_eq_zero_of_le h, List.replicate_zero, List.append_nil]

end Padding

theorem withChild_null (s : String) (c : Value) : withChild s c .null = withChild s c (.map []) := by
  rw [withChild, withChild, key_nil]
  rfl

theorem withChild_arr (h : index? s = some i) (c : Value) :
    withChild s c (.arr items) = .arr ((padded items i).set i c) := by
  rw [withChild, h]

theorem map_mapError_eq_ok {ε ε' α β : Type} {r : Except ε α} {g : ε → ε'} {f : α → β} {b : β} :
    (r.mapError g).map f = .ok b ↔ ∃ a, r = .ok a ∧ f a = b := by
  cases r with
  | ok a =>
    show Except.ok (f a) = .ok b ↔ _
    simp
  | error e =>
    show Except.error (g e) = .ok b ↔ _
    simp

theorem populate_arr_eq_ok :
    populate (s :: path) (.arr items) = .ok v' ↔ ∃ i element, index? s = some i ∧
      i - items.length ≤ maxPadding ∧ populate path (items.getD i .null) = .ok element ∧
      .arr ((padded items i).set i element) = v' := by
  rw [populate]
  cases index? s with
  | none => simp
  | some i =>
    dsimp only
    split
    case isTrue hfar =>
      refine ⟨nofun, ?_⟩
      rintro ⟨_, _, hi, hnear, -⟩
      cases hi
      exact absurd hfar (Nat.not_lt.2 hnear)
    case isFalse hfar =>
      rw [map_mapError_eq_ok]
      constructor
      · rintro ⟨element, helement, rfl⟩
        exact ⟨i, element, rfl, Nat.not_lt.1 hfar, helement, rfl⟩
      · rintro ⟨_, element, hi, -, helement, rfl⟩
        cases hi
        exact ⟨element, helement, rfl⟩

/-- Room at a path is room for its first segment, and in the child that this one names for the others. -/
theorem populate_cons_eq_ok : populate (s :: path) v = .ok v' ↔
    HasRoom s v ∧ ∃ c, populate path (child s v) = .ok c ∧ withChild s c v = v' := by
  cases v with
  | null => simp [populate, map_mapError_eq_ok, HasRoom, child, lookup, withChild]
  | map ms => simp [populate, map_mapError_eq_ok, HasRoom, child, lookup_singleton_map, withChild]
  | arr items =>
    rw [populate_arr_eq_ok, HasRoom, child, lookup_singleton_arr]
    constructor
    · rintro ⟨i, c, hi, hnear, hc, rfl⟩
      refine ⟨⟨i, hi, hnear⟩, c, ?_, withChild_arr hi c⟩
      rwa [element?_of_index? hi, ← List.getD_eq_getElem?_getD]
    · rintro ⟨⟨i, hi, hnear⟩, c, hc, rfl⟩
      refine ⟨i, c, hi, hnear, ?_, (withChild_arr hi c).symm⟩
      rwa [element?_of_index? hi, ← List.getD_eq_getElem?_getD] at hc
  | _ => simp [populate, HasRoom]

theorem lookup_withChild (h : HasRoom s v) (c : Value) : lookup [s] (withChild s c v) = some c := by
  cases v with
  | null => rw [withChild_null, withChild, lookup_singleton_map, child?, key_insert, Entries.find?_insert, if_pos rfl]
  | map ms => rw [withChild, lookup_singleton_map, child?, key_insert, Entries.find?_insert, if_pos rfl]
  | arr items =>
    obtain ⟨i, hi, -⟩ := h
    rw [withChild_arr hi, lookup_singleton_arr, element?_of_index? hi, getElem?_padded_set, if_pos rfl]
  | _ => exact h.elim

theorem child_withChild (h : HasRoom s v) (c : Value) : child s (withChild s c v) = c := by
  rw [child, lookup_withChild h, Option.getD_some]

theorem HasRoom.withChild (h : HasRoom t v) (s : String) (c : Value) : HasRoom t (withChild s c v) := by
  cases v with
  | null | map ms => trivial
  | arr items =>
    obtain ⟨j, hj, hnear⟩ := h
    rw [Update.withChild]
    split
    · refine ⟨j, hj, ?_⟩
      rw [length_padded_set]
      omega
    · exact ⟨j, hj, hnear⟩
  | _ => exact h.elim

/-- Of two children put one after the other where a segment names one, the last stays. -/
theorem withChild_withChild (h : HasRoom s v) (c d : Value) : withChild s d (withChild s c v) = withChild s d v := by
  have members (ms : Members) : withChild s d (withChild s c (.map ms)) = withChild s d (.map ms) := by
    rw [withChild, withChild, withChild, key_insert, Entries.insert_insert]
  cases v with
  | null => rw [withChild_null, withChild_null, members]
  | map ms => exact members ms
  | arr items =>
    obtain ⟨i, hi, -⟩ := h
    have hlt : i < ((padded items i).set i c).length := by
      rw [length_padded_set]
      omega
    rw [withChild_arr hi, withChild_arr hi, withChild_arr hi, padded_of_lt hlt, List.set_set]
  | _ => rfl

theorem replaceAt_withChild (h : HasRoom s v) (path : List String) (new c : Value) :
    replaceAt (s :: path) new (withChild s c v) = withChild s (replaceAt path new c) v := by
  have members (ms : Members) :
      replaceAt (s :: path) new (withChild s c (.map ms)) = withChild s (replaceAt path new c) (.map ms) := by
    have hchild : child? (Entries.insert (key ms s) c ms) s = some c := by
      rw [child?, key_insert, Entries.find?_insert, if_pos rfl]
    simp only [withChild, replaceAt, hchild, key_insert, Entries.replace_insert]
  cases v with
  | null => rw [withChild_null, withChild_null, members]
  | map ms => exact members ms
  | arr items =>
    obtain ⟨i, hi, -⟩ := h
    have hmodify : ((padded items i).set i c).modify i (replaceAt path new) =
        (padded items i).set i (replaceAt path new c) := by
      apply List.ext_getElem?
      intro k
      rw [List.getElem?_modify]
      simp only [getElem?_padded_set]
      by_cases hk : k = i
      · simp [hk]
      · simp [hk, Ne.symm hk]
    rw [withChild_arr hi, withChild_arr hi, replaceAt, hi, ← hmodify]
  | _ => exact h.elim

/-! ## Two children -/

section TwoChildren

variable (h : NamesApart s t)

include h

/-- What is there already stays where another segment puts a child. -/
theorem lookup_withChild_of_namesApart (hx : lookup [t] v = some x) (c : Value) :
    lookup [t] (withChild s c v) = some x := by
  cases v with
  | map ms =>
    rw [lookup_singleton_map] at hx
    rw [withChild, lookup_singleton_map, h.child?_insert, hx]
  | arr items =>
    rw [lookup_singleton_arr] at hx
    rw [withChild]
    split
    case h_1 i hi =>
      obtain ⟨j, hj, hx⟩ := Option.bind_eq_some_iff.1 hx
      have hlt : j < items.length := (List.getElem?_eq_some_iff.1 hx).1
      rw [lookup_singleton_arr, element?_of_index? hj, getElem?_padded_set, if_neg (h.index_ne hi hj),
        if_pos hlt, hx]
    case h_2 => rwa [lookup_singleton_arr]
  | _ => cases hx

/-- Where an array is padded there are nulls, as where a child is missing. -/
theorem child_withChild_of_namesApart (v c : Value) : child t (withChild s c v) = child t v := by
  have members (ms : Members) : child t (withChild s c (.map ms)) = child t (.map ms) := by
    rw [child, child, withChild, lookup_singleton_map, lookup_singleton_map, h.child?_insert]
  cases v with
  | null =>
    rw [withChild_null, members, child, lookup_singleton_map]
    rfl
  | map ms => exact members ms
  | arr items =>
    rw [withChild]
    split
    case h_1 i hi =>
      rw [child, child, lookup_singleton_arr, lookup_singleton_arr]
      cases hj : index? t with
      | none =>
        rw [element?, element?, hj]
        rfl
      | some j =>
        rw [element?_of_index? hj, element?_of_index? hj, getElem?_padded_set, if_neg (h.index_ne hi hj)]
        split
        · rfl
        case isFalse hlt =>
          rw [List.getElem?_eq_none (Nat.not_lt.1 hlt)]
          split <;> rfl
    case h_2 => rfl
  | _ => rfl

/-- Children that segments name apart may be put in either order. -/
theorem withChild_comm (v c d : Value) :
    withChild t d (withChild s c v) = withChild s c (withChild t d v) := by
  have members (ms : Members) :
      withChild t d (withChild s c (.map ms)) = withChild s c (withChild t d (.map ms)) := by
    simp only [withChild, h.key_insert, h.symm.key_insert, Entries.insert_comm (h.key_ne ms)]
  cases v with
  | null => rw [withChild_null, withChild_null, members]
  | map ms => exact members ms
  | arr items =>
    cases hi : index? s with
    | none => cases hj : index? t <;> simp only [withChild, hi, hj]
    | some i =>
      cases hj : index? t with
      | none => simp only [withChild, hi, hj]
      | some j =>
        have hne : j ≠ i := h.index_ne hi hj
        simp only [withChild_arr hi, withChild_arr hj]
        refine congrArg Value.arr (List.ext_getElem? fun k => ?_)
        simp only [getElem?_padded_set, length_padded_set]
        grind
  | _ => rfl

end TwoChildren

end Update

end RecordStore
