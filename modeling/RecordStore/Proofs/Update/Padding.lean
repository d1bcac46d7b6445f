import Mathlib.Algebra.Group.Nat.Defs
import RecordStore.Proofs.Update.ReadBack
import RecordStore.Proofs.Value.Places

/-!
# How arrays grow when room is made

At one segment the walk goes to what is there, or makes a member, or pads an array with nulls (`room_cases`). Only the
first of these leads to anything but null, and making room in a null makes no array (`length?_of_populate_null`), so by
induction along the path at most one array is padded (`populate_pads`). Computed by words of 64 bits, the new length of
an array is the exact one (`grownLength?_eq`), because the limit is tested before one is added to the index.
-/

namespace RecordStore.Update

open RecordStore.Path
open RecordStore.Value (Step)

variable {s : String} {x : Step} {path : List String} {place : List Step} {v v' c c' : Value} {items : List Value}
  {ms : Members} {i added : Nat}

/-! ## One segment -/

/-- The segment names what stands in the container after the step, and another child goes to the same place. -/
structure LeadsTo (s : String) (x : Step) (v c : Value) : Prop where
  room : HasRoom s v
  next : v.next? x = some c
  child_eq : child s v = c
  next_withChild : ∀ d y, (withChild s d v).next? y = if y = x then some d else v.next? y
  size_withChild : ∀ d, (withChild s d v).size? = v.size?
  putAt_eq : ∀ place new, v.putAt (x :: place) new = withChild s (c.putAt place new) v

theorem leadsTo_member (h : child? ms s = some c) : LeadsTo s (.member (key ms s)) (.map ms) c where
  room := trivial
  next := h
  child_eq := by rw [child, lookup_singleton_map, h, Option.getD_some]
  next_withChild d y := by
    cases y with
    | member k => simp [withChild, Value.next?, Entries.find?_insert]
    | element j => rfl
  size_withChild d := rfl
  putAt_eq place new := by
    rw [child?] at h
    simp [Value.putAt, h, withChild]

theorem leadsTo_element (hi : index? s = some i) (h : items[i]? = some c) :
    LeadsTo s (.element i) (.arr items) c := by
  have hlt : i < items.length := (List.getElem?_eq_some_iff.1 h).1
  have hwith (d : Value) : withChild s d (.arr items) = .arr (items.set i d) := by
    rw [withChild_arr hi, padded_of_lt hlt]
  refine ⟨⟨i, hi, by omega⟩, h, ?_, fun d y => ?_, fun d => ?_, fun place new => ?_⟩
  · rw [child, lookup_singleton_arr, element?_of_index? hi, h, Option.getD_some]
  · rw [hwith]
    cases y with
    | member k => rfl
    | element j =>
      by_cases hj : j = i
      · simp [Value.next?, hj, hlt]
      · simp [Value.next?, hj, Ne.symm hj]
  · rw [hwith, Value.size?, Value.size?, List.length_set]
  · rw [hwith, Value.putAt]
    refine congrArg Value.arr (List.ext_getElem? fun j => ?_)
    by_cases hj : j = i
    · rw [hj, List.getElem?_modify, h, List.getElem?_set_self hlt]
      simp
    · simp [Ne.symm hj]

/-- The segment names nothing yet, and with a child there that has no arrays the container has the arrays it had. -/
def MakesMember (s : String) (v : Value) : Prop :=
  child s v = .null ∧ ∀ d : Value, (∀ place, d.length? place = none) → ∀ place,
    (withChild s d v).length? place = v.length? place

theorem makesMember_map (h : child? ms s = none) : MakesMember s (.map ms) := by
  refine ⟨by rw [child, lookup_singleton_map, h, Option.getD_none], fun d hd place => ?_⟩
  rw [child?] at h
  cases place with
  | nil => rfl
  | cons y place =>
    rw [Value.length?_cons, Value.length?_cons]
    cases y with
    | element j => rfl
    | member k =>
      simp only [withChild, Value.next?, Entries.find?_insert]
      split
      case isTrue hk => rw [hk, h, Option.bind_some, hd, Option.bind_none]
      case isFalse => rfl

theorem makesMember_null (s : String) : MakesMember s .null := by
  obtain ⟨-, hlength⟩ : MakesMember s (.map []) := makesMember_map rfl
  refine ⟨rfl, fun d hd place => ?_⟩
  rw [withChild_null, hlength d hd]
  cases place with
  | nil => rfl
  | cons y place =>
    rw [Value.length?_cons, Value.length?_cons]
    cases y <;> rfl

theorem room_cases (h : HasRoom s v) : (∃ x c, LeadsTo s x v c) ∨ MakesMember s v ∨
    ∃ items i, v = .arr items ∧ index? s = some i ∧ items.length ≤ i ∧ i - items.length ≤ maxPadding := by
  cases v with
  | null => exact .inr (.inl (makesMember_null s))
  | map ms =>
    cases hc : child? ms s with
    | none => exact .inr (.inl (makesMember_map hc))
    | some c => exact .inl ⟨_, c, leadsTo_member hc⟩
  | arr items =>
    obtain ⟨i, hi, hnear⟩ := h
    cases hc : items[i]? with
    | none => exact .inr (.inr ⟨items, i, rfl, hi, List.getElem?_eq_none_iff.1 hc, hnear⟩)
    | some c => exact .inl ⟨_, c, leadsTo_element hi hc⟩
  | _ => exact h.elim

/-! ## A whole path -/

/-- Room made in a null is a chain of maps. -/
theorem length?_of_populate_null (h : populate path .null = .ok v') (place : List Step) : v'.length? place = none := by
  induction path generalizing v' place with
  | nil =>
    cases h
    cases place with
    | nil => rfl
    | cons y place =>
      rw [Value.length?_cons]
      cases y <;> rfl
  | cons s path ih =>
    obtain ⟨-, c, hc, rfl⟩ := populate_cons_eq_ok.1 h
    obtain ⟨hnull, hlength⟩ := makesMember_null s
    rw [hnull] at hc
    rw [hlength c (ih hc)]
    cases place with
    | nil => rfl
    | cons y place =>
      rw [Value.length?_cons]
      cases y <;> rfl

/-- At every place there is an array of the same length, or none. -/
def SameLengths (v v' : Value) : Prop := ∀ place, v'.length? place = v.length? place

/-- One array is made longer by nulls, before anything else is done, and then all of these but the last one stay. -/
structure Pads (path : List String) (v v' : Value) (place : List Step) (items : List Value) (added : Nat) : Prop where
  array : v.at? place = some (.arr items)
  limit : 0 < added ∧ added ≤ 10001
  first : populate path (v.putAt place (.arr (items ++ List.replicate added .null))) = .ok v'
  slot : ∃ slot, v'.at? place = some (.arr (items ++ List.replicate (added - 1) .null ++ [slot]))
  others : ∀ other, other ≠ place → v'.length? other = v.length? other

theorem LeadsTo.at?_cons (h : LeadsTo s x v c) (place : List Step) : v.at? (x :: place) = c.at? place := by
  rw [Value.at?, h.next, Option.bind_some]

theorem LeadsTo.at?_withChild (h : LeadsTo s x v c) (d : Value) (place : List Step) :
    (withChild s d v).at? (x :: place) = d.at? place := by
  rw [Value.at?, h.next_withChild, if_pos rfl, Option.bind_some]

/-- Lengths in the container, in the child and outside of it. -/
theorem LeadsTo.length?_withChild (h : LeadsTo s x v c) {d : Value} {other : List Step}
    (hother : ∀ rest, other = x :: rest → d.length? rest = c.length? rest) :
    (withChild s d v).length? other = v.length? other := by
  cases other with
  | nil => exact h.size_withChild d
  | cons y rest =>
    rw [Value.length?_cons, Value.length?_cons, h.next_withChild]
    split
    case isTrue hy => rw [hy, h.next, Option.bind_some, Option.bind_some, hother rest (by rw [hy])]
    case isFalse => rfl

theorem LeadsTo.sameLengths (h : LeadsTo s x v c) (hc : SameLengths c c') : SameLengths v (withChild s c' v) :=
  fun _ => h.length?_withChild fun rest _ => hc rest

theorem LeadsTo.pads (h : LeadsTo s x v c) (hc : Pads path c c' place items added) :
    Pads (s :: path) v (withChild s c' v) (x :: place) items added where
  array := by rw [h.at?_cons, hc.array]
  limit := hc.limit
  first := by
    rw [h.putAt_eq]
    refine populate_cons_eq_ok.2 ⟨h.room.withChild s _, c', ?_, withChild_withChild h.room _ _⟩
    rw [child_withChild h.room]
    exact hc.first
  slot := by
    obtain ⟨slot, hslot⟩ := hc.slot
    exact ⟨slot, by rw [h.at?_withChild, hslot]⟩
  others other hother := h.length?_withChild fun rest hrest => hc.others rest fun heq => hother (by rw [hrest, heq])

/-- Past the end of an array there is null up to the index. -/
theorem pads_arr (hi : index? s = some i) (hle : items.length ≤ i) (hnear : i - items.length ≤ maxPadding)
    (hc : populate path .null = .ok c') :
    Pads (s :: path) (.arr items) (withChild s c' (.arr items)) [] items (i + 1 - items.length) where
  array := rfl
  limit := by
    have hmax : maxPadding = 10000 := rfl
    omega
  first := by
    have hlt : i < (padded items i).length := by
      rw [padded, List.length_append, List.length_replicate]
      omega
    have hnull : (padded items i).getD i .null = .null := by
      rw [padded, List.getD_eq_getElem?_getD, List.getElem?_append_right hle, List.getElem?_replicate]
      split <;> rfl
    show populate (s :: path) (.arr (padded items i)) = _
    refine populate_arr_eq_ok.2 ⟨i, c', hi, by omega, by rw [hnull, hc], ?_⟩
    rw [padded_of_lt hlt, withChild_arr hi]
  slot := by
    refine ⟨c', ?_⟩
    have hadded : i + 1 - items.length = i - items.length + 1 := by omega
    have hlength : (items ++ List.replicate (i - items.length) Value.null).length = i := by
      rw [List.length_append, List.length_replicate]
      omega
    rw [withChild_arr hi, padded, hadded, List.replicate_succ', ← List.append_assoc, Nat.add_sub_cancel,
      List.set_append_right _ _ (Nat.le_of_eq hlength), hlength, Nat.sub_self]
    rfl
  others other hother := by
    cases other with
    | nil => exact absurd rfl hother
    | cons y rest =>
      rw [Value.length?_cons, Value.length?_cons, withChild_arr hi]
      cases y with
      | member k => rfl
      | element j =>
        have hstart : populate [] .null = .ok .null := rfl
        have hnull := length?_of_populate_null hstart rest
        have hslot : c'.length? rest = none := length?_of_populate_null hc rest
        have hend : ∀ j, items.length ≤ j → items[j]? = none := fun j => List.getElem?_eq_none
        rw [Value.next?, Value.next?, getElem?_padded_set]
        split
        case isTrue hj => rw [hj, hend i hle, Option.bind_some, hslot, Option.bind_none]
        case isFalse =>
          split
          · rfl
          case isFalse hlt =>
            rw [hend j (Nat.not_lt.1 hlt)]
            split
            · rw [Option.bind_some, hnull, Option.bind_none]
            · rfl

/-- Along a whole path at most one array is padded. -/
theorem populate_pads (h : populate path v = .ok v') :
    SameLengths v v' ∨ ∃ place items added, Pads path v v' place items added := by
  induction path generalizing v v' with
  | nil =>
    cases h
    exact .inl fun _ => rfl
  | cons s path ih =>
    obtain ⟨hroom, c', hc, rfl⟩ := populate_cons_eq_ok.1 h
    obtain ⟨x, c, hx⟩ | ⟨hnull, hlength⟩ | ⟨items, i, rfl, hi, hle, hnear⟩ := room_cases hroom
    · rw [hx.child_eq] at hc
      obtain hsame | ⟨place, items, added, hpads⟩ := ih hc
      · exact .inl (hx.sameLengths hsame)
      · exact .inr ⟨x :: place, items, added, hx.pads hpads⟩
    · rw [hnull] at hc
      exact .inl (hlength c' (length?_of_populate_null hc))
    · have hchild : child s (.arr items) = .null := by
        rw [child, lookup_singleton_arr, element?_of_index? hi, List.getElem?_eq_none hle, Option.getD_none]
      rw [hchild] at hc
      exact .inr ⟨[], items, _, pads_arr hi hle hnear hc⟩

/-! ## Indexes by words -/

section Words

variable {length index : UInt64}

/-- The length of an array after room was made for an index, by words; none if the index is too far past the end. The
difference is taken only of an index that is not below the length, and one is added only within the limit. -/
def grownLength? (length index : UInt64) : Option UInt64 :=
  if index < length then some length
  else if 10000 < index - length then none
  else some (index + 1)

theorem toNat_difference (h : length ≤ index) : (index - length).toNat + length.toNat = index.toNat := by
  rw [UInt64.toNat_sub_of_le _ _ h]
  exact Nat.sub_add_cancel (UInt64.le_iff_toNat_le.1 h)

/-- The index is not so large that adding one would wrap. -/
theorem toNat_successor (hlength : length.toNat < 2 ^ 63) (h : grownLength? length index ≠ none) :
    (index + 1).toNat = index.toNat + 1 := by
  have hone : (1 : UInt64).toNat = 1 := rfl
  have hlimit : (10000 : UInt64).toNat = 10000 := rfl
  have hlt : index.toNat + 1 < 2 ^ 64 := by
    unfold grownLength? at h
    split at h
    case isTrue hbelow =>
      have hbelow := UInt64.lt_iff_toNat_lt.1 hbelow
      omega
    case isFalse hbelow =>
      have hdifference := toNat_difference (UInt64.not_lt.1 hbelow)
      split at h
      case isTrue => exact absurd rfl h
      case isFalse hnear =>
        have hnear := UInt64.le_iff_toNat_le.1 (UInt64.not_lt.1 hnear)
        omega
  rw [UInt64.toNat_add, hone, Nat.mod_eq_of_lt hlt]

/-- The words give the exact length, and none just where there is no room. -/
theorem grownLength?_eq (hlength : items.length < 2 ^ 63) (hi : i < 2 ^ 64) :
    (grownLength? (.ofNat items.length) (.ofNat i)).map UInt64.toNat =
      if i - items.length ≤ maxPadding then some (padded items i).length else none := by
  have hlengthWord : (UInt64.ofNat items.length).toNat = items.length :=
    UInt64.toNat_ofNat_of_lt' (Nat.lt_trans hlength (by decide))
  have hindexWord : (UInt64.ofNat i).toNat = i := UInt64.toNat_ofNat_of_lt' hi
  have hpadded : (padded items i).length = max items.length (i + 1) := by
    rw [← length_padded_set items i .null, List.length_set]
  have hlimit : (10000 : UInt64).toNat = maxPadding := rfl
  have hsuccessor (h : grownLength? (.ofNat items.length) (.ofNat i) ≠ none) := toNat_successor (by omega) h
  rw [hindexWord] at hsuccessor
  unfold grownLength? at hsuccessor ⊢
  by_cases hbelow : UInt64.ofNat i < .ofNat items.length
  · have hlt := UInt64.lt_iff_toNat_lt.1 hbelow
    rw [if_pos hbelow, if_pos (by omega), Option.map_some, hlengthWord, hpadded]
    congr 1
    omega
  · have hdifference := toNat_difference (UInt64.not_lt.1 hbelow)
    have hle := UInt64.le_iff_toNat_le.1 (UInt64.not_lt.1 hbelow)
    rw [if_neg hbelow] at hsuccessor ⊢
    by_cases hfar : 10000 < UInt64.ofNat i - .ofNat items.length
    · have hlt := UInt64.lt_iff_toNat_lt.1 hfar
      rw [if_pos hfar, if_neg (by omega), Option.map_none]
    · have hnear := UInt64.le_iff_toNat_le.1 (UInt64.not_lt.1 hfar)
      rw [if_neg hfar] at hsuccessor ⊢
      rw [if_pos (by omega), Option.map_some, hsuccessor nofun, hpadded]
      congr 1
      omega

end Words

/-- Indexes are read and computed exactly by words, on arrays that 64 bits can address, and digits that are worth no
word are no index. -/
structure ExactIndexes : Prop where
  word : ∀ s i, index? s = some i → (UInt64.ofNat i).toNat = i
  difference : ∀ length index : UInt64, length ≤ index → (index - length).toNat + length.toNat = index.toNat
  sum : ∀ length index : UInt64, length.toNat < 2 ^ 63 → grownLength? length index ≠ none →
    (index + 1).toNat = index.toNat + 1
  grown : ∀ (items : List Value) s i, items.length < 2 ^ 63 → index? s = some i →
    (grownLength? (.ofNat items.length) (.ofNat i)).map UInt64.toNat =
      if i - items.length ≤ maxPadding then some (padded items i).length else none
  beyond : ∀ s n, Text.numeral? 10 s.toList = some n → 2 ^ 64 ≤ n → (∀ ms, key ms s = .str s) ∧
    ∀ path items, populate (s :: path) (.arr items) = .error ⟨[], .notAnIndex s⟩

theorem exactIndexes : ExactIndexes where
  word s i h := UInt64.toNat_ofNat_of_lt' (index?_eq_some_iff.1 h).2.2
  difference _ _ := toNat_difference
  sum _ _ := toNat_successor
  grown items s i hlength h := grownLength?_eq hlength (index?_eq_some_iff.1 h).2.2
  beyond s n hn hle := by
    have hnone : index? s = none := by
      refine Option.eq_none_iff_forall_ne_some.2 fun i hi => ?_
      obtain ⟨-, hnumeral, hlt⟩ := index?_eq_some_iff.1 hi
      cases hn.symm.trans hnumeral
      exact absurd hlt (Nat.not_lt.2 hle)
    refine ⟨fun ms => ?_, fun path items => by rw [populate, hnone]⟩
    rw [key, hnone]
    split <;> rfl

/-! ## Records -/

section Records

variable {dotted : String} {record record' : Value}

theorem populate_of_walk (h : withPath dotted populateAt record = .ok () record') :
    ∃ path, segments? dotted = some path ∧ populate path record = .ok record' := by
  rw [withPath] at h
  cases hpath : segments? dotted with
  | none =>
    rw [hpath] at h
    cases h
  | some path =>
    rw [hpath] at h
    exact ⟨path, rfl, populateAt_eq_ok.1 h⟩

/-- Room for a setting or a push is made by lengthening no array of the record, or one by at most 10001 nulls before
anything else is done; and nothing that is computed with indexes wraps. -/
theorem walk_pads_one_array :
    (∀ dotted ms record', withPath dotted populateAt (.map ms) = .ok () record' →
      SameLengths (.map ms) record' ∨ ∃ path place items added, segments? dotted = some path ∧
        Pads path (.map ms) record' place items added) ∧
    ExactIndexes := by
  refine ⟨fun dotted ms record' h => ?_, exactIndexes⟩
  obtain ⟨path, hpath, hpopulate⟩ := populate_of_walk h
  obtain hsame | ⟨place, items, added, hpads⟩ := populate_pads hpopulate
  · exact .inl hsame
  · exact .inr ⟨path, place, items, added, hpath, hpads⟩

/-- An array inside another one is padded, and the rest of the path is made in the last of the new elements. -/
theorem walk_pads_one_array_nested :
    let record : Value := .map [(.str "l", .arr [.arr [.bool true], .null])]
    let record' : Value :=
      .map [(.str "l", .arr [.arr [.bool true, .null, .null, .map [(.str "x", .null)]], .null])]
    withPath "l.0.3.x" populateAt record = .ok () record' ∧
      ∃ path place items added, segments? "l.0.3.x" = some path ∧ Pads path record record' place items added := by
  intro record record'
  have hwalk : withPath "l.0.3.x" populateAt record = .ok () record' := rfl
  refine ⟨hwalk, (walk_pads_one_array.1 _ _ _ hwalk).resolve_left fun hsame => ?_⟩
  have hlength := hsame [.member (.str "l"), .element 0]
  cases hlength

end Records

end RecordStore.Update
