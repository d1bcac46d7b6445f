import RecordStore.Json.Document
import RecordStore.Proofs.Json.RoundTrip
import RecordStore.Proofs.Value.Members
import RecordStore.Proofs.Value.Parts

/-!
# Documents in JSON text

JSON has only text for keys, so a document comes back from its text with every integer key as decimal text
(`Value.textKeyed`); where a map has a string key with that text, the member of the string key is kept. But for this
every document that holds no real comes back as it was (`Value.parse_dump`).
-/

namespace RecordStore

namespace Value

/-! ## Text keys -/

/-- The members under the texts of their keys, in key order. The member of an integer key is left out if its text is a
key as well. -/
def textKeys (ms : Members) : Members :=
  Entries.ofList ((ms.filter fun e => e.1 = .str e.1.text || !Entries.contains (.str e.1.text) ms).map fun e =>
    (.str e.1.text, e.2))

mutual

/-- The document with the members of all its maps under text keys. -/
def textKeyed : Value → Value
  | arr items => arr (textKeyedItems items)
  | map ms => map (textKeys (textKeyedMembers ms))
  | v => v

def textKeyedItems : List Value → List Value
  | [] => []
  | v :: vs => v.textKeyed :: textKeyedItems vs

def textKeyedMembers : Members → Members
  | [] => []
  | (k, v) :: ms => (k, v.textKeyed) :: textKeyedMembers ms

end

/-- No part of the document is a real. -/
def HoldsNoReal (v : Value) : Prop := v.AllParts fun part => ∀ x, part ≠ real x

/-- The keys of all maps in the document are strings. -/
def HasTextKeys (v : Value) : Prop := v.AllParts fun part => ∀ e ∈ part.members, e.1 = .str e.1.text

variable {v : Value} {items : List Value} {ms : Members}

theorem textKeyedItems_eq_map (items : List Value) : textKeyedItems items = items.map textKeyed := by
  induction items with
  | nil => rfl
  | cons v vs ih => rw [textKeyedItems, ih, List.map_cons]

theorem textKeyedMembers_eq_map (ms : Members) : textKeyedMembers ms = ms.map fun e => (e.1, e.2.textKeyed) := by
  induction ms with
  | nil => rfl
  | cons e ms ih => rw [textKeyedMembers, ih, List.map_cons]

/-- In a map in key order, the member of an integer key that is left out comes before that of the string key. -/
theorem exists_later_of_left_out (hasc : Entries.Ascending ms) {before after : Members} {e : Key × Value}
    (hms : ms = before ++ e :: after)
    (he : (decide (e.1 = .str e.1.text) || !Entries.contains (.str e.1.text) ms) = false) :
    ∃ later ∈ after, later.1.text = e.1.text := by
  subst hms
  simp only [Bool.or_eq_false_iff, decide_eq_false_iff_not, Bool.not_eq_false'] at he
  obtain ⟨hint, hcontains⟩ := he
  obtain ⟨member, hmember⟩ := Option.isSome_iff_exists.1 hcontains
  have hlt := hasc.lt_of_append
  obtain ⟨k, v⟩ := e
  cases k with
  | str s => exact absurd rfl hint
  | int i =>
    rcases List.mem_append.1 (Entries.mem_of_find? hmember) with hmem | hmem
    · cases hlt _ hmem
    · rcases List.mem_cons.1 hmem with heq | hmem
      · cases heq
      · exact ⟨_, hmem, rfl⟩

/-- In a map in key order, the members under text keys are those that writing them one after another leaves. -/
theorem textKeys_eq (hasc : Entries.Ascending ms) :
    textKeys ms = Entries.insertAll (ms.map fun e => (.str e.1.text, e.2)) [] := by
  refine Entries.insertAll_map_filter (fun before e after hms he => ?_) []
  obtain ⟨later, hlater, htext⟩ := exists_later_of_left_out hasc hms he
  exact ⟨later, hlater, congrArg Key.str htext⟩

theorem textKeys_of_text (hasc : Entries.Ascending ms) (htext : ∀ e ∈ ms, e.1 = .str e.1.text) : textKeys ms = ms := by
  have hmap : (ms.map fun e => (Key.str e.1.text, e.2)) = ms := by
    refine (List.map_congr_left fun e he => ?_).trans (List.map_id ms)
    rw [← htext e he]
    rfl
  have hasc' : Entries.Ascending ([] ++ ms) := hasc
  rw [textKeys_eq hasc, hmap, Entries.insertAll_of_ascending hasc', List.nil_append]

theorem ascending_textKeyedMembers (hasc : Entries.Ascending ms) : Entries.Ascending (textKeyedMembers ms) := by
  rw [textKeyedMembers_eq_map, Entries.Ascending, List.map_map]
  exact hasc

/-- A document whose keys are strings has its members under text keys already. -/
theorem textKeyed_of_hasTextKeys (hs : v.Sorted) (ht : v.HasTextKeys) : v.textKeyed = v := by
  induction v using Value.induction with
  | arr items ih =>
    have hitems : items.map textKeyed = items := by
      refine (List.map_congr_left fun v hv => ?_).trans (List.map_id items)
      exact ih v hv (sortedItems_iff.1 hs v hv) ((allParts_arr_iff.1 ht).2 v hv)
    rw [textKeyed, textKeyedItems_eq_map, hitems]
  | map ms ih =>
    obtain ⟨hasc, hsorted⟩ := sorted_map_iff.1 hs
    obtain ⟨htext, hmembers⟩ := allParts_map_iff.1 ht
    have hms : textKeyedMembers ms = ms := by
      rw [textKeyedMembers_eq_map]
      refine (List.map_congr_left fun e he => ?_).trans (List.map_id ms)
      rw [ih e he (hsorted e he) (hmembers e he)]
      rfl
    rw [textKeyed, hms, textKeys_of_text hasc htext]
  | _ => rfl

/-! ## Documents and JSON -/

theorem toJsonItems_eq_map (items : List Value) : toJsonItems items = items.map toJson := by
  induction items with
  | nil => rfl
  | cons v vs ih => rw [toJsonItems, ih, List.map_cons]

theorem toItems_toJsonItems (items : List Value) :
    Json.toItems (toJsonItems items) = items.map fun v => v.toJson.toValue := by
  induction items with
  | nil => rfl
  | cons v vs ih => rw [toJsonItems, Json.toItems, ih, List.map_cons]

theorem toMembers_insert (name : String) (j : Json) (fields : List (String × Json)) :
    Json.toMembers (Entries.insert name j fields) =
      Entries.insert (.str name) j.toValue (Json.toMembers fields) := by
  induction fields with
  | nil => rfl
  | cons e fields ih =>
    obtain ⟨other, j'⟩ := e
    rw [Json.toMembers]
    rcases Entries.lt_trichotomy name other with h | rfl | h
    · have hkey : compare (Key.str name) (Key.str other) = .lt := h
      rw [Entries.insert_cons_of_lt h, Entries.insert_cons_of_lt hkey, Json.toMembers, Json.toMembers]
    · rw [Entries.insert_cons_self, Entries.insert_cons_self, Json.toMembers]
    · have hkey : compare (Key.str other) (Key.str name) = .lt := h
      rw [Entries.insert_cons_of_gt h, Entries.insert_cons_of_gt hkey, Json.toMembers, ih]

/-- The members of the object that a map becomes are those of the map, written one after another under text keys. -/
theorem toMembers_toJsonFields (ms : Members) (fields : List (String × Json)) :
    Json.toMembers (toJsonFields ms fields) =
      Entries.insertAll (ms.map fun e => (.str e.1.text, e.2.toJson.toValue)) (Json.toMembers fields) := by
  induction ms generalizing fields with
  | nil => rfl
  | cons e ms ih =>
    obtain ⟨k, v⟩ := e
    rw [toJsonFields, ih, toMembers_insert]
    rfl

/-- As JSON and back, a document has its members under text keys. -/
theorem toValue_toJson (hs : v.Sorted) : v.toJson.toValue = v.textKeyed := by
  induction v using Value.induction with
  | int i =>
    have hle : i.toInt ≤ 9223372036854775807 := by
      have := i.toInt_lt
      omega
    rw [toJson, Json.toValue, if_pos hle, Int64.ofInt_toInt]
    rfl
  | arr items ih =>
    rw [toJson, Json.toValue, toItems_toJsonItems, textKeyed, textKeyedItems_eq_map]
    exact congrArg arr (List.map_congr_left fun v hv => ih v hv (sortedItems_iff.1 hs v hv))
  | map ms ih =>
    obtain ⟨hasc, hsorted⟩ := sorted_map_iff.1 hs
    have hmembers : (ms.map fun e => (Key.str e.1.text, e.2.toJson.toValue)) =
        (textKeyedMembers ms).map fun e => (Key.str e.1.text, e.2) := by
      rw [textKeyedMembers_eq_map, List.map_map]
      exact List.map_congr_left fun e he => by rw [ih e he (hsorted e he)]; rfl
    rw [toJson, Json.toValue, toMembers_toJsonFields, hmembers, textKeyed,
      textKeys_eq (ascending_textKeyedMembers hasc)]
    rfl
  | _ => rfl

/-! ## Exact JSON -/

theorem exact_toJsonFields {fields : List (String × Json)} (hms : ∀ e ∈ ms, e.2.toJson.Exact)
    (hfields : (Json.obj fields).Exact) : (Json.obj (toJsonFields ms fields)).Exact := by
  induction ms generalizing fields with
  | nil => exact hfields
  | cons e ms ih =>
    obtain ⟨k, v⟩ := e
    obtain ⟨hv, hms⟩ := List.forall_mem_cons.1 hms
    obtain ⟨hasc, hexact⟩ := Json.exact_obj_iff.1 hfields
    refine ih hms (Json.exact_obj_iff.2 ⟨hasc.insert _ _, fun e he => ?_⟩)
    rcases Entries.mem_insert he with rfl | he
    · exact hv
    · exact hexact e he

/-- A document without reals is exact as JSON. -/
theorem exact_toJson (h : v.HoldsNoReal) : v.toJson.Exact := by
  induction v using Value.induction with
  | int i =>
    have hlow := i.le_toInt
    have hhigh := i.toInt_lt
    refine ⟨by omega, by omega⟩
  | real x => exact absurd rfl (h _ .self x)
  | arr items ih =>
    rw [toJson, Json.exact_arr_iff, toJsonItems_eq_map, List.forall_mem_map]
    exact fun v hv => ih v hv ((allParts_arr_iff.1 h).2 v hv)
  | map ms ih =>
    rw [toJson]
    exact exact_toJsonFields (fun e he => ih e he ((allParts_map_iff.1 h).2 e he))
      (Json.exact_obj_iff.2 ⟨List.Pairwise.nil, nofun⟩)
  | _ => trivial

/-! ## Texts -/

/-- A document that holds no real comes back from its text, with any indentation, under text keys; so it comes back as
it was if its keys are strings. -/
theorem parse_dump (hs : v.Sorted) (hreal : v.HoldsNoReal) (indent : Int) :
    parse (v.dump indent) = .ok v.textKeyed ∧ (v.HasTextKeys → parse (v.dump indent) = .ok v) := by
  have hparse : parse (v.dump indent) = .ok v.textKeyed := by
    rw [parse, dump, Json.parse?_dump (exact_toJson hreal)]
    exact congrArg Except.ok (toValue_toJson hs)
  exact ⟨hparse, fun ht => by rw [hparse, textKeyed_of_hasTextKeys hs ht]⟩

/-- Keys with one text, an empty array and an empty map, a quote and a control character, and the largest integer. -/
theorem parse_dump_colliding :
    let v : Value := .map [(.int (-5), .map []), (.int 1, .str "lost"),
      (.str "\"\x01", .arr [.bool true, .map [(.int 7, .int 9223372036854775807)]]), (.str "1", .arr [])]
    let w : Value := .map [(.str "\"\x01", .arr [.bool true, .map [(.str "7", .int 9223372036854775807)]]),
      (.str "-5", .map []), (.str "1", .arr [])]
    parse (v.dump 2) = .ok w ∧ parse (w.dump (-1)) = .ok w := by
  intro v w
  have hv : v.Sorted := by
    refine sorted_map_iff.2 ⟨?_, by simp [Sorted, SortedItems, SortedMembers]⟩
    show List.Pairwise _ _
    decide +kernel
  have hw : w.Sorted := by
    refine sorted_map_iff.2 ⟨?_, by simp [Sorted, SortedItems, SortedMembers]⟩
    show List.Pairwise _ _
    decide +kernel
  have hreal : v.HoldsNoReal ∧ w.HoldsNoReal := by
    simp +decide [v, w, HoldsNoReal, allParts_map_iff, allParts_arr_iff, allParts_of_isScalar]
  have htext : w.HasTextKeys := by
    simp +decide [w, HasTextKeys, allParts_map_iff, allParts_arr_iff, allParts_of_isScalar, members,
      List.forall_mem_cons, -List.mem_cons, -Prod.forall]
  have hvw : v.textKeyed = w := rfl
  exact ⟨hvw ▸ (parse_dump hv hreal.1 2).1, (parse_dump hw hreal.2 (-1)).2 htext⟩

end Value

end RecordStore
