import RecordStore.Json.Writer
import RecordStore.Proofs.Json.TextKeys

/-!
# What the JSON text of a document quotes

The JSON text of a document quotes its strings and its keys and nothing else (`writesAll_texts`), only that a key with
the text of another one goes with its member.
-/

namespace RecordStore

namespace Json

theorem mem_textsOfItems {text : String} {items : List Json} :
    text ∈ textsOfItems items ↔ ∃ j ∈ items, text ∈ j.texts := by
  induction items with
  | nil => simp [textsOfItems]
  | cons j items ih => simp [textsOfItems, ih]

theorem mem_textsOfFields {text : String} {fields : List (String × Json)} :
    text ∈ textsOfFields fields ↔ ∃ e ∈ fields, text = e.1 ∨ text ∈ e.2.texts := by
  induction fields with
  | nil => simp [textsOfFields]
  | cons e fields ih =>
    obtain ⟨name, j⟩ := e
    simp [textsOfFields, ih, or_assoc]

end Json

namespace Value

variable {w : Json.Writer} {v : Value}

/-- The writer writes the strings and the keys of the document. -/
structure WrittenBy (w : Json.Writer) (v : Value) : Prop where
  strings : v.AllStrings w.Writes
  keys : v.AllParts fun part => ∀ e ∈ part.members, w.Writes e.1.text

theorem WrittenBy.of_part {part : Value} (h : v.WrittenBy w) (hpart : v.Part part) : part.WrittenBy w :=
  ⟨h.strings.of_part hpart, h.keys.of_part hpart⟩

theorem writtenBy_of_isScalar (hs : v.isScalar = true) : v.WrittenBy w ↔ ∀ s, v = .str s → w.Writes s := by
  refine ⟨fun h => (allParts_of_isScalar hs).1 h.strings, fun h => ⟨(allParts_of_isScalar hs).2 h, ?_⟩⟩
  refine (allParts_of_isScalar hs).2 ?_
  cases v with
  | arr _ | map _ => cases hs
  | _ => exact nofun

theorem writtenBy_arr_iff {items : List Value} : (arr items).WrittenBy w ↔ ∀ v ∈ items, v.WrittenBy w := by
  constructor
  · exact fun h v hv => h.of_part (.element hv .self)
  · intro h
    exact ⟨allStrings_arr_iff.2 fun v hv => (h v hv).strings, allParts_arr_iff.2 ⟨nofun, fun v hv => (h v hv).keys⟩⟩

theorem writtenBy_map_iff {ms : Members} :
    (map ms).WrittenBy w ↔ ∀ e ∈ ms, w.Writes e.1.text ∧ e.2.WrittenBy w := by
  constructor
  · exact fun h e he => ⟨h.keys _ .self e he, h.of_part (.member he .self)⟩
  · intro h
    exact ⟨allStrings_map_iff.2 fun e he => (h e he).2.strings,
      allParts_map_iff.2 ⟨fun e he => (h e he).1, fun e he => (h e he).2.keys⟩⟩

theorem mem_toJsonFields {ms : Members} {fields : List (String × Json)} {e : String × Json}
    (h : e ∈ toJsonFields ms fields) : e ∈ fields ∨ ∃ m ∈ ms, e = (m.1.text, m.2.toJson) := by
  induction ms generalizing fields with
  | nil => exact .inl h
  | cons m ms ih =>
    obtain ⟨k, v⟩ := m
    rcases ih h with h | ⟨m, hm, rfl⟩
    · rcases Entries.mem_insert h with rfl | h
      · exact .inr ⟨(k, v), List.mem_cons_self, rfl⟩
      · exact .inl h
    · exact .inr ⟨m, List.mem_cons_of_mem _ hm, rfl⟩

/-- A writer that writes the strings and keys of a document writes all that its JSON text quotes. -/
theorem WrittenBy.writesAll_texts (h : v.WrittenBy w) : w.WritesAll v.toJson.texts := by
  induction v using Value.induction with
  | str s =>
    intro text htext
    obtain rfl := List.mem_singleton.1 htext
    exact (writtenBy_of_isScalar rfl).1 h text rfl
  | arr items ih =>
    intro text htext
    rw [toJson, toJsonItems_eq_map] at htext
    obtain ⟨j, hj, htext⟩ := Json.mem_textsOfItems.1 htext
    obtain ⟨v, hv, rfl⟩ := List.mem_map.1 hj
    exact ih v hv (writtenBy_arr_iff.1 h v hv) text htext
  | map ms ih =>
    intro text htext
    obtain ⟨e, he, htext⟩ := Json.mem_textsOfFields.1 htext
    obtain ⟨m, hm, rfl⟩ := (mem_toJsonFields he).resolve_left List.not_mem_nil
    obtain ⟨hkey, hmember⟩ := writtenBy_map_iff.1 h m hm
    rcases htext with rfl | htext
    · exact hkey
    · exact ih m hm hmember text htext
  | _ => exact w.writesAll_nil

end Value

end RecordStore
