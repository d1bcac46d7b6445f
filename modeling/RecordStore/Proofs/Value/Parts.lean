import RecordStore.Proofs.Entries
import RecordStore.Value.Basic

/-!
# Parts of documents

The parts of a document are the document itself, the parts of its elements and the parts of its members. What holds of
all parts is known from the elements and members (`allParts_arr_iff`, `allParts_map_iff`), and so is what holds of all
strings (`AllStrings`).
-/

namespace RecordStore.Value

/-- A document occurs in another: as the whole of it, in an element or in a member. -/
inductive Part : (whole part : Value) → Prop
  | self {v : Value} : Part v v
  | element {items : List Value} {v part : Value} : v ∈ items → Part v part → Part (.arr items) part
  | member {ms : Members} {e : Key × Value} {part : Value} : e ∈ ms → Part e.2 part → Part (.map ms) part

/-- All parts of the document have a property. -/
def AllParts (P : Value → Prop) (v : Value) : Prop := ∀ part, v.Part part → P part

variable {P : Value → Prop}

theorem allParts_arr_iff {items : List Value} : (arr items).AllParts P ↔ P (arr items) ∧ ∀ v ∈ items, v.AllParts P := by
  constructor
  · intro h
    exact ⟨h _ .self, fun v hv part hpart => h part (.element hv hpart)⟩
  · rintro ⟨hself, hitems⟩ part hpart
    cases hpart with
    | self => exact hself
    | element hv hpart => exact hitems _ hv part hpart

theorem allParts_map_iff {ms : Members} : (map ms).AllParts P ↔ P (map ms) ∧ ∀ e ∈ ms, e.2.AllParts P := by
  constructor
  · intro h
    exact ⟨h _ .self, fun e he part hpart => h part (.member he hpart)⟩
  · rintro ⟨hself, hmembers⟩ part hpart
    cases hpart with
    | self => exact hself
    | member he hpart => exact hmembers _ he part hpart

theorem allParts_of_isScalar {v : Value} (hs : v.isScalar = true) : v.AllParts P ↔ P v := by
  constructor
  · exact fun h => h v .self
  · intro h part hpart
    cases hpart with
    | self => exact h
    | element _ _ | member _ _ => cases hs

theorem AllParts.of_part {v part : Value} (h : v.AllParts P) (hpart : v.Part part) : part.AllParts P := by
  induction hpart with
  | self => exact h
  | element hv _ ih => exact ih ((allParts_arr_iff.1 h).2 _ hv)
  | member he _ ih => exact ih ((allParts_map_iff.1 h).2 _ he)

/-! ## Strings -/

/-- All strings in the document have a property; keys are not meant. -/
def AllStrings (Q : String → Prop) (v : Value) : Prop := v.AllParts fun part => ∀ s, part = .str s → Q s

section Strings

variable {Q : String → Prop}

theorem allStrings_null : null.AllStrings Q := (allParts_of_isScalar rfl).2 nofun

theorem allStrings_str_iff {s : String} : (str s).AllStrings Q ↔ Q s := by
  refine (allParts_of_isScalar rfl).trans ⟨fun h => h s rfl, ?_⟩
  rintro h _ ⟨⟩
  exact h

theorem allStrings_arr_iff {items : List Value} : (arr items).AllStrings Q ↔ ∀ v ∈ items, v.AllStrings Q :=
  allParts_arr_iff.trans (and_iff_right nofun)

theorem allStrings_map_iff {ms : Members} : (map ms).AllStrings Q ↔ ∀ e ∈ ms, e.2.AllStrings Q :=
  allParts_map_iff.trans (and_iff_right nofun)

theorem allStrings_insert {k : Key} {v : Value} {ms : Members} (hv : v.AllStrings Q) (hms : (map ms).AllStrings Q) :
    (map (Entries.insert k v ms)).AllStrings Q := by
  refine allStrings_map_iff.2 fun e he => ?_
  rcases Entries.mem_insert he with rfl | he
  · exact hv
  · exact allStrings_map_iff.1 hms e he

end Strings

end RecordStore.Value
