import RecordStore.Path

/-!
# Dotted text and its segments

`parts` is everything between the points of a text. Cutting at points is `List.splitOn`, so segments without points are
the parts of their dotted text (`parts_dotted`), and what follows a last point is the last part (`parts_append`). A text
has segments where none of its parts is empty (`segments?_eq`).
-/

namespace RecordStore

namespace Text

theorem pieces_eq_splitOn (sep : Char) (cs : List Char) : pieces sep cs = cs.splitOn sep := by
  induction cs with
  | nil => rw [pieces, List.splitOn_nil]
  | cons c cs ih =>
    rw [pieces, List.splitOn_cons_eq_if_modifyHead, ← ih]
    by_cases hc : c = sep
    · rw [if_pos hc, if_pos (beq_iff_eq.2 hc)]
    · rw [if_neg hc, if_neg (by simpa using hc)]
      cases hp : pieces sep cs with
      | nil => exact absurd hp (pieces_ne_nil sep cs)
      | cons p ps => rfl

end Text

namespace Path

/-- What stands between the points of a text. -/
def parts (text : String) : List String := (Text.pieces '.' text.toList).map String.ofList

theorem parts_ne_nil (text : String) : parts text ≠ [] := by
  simpa [parts] using Text.pieces_ne_nil '.' text.toList

theorem parts_append (text : String) {s : String} (hs : '.' ∉ s.toList) :
    parts (text ++ "." ++ s) = parts text ++ [s] := by
  have hlist : (text ++ "." ++ s).toList = text.toList ++ '.' :: s.toList := by simp
  have hlast : s.toList.splitOn '.' = [s.toList] := List.splitOn_eq_singleton hs
  simp only [parts, Text.pieces_eq_splitOn]
  rw [hlist, List.splitOn_append_cons_self, hlast]
  simp

theorem parts_dotted {path : List String} (hne : path ≠ []) (hpath : ∀ s ∈ path, '.' ∉ s.toList) :
    parts (dotted path) = path := by
  have hsplit : (['.'].intercalate (path.map String.toList)).splitOn '.' = path.map String.toList := by
    refine List.splitOn_intercalate '.' ?_ (by simpa using hne)
    simpa using hpath
  have hlist : (dotted path).toList = ['.'].intercalate (path.map String.toList) := String.toList_intercalate
  simp only [parts, Text.pieces_eq_splitOn]
  rw [hlist, hsplit]
  simp [List.map_map, Function.comp_def]

theorem eq_of_parts_eq_singleton {text s : String} (h : parts text = [s]) : text = s := by
  have hpieces : Text.pieces '.' text.toList = [s.toList] := by
    have := congrArg (List.map String.toList) h
    simpa [parts, List.map_map, Function.comp_def] using this
  have hjoined := Text.joined_pieces '.' text.toList
  rw [hpieces] at hjoined
  exact (String.toList_inj.1 hjoined).symm

theorem segments?_eq (text : String) : segments? text = if "" ∈ parts text then none else some (parts text) := by
  have hany : (Text.pieces '.' text.toList).any List.isEmpty = true ↔ "" ∈ parts text := by
    simp [parts]
  unfold segments?
  by_cases h : "" ∈ parts text
  · rw [if_pos h, if_pos (hany.2 h)]
  · rw [if_neg h, if_neg (mt hany.1 h)]
    rfl

theorem segments?_eq_some_iff {text : String} {path : List String} :
    segments? text = some path ↔ parts text = path ∧ "" ∉ path := by
  rw [segments?_eq]
  split
  case isTrue h => exact ⟨nofun, fun hp => absurd h (hp.1 ▸ hp.2)⟩
  case isFalse h =>
    rw [Option.some.injEq]
    exact ⟨fun hp => ⟨hp, hp ▸ h⟩, fun hp => hp.1⟩

theorem segments?_ne_nil {text : String} {path : List String} (h : segments? text = some path) : path ≠ [] := by
  obtain ⟨rfl, -⟩ := segments?_eq_some_iff.1 h
  exact parts_ne_nil text

/-- One more segment after a point. -/
theorem segments?_append {text s : String} {path : List String} (h : segments? text = some path) (hne : s ≠ "")
    (hs : '.' ∉ s.toList) : segments? (text ++ "." ++ s) = some (path ++ [s]) := by
  obtain ⟨hparts, hempty⟩ := segments?_eq_some_iff.1 h
  refine segments?_eq_some_iff.2 ⟨by rw [parts_append text hs, hparts], ?_⟩
  simpa using ⟨hempty, hne⟩

/-- Segments without points are read back from their dotted text. -/
theorem segments?_dotted {path : List String} (hne : path ≠ []) (hpath : ∀ s ∈ path, s ≠ "" ∧ '.' ∉ s.toList) :
    segments? (dotted path) = some path :=
  segments?_eq_some_iff.2 ⟨parts_dotted hne fun s hs => (hpath s hs).2, fun h => (hpath "" h).1 rfl⟩

end Path

end RecordStore
