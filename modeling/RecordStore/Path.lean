import RecordStore.Text.Numeral
import RecordStore.Text.Pieces
import RecordStore.Value.Basic

/-!
# Dotted paths

A path is a list of segments, written with points between them. On a map a segment names the member of that string
key, or else the member of the integer key that it writes in decimal; on an array it is an index.

* `lookup` reads the document at a path, `replaceAt` puts another one there, `removeAt` takes it away.
* `lookup_replaceAt`: what was put at a path is found there, if the path led anywhere.
-/

namespace RecordStore.Path

/-- The segments of a dotted path, none of them empty. -/
def segments? (dotted : String) : Option (List String) :=
  let parts := Text.pieces '.' dotted.toList
  if parts.any List.isEmpty then none else some (parts.map String.ofList)

/-- The dotted text of segments. -/
def dotted (segments : List String) : String := String.intercalate "." segments

/-- The index that a segment writes: decimal digits alone, worth less than `2 ^ 64`. -/
def index? (segment : String) : Option Nat :=
  if segment = "" then none else (Text.numeral? 10 segment.toList).filter (· < UInt64.size)

/-- The key that a segment names in a map: the string key where it exists, else the integer key that it writes where
that exists, and else the string key, for a member to come. An index is read as the 64-bit word of its value. -/
def key (ms : Members) (segment : String) : Key :=
  if Entries.contains (.str segment) ms then .str segment
  else
    match index? segment with
    | some i => if Entries.contains (.int (.ofNat i)) ms then .int (.ofNat i) else .str segment
    | none => .str segment

/-- The member that a segment names in a map. -/
def child? (ms : Members) (segment : String) : Option Value := Entries.find? (key ms segment) ms

/-- The element that a segment names in an array. -/
def element? (items : List Value) (segment : String) : Option Value := do items[← index? segment]?

/-- The document at a path. -/
def lookup : List String → Value → Option Value
  | [], v => some v
  | s :: path, .map ms => (child? ms s).bind (lookup path)
  | s :: path, .arr items => (element? items s).bind (lookup path)
  | _ :: _, _ => none

/-- The document with another one at the path, if the path leads anywhere. -/
def replaceAt : List String → Value → Value → Value
  | [], new, _ => new
  | s :: path, new, .map ms =>
    match child? ms s with
    | some member => .map (Entries.replace (key ms s) (replaceAt path new member) ms)
    | none => .map ms
  | s :: path, new, .arr items =>
    match index? s with
    | some i => .arr (items.modify i (replaceAt path new))
    | none => .arr items
  | _ :: _, _, v => v

/-- The document without the member or element that a segment names. -/
def removeChild (s : String) : Value → Value
  | .map ms => .map (Entries.erase (key ms s) ms)
  | .arr items =>
    match index? s with
    | some i => .arr (items.eraseIdx i)
    | none => .arr items
  | v => v

/-- The document without what is at the path. -/
def removeAt : List String → Value → Value
  | [], v => v
  | [s], v => removeChild s v
  | s :: path, v =>
    match lookup [s] v with
    | some child => replaceAt [s] (removeAt path child) v
    | none => v

/-! ## Reading back -/

/-- Another document under a key that is there changes no segment's meaning. -/
theorem key_replace (k : Key) (v : Value) (ms : Members) (s : String) :
    key (Entries.replace k v ms) s = key ms s := by
  simp only [key, Entries.contains_replace]

/-- A document under the key that a segment names, whether or not it is there already, does not change what the segment
names. -/
theorem key_insert (ms : Members) (s : String) (v : Value) :
    key (Entries.insert (key ms s) v ms) s = key ms s := by
  by_cases hstr : Entries.contains (.str s) ms = true
  · simp [key, Entries.contains_insert, hstr]
  · cases hi : index? s with
    | none => simp [key, Entries.contains_insert, hstr, hi]
    | some i =>
      by_cases hint : Entries.contains (.int (.ofNat i)) ms = true <;>
        simp [key, Entries.contains_insert, hstr, hi, hint]

theorem lookup_replaceAt {path : List String} {v old : Value} (new : Value) (h : lookup path v = some old) :
    lookup path (replaceAt path new v) = some new := by
  induction path generalizing v with
  | nil => rfl
  | cons s path ih =>
    cases v with
    | map ms =>
      simp only [lookup, Option.bind_eq_some_iff] at h
      obtain ⟨member, hm, h⟩ := h
      have hm' : Entries.find? (key ms s) ms = some member := hm
      simp [replaceAt, lookup, child?, key_replace, Entries.find?_replace, hm', ih h]
    | arr items =>
      simp only [lookup, element?, Option.bind_eq_bind, Option.bind_eq_some_iff] at h
      obtain ⟨x, ⟨i, hi, hx⟩, h⟩ := h
      simp [replaceAt, hi, lookup, element?, hx, ih h]
    | _ => simp [lookup] at h

end RecordStore.Path
