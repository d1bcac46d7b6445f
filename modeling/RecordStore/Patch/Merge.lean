import RecordStore.Patch.ArrayEdit

/-!
# Applying patches

A patch that is no map replaces the document. A plain map is merged member by member: null erases a member, any other
member is merged into the old one or into nothing. A map of directives edits an array.

Every function returns the state it reached together with its outcome, so what was changed before an error stays
visible. Where `merge` would put a copy of the patch in place of a document and fails, it leaves the document as it
was; `apply`, at the root of a patch, keeps what it had merged so far.
-/

namespace RecordStore.Patch

mutual

/-- Merges a patch into a document. Into anything but a map, and but an array for directives, a copy of the patch is
put, merged from nothing. -/
def merge : Value → Value → Outcome Value
  | .map patch, v =>
    match kind patch with
    | .mixed => .error ⟨[], .mixedKeys⟩ v
    | .arrayEdit =>
      match v with
      | .arr items => (editArray (tasks patch) items).map .arr id
      | v => .error ⟨[], .notAnArray⟩ v
    | .plain =>
      match v with
      | .map ms => (mergeMembers patch ms).map .map id
      | v =>
        match mergeMembers patch [] with
        | .ok _ ms => .ok () (.map ms)
        | .error e _ => .error e v
  | .null, _ => .ok () .null
  | .bool b, _ => .ok () (.bool b)
  | .int i, _ => .ok () (.int i)
  | .real x, _ => .ok () (.real x)
  | .str s, _ => .ok () (.str s)
  | .arr items, _ => .ok () (.arr items)

/-- Merges the members of a plain map, in key order. -/
def mergeMembers : List (Key × Value) → List (Key × Value) → Outcome (List (Key × Value))
  | [], ms => .ok () ms
  | (k, v) :: patch, ms =>
    if v.isNull then mergeMembers patch (Entries.erase k ms)
    else
      match merge v ((Entries.find? k ms).getD .null) with
      | .ok _ new => mergeMembers patch (Entries.insert k new ms)
      | .error e reached => .error (e.under k.text) (Entries.replace k reached ms)

/-- The members of a map of directives. -/
def tasks : List (Key × Value) → List Task
  | [] => []
  | (k, v) :: patch => ⟨k, v, merge v⟩ :: tasks patch

end

/-- Applies a patch to a whole document. A plain map turns a document that is no map into one, and is merged into its
members. -/
def apply (patch v : Value) : Outcome Value :=
  match patch with
  | .map ms =>
    if kind ms = .plain then
      match v.asMap.members? with
      | some own => (mergeMembers ms own).map .map id
      | none => .error ⟨[], .fault .badAccess⟩ v.asMap
    else merge patch v
  | _ => .ok () patch

/-- A plain map finds a map to merge into. -/
theorem apply_plain {ms : Members} (h : kind ms = .plain) (v : Value) :
    apply (.map ms) v = (mergeMembers ms v.members).map .map id := by
  rw [apply, if_pos h, Value.members?_asMap]

end RecordStore.Patch
