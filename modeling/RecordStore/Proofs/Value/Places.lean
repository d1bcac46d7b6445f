import RecordStore.Value.Basic

/-!
# Places in documents

A place is a list of steps into a document, each to a member by its key or to an element by its index. `at?` reads what
stands at a place, `putAt` puts another document there (`at?_putAt`), and `length?` tells how long an array stands
there. What holds at all places is known from the document itself and from what stands one step inside it
(`length?_cons`).
-/

namespace RecordStore.Value

/-- A step into a document. -/
inductive Step where
  | member (k : Key)
  | element (i : Nat)
deriving DecidableEq, Repr

/-- What stands one step inside the document. -/
def next? : Step → Value → Option Value
  | .member k, .map ms => Entries.find? k ms
  | .element i, .arr items => items[i]?
  | _, _ => none

/-- What stands at a place in the document. -/
def at? : List Step → Value → Option Value
  | [], v => some v
  | x :: place, v => (next? x v).bind (at? place)

/-- The document with another one at a place where something stands. -/
def putAt : List Step → Value → Value → Value
  | [], _, new => new
  | .member k :: place, .map ms, new =>
    match Entries.find? k ms with
    | some v => .map (Entries.insert k (putAt place v new) ms)
    | none => .map ms
  | .element i :: place, .arr items, new => .arr (items.modify i fun v => putAt place v new)
  | _ :: _, v, _ => v

/-- The number of elements of an array. -/
def size? : Value → Option Nat
  | .arr items => some items.length
  | _ => none

/-- The number of elements of the array at a place. -/
def length? (place : List Step) (v : Value) : Option Nat := (v.at? place).bind size?

variable {v : Value} {x : Step} {place : List Step}

theorem length?_cons (x : Step) (place : List Step) (v : Value) :
    v.length? (x :: place) = (v.next? x).bind (length? place) := by
  rw [length?, at?, Option.bind_assoc]
  rfl

/-- What is put where something stands is found there. -/
theorem at?_putAt {old : Value} (new : Value) (h : v.at? place = some old) :
    (v.putAt place new).at? place = some new := by
  induction place generalizing v with
  | nil => rfl
  | cons x place ih =>
    obtain ⟨c, hc, hold⟩ := Option.bind_eq_some_iff.1 h
    cases x with
    | member k =>
      cases v with
      | map ms =>
        have hc : Entries.find? k ms = some c := hc
        simp [putAt, at?, next?, hc, Entries.find?_insert, ih hold]
      | _ => cases hc
    | element i =>
      cases v with
      | arr items =>
        have hc : items[i]? = some c := hc
        simp [putAt, at?, next?, hc, ih hold]
      | _ => cases hc

end RecordStore.Value
