/-!
# Association lists in key order

The members of a map, the fields of a JSON object, the tables of a store and the loggers of a session are lists of
pairs in ascending key order. What is found under a key after an operation is said by `find?_insert`, `find?_erase`
and `find?_replace`; none of the three needs the list to be in order.
-/

namespace RecordStore.Entries

variable {κ β : Type} [DecidableEq κ]

/-- The value of the first entry with the key. -/
def find? (k : κ) : List (κ × β) → Option β
  | [] => none
  | (l, b) :: rest => if k = l then some b else find? k rest

def contains (k : κ) (entries : List (κ × β)) : Bool := (find? k entries).isSome

/-- The entries without the key. -/
def erase (k : κ) (entries : List (κ × β)) : List (κ × β) := entries.filter fun e => e.1 ≠ k

/-- The value under a key that is there already; entries without the key stay as they are. -/
def replace (k : κ) (b : β) : List (κ × β) → List (κ × β)
  | [] => []
  | (l, c) :: rest => if k = l then (k, b) :: rest else (l, c) :: replace k b rest

/-- The value under the key, in place of an old one or at the place that the key order gives it. -/
def insert [Ord κ] (k : κ) (b : β) : List (κ × β) → List (κ × β)
  | [] => [(k, b)]
  | (l, c) :: rest =>
    if k = l then (k, b) :: rest
    else if compare k l = .lt then (k, b) :: (l, c) :: rest
    else (l, c) :: insert k b rest

/-- The entries in key order; of several with one key the last stays. -/
def ofList [Ord κ] (entries : List (κ × β)) : List (κ × β) :=
  entries.foldl (fun sorted e => insert e.1 e.2 sorted) []

@[simp] theorem find?_nil (k : κ) : find? k ([] : List (κ × β)) = none := rfl

theorem find?_cons (k l : κ) (b : β) (rest : List (κ × β)) :
    find? k ((l, b) :: rest) = if k = l then some b else find? k rest := rfl

theorem find?_insert [Ord κ] (k l : κ) (b : β) (entries : List (κ × β)) :
    find? l (insert k b entries) = if l = k then some b else find? l entries := by
  induction entries with
  | nil => simp [insert, find?]
  | cons e rest ih =>
    obtain ⟨m, c⟩ := e
    simp only [insert]
    split
    case isTrue h => subst h; simp only [find?_cons]; split <;> rfl
    case isFalse h =>
      split
      · simp only [find?_cons]
      · simp only [find?_cons, ih]
        by_cases hm : l = m
        · subst hm; simp [Ne.symm h]
        · simp [hm]

theorem find?_erase (k l : κ) (entries : List (κ × β)) :
    find? l (erase k entries) = if l = k then none else find? l entries := by
  induction entries with
  | nil => simp [erase]
  | cons e rest ih =>
    obtain ⟨m, c⟩ := e
    simp only [erase] at ih ⊢
    by_cases hm : m = k
    · subst hm
      by_cases hl : l = m <;> simp_all [find?_cons]
    · by_cases hl : l = m
      · subst hl; simp [hm, find?_cons]
      · simpa [hm, hl, find?_cons] using ih

theorem find?_replace (k l : κ) (b : β) (entries : List (κ × β)) :
    find? l (replace k b entries) = if l = k ∧ (find? k entries).isSome then some b else find? l entries := by
  induction entries with
  | nil => simp [replace]
  | cons e rest ih =>
    obtain ⟨m, c⟩ := e
    simp only [replace]
    split
    case isTrue h =>
      subst h
      by_cases hl : l = k <;> simp [find?_cons, hl]
    case isFalse h =>
      simp only [find?_cons, ih, if_neg h]
      by_cases hm : l = m
      · subst hm; simp [Ne.symm h]
      · simp [hm]

theorem contains_replace (k l : κ) (b : β) (entries : List (κ × β)) :
    contains l (replace k b entries) = contains l entries := by
  unfold contains
  rw [find?_replace]
  split
  case isTrue h => rw [h.1, h.2]; rfl
  case isFalse => rfl

theorem contains_insert [Ord κ] (k l : κ) (b : β) (entries : List (κ × β)) :
    contains l (insert k b entries) = (decide (l = k) || contains l entries) := by
  unfold contains
  rw [find?_insert]
  split
  case isTrue h => simp [h]
  case isFalse h => simp [h]

end RecordStore.Entries
