import RecordStore.Json.Basic

/-!
# Results of changes as JSON

A count is a 64-bit word, written as an integer. It is read from any number: an integer is taken modulo `2 ^ 64`, and a
real is cut to its whole part first.

* `Deleted.ofJson?_toJson`, `Updated.ofJson?_toJson`: what is written reads back.
-/

namespace RecordStore.Store

/-- How many records were deleted. -/
structure Deleted where
  deleted : UInt64
deriving DecidableEq, Repr

/-- How many records were changed. -/
structure Updated where
  updated : UInt64
deriving DecidableEq, Repr

/-- The count of a whole part: below `-2 ^ 63` that of `-2 ^ 63`, and none from `2 ^ 64` on. -/
def countOfWhole (n : Int) : UInt64 :=
  if n < -9223372036854775808 then .ofInt (-9223372036854775808)
  else if n ≤ 18446744073709551615 then .ofInt n
  else 0

/-- The count that a number stands for. -/
def count? : Json → Option UInt64
  | .int n => some (.ofInt n)
  | .real x => some (countOfWhole x.truncate)
  | _ => none

/-- The count in a field of an object. -/
def countField? (name : String) : Json → Option UInt64
  | .obj fields => (Entries.find? name fields).bind count?
  | _ => none

/-- A count as a JSON number. -/
def countJson (w : UInt64) : Json := .int w.toNat

theorem count?_countJson (w : UInt64) : count? (countJson w) = some w := by
  have h : UInt64.ofInt w.toNat = w := by
    apply UInt64.toNat_inj.1
    have := w.toNat_lt
    rw [UInt64.ofInt, UInt64.toNat_ofNat']
    omega
  exact congrArg some h

def Deleted.toJson (r : Deleted) : Json := .obj [("deleted", countJson r.deleted)]

def Deleted.ofJson? (j : Json) : Option Deleted := (countField? "deleted" j).map Deleted.mk

def Updated.toJson (r : Updated) : Json := .obj [("updated", countJson r.updated)]

def Updated.ofJson? (j : Json) : Option Updated := (countField? "updated" j).map Updated.mk

@[simp] theorem Deleted.ofJson?_toJson (r : Deleted) : Deleted.ofJson? r.toJson = some r :=
  congrArg (Option.map Deleted.mk) (count?_countJson r.deleted)

@[simp] theorem Updated.ofJson?_toJson (r : Updated) : Updated.ofJson? r.toJson = some r :=
  congrArg (Option.map Updated.mk) (count?_countJson r.updated)

end RecordStore.Store
