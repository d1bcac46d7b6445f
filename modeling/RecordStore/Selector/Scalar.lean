import RecordStore.Selector.Real
import RecordStore.Value.Basic

/-!
# What a scalar stands for

A quoted scalar, and one tagged as a string, is its text. Any other text is null, a boolean, an integer or a real if it
is spelled as one, and else a string; other tags change nothing.
-/

namespace RecordStore.Selector

/-- How a scalar was written. -/
inductive Tag where
  | plain
  | quoted
  | named (name : String)
deriving DecidableEq, Repr

/-- The spellings of null; the empty text is one of them. -/
def nullWords : List String := ["~", "null", "Null", "NULL", ""]

def trueWords : List String := ["yes", "Yes", "YES", "true", "True", "TRUE", "on", "On", "ON"]

def falseWords : List String := ["no", "No", "NO", "false", "False", "FALSE", "off", "Off", "OFF"]

/-- The value of a text by its spelling. -/
def valueOfText (text : String) : Except Error Value :=
  if text ∈ nullWords then .ok .null
  else if text ∈ trueWords then .ok (.bool true)
  else if text ∈ falseWords then .ok (.bool false)
  else if isInteger text.toList then
    match int64? text.toList with
    | some i => .ok (.int i)
    | none => .error (.integerOutOfRange text)
  else
    match real? text.toList with
    | some x => x.map .real
    | none => .ok (.str text)

/-- The value of a scalar. -/
def valueOfScalar (tag : Tag) (text : String) : Except Error Value :=
  match tag with
  | .quoted => .ok (.str text)
  | .named "str" => .ok (.str text)
  | _ => valueOfText text

end RecordStore.Selector
