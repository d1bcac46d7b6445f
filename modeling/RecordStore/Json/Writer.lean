import RecordStore.Error
import RecordStore.Json.Basic

/-!
# Writers of JSON text

Whoever writes JSON text quotes the strings of a document and the names of its fields (`Json.texts`), and may refuse one
that is not well-formed. Which texts are refused is up to the `Writer`; it writes at least all of ASCII. A text with a
byte in each of its characters may be no UTF-8 (`Writer.utf8Bytes`). The first text that is refused makes the writing of
the whole document fail (`Writer.fault?`).
-/

namespace RecordStore

namespace Json

mutual

/-- The strings and the names of fields in a JSON document, in the order in which they are written. -/
def texts : Json → List String
  | str s => [s]
  | arr items => textsOfItems items
  | obj fields => textsOfFields fields
  | _ => []

def textsOfItems : List Json → List String
  | [] => []
  | j :: js => j.texts ++ textsOfItems js

def textsOfFields : List (String × Json) → List String
  | [] => []
  | (name, j) :: fields => name :: (j.texts ++ textsOfFields fields)

end

/-- The text has no character outside ASCII. -/
def IsAscii (text : String) : Prop := ∀ c ∈ text.toList, c.toNat < 128

/-- The bytes of a text that holds one in each character. -/
def bytes (text : String) : ByteArray := (text.toList.map fun c => c.val.toUInt8).toByteArray

/-- What a writer of JSON text says of a text that it does not write. It writes every text in ASCII. -/
structure Writer where
  refusal? : String → Option String
  refusal?_of_isAscii : ∀ text, IsAscii text → refusal? text = none

namespace Writer

/-- The writer that writes every text. -/
def unrestricted : Writer := ⟨fun _ => none, fun _ _ => rfl⟩

def Writes (w : Writer) (text : String) : Prop := w.refusal? text = none

instance (w : Writer) (text : String) : Decidable (w.Writes text) :=
  inferInstanceAs (Decidable (w.refusal? text = none))

def WritesAll (w : Writer) (texts : List String) : Prop := ∀ text ∈ texts, w.Writes text

theorem writesAll_nil (w : Writer) : w.WritesAll [] := List.forall_mem_nil _

/-- What goes wrong when the texts are to be written. -/
def fault? (w : Writer) (texts : List String) : Option Fault :=
  texts.findSome? fun text => (w.refusal? text).map .unwritable

theorem fault?_eq_none_iff {w : Writer} {texts : List String} : w.fault? texts = none ↔ w.WritesAll texts := by
  simp [fault?, WritesAll, Writes]

end Writer

end Json

end RecordStore
