import RecordStore.Selector.Loader

/-!
# Selectors by any loader

What a selector text stands for depends on the text only through the documents that are loaded from it, so most facts
hold with any loader in place of `documents?` (`parseWith_documents?`).
-/

namespace RecordStore.Selector

/-- The value of a selector text whose documents are loaded by the given function. -/
def parseWith (load : String → Option (List Node)) (text : String) : Except Error Value :=
  match load text with
  | none => .error (.malformed text)
  | some [] => .ok .null
  | some [node] => node.toValue 0
  | some _ => .error (.severalDocuments text)

theorem parseWith_documents? : parseWith documents? = parse := rfl

variable {load : String → Option (List Node)} {text : String}

theorem parseWith_of_document {node : Node} (h : load text = some [node]) : parseWith load text = node.toValue 0 := by
  rw [parseWith, h]

/-- A document that is one plain scalar has the value of its spelling. -/
theorem parseWith_of_plain {scalar : String} (h : load text = some [plainNode scalar]) :
    parseWith load text = valueOfText scalar := by
  rw [parseWith_of_document h, plainNode]
  split
  case isTrue hnull =>
    rw [valueOfText, if_pos hnull]
    rfl
  case isFalse => rfl

end RecordStore.Selector
