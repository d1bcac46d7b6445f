import RecordStore.Selector.Node

/-!
# Reading the node tree

The text of a selector is one document: a scalar, a flow collection, or one pair `key: value`. Scalars are plain, in
single quotes (a quote inside is written twice) or in double quotes (with backslash escapes), after a tag or without
one. A plain scalar ends before a colon that a blank or the end follows, and inside a flow collection also before a
comma or a closing bracket.

Every call works on a shorter rest than its caller or was made by one that does, so twice the length of the text bounds
the depth of calls.
-/

namespace RecordStore.Selector

def skipSpaces (cs : List Char) : List Char := cs.dropWhile (· = ' ')

def trimEnd (cs : List Char) : List Char := (cs.reverse.dropWhile (· = ' ')).reverse

/-! ## Scalars -/

/-- The characters up to the closing single quote, and what follows it. -/
def singleQuoted? : List Char → Option (List Char × List Char)
  | [] => none
  | '\x27' :: '\x27' :: rest => (singleQuoted? rest).map fun (cs, rest) => ('\x27' :: cs, rest)
  | '\x27' :: rest => some ([], rest)
  | c :: rest => (singleQuoted? rest).map fun (cs, rest) => (c :: cs, rest)

/-- The character of a code point that is no surrogate. -/
def charOfCode? (n : Nat) : Option Char := if n.isValidChar then some (.ofNat n) else none

/-- The character that stands after a backslash. -/
def unescape? : List Char → Option (Char × List Char)
  | 'n' :: rest => some ('\n', rest)
  | 't' :: rest => some ('\t', rest)
  | 'r' :: rest => some ('\r', rest)
  | '\\' :: rest => some ('\\', rest)
  | '"' :: rest => some ('"', rest)
  | '/' :: rest => some ('/', rest)
  | 'x' :: a :: b :: rest => do return (← charOfCode? (← Text.numeral? 16 [a, b]), rest)
  | 'u' :: a :: b :: c :: d :: rest => do return (← charOfCode? (← Text.numeral? 16 [a, b, c, d]), rest)
  | _ => none

/-- The characters up to the closing double quote, and what follows it. -/
def doubleQuoted? : (fuel : Nat) → List Char → Option (List Char × List Char)
  | 0, _ => none
  | _, [] => none
  | fuel + 1, c :: rest =>
    if c = '"' then some ([], rest)
    else if c = '\\' then do
      let (d, rest) ← unescape? rest
      let (ds, rest) ← doubleQuoted? fuel rest
      return (d :: ds, rest)
    else do
      let (ds, rest) ← doubleQuoted? fuel rest
      return (c :: ds, rest)

/-- A colon that ends a plain scalar: a blank or the end of the text follows it. -/
def endsKey : List Char → Bool
  | [] => true
  | c :: _ => c = ' '

/-- A character that ends a plain scalar inside a flow collection. -/
def endsFlow (c : Char) : Bool := c = ',' || c = ']' || c = '}'

/-- The characters of a plain scalar, and what follows it. -/
def plainChars (inFlow : Bool) : List Char → List Char × List Char
  | [] => ([], [])
  | c :: rest =>
    if (c = ':' && endsKey rest) || (inFlow && endsFlow c) then ([], c :: rest)
    else
      let (cs, rest) := plainChars inFlow rest
      (c :: cs, rest)

/-- The node of an untagged plain scalar. -/
def plainNode (text : String) : Node := if text ∈ nullWords then .null else .scalar .plain text

/-- A scalar without a tag, and what follows it. -/
def untagged? (inFlow : Bool) : List Char → Option (Tag × String × List Char)
  | '\x27' :: rest => (singleQuoted? rest).map fun (cs, rest) => (.quoted, .ofList cs, rest)
  | '"' :: rest => (doubleQuoted? (rest.length + 1) rest).map fun (cs, rest) => (.quoted, .ofList cs, rest)
  | rest =>
    let (cs, rest) := plainChars inFlow rest
    some (.plain, .ofList (trimEnd cs), rest)

/-- A character of the name of a tag. -/
def isTagChar (inFlow : Bool) (c : Char) : Bool := c ≠ ' ' && !(inFlow && endsFlow c)

/-- A scalar, and what follows it. -/
def scalar? (inFlow : Bool) : List Char → Option (Node × List Char)
  | '!' :: '!' :: rest => do
    let name := String.ofList (rest.takeWhile (isTagChar inFlow))
    let (_, text, rest) ← untagged? inFlow (skipSpaces (rest.dropWhile (isTagChar inFlow)))
    return (.scalar (.named name) text, rest)
  | cs => do
    match ← untagged? inFlow cs with
    | (.plain, text, rest) => return (plainNode text, rest)
    | (tag, text, rest) => return (.scalar tag text, rest)

/-! ## Collections -/

mutual

/-- A node inside a flow collection, and what follows it. -/
def flowNode? : (fuel : Nat) → List Char → Option (Node × List Char)
  | 0, _ => none
  | fuel + 1, cs =>
    match skipSpaces cs with
    | '[' :: rest => (flowItems? fuel rest).map fun (items, rest) => (.seq items, rest)
    | '{' :: rest => (flowEntries? fuel rest).map fun (entries, rest) => (.map entries, rest)
    | rest => scalar? true rest

/-- Items up to the closing bracket; a comma may stand before it. -/
def flowItems? : (fuel : Nat) → List Char → Option (List Node × List Char)
  | 0, _ => none
  | fuel + 1, cs =>
    match skipSpaces cs with
    | ']' :: rest => some ([], rest)
    | rest => do
      let (item, rest) ← flowNode? fuel rest
      match skipSpaces rest with
      | ']' :: rest => return ([item], rest)
      | ',' :: rest =>
        let (items, rest) ← flowItems? fuel rest
        return (item :: items, rest)
      | _ => none

/-- Entries up to the closing brace; a comma may stand before it, and a key without a colon has the value null. -/
def flowEntries? : (fuel : Nat) → List Char → Option (List (Node × Node) × List Char)
  | 0, _ => none
  | fuel + 1, cs =>
    match skipSpaces cs with
    | '}' :: rest => some ([], rest)
    | rest => do
      let (key, rest) ← flowNode? fuel rest
      let (value, rest) ←
        match skipSpaces rest with
        | ':' :: rest => flowNode? fuel rest
        | rest => some (.null, rest)
      match skipSpaces rest with
      | '}' :: rest => return ([(key, value)], rest)
      | ',' :: rest =>
        let (entries, rest) ← flowEntries? fuel rest
        return ((key, value) :: entries, rest)
      | _ => none

end

/-- A node outside flow collections, and what follows it. -/
def blockNode? (cs : List Char) : Option (Node × List Char) :=
  match skipSpaces cs with
  | ']' :: _ => none
  | '}' :: _ => none
  | '[' :: rest => flowNode? (2 * cs.length + 2) ('[' :: rest)
  | '{' :: rest => flowNode? (2 * cs.length + 2) ('{' :: rest)
  | rest => scalar? false rest

/-- One document: a node, or one pair of nodes. -/
def document? (cs : List Char) : Option Node := do
  let (node, rest) ← blockNode? cs
  match skipSpaces rest with
  | [] => return node
  | ':' :: rest =>
    if endsKey rest then
      let (value, rest) ← blockNode? rest
      if skipSpaces rest = [] then return .map [(node, value)] else none
    else none
  | _ => none

/-- The texts between lines of three hyphens. -/
def documentTexts : List Char → List (List Char)
  | [] => [[]]
  | '\n' :: '-' :: '-' :: '-' :: '\n' :: rest => [] :: documentTexts rest
  | c :: rest =>
    match documentTexts rest with
    | [] => [[c]]
    | cs :: more => (c :: cs) :: more

/-- All documents of a text; a blank text has none. -/
def documents? (text : String) : Option (List Node) :=
  if skipSpaces text.toList = [] then some [] else (documentTexts text.toList).mapM document?

/-- The value of a selector text. -/
def parse (text : String) : Except Error Value :=
  match documents? text with
  | none => .error (.malformed text)
  | some [] => .ok .null
  | some [node] => node.toValue 0
  | some _ => .error (.severalDocuments text)

end RecordStore.Selector
