import RecordStore.Json.Printer
import RecordStore.Json.Writer
import RecordStore.Patch.Merge
import RecordStore.Update.Populate

/-!
# Updates of a record

An update sets, removes and extends parts of a record that dotted paths address: first all settings, then removals,
then elements taken out of arrays, then elements appended to arrays. A map that is set is merged as a patch. What was
changed before an error stays changed.
-/

namespace RecordStore

namespace Update

/-- The operations on arrays, singly or by a list. -/
inductive ArrayOperation where
  | pull
  | push
deriving DecidableEq, Repr

/-- Why an update cannot be made. -/
inductive Error where
  | badPath (path : String)
  | blocked (path : List String) (b : Blocked)
  | notAnArray (operation : ArrayOperation) (path : String)
  | notAList (operation : ArrayOperation) (path : String)
  | patch (e : Patch.Error)
deriving Repr

def Blocked.message (path : List String) (b : Blocked) : String :=
  let before := Path.dotted b.before
  let set := "Cannot set '" ++ Path.dotted path ++ "'"
  match b.obstacle with
  | .notAnIndex s => set ++ ": '" ++ before ++ "' is an array and '" ++ s ++ "' is not an index"
  | .tooFar s => set ++ ": index " ++ s ++ " is too far past the end of '" ++ before ++ "'"
  | .scalar v => set ++ " on existing '" ++ before ++ "=" ++ v.compact ++ "'"

def Error.message : Error → String
  | badPath path => "Invalid update path '" ++ path ++ "'"
  | blocked path b => b.message path
  | notAnArray .pull path => "Cannot pull from '" ++ path ++ "': it is not an array"
  | notAnArray .push path => "Cannot push to '" ++ path ++ "': it is not an array"
  | notAList .pull path => "Invalid pull_list for '" ++ path ++ "': a list is expected"
  | notAList .push path => "Invalid push_list for '" ++ path ++ "': a list is expected"
  | patch e => e.message

def Error.kind : Error → ErrorKind
  | patch e => e.kind
  | _ => .badRequest

/-- The texts that the message about an obstacle quotes as JSON. -/
def Obstacle.quoted : Obstacle → List String
  | scalar v => v.toJson.texts
  | _ => []

def Error.quoted : Error → List String
  | blocked _ b => b.obstacle.quoted
  | _ => []

/-- What goes wrong in place of the error, where it is a fault or its message cannot be written. -/
def Error.fault? (w : Json.Writer) : Error → Option Fault
  | patch e => e.fault?
  | e => w.fault? e.quoted

/-- A change of a record in place, with the record as it is when the change fails. -/
abbrev Change := EStateM Error Value Unit

/-! ## Single changes -/

/-- Makes room at a path. -/
def populateAt (path : List String) : Change := fun record =>
  match populate path record with
  | .ok record => .ok () record
  | .error b => .error (.blocked path b) record

/-- Patches what is at the path, which has to lead somewhere. -/
def patchAt (path : List String) (v : Value) : Change := fun record =>
  match Patch.apply v ((Path.lookup path record).getD .null) with
  | .ok _ new => .ok () (Path.replaceAt path new record)
  | .error e reached => .error (.patch e) (Path.replaceAt path reached record)

/-- Reads a dotted path for the change that follows. -/
def withPath (dotted : String) (change : List String → Change) : Change :=
  match Path.segments? dotted with
  | none => throw (.badPath dotted)
  | some path => change path

/-- Sets what is at the path: a map is merged into it, anything else replaces it. -/
def setEntry (dotted : String) (v : Value) : Change :=
  withPath dotted fun path => do
    populateAt path
    patchAt path v

def removeEntry (dotted : String) : Change := withPath dotted fun path => modify (Path.removeAt path)

/-- Takes all elements equal to a member of the list out of the array at the path; where the path leads nowhere nothing
happens. -/
def pullAll (dotted : String) (unwanted : List Value) : Change :=
  withPath dotted fun path => do
    match Path.lookup path (← get) with
    | none => return
    | some (.arr items) => modify (Path.replaceAt path (.arr (items.filter (!Value.listContains unwanted ·))))
    | some _ => throw (.notAnArray .pull dotted)

/-- Appends the elements to the array at the path; where the path leads nowhere the array is made first. -/
def pushAll (dotted : String) (extra : List Value) : Change :=
  withPath dotted fun path => do
    match Path.lookup path (← get) with
    | none => do
      populateAt path
      modify (Path.replaceAt path (.arr extra))
    | some (.arr items) => modify (Path.replaceAt path (.arr (items ++ extra)))
    | some _ => throw (.notAnArray .push dotted)

/-- The elements of a list given for a path. -/
def withList (operation : ArrayOperation) (dotted : String) (v : Value) (change : List Value → Change) : Change :=
  match v with
  | .arr items => change items
  | _ => throw (.notAList operation dotted)

end Update

/-! ## Updates -/

/-- All changes of one update; each part is taken in key order, `unset` in its own. -/
structure Update where
  set : List (String × Value)
  unset : List String
  pull : List (String × Value)
  pullList : List (String × Value)
  push : List (String × Value)
  pushList : List (String × Value)
deriving Repr

namespace Update

/-- Makes all changes in turn, up to the first error. -/
def run (u : Update) : Change := do
  u.set.forM fun (path, v) => setEntry path v
  u.unset.forM removeEntry
  u.pull.forM fun (path, v) => pullAll path [v]
  u.pullList.forM fun (path, v) => withList .pull path v (pullAll path)
  u.push.forM fun (path, v) => pushAll path [v]
  u.pushList.forM fun (path, v) => withList .push path v (pushAll path)

/-- Makes all changes and says whether the record differs from what it was; a record that does not equal itself always
does. -/
def apply (u : Update) : EStateM Error Value Bool := do
  let before ← get
  u.run
  return !((← get) == before)

end Update

end RecordStore
