import RecordStore.Patch.Directive

/-!
# Editing arrays

All directives of an array edit are read against the array as it is and give a plan (`Plan.ofTasks`): which elements to
edit or erase, what to insert where, and what to append. Then elements are edited and erased from the highest position
down, so that erasing one does not move those still to come; insertions are made from the highest position down; and
the appended elements follow. An error leaves what was done before it.
-/

namespace RecordStore.Patch

/-- The outcome of changing a `σ` in place. -/
abbrev Outcome (σ : Type) := EStateM.Result Error σ Unit

/-- The outcome with another view of the state and of the error. -/
def Outcome.map {σ τ : Type} (f : σ → τ) (g : Error → Error) : Outcome σ → Outcome τ
  | .ok _ s => .ok () (f s)
  | .error e s => .error (g e) (f s)

/-! ## Planning an array edit -/

/-- A member of an array edit: its key, its value, and what that value does to an element. -/
structure Task where
  key : Key
  value : Value
  onto : Value → Outcome Value

/-- What an array edit does, in three parts: edits and insertions by position, ascending, and appended elements. -/
structure Plan where
  edits : List (Nat × Task)
  insertions : List (Nat × Task)
  appended : List Task

namespace Plan

def empty : Plan := ⟨[], [], []⟩

/-- Queues a task at a position; another one there must have an equal value, and is kept. -/
def queue (conflict : Nat → Cause) (task : Task) (queued : List (Nat × Task)) (pos : Nat) :
    Except Cause (List (Nat × Task)) :=
  match Entries.find? pos queued with
  | none => .ok (Entries.insert pos task queued)
  | some other => if other.value == task.value then .ok queued else .error (conflict pos)

/-- Adds what a directive asks for, given the array as it is. -/
def add (items : List Value) (plan : Plan) (task : Task) : Except Cause Plan := do
  match ← Directive.ofKey task.key task.value with
  | .edit i => return { plan with edits := ← queue .severalEditions task plan.edits (position items.length i) }
  | .editMatching selector =>
    return { plan with
      edits := ← (matchingFrom selector 0 items).foldlM (queue .severalEditions task) plan.edits }
  | .insert i =>
    return { plan with insertions := ← queue .severalInsertions task plan.insertions (position items.length i) }
  | .append => return { plan with appended := plan.appended ++ [task] }
  | .appendUnless selector =>
    if items.any (elementMatches · selector) then return plan
    else return { plan with appended := plan.appended ++ [task] }

/-- Reads all directives in key order; the first bad one is reported at its key. -/
def ofTasks (items : List Value) (plan : Plan) : List Task → Except Error Plan
  | [] => .ok plan
  | task :: tasks =>
    match plan.add items task with
    | .ok plan => ofTasks items plan tasks
    | .error cause => .error ⟨[task.key.text], cause⟩

end Plan

/-! ## Carrying out an array edit -/

/-- Changes the elements one task after another, up to the first error. -/
def runAll {τ : Type} (run : τ → List Value → Outcome (List Value)) : List τ → List Value → Outcome (List Value)
  | [], items => .ok () items
  | t :: ts, items =>
    match run t items with
    | .ok _ items => runAll run ts items
    | .error e items => .error e items

/-- Null erases the element, if there is one; any other value is merged into it. -/
def edit : Nat × Task → List Value → Outcome (List Value)
  | (i, task), items =>
    if task.value.isNull then .ok () (items.eraseIdx i)
    else
      match items[i]? with
      | none => .error ⟨[toString i], .outOfRange⟩ items
      | some v => (task.onto v).map (items.set i) (.under (toString i))

/-- Inserts at the position, or at the end when the array is shorter. -/
def insertion : Nat × Task → List Value → Outcome (List Value)
  | (i, task), items =>
    match task.onto .null with
    | .ok _ v => .ok () (items.insertIdx (min i items.length) v)
    | .error e _ => .error (e.under (toString i)) items

def append (task : Task) (items : List Value) : Outcome (List Value) :=
  match task.onto .null with
  | .ok _ v => .ok () (items ++ [v])
  | .error e _ => .error (e.under task.key.text) items

/-- Edits an array by the members of a map of directives. -/
def editArray (tasks : List Task) (items : List Value) : Outcome (List Value) :=
  match Plan.ofTasks items .empty tasks with
  | .error e => .error e items
  | .ok plan =>
    match runAll edit plan.edits.reverse items with
    | .error e items => .error e items
    | .ok _ items =>
      match runAll insertion plan.insertions.reverse items with
      | .error e items => .error e items
      | .ok _ items => runAll append plan.appended items

end RecordStore.Patch
