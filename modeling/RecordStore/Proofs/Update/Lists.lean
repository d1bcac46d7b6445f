import RecordStore.Proofs.Update.NestedPatch

/-!
# Pulling from and pushing to arrays

Pulling and pushing look at what is at a path first, and all depends on that. An array there is replaced, and nothing
around it changes (`ReplacedAt`, `replacedAt_of_lookup`); anything else is refused with the record as it was; and where
the path leads nowhere, pulling has nothing to do, and pushing ends as setting the list does, in success and in failure,
because both make room in the same way (`pushAll_eq`). `pull_push_list` puts these cases together.
-/

namespace RecordStore

namespace Path

/-! ## The same but for one place -/

/-- Two documents are the same, member by member and element by element, but for what is at a path: that is `old` in the
one and `new` in the other. -/
inductive ReplacedAt (old new : Value) : (path : List String) → Value → Value → Prop
  | here : ReplacedAt old new [] old new
  | member {s : String} {path : List String} {before after : Members} {k : Key} {c c' : Value} :
      key (before ++ (k, c) :: after) s = k → (∀ e ∈ before, e.1 ≠ k) → ReplacedAt old new path c c' →
        ReplacedAt old new (s :: path) (.map (before ++ (k, c) :: after)) (.map (before ++ (k, c') :: after))
  | element {s : String} {path : List String} {before after : List Value} {c c' : Value} :
      index? s = some before.length → ReplacedAt old new path c c' →
        ReplacedAt old new (s :: path) (.arr (before ++ c :: after)) (.arr (before ++ c' :: after))

theorem replacedAt_of_lookup {path : List String} {old v : Value} (new : Value) (h : lookup path v = some old) :
    ReplacedAt old new path v (replaceAt path new v) := by
  induction path generalizing v with
  | nil =>
    cases h
    exact .here
  | cons s path ih =>
    cases v with
    | map ms =>
      obtain ⟨c, hc, hrest⟩ := Option.bind_eq_some_iff.1 h
      rw [replaceAt, hc]
      obtain ⟨k, hk⟩ : ∃ k, key ms s = k := ⟨_, rfl⟩
      rw [child?, hk] at hc
      obtain ⟨before, after, rfl, hbefore, hreplace⟩ := Entries.exists_split_of_find? hc
      dsimp only
      rw [hk, hreplace]
      exact .member hk hbefore (ih hrest)
    | arr items =>
      obtain ⟨c, hc, hrest⟩ := Option.bind_eq_some_iff.1 h
      obtain ⟨i, hi, hc⟩ := Option.bind_eq_some_iff.1 hc
      obtain ⟨before, x, after, rfl, rfl, hmodify⟩ :=
        List.exists_of_modify (replaceAt path new) (List.getElem?_eq_some_iff.1 hc).1
      obtain rfl : x = c := by simpa using hc
      rw [replaceAt, hi]
      dsimp only
      rw [hmodify]
      exact .element hi (ih hrest)
    | _ => cases h

end Path

namespace Update

open RecordStore.Path

variable {dotted : String} {path : List String} {record : Value} {list : List Value}

/-- An update that only takes the elements of lists out of arrays. -/
def ofPullList (pullList : List (String × Value)) : Update := ⟨[], [], [], pullList, [], []⟩

/-- An update that only appends lists to arrays. -/
def ofPushList (pushList : List (String × Value)) : Update := ⟨[], [], [], [], [], pushList⟩

theorem run_ofPullList_singleton (dotted : String) (list : List Value) :
    (ofPullList [(dotted, .arr list)]).run = pullAll dotted list := by
  simp [run, ofPullList, withList]

theorem run_ofPushList_singleton (dotted : String) (list : List Value) :
    (ofPushList [(dotted, .arr list)]).run = pushAll dotted list := by
  simp [run, ofPushList, withList]

theorem pullAll_eq (hpath : segments? dotted = some path) (unwanted : List Value) :
    pullAll dotted unwanted record = match lookup path record with
      | none => .ok () record
      | some (.arr items) =>
        .ok () (replaceAt path (.arr (items.filter (!Value.listContains unwanted ·))) record)
      | some _ => .error (.notAnArray .pull dotted) record := by
  unfold pullAll withPath
  rw [hpath]
  refine (bind_of_ok (get_eq_ok.2 ⟨rfl, rfl⟩)).trans ?_
  cases lookup path record with
  | none => rfl
  | some x => cases x <;> rfl

/-- Where the path leads nowhere, pushing makes room as setting does, and the list is what is put there. -/
theorem pushAll_eq (hpath : segments? dotted = some path) (extra : List Value) :
    pushAll dotted extra record = match lookup path record with
      | none => setEntry dotted (.arr extra) record
      | some (.arr items) => .ok () (replaceAt path (.arr (items ++ extra)) record)
      | some _ => .error (.notAnArray .push dotted) record := by
  unfold pushAll setEntry withPath
  rw [hpath]
  refine (bind_of_ok (get_eq_ok.2 ⟨rfl, rfl⟩)).trans ?_
  cases lookup path record with
  | none => rfl
  | some x => cases x <;> rfl

/-- Updates that come to the same change of a record say the same of it. -/
theorem apply_eq_of_run_eq {u u' : Update} (h : u.run record = u'.run record) : u.apply record = u'.apply record := by
  have hget : (get : EStateM Error Value Value) record = .ok record record := rfl
  rw [apply, apply, bind_of_ok hget, bind_of_ok hget]
  exact bind_congr_left h

/-- What is kept equals no unwanted element. -/
theorem not_listContains (unwanted : List Value) (x : Value) :
    (!Value.listContains unwanted x) = unwanted.all (x != ·) := by
  simp only [Value.listContains, List.not_any_eq_all_not, bne, Value.beq_comm x]

/-- Pulling a list keeps the elements that equal none of its own, and pushing it puts its elements at the end. -/
theorem pull_push_list (hpath : segments? dotted = some path) (record : Value) (list : List Value) :
    (∀ items, lookup path record = some (.arr items) → ∃ pulled pushed changed changed',
      (ofPullList [(dotted, .arr list)]).apply record = .ok changed pulled ∧
        ReplacedAt (.arr items) (.arr (items.filter fun x => list.all (x != ·))) path record pulled ∧
        (ofPushList [(dotted, .arr list)]).apply record = .ok changed' pushed ∧
        ReplacedAt (.arr items) (.arr (items ++ list)) path record pushed) ∧
    (∀ x, lookup path record = some x → (∀ items, x ≠ .arr items) →
      (ofPullList [(dotted, .arr list)]).apply record = .error (.notAnArray .pull dotted) record ∧
        (ofPushList [(dotted, .arr list)]).apply record = .error (.notAnArray .push dotted) record ∧
        ∀ operation, (Error.notAnArray operation dotted).kind = .badRequest) ∧
    (lookup path record = none → (∃ changed, (ofPullList [(dotted, .arr list)]).apply record = .ok changed record) ∧
      (ofPushList [(dotted, .arr list)]).apply record = (ofSet [(dotted, .arr list)]).apply record) := by
  refine ⟨fun items hitems => ?_, fun x hx hne => ?_, fun hnone => ?_⟩
  · have hpull : (ofPullList [(dotted, .arr list)]).run record =
        .ok () (replaceAt path (.arr (items.filter fun x => list.all (x != ·))) record) := by
      rw [run_ofPullList_singleton, pullAll_eq hpath, hitems]
      simp only [not_listContains]
    have hpush : (ofPushList [(dotted, .arr list)]).run record =
        .ok () (replaceAt path (.arr (items ++ list)) record) := by
      rw [run_ofPushList_singleton, pushAll_eq hpath, hitems]
    exact ⟨_, _, _, _, apply_eq_ok.2 ⟨hpull, rfl⟩, replacedAt_of_lookup _ hitems, apply_eq_ok.2 ⟨hpush, rfl⟩,
      replacedAt_of_lookup _ hitems⟩
  · refine ⟨apply_eq_error ?_, apply_eq_error ?_, fun _ => rfl⟩
    · rw [run_ofPullList_singleton, pullAll_eq hpath, hx]
      cases x with
      | arr items => exact absurd rfl (hne items)
      | _ => rfl
    · rw [run_ofPushList_singleton, pushAll_eq hpath, hx]
      cases x with
      | arr items => exact absurd rfl (hne items)
      | _ => rfl
  · refine ⟨⟨_, apply_eq_ok.2 ⟨?_, rfl⟩⟩, apply_eq_of_run_eq ?_⟩
    · rw [run_ofPullList_singleton, pullAll_eq hpath, hnone]
    · rw [run_ofPushList_singleton, pushAll_eq hpath, hnone, run_ofSet_singleton]

/-- An array with a real that an integer of the list equals, a null, and a path that leads nowhere. -/
theorem pull_push_list_mixed :
    let list : List Value := [.int 1, .int 2]
    let items : List Value := [.int 1, .real ⟨0x4000000000000000⟩, .arr [.int 1]]
    let record : Value := .map [(.str "a", .arr items), (.str "b", .null)]
    (∃ pulled pushed changed changed', (ofPullList [("a", .arr list)]).apply record = .ok changed pulled ∧
        ReplacedAt (.arr items) (.arr [.arr [.int 1]]) ["a"] record pulled ∧
        (ofPushList [("a", .arr list)]).apply record = .ok changed' pushed ∧
        ReplacedAt (.arr items) (.arr (items ++ list)) ["a"] record pushed) ∧
      (ofPullList [("b", .arr list)]).apply record = .error (.notAnArray .pull "b") record ∧
      (ofPushList [("b", .arr list)]).apply record = .error (.notAnArray .push "b") record ∧
      (∃ changed, (ofPullList [("c.0", .arr list)]).apply record = .ok changed record) ∧
      (ofPushList [("c.0", .arr list)]).apply record = (ofSet [("c.0", .arr list)]).apply record := by
  intro list items record
  have ha : segments? "a" = some ["a"] := rfl
  have hb : segments? "b" = some ["b"] := rfl
  have hc : segments? "c.0" = some ["c", "0"] := rfl
  have hreal : list.all (Value.real ⟨0x4000000000000000⟩ != ·) = false := by decide +kernel
  have hkept : items.filter (fun x => list.all (x != ·)) = [.arr [.int 1]] := by
    simp only [items, List.filter_cons, hreal]
    rfl
  obtain ⟨harray, -, -⟩ := pull_push_list ha record list
  have harray := harray items rfl
  rw [hkept] at harray
  obtain ⟨-, hother, -⟩ := pull_push_list hb record list
  obtain ⟨-, -, hnone⟩ := pull_push_list hc record list
  obtain ⟨hpull, hpush, -⟩ := hother .null rfl nofun
  exact ⟨harray, hpull, hpush, hnone rfl⟩

end Update

end RecordStore
