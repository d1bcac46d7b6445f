import RecordStore.Proofs.Patch.Faults
import RecordStore.Proofs.Patch.Kept
import RecordStore.Proofs.Update.ReadBack

/-!
# No update runs into a fault

A patch runs into none, and of all messages about updates only one quotes JSON: that a scalar of the record is in the
way of a path. The strings of a record on the way through an update come from the record and from what is set and
pushed. So with a writer that writes these, a change leaves a record of such strings or fails without a fault
(`Harmless`), and an update does so because all of its changes do (`harmless_run`, `maintains_apply`).
-/

namespace RecordStore

variable {Q : String → Prop} {path : List String} {s : String} {v v' x new : Value}

/-! ## Strings on the way through a document -/

namespace Path

theorem part_of_lookup (h : lookup path v = some x) : v.Part x := by
  induction path generalizing v with
  | nil =>
    cases h
    exact .self
  | cons s path ih =>
    cases v with
    | map ms =>
      obtain ⟨member, hmember, h⟩ := Option.bind_eq_some_iff.1 h
      exact .member (Entries.mem_of_find? hmember) (ih h)
    | arr items =>
      obtain ⟨element, helement, h⟩ := Option.bind_eq_some_iff.1 h
      obtain ⟨i, -, hi⟩ := Option.bind_eq_some_iff.1 helement
      exact .element (List.mem_of_getElem? hi) (ih h)
    | _ => cases h

theorem allStrings_replaceAt (hnew : new.AllStrings Q) (hv : v.AllStrings Q) :
    (replaceAt path new v).AllStrings Q := by
  induction path generalizing v with
  | nil => exact hnew
  | cons s path ih =>
    cases v with
    | map ms =>
      rw [Value.allStrings_map_iff] at hv
      rw [replaceAt]
      split
      case h_1 member hmember =>
        refine Value.allStrings_map_iff.2 fun e he => ?_
        rcases Entries.mem_replace he with rfl | he
        · exact ih (hv _ (Entries.mem_of_find? hmember))
        · exact hv e he
      case h_2 => exact Value.allStrings_map_iff.2 hv
    | arr items =>
      rw [Value.allStrings_arr_iff] at hv
      rw [replaceAt]
      split
      case h_1 i hi =>
        refine Value.allStrings_arr_iff.2 fun y hy => ?_
        obtain ⟨k, hk⟩ := List.mem_iff_getElem?.1 hy
        rw [List.getElem?_modify] at hk
        obtain ⟨z, hz, rfl⟩ := Option.map_eq_some_iff.1 hk
        have hz := hv z (List.mem_of_getElem? hz)
        split
        · exact ih hz
        · exact hz
      case h_2 => exact Value.allStrings_arr_iff.2 hv
    | _ => exact hv

theorem allStrings_removeChild (s : String) (hv : v.AllStrings Q) : (removeChild s v).AllStrings Q := by
  cases v with
  | map ms =>
    rw [Value.allStrings_map_iff] at hv
    exact Value.allStrings_map_iff.2 fun e he => hv e (List.mem_filter.1 he).1
  | arr items =>
    rw [removeChild]
    split
    · rw [Value.allStrings_arr_iff] at hv
      exact Value.allStrings_arr_iff.2 fun y hy => hv y (List.mem_of_mem_eraseIdx hy)
    · exact hv
  | _ => exact hv

theorem allStrings_removeAt (path : List String) (hv : v.AllStrings Q) : (removeAt path v).AllStrings Q := by
  induction path generalizing v with
  | nil => exact hv
  | cons s path ih =>
    cases path with
    | nil => exact allStrings_removeChild s hv
    | cons s' path =>
      rw [removeAt]
      split
      case h_1 child hchild => exact allStrings_replaceAt (ih (hv.of_part (part_of_lookup hchild))) hv
      case h_2 => exact hv
      · exact nofun

end Path

namespace Update

theorem allStrings_getD {items : List Value} (hitems : (Value.arr items).AllStrings Q) (i : Nat) :
    (items.getD i .null).AllStrings Q := by
  rw [List.getD_eq_getElem?_getD]
  cases hx : items[i]? with
  | none => exact Value.allStrings_null
  | some x => exact Value.allStrings_arr_iff.1 hitems x (List.mem_of_getElem? hx)

theorem allStrings_child (s : String) (hv : v.AllStrings Q) : (child s v).AllStrings Q := by
  unfold child
  cases h : Path.lookup [s] v with
  | none => exact Value.allStrings_null
  | some x => exact hv.of_part (Path.part_of_lookup h)

theorem allStrings_withChild (s : String) (hx : x.AllStrings Q) (hv : v.AllStrings Q) :
    (withChild s x v).AllStrings Q := by
  cases v with
  | null => exact Value.allStrings_map_iff.2 (List.forall_mem_singleton.2 hx)
  | map ms => exact Value.allStrings_insert hx hv
  | arr items =>
    rw [withChild]
    split
    · rw [Value.allStrings_arr_iff] at hv
      refine Value.allStrings_arr_iff.2 fun y hy => ?_
      rcases List.mem_or_eq_of_mem_set hy with hy | rfl
      · rcases List.mem_append.1 hy with hy | hy
        · exact hv y hy
        · obtain rfl := List.eq_of_mem_replicate hy
          exact Value.allStrings_null
      · exact hx
    · exact hv
  | _ => exact hv

theorem allStrings_populate (hv : v.AllStrings Q) (h : populate path v = .ok v') : v'.AllStrings Q := by
  induction path generalizing v v' with
  | nil =>
    cases h
    exact hv
  | cons s path ih =>
    obtain ⟨-, c, hc, rfl⟩ := populate_cons_eq_ok.1 h
    exact allStrings_withChild s (ih (allStrings_child s hv) hc) hv

theorem map_mapError_eq_error {ε ε' α β : Type} {r : Except ε α} {g : ε → ε'} {f : α → β} {e : ε'} :
    (r.mapError g).map f = .error e ↔ ∃ inner, r = .error inner ∧ g inner = e := by
  cases r with
  | ok a =>
    show Except.ok (f a) = .error e ↔ _
    simp
  | error inner =>
    show Except.error (g inner) = .error e ↔ _
    simp

theorem obstacle_under (s : String) (b : Blocked) : (b.under s).obstacle = b.obstacle := rfl

/-- The obstacle that a message quotes is a scalar of the document. -/
theorem writesAll_quoted_of_populate {w : Json.Writer} {b : Blocked} (hv : v.AllStrings w.Writes)
    (h : populate path v = .error b) : w.WritesAll b.obstacle.quoted := by
  induction path generalizing v b with
  | nil => cases h
  | cons s path ih =>
    cases v with
    | null =>
      obtain ⟨inner, hinner, rfl⟩ := map_mapError_eq_error.1 h
      rw [obstacle_under]
      exact ih Value.allStrings_null hinner
    | map ms =>
      obtain ⟨inner, hinner, rfl⟩ := map_mapError_eq_error.1 h
      have hchild := allStrings_child s hv
      rw [child, Path.lookup_singleton_map] at hchild
      rw [obstacle_under]
      exact ih hchild hinner
    | arr items =>
      rw [populate] at h
      split at h
      · cases h
        exact w.writesAll_nil
      · split at h
        · cases h
          exact w.writesAll_nil
        · obtain ⟨inner, hinner, rfl⟩ := map_mapError_eq_error.1 h
          rw [obstacle_under]
          exact ih (allStrings_getD hv _) hinner
    | str text =>
      cases h
      intro t ht
      obtain rfl := List.mem_singleton.1 ht
      exact Value.allStrings_str_iff.1 hv
    | _ =>
      cases h
      exact w.writesAll_nil

/-! ## Changes -/

variable {w : Json.Writer} {α β : Type} {dotted : String}

/-- From a record whose strings the writer writes the change leads to another one, or to an error that is no fault. -/
abbrev Harmless (w : Json.Writer) (c : Change) : Prop :=
  Maintains (·.AllStrings w.Writes) (fun e _ => e.fault? w = none) c fun _ => True

theorem harmless_withPath {change : List String → Change} (hchange : ∀ path, Harmless w (change path)) :
    Harmless w (withPath dotted change) := by
  unfold withPath
  split
  · exact .throw fun _ _ => rfl
  · exact hchange _

theorem harmless_withList {operation : ArrayOperation} {change : List Value → Change}
    (hchange : ∀ items, v = .arr items → Harmless w (change items)) :
    Harmless w (withList operation dotted v change) := by
  unfold withList
  split
  · exact hchange _ rfl
  · exact .throw fun _ _ => rfl

theorem harmless_populateAt (path : List String) : Harmless w (populateAt path) where
  ok record _ record' hrecord h := ⟨allStrings_populate hrecord (populateAt_eq_ok.1 h), trivial⟩
  error record e record' hrecord h := by
    obtain ⟨b, hpopulate, rfl, -⟩ := populateAt_eq_error.1 h
    exact Json.Writer.fault?_eq_none_iff.2 (writesAll_quoted_of_populate hrecord hpopulate)

theorem inherited_allStrings : Patch.Inherited (Value.AllStrings Q) fun _ _ => True where
  null := Value.allStrings_null
  arr_iff := Value.allStrings_arr_iff
  map_iff := Value.allStrings_map_iff.trans (by simp)
  member _ _ := trivial

theorem allStrings_of_apply {p : Value} (hp : p.AllStrings Q) (hv : v.AllStrings Q)
    (h : Patch.apply p v = .ok () v') : v'.AllStrings Q :=
  Patch.keeps_merge inherited_allStrings (fun _ hpart _ => hp.of_part hpart) v v' hv (Patch.apply_eq_ok_iff.1 h)

theorem harmless_patchAt (path : List String) (hv : v.AllStrings w.Writes) : Harmless w (patchAt path v) where
  ok record _ record' hrecord h := by
    obtain ⟨new, hnew, rfl⟩ := patchAt_eq_ok.1 h
    have hold : ((Path.lookup path record).getD .null).AllStrings w.Writes := by
      cases hlookup : Path.lookup path record with
      | none => exact Value.allStrings_null
      | some old => exact hrecord.of_part (Path.part_of_lookup hlookup)
    exact ⟨Path.allStrings_replaceAt (allStrings_of_apply hv hold hnew) hrecord, trivial⟩
  error record e record' hrecord h := by
    obtain ⟨inner, reached, happly, rfl, -⟩ := patchAt_eq_error.1 h
    exact Patch.faultFree_apply _ _ inner reached happly

theorem harmless_setEntry (dotted : String) (hv : v.AllStrings w.Writes) : Harmless w (setEntry dotted v) :=
  harmless_withPath fun path => .bind (harmless_populateAt path) fun _ _ => harmless_patchAt path hv

theorem harmless_removeEntry (dotted : String) : Harmless w (removeEntry dotted) :=
  harmless_withPath fun path => .modify fun _ hrecord => Path.allStrings_removeAt path hrecord

theorem harmless_pullAll (dotted : String) (unwanted : List Value) : Harmless w (pullAll dotted unwanted) := by
  refine harmless_withPath fun path => .bind .get fun record hrecord => ?_
  split
  case h_1 => exact .pure trivial
  case h_2 items hitems =>
    have hitems := Value.allStrings_arr_iff.1 (hrecord.of_part (Path.part_of_lookup hitems))
    refine .modify fun _ hrecord => Path.allStrings_replaceAt (Value.allStrings_arr_iff.2 fun v hv => ?_) hrecord
    exact hitems v (List.mem_filter.1 hv).1
  case h_3 => exact .throw fun _ _ => rfl

theorem harmless_pushAll (dotted : String) {extra : List Value} (hextra : ∀ v ∈ extra, v.AllStrings w.Writes) :
    Harmless w (pushAll dotted extra) := by
  refine harmless_withPath fun path => .bind .get fun record hrecord => ?_
  split
  case h_1 =>
    refine .bind (harmless_populateAt path) fun _ _ => .modify fun _ hrecord => ?_
    exact Path.allStrings_replaceAt (Value.allStrings_arr_iff.2 hextra) hrecord
  case h_2 items hitems =>
    have hitems := Value.allStrings_arr_iff.1 (hrecord.of_part (Path.part_of_lookup hitems))
    have hall := Value.allStrings_arr_iff.2 (List.forall_mem_append.2 ⟨hitems, hextra⟩)
    exact .modify fun _ hrecord => Path.allStrings_replaceAt hall hrecord
  case h_3 => exact .throw fun _ _ => rfl

/-! ## Updates -/

/-- The documents in an update. -/
def documents (u : Update) : List Value :=
  u.set.map Prod.snd ++ u.pull.map Prod.snd ++ u.pullList.map Prod.snd ++ u.push.map Prod.snd ++
    u.pushList.map Prod.snd

/-- An update of written strings is harmless. -/
theorem harmless_run {u : Update} (h : ∀ v ∈ u.documents, v.AllStrings w.Writes) : Harmless w u.run := by
  simp only [documents, List.forall_mem_append, List.forall_mem_map] at h
  obtain ⟨⟨⟨⟨hset, -⟩, -⟩, hpush⟩, hpushList⟩ := h
  refine .bind (.forM fun e he => harmless_setEntry e.1 (hset e he)) fun _ _ => ?_
  refine .bind (.forM fun dotted _ => harmless_removeEntry dotted) fun _ _ => ?_
  refine .bind (.forM fun e _ => harmless_pullAll e.1 [e.2]) fun _ _ => ?_
  refine .bind (.forM fun e _ => harmless_withList fun items _ => harmless_pullAll e.1 items) fun _ _ => ?_
  refine .bind (.forM fun e he => harmless_pushAll e.1 (List.forall_mem_singleton.2 (hpush e he))) fun _ _ => ?_
  refine .forM fun e he => harmless_withList fun items hitems => harmless_pushAll e.1 ?_
  have hlist := hpushList e he
  rw [hitems] at hlist
  exact Value.allStrings_arr_iff.1 hlist

/-- So the record that an update makes of another has such strings, and no error is a fault. -/
theorem maintains_apply {u : Update} (h : ∀ v ∈ u.documents, v.AllStrings w.Writes) :
    Maintains (·.AllStrings w.Writes) (fun e _ => e.fault? w = none) u.apply fun _ => True :=
  .bind .get fun _ _ => .bind (harmless_run h) fun _ _ => .bind .get fun _ _ => .pure trivial

end Update

end RecordStore
