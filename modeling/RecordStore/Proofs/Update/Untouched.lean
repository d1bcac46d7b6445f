import RecordStore.Proofs.Update.ReadBack

/-!
# Members that an update leaves alone

A path reaches into one member of a record, the one that its first segment names, and a segment of another text never
names the member `t`. So making room, putting, taking away, pulling and pushing leave that member as it is where no path
starts with `t`, and so does an update made of them (`find?_of_apply`).
-/

namespace RecordStore

variable {t s : String} {path : List String} {v v' : Value}

namespace Path

theorem find?_replaceAt (hs : s ≠ t) (path : List String) (new v : Value) :
    (replaceAt (s :: path) new v).find? (.str t) = v.find? (.str t) := by
  cases v with
  | map ms =>
    rw [replaceAt]
    split
    · have hne : ¬ (Key.str t = key ms s ∧ (Entries.find? (key ms s) ms).isSome = true) :=
        fun h => key_ne_of_ne hs ms h.1.symm
      simp only [Value.find?, Entries.find?_replace, if_neg hne]
    · rfl
  | arr items =>
    rw [replaceAt]
    split <;> rfl
  | _ => rfl

theorem find?_removeChild (hs : s ≠ t) (v : Value) : (removeChild s v).find? (.str t) = v.find? (.str t) := by
  cases v with
  | map ms => simp only [removeChild, Value.find?, Entries.find?_erase, if_neg (key_ne_of_ne hs ms).symm]
  | arr items =>
    rw [removeChild]
    split <;> rfl
  | _ => rfl

theorem find?_removeAt (hs : s ≠ t) (path : List String) (v : Value) :
    (removeAt (s :: path) v).find? (.str t) = v.find? (.str t) := by
  cases path with
  | nil => exact find?_removeChild hs v
  | cons s' path =>
    rw [removeAt]
    split
    · exact find?_replaceAt hs [] _ v
    · rfl
    · exact nofun

end Path

namespace Update

theorem find?_withChild (hs : s ≠ t) (c v : Value) : (withChild s c v).find? (.str t) = v.find? (.str t) := by
  cases v with
  | null =>
    have hne : Key.str t ≠ .str s := fun h => hs (Key.str.inj h).symm
    simp [withChild, Value.find?, Entries.find?_cons, hne]
  | map ms => simp only [withChild, Value.find?, Entries.find?_insert, if_neg (Path.key_ne_of_ne hs ms).symm]
  | arr items =>
    rw [withChild]
    split <;> rfl
  | _ => rfl

theorem find?_of_populate (hs : s ≠ t) (h : populate (s :: path) v = .ok v') :
    v'.find? (.str t) = v.find? (.str t) := by
  obtain ⟨-, c, -, rfl⟩ := populate_cons_eq_ok.1 h
  exact find?_withChild hs c v

/-! ## Changes -/

/-- A change that leaves the member alone where it succeeds. -/
def Keeps {α : Type} (t : String) (c : EStateM Error Value α) : Prop :=
  ∀ record a record', c record = .ok a record' → record'.find? (.str t) = record.find? (.str t)

/-- The path does not start with the member; what is no path starts with none. -/
def Avoids (t dotted : String) : Prop := ∀ path, Path.segments? dotted ≠ some (t :: path)

theorem avoids_of_segments {dotted : String} (h : Path.segments? dotted = some (s :: path)) (hs : s ≠ t) :
    Avoids t dotted := by
  intro rest hrest
  rw [h] at hrest
  cases hrest
  exact hs rfl

section Keeping

variable {α β : Type} {dotted : String}

theorem Keeps.bind {x : EStateM Error Value α} {f : α → EStateM Error Value β} (hx : Keeps t x)
    (hf : ∀ a, Keeps t (f a)) : Keeps t (x >>= f) := by
  intro record b record' h
  obtain ⟨a, middle, hxs, h⟩ := bind_eq_ok.1 h
  rw [hf a middle b record' h, hx record a middle hxs]

theorem Keeps.pure (a : α) : Keeps t (pure a : EStateM Error Value α) := by
  intro record b record' h
  rw [(pure_eq_ok.1 h).2]

theorem Keeps.get : Keeps t (get : EStateM Error Value Value) := by
  intro record a record' h
  rw [(get_eq_ok.1 h).2]

theorem Keeps.throw (e : Error) : Keeps t (throw e : EStateM Error Value α) := fun _ _ _ h => absurd h throw_ne_ok

theorem Keeps.modify {f : Value → Value} (hf : ∀ v : Value, (f v).find? (.str t) = v.find? (.str t)) :
    Keeps t (modify f : Change) := by
  intro record a record' h
  rw [modify_eq_ok.1 h, hf]

theorem Keeps.forM {entries : List β} {f : β → Change} (hf : ∀ e ∈ entries, Keeps t (f e)) :
    Keeps t (entries.forM f) := by
  induction entries with
  | nil => exact .pure _
  | cons e entries ih =>
    obtain ⟨he, hentries⟩ := List.forall_mem_cons.1 hf
    exact .bind he fun _ => ih hentries

/-- A change at a path is one at a first segment, other than the member, and what comes after it. -/
theorem Keeps.withPath (hdotted : Avoids t dotted) {change : List String → Change}
    (hchange : ∀ s path, s ≠ t → Keeps t (change (s :: path))) : Keeps t (withPath dotted change) := by
  unfold Update.withPath
  cases hpath : Path.segments? dotted with
  | none => exact .throw _
  | some path =>
    cases path with
    | nil => exact absurd rfl (Path.segments?_ne_nil hpath)
    | cons s path =>
      refine hchange s path ?_
      rintro rfl
      exact hdotted path hpath

theorem keeps_populateAt (hs : s ≠ t) (path : List String) : Keeps t (populateAt (s :: path)) :=
  fun _ _ _ h => find?_of_populate hs (populateAt_eq_ok.1 h)

theorem keeps_patchAt (hs : s ≠ t) (path : List String) (v : Value) : Keeps t (patchAt (s :: path) v) := by
  intro record a record' h
  obtain ⟨new, -, rfl⟩ := patchAt_eq_ok.1 h
  exact Path.find?_replaceAt hs path new record

theorem keeps_setEntry (hdotted : Avoids t dotted) (v : Value) : Keeps t (setEntry dotted v) :=
  .withPath hdotted fun _ path hs => .bind (keeps_populateAt hs path) fun _ => keeps_patchAt hs path v

theorem keeps_removeEntry (hdotted : Avoids t dotted) : Keeps t (removeEntry dotted) :=
  .withPath hdotted fun _ path hs => .modify (Path.find?_removeAt hs path)

theorem keeps_pullAll (hdotted : Avoids t dotted) (unwanted : List Value) : Keeps t (pullAll dotted unwanted) := by
  refine .withPath hdotted fun s path hs => .bind .get fun record => ?_
  split
  · exact .pure _
  · exact .modify (Path.find?_replaceAt hs path _)
  · exact .throw _

theorem keeps_pushAll (hdotted : Avoids t dotted) (extra : List Value) : Keeps t (pushAll dotted extra) := by
  refine .withPath hdotted fun s path hs => .bind .get fun record => ?_
  split
  · exact .bind (keeps_populateAt hs path) fun _ => .modify (Path.find?_replaceAt hs path _)
  · exact .modify (Path.find?_replaceAt hs path _)
  · exact .throw _

theorem Keeps.withList {operation : ArrayOperation} {change : List Value → Change}
    (hchange : ∀ items, Keeps t (change items)) : Keeps t (withList operation dotted v change) := by
  unfold Update.withList
  split
  · exact hchange _
  · exact .throw _

end Keeping

/-! ## Updates -/

/-- The dotted paths of all parts of an update. -/
def paths (u : Update) : List String :=
  u.set.map Prod.fst ++ u.unset ++ u.pull.map Prod.fst ++ u.pullList.map Prod.fst ++ u.push.map Prod.fst ++
    u.pushList.map Prod.fst

variable {u : Update}

theorem keeps_run (h : ∀ dotted ∈ u.paths, Avoids t dotted) : Keeps t u.run := by
  simp only [paths, List.forall_mem_append, List.forall_mem_map] at h
  obtain ⟨⟨⟨⟨⟨hset, hunset⟩, hpull⟩, hpullList⟩, hpush⟩, hpushList⟩ := h
  refine .bind (.forM fun e he => keeps_setEntry (hset e he) e.2) fun _ => ?_
  refine .bind (.forM fun dotted he => keeps_removeEntry (hunset dotted he)) fun _ => ?_
  refine .bind (.forM fun e he => keeps_pullAll (hpull e he) [e.2]) fun _ => ?_
  refine .bind (.forM fun e he => .withList (keeps_pullAll (hpullList e he))) fun _ => ?_
  refine .bind (.forM fun e he => keeps_pushAll (hpush e he) [e.2]) fun _ => ?_
  exact .forM fun e he => .withList (keeps_pushAll (hpushList e he))

/-- An update with no path into a member leaves it as it is. -/
theorem find?_of_apply {record record' : Value} {changed : Bool} (hu : ∀ dotted ∈ u.paths, Avoids t dotted)
    (h : u.apply record = .ok changed record') : record'.find? (.str t) = record.find? (.str t) :=
  keeps_run hu _ _ _ (apply_eq_ok.1 h).1

end Update

end RecordStore
