import RecordStore.Config
import RecordStore.Proofs.Json.RoundTrip
import RecordStore.Proofs.Sequence

/-!
# Configurations read back

A field is written and read by rules that cancel: what is left out where it is written is what a missing field stands
for where it is read (`textField_of_written`, `port_of_written`, `level?_levelText`). The one value without a written
form is an empty master key, and reading gives none (`masterKey_ne_of_ofJson`), so a configuration that was read comes
back from its JSON (`ofJson_toJson`). The fields are written in ascending order and without reals (`exact_toJson`), so
it comes back from the text of its JSON as well (`load_toJson`).
-/

namespace RecordStore

namespace Config

variable {c : Config} {name text : String} {fields : List (String × Json)}

/-! ## Single fields -/

/-- A text as the value of a field, unless it is empty. -/
def writtenString? (text : String) : Option Json := if text = "" then none else some (.str text)

theorem find?_writtenText (k name text : String) :
    Entries.find? k (writtenText name text) = if k = name then writtenString? text else none := by
  unfold writtenText writtenString?
  by_cases htext : text = "" <;> simp [htext, Entries.find?_cons]

theorem find?_optional {α : Type} (k name : String) (f : α → Json) (o : Option α) :
    Entries.find? k (o.toList.map fun a => (name, f a)) = if k = name then o.map f else none := by
  cases o <;> simp [Entries.find?_cons]

/-- A text that is left out is empty, as a missing one is. -/
theorem textField_of_written (h : Entries.find? name fields = writtenString? text) :
    textField fields name "" = .ok text := by
  rw [textField, field, h, writtenString?]
  by_cases htext : text = ""
  · rw [if_pos htext, htext]
  · rw [if_neg htext]

theorem textField_of_some (default : String) (h : Entries.find? name fields = some (.str text)) :
    textField fields name default = .ok text := by
  rw [textField, field, h]

theorem ofInt_toNat (port : UInt16) : UInt16.ofInt port.toNat = port := by
  have hlt := port.toNat_lt
  apply UInt16.toNat_inj.1
  rw [UInt16.ofInt, UInt16.toNat_ofNat']
  omega

/-- A port that is left out is zero, as a missing one is. -/
theorem port_of_written {port : UInt16}
    (h : Entries.find? name fields = if port = 0 then none else some (.int port.toNat)) :
    field fields name 0 "number" port? = .ok port := by
  rw [field, h]
  by_cases hport : port = 0
  · rw [if_pos hport, hport]
  · rw [if_neg hport]
    simp only [port?, ofInt_toNat]

/-- The name of a level, or the empty one that asks for none. -/
def levelText (loglevel : Option LevelName) : String := loglevel.elim "" LevelName.text

theorem level?_levelText (loglevel : Option LevelName) : level? (levelText loglevel) = .ok loglevel := by
  cases loglevel with
  | none => rfl
  | some n => cases n <;> rfl

theorem level_of_written (loglevel : Option LevelName) :
    (loglevel.map fun n => Json.str n.text) = writtenString? (levelText loglevel) := by
  cases loglevel with
  | none => rfl
  | some n => cases n <;> rfl

/-- Of the two keys that are read the second one is never needed for what was written. -/
theorem firstKey_of_written {masterKey : Option String} (h : masterKey ≠ some "") :
    masterKey.map Json.str = writtenString? (masterKey.getD "") ∧ firstKey (masterKey.getD "") "" = masterKey := by
  cases masterKey with
  | none => exact ⟨rfl, rfl⟩
  | some key =>
    have hkey : key ≠ "" := fun hempty => h (congrArg some hempty)
    exact ⟨(if_neg hkey).symm, if_pos hkey⟩

theorem firstKey_ne (commonkey masterpassword : String) : firstKey commonkey masterpassword ≠ some "" := by
  unfold firstKey
  split
  · simpa
  · split
    · simpa
    · nofun

/-! ## All fields -/

/-- The fields of the configuration as JSON. -/
def written (c : Config) : List (String × Json) :=
  match c.toJson with
  | .obj fields => fields
  | _ => []

/-- What stands under each name. -/
theorem find?_written (c : Config) (k : String) : Entries.find? k c.written =
    if k = "commonkey" then c.masterKey.map .str
    else if k = "host" then writtenString? c.host
    else if k = "logger_name" then some (.str c.loggerName)
    else if k = "loglevel" then c.loglevel.map fun n => .str n.text
    else if k = "name" then writtenString? c.name
    else if k = "password" then writtenString? c.password
    else if k = "port" then (if c.port = 0 then none else some (.int c.port.toNat))
    else if k = "uri" then writtenString? c.uri
    else if k = "user" then writtenString? c.user
    else none := by
  have hport : Entries.find? k (if c.port = 0 then [] else [("port", Json.int c.port.toNat)]) =
      if k = "port" then (if c.port = 0 then none else some (.int c.port.toNat)) else none := by
    by_cases hport : c.port = 0 <;> simp [hport, Entries.find?_cons]
  simp only [written, toJson, Entries.find?_append, find?_writtenText, find?_optional, Entries.find?_cons,
    Entries.find?_nil, hport]
  grind

/-- No master key is read from an empty text. -/
theorem masterKey_ne_of_ofJson {j : Json} (h : ofJson j = .ok c) : c.masterKey ≠ some "" := by
  cases j with
  | obj fields =>
    simp only [ofJson, except_bind_eq_ok, except_pure_eq_ok] at h
    obtain ⟨_, -, _, -, _, -, _, -, _, -, _, -, _, -, _, -, _, -, _, -, _, -, rfl⟩ := h
    exact firstKey_ne _ _
  | _ => cases h

/-- A configuration whose master key is not empty comes back from its JSON. -/
theorem ofJson_toJson (h : c.masterKey ≠ some "") : ofJson c.toJson = .ok c := by
  obtain ⟨hkey, hfirst⟩ := firstKey_of_written h
  have hname : textField c.written "name" "" = .ok c.name := textField_of_written (by simp [find?_written])
  have hlogger : textField c.written "logger_name" "db" = .ok c.loggerName :=
    textField_of_some _ (by simp [find?_written])
  have huri : textField c.written "uri" "" = .ok c.uri := textField_of_written (by simp [find?_written])
  have hhost : textField c.written "host" "" = .ok c.host := textField_of_written (by simp [find?_written])
  have hport : field c.written "port" 0 "number" port? = .ok c.port := port_of_written (by simp [find?_written])
  have huser : textField c.written "user" "" = .ok c.user := textField_of_written (by simp [find?_written])
  have hpassword : textField c.written "password" "" = .ok c.password :=
    textField_of_written (by simp [find?_written])
  have hlevel : textField c.written "loglevel" "" = .ok (levelText c.loglevel) :=
    textField_of_written (by simp [find?_written, level_of_written])
  have hcommon : textField c.written "commonkey" "" = .ok (c.masterKey.getD "") :=
    textField_of_written (by simp [find?_written, hkey])
  have holder : textField c.written "masterpassword" "" = .ok "" :=
    textField_of_written (by simp [find?_written, writtenString?])
  show ofJson (.obj c.written) = .ok c
  rw [ofJson, hname, hlogger, huri, hhost, hport, huser, hpassword, hlevel, hcommon, holder]
  show (level? (levelText c.loglevel)).bind _ = _
  rw [level?_levelText]
  show Except.ok { c with masterKey := firstKey (c.masterKey.getD "") "" } = _
  rw [hfirst]

/-! ## Texts -/

/-- The names of all fields, in key order. -/
def names : List String :=
  ["commonkey", "host", "logger_name", "loglevel", "name", "password", "port", "uri", "user"]

theorem sublist_writtenText (name text : String) : ((writtenText name text).map Prod.fst).Sublist [name] := by
  unfold writtenText
  split
  · exact List.nil_sublist _
  · exact .refl _

theorem sublist_optional {α : Type} (name : String) (f : α → Json) (o : Option α) :
    ((o.toList.map fun a => (name, f a)).map Prod.fst).Sublist [name] := by
  cases o
  · exact List.nil_sublist _
  · exact .refl _

/-- Some of the names are left out, and the others keep their order. -/
theorem sublist_names (c : Config) : (c.written.map Prod.fst).Sublist names := by
  have hport : ((if c.port = 0 then [] else [("port", Json.int c.port.toNat)]).map Prod.fst).Sublist ["port"] := by
    split
    · exact List.nil_sublist _
    · exact .refl _
  simp only [written, toJson, List.map_append]
  exact (sublist_optional _ _ _).append (sublist_writtenText _ _) |>.append (.refl _)
    |>.append (sublist_optional _ _ _) |>.append (sublist_writtenText _ _) |>.append (sublist_writtenText _ _)
    |>.append hport |>.append (sublist_writtenText _ _) |>.append (sublist_writtenText _ _)

theorem ascending_written (c : Config) : Entries.Ascending c.written := by
  have hnames : names.Pairwise fun k l => compare k l = .lt := by decide +kernel
  exact hnames.sublist (sublist_names c)

theorem exact_writtenText (name text : String) : ∀ e ∈ writtenText name text, e.2.Exact := by
  unfold writtenText
  split <;> simp [Json.Exact]

/-- There are only texts and a port, which is a word. -/
theorem exact_toJson (c : Config) : c.toJson.Exact := by
  have hword : Json.IsWord c.port.toNat := by
    have hlt := c.port.toNat_lt
    constructor <;> omega
  refine Json.exact_obj_iff.2 ⟨ascending_written c, ?_⟩
  simp only [List.forall_mem_append]
  refine ⟨⟨⟨⟨⟨⟨⟨⟨?_, exact_writtenText _ _⟩, ?_⟩, ?_⟩, exact_writtenText _ _⟩, exact_writtenText _ _⟩, ?_⟩,
    exact_writtenText _ _⟩, exact_writtenText _ _⟩
  · simp [Json.Exact]
  · simp [Json.Exact]
  · simp [Json.Exact]
  · split
    · exact List.forall_mem_nil _
    · simpa [Json.Exact] using hword

/-- A configuration that was loaded comes back from its JSON, and from the text of its JSON with any indentation. -/
theorem load_toJson (h : load text = .ok c) :
    ofJson c.toJson = .ok c ∧ ∀ indent, load (c.toJson.dump indent) = .ok c := by
  have hread : ofJson c.toJson = .ok c := by
    rw [load] at h
    cases hparse : Json.parse? text with
    | none =>
      rw [hparse] at h
      cases h
    | some j =>
      rw [hparse] at h
      exact ofJson_toJson (masterKey_ne_of_ofJson h)
  refine ⟨hread, fun indent => ?_⟩
  rw [load, Json.parse?_dump (exact_toJson c)]
  exact hread

/-- An empty key beside the older one, an empty name of the logger, and a port that wraps to zero. -/
theorem load_toJson_older_key :
    let c : Config := { loggerName := "", masterKey := some "k" }
    load "\x7b\"commonkey\":\"\",\"masterpassword\":\"k\",\"logger_name\":\"\",\"port\":65536\x7d" = .ok c ∧
      ofJson c.toJson = .ok c ∧ load (c.toJson.dump 2) = .ok c := by
  have hload : load "\x7b\"commonkey\":\"\",\"masterpassword\":\"k\",\"logger_name\":\"\",\"port\":65536\x7d" =
      .ok { loggerName := "", masterKey := some "k" } := eq_ok_of_toOption (by decide +kernel)
  obtain ⟨hread, hdump⟩ := load_toJson hload
  exact ⟨hload, hread, hdump 2⟩

end Config

end RecordStore
