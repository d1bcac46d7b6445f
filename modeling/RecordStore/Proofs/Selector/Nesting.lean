import RecordStore.Proofs.Selector.Loading
import RecordStore.Proofs.Selector.Plain
import RecordStore.Proofs.Value.Members
import Mathlib.Data.List.Forall2

/-!
# How deep a selector may nest

The depth of every node is checked, of scalars as well as of collections, and the outermost node has depth 0. So the
limit is passed by what stands inside a collection: a tree is too deep exactly if some collection that is not empty
is nested more than 64 deep (`parseWith_nested`), and an empty one may stand one level deeper (`parse_empty_at_65`).
Any other tree whose keys and scalars can be read has a value of its shape (`Node.Spells`).
-/

namespace RecordStore.Selector.Node

/-! ## Trees of nodes -/

/-- Induction on a node, through the items of sequences and the keys and values of maps. -/
@[elab_as_elim]
protected theorem induction {motive : Node → Prop} (null : motive null) (scalar : ∀ tag text, motive (scalar tag text))
    (seq : ∀ items : List Node, (∀ n ∈ items, motive n) → motive (seq items))
    (map : ∀ entries : List (Node × Node), (∀ e ∈ entries, motive e.2) → motive (map entries)) : ∀ n, motive n
  | .null => null
  | .scalar tag text => scalar tag text
  | .seq items => seq items fun n _ => Node.induction null scalar seq map n
  | .map entries => map entries fun e _ => Node.induction null scalar seq map e.2
termination_by n => sizeOf n
decreasing_by
  · have := List.sizeOf_lt_of_mem ‹n ∈ items›
    simp only [Node.seq.sizeOf_spec]
    omega
  · have := List.sizeOf_lt_of_mem ‹e ∈ entries›
    obtain ⟨k, n⟩ := e
    simp only [Node.map.sizeOf_spec, Prod.mk.sizeOf_spec] at this ⊢
    omega

/-- A node occurs in a tree: as the whole of it, in an item, in a key or in a value. -/
inductive Part : (root part : Node) → Prop
  | self {n : Node} : Part n n
  | item {items : List Node} {n part : Node} : n ∈ items → Part n part → Part (.seq items) part
  | key {entries : List (Node × Node)} {e : Node × Node} {part : Node} :
      e ∈ entries → Part e.1 part → Part (.map entries) part
  | value {entries : List (Node × Node)} {e : Node × Node} {part : Node} :
      e ∈ entries → Part e.2 part → Part (.map entries) part

def IsCollection : Node → Prop
  | seq _ | map _ => True
  | _ => False

/-- A collection with something in it. -/
def IsFilled : Node → Prop
  | seq items => items ≠ []
  | map entries => entries ≠ []
  | _ => False

/-- No key is a collection. -/
def NoCollectionKeys (root : Node) : Prop :=
  ∀ entries, root.Part (.map entries) → ∀ e ∈ entries, ¬ e.1.IsCollection

/-- Every scalar has a value. -/
def Readable (root : Node) : Prop := ∀ tag text, root.Part (.scalar tag text) → ∃ v, valueOfScalar tag text = .ok v

/-- A node stands at a level of a tree, not counting what keys are made of; the outermost node stands at level 1. -/
inductive StandsAt : (level : Nat) → (root node : Node) → Prop
  | outermost {n : Node} : StandsAt 1 n n
  | item {level : Nat} {items : List Node} {n node : Node} :
      n ∈ items → StandsAt level n node → StandsAt (level + 1) (.seq items) node
  | value {level : Nat} {entries : List (Node × Node)} {e : Node × Node} {node : Node} :
      e ∈ entries → StandsAt level e.2 node → StandsAt (level + 1) (.map entries) node

/-- A document has the shape of a tree: items are in order, and of entries under one key the last counts. -/
inductive Spells : Node → Value → Prop
  | null : Spells .null .null
  | scalar {tag : Tag} {text : String} {v : Value} : valueOfScalar tag text = .ok v → Spells (.scalar tag text) v
  | seq {items : List Node} {vs : List Value} : List.Forall₂ Spells items vs → Spells (.seq items) (.arr vs)
  | map {entries : List (Node × Node)} {keys : List Key} {vs : List Value} {ms : Members} :
      List.Forall₂ (fun e k => e.1.toKey = .ok k) entries keys → List.Forall₂ Spells (entries.map Prod.snd) vs →
      Entries.Ascending ms → (∀ k, Entries.find? k ms = Entries.find? k (keys.zip vs).reverse) →
      Spells (.map entries) (.map ms)

/-! ### What can be read, from the parts of a collection -/

section Parts

variable {n : Node} {items : List Node} {entries : List (Node × Node)}

theorem noCollectionKeys_null : null.NoCollectionKeys := nofun

theorem noCollectionKeys_scalar {tag : Tag} {text : String} : (scalar tag text).NoCollectionKeys := nofun

theorem noCollectionKeys_seq_iff : (seq items).NoCollectionKeys ↔ ∀ n ∈ items, n.NoCollectionKeys := by
  constructor
  · exact fun h n hn entries hpart => h entries (.item hn hpart)
  · intro h entries hpart
    cases hpart with
    | item hn hpart => exact h _ hn entries hpart

theorem noCollectionKeys_map_iff : (map entries).NoCollectionKeys ↔
    ∀ e ∈ entries, ¬ e.1.IsCollection ∧ e.1.NoCollectionKeys ∧ e.2.NoCollectionKeys := by
  constructor
  · intro h e he
    exact ⟨h entries .self e he, fun es hpart => h es (.key he hpart), fun es hpart => h es (.value he hpart)⟩
  · intro h es hpart
    cases hpart with
    | self => exact fun e he => (h e he).1
    | key he hpart => exact (h _ he).2.1 es hpart
    | value he hpart => exact (h _ he).2.2 es hpart

theorem readable_null : null.Readable := nofun

theorem readable_scalar_iff {tag : Tag} {text : String} :
    (scalar tag text).Readable ↔ ∃ v, valueOfScalar tag text = .ok v := by
  constructor
  · exact fun h => h tag text .self
  · intro h tag text hpart
    cases hpart with
    | self => exact h

theorem readable_seq_iff : (seq items).Readable ↔ ∀ n ∈ items, n.Readable := by
  constructor
  · exact fun h n hn tag text hpart => h tag text (.item hn hpart)
  · intro h tag text hpart
    cases hpart with
    | item hn hpart => exact h _ hn tag text hpart

theorem readable_map_iff : (map entries).Readable ↔ ∀ e ∈ entries, e.1.Readable ∧ e.2.Readable := by
  constructor
  · intro h e he
    exact ⟨fun tag text hpart => h tag text (.key he hpart), fun tag text hpart => h tag text (.value he hpart)⟩
  · intro h tag text hpart
    cases hpart with
    | key he hpart => exact (h _ he).1 tag text hpart
    | value he hpart => exact (h _ he).2 tag text hpart

/-- A key that is no collection can be read if its scalar can. -/
theorem exists_toKey_eq (hcollection : ¬ n.IsCollection) (hreadable : n.Readable) : ∃ k, n.toKey = .ok k := by
  cases n with
  | null => exact ⟨.str "", rfl⟩
  | scalar tag text =>
    obtain ⟨v, hv⟩ := readable_scalar_iff.1 hreadable
    rw [toKey, hv]
    cases v with
    | int i => exact ⟨.int i, rfl⟩
    | _ => exact ⟨.str text, rfl⟩
  | seq _ | map _ => exact absurd trivial hcollection

end Parts

/-! ## Trees that are too deep -/

section Depth

variable {depth : Nat} {items : List Node} {entries : List (Node × Node)} {root : Node}

/-- Some node of a tree whose root stands at the depth stands below the limit. -/
def Deep (depth : Nat) (root : Node) : Prop := ∃ level node, StandsAt level root node ∧ maxDepth + 1 < depth + level

theorem deep_of_lt (h : maxDepth < depth) (root : Node) : root.Deep depth := ⟨1, root, .outermost, by omega⟩

/-- A node that is no collection has no others below it. -/
theorem deep_iff_of_not_isCollection (h : ¬ root.IsCollection) : root.Deep depth ↔ maxDepth < depth := by
  refine ⟨?_, fun h => deep_of_lt h _⟩
  rintro ⟨level, node, hstands, hdepth⟩
  cases hstands with
  | outermost => omega
  | item _ _ | value _ _ => exact absurd trivial h

theorem deep_seq_iff : (seq items).Deep depth ↔ maxDepth < depth ∨ ∃ n ∈ items, n.Deep (depth + 1) := by
  constructor
  · rintro ⟨level, node, hstands, hdepth⟩
    cases hstands with
    | outermost => exact .inl (by omega)
    | item hn hstands => exact .inr ⟨_, hn, _, node, hstands, by omega⟩
  · rintro (h | ⟨n, hn, level, node, hstands, hdepth⟩)
    · exact deep_of_lt h _
    · exact ⟨level + 1, node, .item hn hstands, by omega⟩

theorem deep_map_iff : (map entries).Deep depth ↔ maxDepth < depth ∨ ∃ e ∈ entries, e.2.Deep (depth + 1) := by
  constructor
  · rintro ⟨level, node, hstands, hdepth⟩
    cases hstands with
    | outermost => exact .inl (by omega)
    | value he hstands => exact .inr ⟨_, he, _, node, hstands, by omega⟩
  · rintro (h | ⟨e, he, level, node, hstands, hdepth⟩)
    · exact deep_of_lt h _
    · exact ⟨level + 1, node, .value he hstands, by omega⟩

/-- What is not outermost stands in a collection one level further out. -/
theorem StandsAt.outermost_or_inside {level : Nat} {node : Node} (h : StandsAt level root node) :
    level = 1 ∨ ∃ outer c, level = outer + 1 ∧ StandsAt outer root c ∧ c.IsFilled := by
  induction h with
  | outermost => exact .inl rfl
  | @item level items n _ hn _ ih =>
    rcases ih with rfl | ⟨outer, c, rfl, hstands, hc⟩
    · exact .inr ⟨1, .seq items, rfl, .outermost, List.ne_nil_of_mem hn⟩
    · exact .inr ⟨outer + 1, c, rfl, .item hn hstands, hc⟩
  | @value level entries e _ he _ ih =>
    rcases ih with rfl | ⟨outer, c, rfl, hstands, hc⟩
    · exact .inr ⟨1, .map entries, rfl, .outermost, List.ne_nil_of_mem he⟩
    · exact .inr ⟨outer + 1, c, rfl, .value he hstands, hc⟩

theorem IsFilled.exists_standsAt {level : Nat} {c : Node} (h : StandsAt level root c) (hc : c.IsFilled) :
    ∃ node, StandsAt (level + 1) root node := by
  induction h with
  | @outermost n =>
    cases n with
    | seq items =>
      obtain ⟨n, hn⟩ := List.exists_mem_of_ne_nil items hc
      exact ⟨n, .item hn .outermost⟩
    | map entries =>
      obtain ⟨e, he⟩ := List.exists_mem_of_ne_nil entries hc
      exact ⟨e.2, .value he .outermost⟩
    | null | scalar _ _ => exact hc.elim
  | item hn _ ih => exact (ih hc).imp fun _ hstands => .item hn hstands
  | value he _ ih => exact (ih hc).imp fun _ hstands => .value he hstands

/-- From the outermost node on, a tree is too deep if some collection below the limit has something in it. -/
theorem deep_zero_iff : root.Deep 0 ↔ ∃ level c, StandsAt level root c ∧ c.IsFilled ∧ maxDepth < level := by
  constructor
  · rintro ⟨level, node, hstands, hdepth⟩
    rcases hstands.outermost_or_inside with rfl | ⟨outer, c, rfl, hc, hfilled⟩
    · exact absurd hdepth (by decide)
    · exact ⟨outer, c, hc, hfilled, by omega⟩
  · rintro ⟨level, c, hstands, hfilled, hlevel⟩
    obtain ⟨node, hnode⟩ := hfilled.exists_standsAt hstands
    exact ⟨level + 1, node, hnode, by omega⟩

end Depth

/-! ## Reading a tree -/

/-- A node that stands at a depth is refused for its nesting if the tree below it is too deep, and else has a value of
its shape. -/
def ReadsAt (depth : Nat) (n : Node) : Prop :=
  (n.Deep depth ∧ n.toValue depth = .error .tooDeep) ∨ (¬ n.Deep depth ∧ ∃ v, n.toValue depth = .ok v ∧ n.Spells v)

section Reading

variable {depth : Nat} {items : List Node} {entries : List (Node × Node)}

theorem toItems_spec (h : ∀ n ∈ items, n.ReadsAt depth) :
    ((∃ n ∈ items, n.Deep depth) ∧ toItems depth items = .error .tooDeep) ∨
      ((¬ ∃ n ∈ items, n.Deep depth) ∧ ∃ vs, toItems depth items = .ok vs ∧ List.Forall₂ Spells items vs) := by
  induction items with
  | nil => exact .inr ⟨by simp, [], rfl, .nil⟩
  | cons n items ih =>
    obtain ⟨hn, hitems⟩ := List.forall_mem_cons.1 h
    rcases hn with ⟨hdeep, herror⟩ | ⟨hdeep, v, hv, hspells⟩
    · refine .inl ⟨⟨n, List.mem_cons_self, hdeep⟩, ?_⟩
      rw [toItems, herror]
      rfl
    · rcases ih hitems with ⟨⟨m, hm, hm'⟩, herror⟩ | ⟨hdeep', vs, hvs, hspells'⟩
      · refine .inl ⟨⟨m, List.mem_cons_of_mem n hm, hm'⟩, ?_⟩
        rw [toItems, hv, herror]
        rfl
      · refine .inr ⟨by simpa [hdeep] using hdeep', v :: vs, ?_, .cons hspells hspells'⟩
        rw [toItems, hv, hvs]
        rfl

/-- The members that are there already do not matter: the entries are put in one after another. -/
theorem toMembers_spec (hkeys : ∀ e ∈ entries, ∃ k, e.1.toKey = .ok k) (h : ∀ e ∈ entries, e.2.ReadsAt depth)
    (members : Members) :
    ((∃ e ∈ entries, e.2.Deep depth) ∧ toMembers depth members entries = .error .tooDeep) ∨
      ((¬ ∃ e ∈ entries, e.2.Deep depth) ∧ ∃ keys vs,
        toMembers depth members entries = .ok (Entries.insertAll (keys.zip vs) members) ∧
        List.Forall₂ (fun e k => e.1.toKey = .ok k) entries keys ∧ List.Forall₂ Spells (entries.map Prod.snd) vs) := by
  induction entries generalizing members with
  | nil => exact .inr ⟨by simp, [], [], rfl, .nil, .nil⟩
  | cons e entries ih =>
    obtain ⟨key, n⟩ := e
    obtain ⟨⟨k, hk⟩, hkeys⟩ := List.forall_mem_cons.1 hkeys
    obtain ⟨hn, hentries⟩ := List.forall_mem_cons.1 h
    rcases hn with ⟨hdeep, herror⟩ | ⟨hdeep, v, hv, hspells⟩
    · refine .inl ⟨⟨(key, n), List.mem_cons_self, hdeep⟩, ?_⟩
      rw [toMembers, herror]
      rfl
    · have hstep : toMembers depth members ((key, n) :: entries) =
          toMembers depth (Entries.insert k v members) entries := by
        rw [toMembers, hv, hk]
        rfl
      rw [hstep]
      rcases ih hkeys hentries (Entries.insert k v members) with
        ⟨⟨e, he, hdeep'⟩, herror⟩ | ⟨hdeep', keys, vs, hms, hkeys', hspells'⟩
      · exact .inl ⟨⟨e, List.mem_cons_of_mem _ he, hdeep'⟩, herror⟩
      · exact .inr ⟨by simpa [hdeep] using hdeep', k :: keys, v :: vs, hms, .cons hk hkeys', .cons hspells hspells'⟩

/-- Every tree whose keys and scalars can be read is refused for its nesting or read. -/
theorem readsAt {root : Node} (hkeys : root.NoCollectionKeys) (hreadable : root.Readable) (depth : Nat) :
    root.ReadsAt depth := by
  induction root using Node.induction generalizing depth with
  | null =>
    rw [ReadsAt, deep_iff_of_not_isCollection id, toValue]
    split
    case isTrue hlimit => exact .inl ⟨hlimit, rfl⟩
    case isFalse hlimit => exact .inr ⟨hlimit, .null, rfl, .null⟩
  | scalar tag text =>
    rw [ReadsAt, deep_iff_of_not_isCollection id, toValue]
    split
    case isTrue hlimit => exact .inl ⟨hlimit, rfl⟩
    case isFalse hlimit =>
      obtain ⟨v, hv⟩ := readable_scalar_iff.1 hreadable
      exact .inr ⟨hlimit, v, hv, .scalar hv⟩
  | seq items ih =>
    rw [ReadsAt, deep_seq_iff, toValue]
    split
    case isTrue hlimit => exact .inl ⟨.inl hlimit, rfl⟩
    case isFalse hlimit =>
      have hitems : ∀ n ∈ items, n.ReadsAt (depth + 1) := fun n hn =>
        ih n hn (noCollectionKeys_seq_iff.1 hkeys n hn) (readable_seq_iff.1 hreadable n hn) (depth + 1)
      rcases toItems_spec hitems with ⟨hdeep, herror⟩ | ⟨hdeep, vs, hvs, hspells⟩
      · exact .inl ⟨.inr hdeep, by rw [herror]; rfl⟩
      · exact .inr ⟨not_or.2 ⟨hlimit, hdeep⟩, .arr vs, by rw [hvs]; rfl, .seq hspells⟩
  | map entries ih =>
    rw [ReadsAt, deep_map_iff, toValue]
    split
    case isTrue hlimit => exact .inl ⟨.inl hlimit, rfl⟩
    case isFalse hlimit =>
      rw [noCollectionKeys_map_iff] at hkeys
      rw [readable_map_iff] at hreadable
      have hvalues : ∀ e ∈ entries, e.2.ReadsAt (depth + 1) := fun e he =>
        ih e he (hkeys e he).2.2 (hreadable e he).2 (depth + 1)
      have hkeys : ∀ e ∈ entries, ∃ k, e.1.toKey = .ok k := fun e he =>
        exists_toKey_eq (hkeys e he).1 (hreadable e he).1
      rcases toMembers_spec hkeys hvalues [] with ⟨hdeep, herror⟩ | ⟨hdeep, keys, vs, hms, hkeys, hspells⟩
      · exact .inl ⟨.inr hdeep, by rw [herror]; rfl⟩
      · refine .inr ⟨not_or.2 ⟨hlimit, hdeep⟩, .map (Entries.insertAll (keys.zip vs) []), by rw [hms]; rfl, ?_⟩
        refine .map hkeys hspells (.insertAll List.Pairwise.nil) fun k => ?_
        rw [Entries.find?_insertAll, Entries.find?_nil, Option.or_none]

theorem toValue_eq_tooDeep_iff {root : Node} (hkeys : root.NoCollectionKeys) (hreadable : root.Readable)
    (depth : Nat) : root.toValue depth = .error .tooDeep ↔ root.Deep depth := by
  rcases readsAt hkeys hreadable depth with ⟨hdeep, herror⟩ | ⟨hdeep, v, hv, -⟩
  · exact iff_of_true herror hdeep
  · exact iff_of_false (by rw [hv]; nofun) hdeep

end Reading

end RecordStore.Selector.Node

namespace RecordStore.Selector

/-! ## The limit of a selector text -/

section Limit

variable {load : String → Option (List Node)} {text : String} {root : Node}

/-- A text is refused for its nesting exactly if some collection of its tree that is not empty is nested more than 64
deep; any other has a value of the shape of its tree. -/
theorem parseWith_nested (h : load text = some [root]) (hkeys : root.NoCollectionKeys) (hreadable : root.Readable) :
    (parseWith load text = .error .tooDeep ↔ ∃ level c, root.StandsAt level c ∧ c.IsFilled ∧ 64 < level) ∧
      ((¬ ∃ level c, root.StandsAt level c ∧ c.IsFilled ∧ 64 < level) →
        ∃ v, parseWith load text = .ok v ∧ root.Spells v) := by
  have hdeep : root.Deep 0 ↔ ∃ level c, root.StandsAt level c ∧ c.IsFilled ∧ 64 < level := Node.deep_zero_iff
  rw [parseWith_of_document h, ← hdeep]
  refine ⟨Node.toValue_eq_tooDeep_iff hkeys hreadable 0, fun hnot => ?_⟩
  rcases Node.readsAt hkeys hreadable 0 with ⟨htoo, -⟩ | ⟨-, hread⟩
  · exact absurd htoo hnot
  · exact hread

end Limit

/-- A map with one key twice, and a sequence in it. -/
theorem parseWith_nested_map :
    let text := "\x7ba: 1, a: [~]\x7d"
    let root : Node := .map [(.scalar .plain "a", .scalar .plain "1"), (.scalar .plain "a", .seq [.null])]
    documents? text = some [root] ∧ root.NoCollectionKeys ∧ root.Readable ∧
      (¬ ∃ level c, root.StandsAt level c ∧ c.IsFilled ∧ 64 < level) ∧
      ∃ v, parseWith documents? text = .ok v ∧ root.Spells v := by
  intro text root
  have hload : documents? text = some [root] := by
    have hchars : text.toList =
        ['\x7b', 'a', ':', ' ', '1', ',', ' ', 'a', ':', ' ', '[', '~', ']', '\x7d'] := by decide
    have hdocument : document? text.toList = some root := by
      rw [hchars]
      rfl
    have hline : text.toList.all (· ≠ '\n') = true := by decide
    have hloads := documents?_of_document? (by decide)
      (fun c hc => of_decide_eq_true (List.all_eq_true.1 hline c hc)) hdocument
    rwa [String.ofList_toList] at hloads
  have hkeys : root.NoCollectionKeys := by
    simp [root, Node.noCollectionKeys_map_iff, Node.noCollectionKeys_seq_iff, Node.noCollectionKeys_scalar,
      Node.noCollectionKeys_null, Node.IsCollection]
  have hreadable : root.Readable := by
    have hword : valueOfScalar .plain "a" = .ok (.str "a") := rfl
    have hdigit : valueOfScalar .plain "1" = .ok (.int 1) := rfl
    simp [root, Node.readable_map_iff, Node.readable_seq_iff, Node.readable_scalar_iff, Node.readable_null, hword,
      hdigit]
  have hdeep : ¬ root.Deep 0 := by
    have hleaf (depth : Nat) : Node.null.Deep depth ↔ maxDepth < depth := Node.deep_iff_of_not_isCollection id
    have hscalar (tag : Tag) (text : String) (depth : Nat) : (Node.scalar tag text).Deep depth ↔ maxDepth < depth :=
      Node.deep_iff_of_not_isCollection id
    simp [root, Node.deep_map_iff, Node.deep_seq_iff, hleaf, hscalar, maxDepth]
  have hlevels := mt Node.deep_zero_iff.2 hdeep
  exact ⟨hload, hkeys, hreadable, hlevels, (parseWith_nested hload hkeys hreadable).2 hlevels⟩

/-! ### Sequences around nothing -/

/-- Sequences each of which is the only item of the one before it; the innermost of `n + 1` is empty. -/
def nested : Nat → Node
  | 0 => .seq []
  | n + 1 => .seq [nested n]

/-- Brackets that open and close again around nothing. -/
def brackets : Nat → List Char
  | 0 => []
  | n + 1 => '[' :: brackets n ++ [']']

theorem brackets_succ_append (n : Nat) (rest : List Char) :
    brackets (n + 1) ++ rest = '[' :: (brackets n ++ ']' :: rest) := by
  simp [brackets]

theorem flowNode?_brackets {fuel n : Nat} (h : 2 * (n + 1) ≤ fuel) (rest : List Char) :
    flowNode? fuel (brackets (n + 1) ++ rest) = some (nested n, rest) := by
  induction n generalizing fuel rest with
  | zero =>
    obtain ⟨fuel, rfl⟩ := Nat.exists_eq_add_of_le' h
    simp [brackets, flowNode?, flowItems?, skipSpaces, nested]
  | succ n ih =>
    obtain ⟨fuel, rfl⟩ : ∃ k, fuel = k + 2 := ⟨fuel - 2, by omega⟩
    have hinner : flowNode? fuel (brackets (n + 1) ++ ']' :: rest) = some (nested n, ']' :: rest) := ih (by omega) _
    have hitems : flowItems? (fuel + 1) (brackets (n + 1) ++ ']' :: rest) = some ([nested n], rest) := by
      rw [brackets_succ_append] at hinner ⊢
      simp [flowItems?, skipSpaces, hinner]
    rw [brackets_succ_append]
    simp [flowNode?, skipSpaces, hitems, nested]

theorem mem_brackets {n : Nat} {c : Char} (h : c ∈ brackets n) : c = '[' ∨ c = ']' := by
  induction n with
  | zero => cases h
  | succ n ih =>
    simp only [brackets, List.cons_append, List.mem_cons, List.mem_append, List.not_mem_nil, or_false] at h
    rcases h with rfl | h | rfl
    · exact .inl rfl
    · exact ih h
    · exact .inr rfl

theorem length_brackets (n : Nat) : (brackets n).length = 2 * n := by
  induction n with
  | zero => rfl
  | succ n ih =>
    simp only [brackets, List.cons_append, List.length_cons, List.length_append, List.length_nil, ih]
    omega

theorem documents?_brackets (n : Nat) : documents? (.ofList (brackets (n + 1))) = some [nested n] := by
  have hline : ∀ c ∈ brackets (n + 1), c ≠ '\n' := by
    intro c hc
    rcases mem_brackets hc with rfl | rfl <;> decide
  have hnode : blockNode? (brackets (n + 1)) = some (nested n, []) := by
    have hfuel : 2 * (n + 1) ≤ 2 * (brackets (n + 1)).length + 2 := by
      rw [length_brackets]
      omega
    have hflow := flowNode?_brackets hfuel []
    rwa [List.append_nil] at hflow
  have hdocument : document? (brackets (n + 1)) = some (nested n) := by
    rw [document?, hnode]
    rfl
  exact documents?_of_document? (List.cons_ne_nil '[' _) hline hdocument

theorem deep_nested_iff {depth : Nat} (n : Nat) : (nested n).Deep depth ↔ maxDepth < depth + n := by
  induction n generalizing depth with
  | zero => simp [nested, Node.deep_seq_iff]
  | succ n ih =>
    rw [nested, Node.deep_seq_iff]
    simp only [List.mem_singleton, exists_eq_left, ih]
    omega

theorem noCollectionKeys_nested (n : Nat) : (nested n).NoCollectionKeys := by
  induction n with
  | zero => exact Node.noCollectionKeys_seq_iff.2 (List.forall_mem_nil _)
  | succ n ih => exact Node.noCollectionKeys_seq_iff.2 (List.forall_mem_singleton.2 ih)

theorem readable_nested (n : Nat) : (nested n).Readable := by
  induction n with
  | zero => exact Node.readable_seq_iff.2 (List.forall_mem_nil _)
  | succ n ih => exact Node.readable_seq_iff.2 (List.forall_mem_singleton.2 ih)

theorem standsAt_nested (n : Nat) : (nested n).StandsAt (n + 1) (.seq []) := by
  induction n with
  | zero => exact .outermost
  | succ n ih => exact .item List.mem_cons_self ih

/-- Around nothing 65 sequences are accepted, and no more. -/
theorem parse_brackets_iff (n : Nat) : parse (.ofList (brackets (n + 1))) = .error .tooDeep ↔ 64 < n := by
  rw [← parseWith_documents?, parseWith_of_document (documents?_brackets n),
    Node.toValue_eq_tooDeep_iff (noCollectionKeys_nested n) (readable_nested n), deep_nested_iff, Nat.zero_add]
  rfl

/-- An empty sequence at level 65 is accepted. -/
theorem parse_empty_at_65 : documents? (.ofList (brackets 65)) = some [nested 64] ∧
    (nested 64).NoCollectionKeys ∧ (nested 64).Readable ∧
    (∃ level c, (nested 64).StandsAt level c ∧ c.IsCollection ∧ 64 < level) ∧
    parse (.ofList (brackets 65)) ≠ .error .tooDeep :=
  ⟨documents?_brackets 64, noCollectionKeys_nested 64, readable_nested 64,
    ⟨65, .seq [], standsAt_nested 64, trivial, by decide⟩, mt (parse_brackets_iff 64).1 (by decide)⟩

end RecordStore.Selector
