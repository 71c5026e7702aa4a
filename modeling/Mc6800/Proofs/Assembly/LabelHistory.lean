import Mathlib.Data.Finset.Card
import Mathlib.Data.List.Basic
import Mc6800.Proofs.Assembly.Counters

/-!
# Label tables and their history

A table shows the insertions that led to it (`LabelTable.Shows`): a label stands for the address of
its last insertion, and the labels stand in the order of their first ones. The same is shown by any
map that keeps its keys in the order in which they came (`OrderedMap`), whatever it is made of, if
labels are put into it in upper case.

The table of the first pass comes from one insertion for each line with a label, at the location
counter of the line (`Survey.labels_ofStatements`).
-/

set_option autoImplicit false

namespace Mc6800

namespace LabelTable

/-! ## Entries -/

variable {key : Text} {address : Word} {entries : List (Text × Word)}

theorem put_of_mem (hkeys : (entries.map Prod.fst).Nodup) (h : key ∈ entries.map Prod.fst) :
    put key address entries = entries.map fun e => if e.1 = key then (key, address) else e := by
  induction entries with
  | nil => cases h
  | cons e rest ih =>
    obtain ⟨hnew, hrest⟩ := List.nodup_cons.1 hkeys
    rw [put, List.map_cons]
    by_cases he : e.1 = key
    -- No entry behind has the same key, so the change in place ends here.
    · have hsame : ∀ f ∈ rest, (if f.1 = key then (key, address) else f) = f := by
        intro f hf
        refine if_neg fun hkey => hnew ?_
        rw [he, ← hkey]
        exact List.mem_map_of_mem hf
      rw [if_pos he, if_pos he, List.map_congr_left hsame, List.map_id']
    · rw [if_neg he, if_neg he, ih hrest ((List.mem_cons.1 h).resolve_left (Ne.symm he))]

theorem put_of_notMem (h : key ∉ entries.map Prod.fst) :
    put key address entries = entries ++ [(key, address)] := by
  induction entries with
  | nil => rfl
  | cons e rest ih =>
    obtain ⟨hne, hrest⟩ := not_or.1 (mt List.mem_cons.2 h)
    rw [put, if_neg (Ne.symm hne), ih hrest, List.cons_append]

theorem find_eq_some_iff (hkeys : (entries.map Prod.fst).Nodup) :
    find key entries = some address ↔ (key, address) ∈ entries := by
  induction entries with
  | nil => simp [find]
  | cons e rest ih =>
    obtain ⟨hnew, hrest⟩ := List.nodup_cons.1 hkeys
    obtain ⟨k, a⟩ := e
    rw [find]
    by_cases he : k = key
    · subst he
      have hnot : (k, address) ∉ rest := fun hmem => hnew (List.mem_map.2 ⟨_, hmem, rfl⟩)
      simp [hnot, eq_comm]
    · simp [he, Ne.symm he, ih hrest]

/-! ## Insertions -/

/-- The labels of the table, in its order. -/
def names (table : LabelTable) : List Text := table.toList.map Prod.fst

/-- The table that insertions in turn lead to. -/
def ofInsertions (insertions : List (Text × Word)) : LabelTable :=
  insertions.foldl (fun table i => table.insert i.1 i.2) empty

/-- The labels of insertions, as they are kept. -/
def insertedNames (insertions : List (Text × Word)) : List Text :=
  insertions.map fun i => Text.upper i.1

/-- The address of the last insertion of a label, in either case. -/
def lastAddress? (insertions : List (Text × Word)) (label : Text) : Option Word :=
  (insertions.reverse.find? fun i => Text.sameWord i.1 label).map Prod.snd

/-- The table is what insertions have made of it: every label stands for the address of its last
insertion, in either case; the labels that were inserted are listed once each, in the order of
their first insertions and with those addresses; and their number is that of distinct labels. -/
structure Shows (table : LabelTable) (insertions : List (Text × Word)) : Prop where
  get? : ∀ label, table.get? label = lastAddress? insertions label
  mem : ∀ name, name ∈ table.names ↔ name ∈ insertedNames insertions
  once : table.names.Nodup
  order : table.names.Pairwise fun s t =>
    (insertedNames insertions).idxOf s < (insertedNames insertions).idxOf t
  address : ∀ e ∈ table.toList, lastAddress? insertions e.1 = some e.2
  size : table.size = (insertedNames insertions).toFinset.card

variable {table : LabelTable} {insertions : List (Text × Word)}

theorem names_insert (table : LabelTable) (label : Text) (address : Word) :
    (table.insert label address).names =
      if Text.upper label ∈ table.names then table.names
      else table.names ++ [Text.upper label] :=
  map_fst_put ..

theorem ofInsertions_concat (insertions : List (Text × Word)) (i : Text × Word) :
    ofInsertions (insertions ++ [i]) = (ofInsertions insertions).insert i.1 i.2 := by
  rw [ofInsertions, List.foldl_concat, ← ofInsertions]

theorem lastAddress?_concat (insertions : List (Text × Word)) (i : Text × Word) (label : Text) :
    lastAddress? (insertions ++ [i]) label =
      if Text.sameWord i.1 label then some i.2 else lastAddress? insertions label := by
  rw [lastAddress?, List.reverse_concat, List.find?_cons]
  cases Text.sameWord i.1 label <;> rfl

theorem insertedNames_concat (insertions : List (Text × Word)) (i : Text × Word) :
    insertedNames (insertions ++ [i]) = insertedNames insertions ++ [Text.upper i.1] :=
  List.map_append

/-- What an ordered list of names becomes when one more is used. -/
theorem pairwise_idxOf_concat {names used : List Text} {name : Text}
    (hmem : ∀ s, s ∈ names ↔ s ∈ used)
    (horder : names.Pairwise fun s t => used.idxOf s < used.idxOf t) :
    (if name ∈ names then names else names ++ [name]).Pairwise fun s t =>
      (used ++ [name]).idxOf s < (used ++ [name]).idxOf t := by
  have hold : names.Pairwise fun s t => (used ++ [name]).idxOf s < (used ++ [name]).idxOf t := by
    refine horder.imp_of_mem fun hs ht hlt => ?_
    rwa [List.idxOf_append_of_mem ((hmem _).1 hs), List.idxOf_append_of_mem ((hmem _).1 ht)]
  split
  · exact hold
  -- The new name comes last: all that were used before are found in front of it.
  · next hname =>
    refine List.pairwise_append.2 ⟨hold, List.pairwise_singleton _ _, fun s hs t ht => ?_⟩
    cases List.mem_singleton.1 ht
    have hs := (hmem s).1 hs
    rw [List.idxOf_append_of_mem hs, List.idxOf_append_of_notMem (mt (hmem name).2 hname)]
    exact Nat.lt_of_lt_of_le (List.idxOf_lt_length_of_mem hs) (Nat.le_add_right _ _)

theorem get?_ofInsertions (insertions : List (Text × Word)) (label : Text) :
    (ofInsertions insertions).get? label = lastAddress? insertions label := by
  induction insertions using List.reverseRecOn with
  | nil => rfl
  | append_singleton insertions i ih =>
    have hword : Text.sameWord i.1 label = true ↔ Text.upper label = Text.upper i.1 := by
      rw [Text.sameWord, beq_iff_eq, eq_comm]
    rw [ofInsertions_concat, get?_insert, lastAddress?_concat, ih]
    simp only [hword]

theorem mem_names_ofInsertions (insertions : List (Text × Word)) (name : Text) :
    name ∈ (ofInsertions insertions).names ↔ name ∈ insertedNames insertions := by
  induction insertions using List.reverseRecOn with
  | nil => exact Iff.rfl
  | append_singleton insertions i ih =>
    rw [ofInsertions_concat, names_insert, insertedNames_concat, List.mem_append,
      List.mem_singleton, ← ih]
    split
    · next hold => exact ⟨.inl, fun h => h.elim id fun heq => heq ▸ hold⟩
    · rw [List.mem_append, List.mem_singleton]

theorem order_ofInsertions (insertions : List (Text × Word)) :
    (ofInsertions insertions).names.Pairwise fun s t =>
      (insertedNames insertions).idxOf s < (insertedNames insertions).idxOf t := by
  induction insertions using List.reverseRecOn with
  | nil => exact List.Pairwise.nil
  | append_singleton insertions i ih =>
    rw [ofInsertions_concat, names_insert, insertedNames_concat]
    exact pairwise_idxOf_concat (mem_names_ofInsertions insertions) ih

theorem nodup_names_ofInsertions (insertions : List (Text × Word)) :
    (ofInsertions insertions).names.Nodup :=
  (order_ofInsertions insertions).imp fun hlt heq => by
    rw [heq] at hlt
    exact Nat.lt_irrefl _ hlt

/-- The labels of a table are in upper case. -/
theorem upper_of_mem_names {name : Text} (h : name ∈ (ofInsertions insertions).names) :
    Text.upper name = name := by
  obtain ⟨i, -, rfl⟩ := List.mem_map.1 ((mem_names_ofInsertions insertions name).1 h)
  exact Text.upper_upper i.1

/-- A table shows the insertions that led to it. -/
theorem shows_ofInsertions (insertions : List (Text × Word)) :
    (ofInsertions insertions).Shows insertions where
  get? := get?_ofInsertions insertions
  mem := mem_names_ofInsertions insertions
  once := nodup_names_ofInsertions insertions
  order := order_ofInsertions insertions
  address e he := by
    rw [← get?_ofInsertions, LabelTable.get?, upper_of_mem_names (List.mem_map_of_mem he)]
    exact (find_eq_some_iff (nodup_names_ofInsertions insertions)).2 he
  size := by
    have hset : (insertedNames insertions).toFinset = (ofInsertions insertions).names.toFinset := by
      ext name
      rw [List.mem_toFinset, List.mem_toFinset, mem_names_ofInsertions]
    rw [hset, List.toFinset_card_of_nodup (nodup_names_ofInsertions insertions)]
    exact (List.length_map ..).symm

end LabelTable

/-! ## Maps that keep the order of their keys -/

/-- A map that keeps its keys in the order in which they came. A key that is put in again keeps its
place and takes the new value; a new one goes behind the others. -/
structure OrderedMap (κ ν : Type) [DecidableEq κ] where
  Carrier : Type
  empty : Carrier
  insert : Carrier → κ → ν → Carrier
  get? : Carrier → κ → Option ν
  toList : Carrier → List (κ × ν)
  size : Carrier → Nat
  nodup_keys : ∀ m, ((toList m).map Prod.fst).Nodup
  toList_empty : toList empty = []
  toList_insert_of_mem : ∀ m key value, key ∈ (toList m).map Prod.fst →
    toList (insert m key value) =
      (toList m).map fun e => if e.1 = key then (key, value) else e
  toList_insert_of_notMem : ∀ m key value, key ∉ (toList m).map Prod.fst →
    toList (insert m key value) = toList m ++ [(key, value)]
  get?_eq_some_iff : ∀ m key value, get? m key = some value ↔ (key, value) ∈ toList m
  size_eq : ∀ m, size m = (toList m).length

namespace OrderedMap

/-- The map that insertions in turn lead to, with the labels in upper case. -/
def ofInsertions (M : OrderedMap Text Word) (insertions : List (Text × Word)) : M.Carrier :=
  insertions.foldl (fun m i => M.insert m (Text.upper i.1) i.2) M.empty

theorem ofInsertions_concat (M : OrderedMap Text Word) (insertions : List (Text × Word))
    (i : Text × Word) :
    M.ofInsertions (insertions ++ [i]) =
      M.insert (M.ofInsertions insertions) (Text.upper i.1) i.2 := by
  rw [ofInsertions, List.foldl_concat, ← ofInsertions]

/-- The same insertions lead to the entries of the table. -/
theorem toList_ofInsertions (M : OrderedMap Text Word) (insertions : List (Text × Word)) :
    M.toList (M.ofInsertions insertions) = (LabelTable.ofInsertions insertions).toList := by
  induction insertions using List.reverseRecOn with
  | nil => exact M.toList_empty
  | append_singleton insertions i ih =>
    have hkeys := M.nodup_keys (M.ofInsertions insertions)
    rw [ofInsertions_concat, LabelTable.ofInsertions_concat]
    by_cases h : Text.upper i.1 ∈ (M.toList (M.ofInsertions insertions)).map Prod.fst
    · rw [M.toList_insert_of_mem _ _ _ h]
      rw [ih] at h hkeys ⊢
      exact (LabelTable.put_of_mem hkeys h).symm
    · rw [M.toList_insert_of_notMem _ _ _ h]
      rw [ih] at h ⊢
      exact (LabelTable.put_of_notMem h).symm

theorem get?_ofInsertions (M : OrderedMap Text Word) (insertions : List (Text × Word))
    (label : Text) :
    M.get? (M.ofInsertions insertions) (Text.upper label) =
      (LabelTable.ofInsertions insertions).get? label := by
  ext address
  rw [M.get?_eq_some_iff, toList_ofInsertions]
  exact (LabelTable.find_eq_some_iff (LabelTable.nodup_names_ofInsertions insertions)).symm

theorem size_ofInsertions (M : OrderedMap Text Word) (insertions : List (Text × Word)) :
    M.size (M.ofInsertions insertions) = (LabelTable.ofInsertions insertions).size := by
  rw [M.size_eq, toList_ofInsertions]
  rfl

/-- The map that is a list of entries, no two with one label. -/
def entryList : OrderedMap Text Word where
  Carrier := { entries : List (Text × Word) // (entries.map Prod.fst).Nodup }
  empty := ⟨[], List.nodup_nil⟩
  insert m key value := ⟨LabelTable.put key value m.1, by
    rw [LabelTable.map_fst_put]
    split
    · exact m.2
    · next h => exact List.concat_eq_append ▸ m.2.concat h⟩
  get? m key := LabelTable.find key m.1
  toList m := m.1
  size m := m.1.length
  nodup_keys m := m.2
  toList_empty := rfl
  toList_insert_of_mem m _ _ h := LabelTable.put_of_mem m.2 h
  toList_insert_of_notMem _ _ _ h := LabelTable.put_of_notMem h
  get?_eq_some_iff m _ _ := LabelTable.find_eq_some_iff m.2
  size_eq _ := rfl

end OrderedMap

/-! ## The table of the first pass -/

namespace Survey

/-- The insertions of the first pass: every line with a label inserts it at its counter. -/
def definitions (v : Survey) : List Statement → List (Text × Word)
  | [] => []
  | s :: rest =>
    (s.label?.map fun f => (f.text, v.location)).toList ++ definitions (v.next s) rest

theorem labels_foldl (v : Survey) (statements : List Statement) :
    (statements.foldl next v).labels =
      (v.definitions statements).foldl (fun table i => table.insert i.1 i.2) v.labels := by
  induction statements generalizing v with
  | nil => rfl
  | cons s rest ih =>
    rw [List.foldl_cons, ih, labels_next, definitions, List.foldl_append]
    cases s.label? <;> rfl

theorem labels_ofStatements (base : Word) (statements : List Statement) :
    (ofStatements base statements).labels =
      LabelTable.ofInsertions ((start base).definitions statements) :=
  labels_foldl ..

theorem insertedNames_definitions (v : Survey) (statements : List Statement) :
    LabelTable.insertedNames (v.definitions statements) =
      statements.filterMap Statement.labelName? := by
  induction statements generalizing v with
  | nil => rfl
  | cons s rest ih =>
    have ih := ih (v.next s)
    rw [LabelTable.insertedNames] at ih ⊢
    rw [definitions, List.map_append, ih, List.filterMap_cons, Statement.labelName?]
    cases s.label? <;> rfl

end Survey

/-- What comes first among the values that `f` finds, comes first among where it finds them. -/
theorem findIdx_lt_of_idxOf_filterMap_lt {α β : Type} [DecidableEq β] [BEq β] [LawfulBEq β]
    (f : α → Option β) {x y : β} {xs : List α}
    (h : (xs.filterMap f).idxOf x < (xs.filterMap f).idxOf y) :
    (xs.findIdx fun a => f a = some x) < xs.findIdx fun a => f a = some y := by
  induction xs with
  | nil => exact absurd h (Nat.lt_irrefl _)
  | cons a rest ih =>
    rw [List.findIdx_cons, List.findIdx_cons]
    cases hfound : f a with
    | none =>
      rw [List.filterMap_cons_none hfound] at h
      simpa using ih h
    | some b =>
      rw [List.filterMap_cons_some hfound, List.idxOf_cons, List.idxOf_cons] at h
      by_cases hy : b = y
      · simp [hy] at h
      · by_cases hx : b = x
        · subst hx
          simp [hy]
        · have hrest : (rest.filterMap f).idxOf x < (rest.filterMap f).idxOf y := by
            simpa [beq_false_of_ne hx, beq_false_of_ne hy] using h
          simpa [hx, hy] using ih hrest

namespace Assembler

variable (a : Assembler)

theorem labels_firstPass :
    a.firstPass.labels =
      LabelTable.ofInsertions ((Survey.start a.base).definitions a.statements) :=
  Survey.labels_ofStatements ..

theorem mem_names_firstPass (name : Text) :
    name ∈ a.firstPass.labels.names ↔ ∃ s ∈ a.statements, s.labelName? = some name := by
  rw [labels_firstPass, LabelTable.mem_names_ofInsertions, Survey.insertedNames_definitions,
    List.mem_filterMap]

theorem order_names_firstPass :
    a.firstPass.labels.names.Pairwise fun name other =>
      (a.statements.findIdx fun s => s.labelName? = some name) <
        a.statements.findIdx fun s => s.labelName? = some other := by
  have horder := LabelTable.order_ofInsertions ((Survey.start a.base).definitions a.statements)
  rw [Survey.insertedNames_definitions] at horder
  rw [labels_firstPass]
  exact horder.imp fun hlt => findIdx_lt_of_idxOf_filterMap_lt _ hlt

theorem exists_isLastDefinition_of_mem_firstPass {e : Text × Word}
    (h : e ∈ a.firstPass.labels.toList) :
    ∃ i, IsLastDefinition a.statements e.1 i ∧ a.surveyedAddress i = e.2 := by
  rw [labels_firstPass] at h
  have hname : Text.upper e.1 = e.1 := LabelTable.upper_of_mem_names (List.mem_map_of_mem h)
  have hget : a.firstPass.labels.get? e.1 = some e.2 := by
    rw [labels_firstPass, LabelTable.get?, hname]
    exact (LabelTable.find_eq_some_iff (LabelTable.nodup_names_ofInsertions _)).2 h
  have hlast := Survey.get?_labels a.base a.statements e.1 e.2 a.statements.length
  rw [List.take_length] at hlast
  exact hlast hget

end Assembler

/-! ## The history of a table -/

/-- **A table shows the insertions that led to it**, and so does every map that keeps the order of
its keys: it has the same entries in the same order, finds the same addresses and has the same
size. Hence the first pass lists the labels in the order of their first definitions, each with the
location counter at the last line that defines it. -/
theorem LabelTable.shows_history :
    (∀ insertions, (ofInsertions insertions).Shows insertions) ∧
    (∀ (M : OrderedMap Text Word) (insertions : List (Text × Word)),
      M.toList (M.ofInsertions insertions) = (ofInsertions insertions).toList ∧
      (∀ label, M.get? (M.ofInsertions insertions) (Text.upper label) =
        (ofInsertions insertions).get? label) ∧
      M.size (M.ofInsertions insertions) = (ofInsertions insertions).size) ∧
    ∀ (lines : List Text) (base : Word),
      let a := (Assembler.ofLines lines).withOrigin base
      let labels := a.firstPass.labels
      labels = ofInsertions ((Survey.start base).definitions (lines.map Statement.parse)) ∧
      (∀ name, name ∈ labels.names ↔ ∃ s ∈ a.statements, s.labelName? = some name) ∧
      (labels.names.Pairwise fun name other =>
        (a.statements.findIdx fun s => s.labelName? = some name) <
          a.statements.findIdx fun s => s.labelName? = some other) ∧
      ∀ e ∈ labels.toList,
        ∃ i, IsLastDefinition a.statements e.1 i ∧ a.surveyedAddress i = e.2 := by
  refine ⟨shows_ofInsertions, fun M insertions => ⟨?_, ?_, ?_⟩, fun lines base => ?_⟩
  · exact M.toList_ofInsertions insertions
  · exact M.get?_ofInsertions insertions
  · exact M.size_ofInsertions insertions
  · intro a labels
    exact ⟨a.labels_firstPass, a.mem_names_firstPass, a.order_names_firstPass,
      fun _ => a.exists_isLastDefinition_of_mem_firstPass⟩

/-- A label that is inserted again, in the other case, keeps its place in a map and in the table of
the first pass. -/
theorem LabelTable.shows_history_of_redefinition :
    (let M := OrderedMap.entryList
     M.toList (M.ofInsertions [("FIRST", 1), ("SECOND", 2), ("first", 3)]) =
       ([("FIRST", 3), ("SECOND", 2)] : List (Text × Word))) ∧
    let a := (Assembler.ofLines ["one NOP", "two INX", "ONE DEX"]).withOrigin 0x0100
    a.firstPass.labels.toList = ([("ONE", 0x0102), ("TWO", 0x0101)] : List (Text × Word)) ∧
    ∃ i, IsLastDefinition a.statements "ONE" i ∧ a.surveyedAddress i = 0x0102 :=
  ⟨(shows_history.2.1 OrderedMap.entryList _).1.trans (by decide +kernel), by decide +kernel,
    (shows_history.2.2 ["one NOP", "two INX", "ONE DEX"] 0x0100).2.2.2 ("ONE", 0x0102)
      (by decide +kernel)⟩

end Mc6800
