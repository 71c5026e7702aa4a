import Mc6800.Text.Basic
import Mc6800.Word

/-!
# Label tables

Labels and their addresses, in the order in which the labels were first defined. Labels are kept in
upper case and looked up in either. Defining a label again changes its address and not its place.
-/

set_option autoImplicit false

namespace Mc6800

/-- Labels with their addresses. -/
structure LabelTable where
  entries : List (Text × Word)
  deriving DecidableEq, Repr

namespace LabelTable

/-- The table without labels. -/
def empty : LabelTable := ⟨[]⟩

/-- The entries with the address of `key` replaced where it stands, or put at the end. -/
def put (key : Text) (address : Word) : List (Text × Word) → List (Text × Word)
  | [] => [(key, address)]
  | entry :: rest =>
    if entry.1 = key then (key, address) :: rest else entry :: put key address rest

/-- The address of `key` among the entries. -/
def find (key : Text) : List (Text × Word) → Option Word
  | [] => none
  | entry :: rest => if entry.1 = key then some entry.2 else find key rest

/-- The table in which `label` stands for `address`. -/
def insert (table : LabelTable) (label : Text) (address : Word) : LabelTable :=
  ⟨put (Text.upper label) address table.entries⟩

/-- The address that `label` stands for. -/
def get? (table : LabelTable) (label : Text) : Option Word :=
  find (Text.upper label) table.entries

/-- The labels and their addresses, in order of first definition. -/
def toList (table : LabelTable) : List (Text × Word) := table.entries

/-- The number of labels. -/
def size (table : LabelTable) : Nat := table.entries.length

/-- Whether there is no label. -/
def isEmpty (table : LabelTable) : Bool := table.entries.isEmpty

@[simp] theorem get?_empty (label : Text) : empty.get? label = none := rfl

theorem find_put (key query : Text) (address : Word) (entries : List (Text × Word)) :
    find query (put key address entries) =
      if query = key then some address else find query entries := by
  induction entries with
  | nil => grind [put, find]
  | cons entry rest ih => grind [put, find]

/-- Defining a label keeps the order of the labels, with a new one behind the others. -/
theorem map_fst_put (key : Text) (address : Word) (entries : List (Text × Word)) :
    (put key address entries).map Prod.fst =
      if key ∈ entries.map Prod.fst then entries.map Prod.fst
      else entries.map Prod.fst ++ [key] := by
  induction entries with
  | nil => simp [put]
  | cons entry rest ih => grind [put]

/-- After a definition the label stands for the new address, and all others as before. -/
theorem get?_insert (table : LabelTable) (label query : Text) (address : Word) :
    (table.insert label address).get? query =
      if Text.upper query = Text.upper label then some address else table.get? query :=
  find_put ..

end LabelTable

end Mc6800
