import EntitySchema.Category
import EntitySchema.Integer
/-!
  Remarks for later tools: keys with values, in the order the keys were first given.

  A key stands at most once.  Giving it again replaces its value and leaves its place, so the order of the
  keys is that of their first insertions.  What an insertion does is said by two equations, one for the values
  and one for the order,

      (m.insert key value).find? other = if other = key then some value else m.find? other
      (m.insert key value).keys = if key ∈ m.keys then m.keys else m.keys ++ [key]

  (`find?_insert`, `keys_insert`), and by what is handed out, `exchange_eq`.  Each is first shown of the list
  of entries, by the recursion of `put`.

  Main statements: `find?_insert`, `keys_insert` and `exchange_eq`.
-/

namespace EntitySchema

/-- Keys with values, in the order the keys were first given. -/
structure Metadata where
  entries : List (String × String)
deriving DecidableEq, Repr

/-- Why a key gives no integer. -/
inductive MetadataError where
  | missing (key : String)
  | notAnInteger (key value : String)
deriving DecidableEq, Repr

namespace MetadataError

/-- A value that a tool cannot use contradicts the tool, not the grammar. -/
def category (_ : MetadataError) : Category := .semantic

/-- The fault in words. -/
def message : MetadataError → String
  | missing key => "missing meta value '" ++ key ++ "'"
  | notAnInteger key value => "meta value '" ++ key ++ "' is not an integer: '" ++ value ++ "'"

end MetadataError

namespace Metadata

/-- No keys. -/
def empty : Metadata := ⟨[]⟩

/-- The keys, in order. -/
def keys (m : Metadata) : List String := m.entries.map (·.1)

/-- The number of keys. -/
def size (m : Metadata) : Nat := m.entries.length

/-- There are no keys. -/
def isEmpty (m : Metadata) : Bool := m.entries.isEmpty

/-- The value of `key` in a list of entries. -/
def lookup (key : String) : List (String × String) → Option String
  | [] => none
  | (k, v) :: rest => if k = key then some v else lookup key rest

/-- Entries with `key` set to `value`: in its place if it has one, at the end if not. -/
def put (key value : String) : List (String × String) → List (String × String)
  | [] => [(key, value)]
  | (k, v) :: rest => if k = key then (k, value) :: rest else (k, v) :: put key value rest

/-- The value of a key. -/
def find? (m : Metadata) (key : String) : Option String := lookup key m.entries

/-- The key has a value. -/
def contains (m : Metadata) (key : String) : Bool := (m.find? key).isSome

/-- The meta data with `key` set to `value`. -/
def insert (m : Metadata) (key value : String) : Metadata := ⟨put key value m.entries⟩

/-- The value that `key` had among entries, and the entries as `put` makes them, in one walk. -/
def swap (key value : String) : List (String × String) → Option String × List (String × String)
  | [] => (none, [(key, value)])
  | (k, v) :: rest =>
    if k = key then (some v, (k, value) :: rest)
    else match swap key value rest with
      | (old, rest) => (old, (k, v) :: rest)

/-- An insertion that hands out the value it replaces. -/
def exchange (m : Metadata) (key value : String) : Option String × Metadata :=
  match swap key value m.entries with
  | (old, entries) => (old, ⟨entries⟩)

/-- Entries inserted one after the other. -/
def ofList (entries : List (String × String)) : Metadata :=
  entries.foldl (fun m e => m.insert e.1 e.2) empty

/-- The value of a key as an integer. -/
def integer (m : Metadata) (key : String) : Except MetadataError Int :=
  match m.find? key with
  | none => .error (.missing key)
  | some value =>
    match Integer.read? value.toList with
    | some v => .ok v
    | none => .error (.notAnInteger key value)

/-- The meta data as it is written in a description. -/
def text (m : Metadata) : String :=
  "[" ++ String.intercalate ", " (m.entries.map fun e => e.1 ++ " '" ++ e.2 ++ "'") ++ "]"

/-! ## What an insertion changes -/

/-- What a key finds among entries behind a `put`, entry by entry. -/
theorem lookup_put (key value other : String) (entries : List (String × String)) :
    lookup other (put key value entries) = if other = key then some value else lookup other entries := by
  induction entries with
  | nil => grind [put, lookup]
  | cons e rest ih => grind [put, lookup]

/-- The keys among entries behind a `put`.  A key that is there already is met before the end is, and the walk
stops at it. -/
theorem keys_put (key value : String) (entries : List (String × String)) :
    (put key value entries).map (·.1) =
      if key ∈ entries.map (·.1) then entries.map (·.1) else entries.map (·.1) ++ [key] := by
  induction entries with
  | nil => rfl
  | cons e rest ih =>
    obtain ⟨k, v⟩ := e
    by_cases hk : k = key
    · simp [put, hk]
    · have : key ≠ k := fun h => hk h.symm
      simp only [put, hk, if_false, List.map_cons, ih, List.mem_cons, this, false_or]
      split <;> simp

/-- The one walk of `swap` finds what `lookup` finds and makes what `put` makes. -/
theorem swap_eq (key value : String) (entries : List (String × String)) :
    swap key value entries = (lookup key entries, put key value entries) := by
  induction entries with
  | nil => rfl
  | cons e rest ih =>
    obtain ⟨k, v⟩ := e
    rw [swap, lookup, put, ih]
    split <;> rfl

/-- Entries of other keys keep their values and their places, and there are no others. -/
theorem getElem?_put_of_ne {key other : String} (h : other ≠ key) (value w : String)
    (entries : List (String × String)) (i : Nat) :
    (put key value entries)[i]? = some (other, w) ↔ entries[i]? = some (other, w) := by
  induction entries generalizing i with
  | nil => cases i <;> simp [put, Ne.symm h]
  | cons e rest ih =>
    obtain ⟨k, v⟩ := e
    rw [put]
    split
    · next hk =>
      subst hk
      cases i <;> simp [Ne.symm h]
    · cases i with
      | zero => rfl
      | succ i => exact ih i

/-- What is handed out is what the key finds. -/
theorem exchange_eq (m : Metadata) (key value : String) :
    m.exchange key value = (m.find? key, m.insert key value) := by
  rw [exchange, swap_eq]
  rfl

/-- After an insertion its key has the new value, and every other key what it had. -/
theorem find?_insert (m : Metadata) (key value other : String) :
    (m.insert key value).find? other = if other = key then some value else m.find? other :=
  lookup_put key value other m.entries

/-- A new key comes last, a known one keeps its place. -/
theorem keys_insert (m : Metadata) (key value : String) :
    (m.insert key value).keys = if key ∈ m.keys then m.keys else m.keys ++ [key] :=
  keys_put key value m.entries

/-- One more entry is one more insertion. -/
theorem ofList_concat (entries : List (String × String)) (key value : String) :
    ofList (entries ++ [(key, value)]) = (ofList entries).insert key value := by
  simp [ofList]

end Metadata

end EntitySchema
