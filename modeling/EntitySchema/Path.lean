import EntitySchema.FileStore
/-!
  Paths, taken apart into names.

  A path is read from left to right.  Slashes stand between its names, any number of them; one in front
  makes it start at the root of the system, one at the end says that it leads to a folder.
-/

namespace EntitySchema

/-- A path by its parts. -/
structure Path where
  /-- It starts at the root of the system. -/
  fromRoot : Bool
  /-- The names on it; none is empty. -/
  names : List String
  /-- It ends in a slash. -/
  toFolder : Bool
deriving DecidableEq, Repr

namespace Path

/-- What stands before the first slash, and then behind every slash up to the next. -/
def pieces : List Char → List Char × List (List Char)
  | [] => ([], [])
  | c :: cs =>
    let (piece, later) := pieces cs
    if c = '/' then ([], piece :: later) else (c :: piece, later)

/-- The names between slashes. -/
def namesOf (cs : List Char) : List String :=
  let (piece, later) := pieces cs
  ((piece :: later).filter (!·.isEmpty)).map String.ofList

/-- A path by its characters. -/
def ofChars (cs : List Char) : Path := ⟨cs.head? = some '/', namesOf cs, cs.getLast? = some '/'⟩

/-- The longest name that a folder can hold, in bytes. -/
def longestName : Nat := 255

/-- The longest path that the system takes, in bytes. -/
def longestPath : Nat := 4095

/-- A path that the system takes. -/
def ofString (path : String) : Except FileError Path :=
  if path.toList.contains '\x00' then .error .nulInPath
  else if path.isEmpty then .error .notFound
  else if longestPath < path.utf8ByteSize then .error .nameTooLong
  else .ok (ofChars path.toList)

/-- The name is longer than a folder can hold. -/
def isTooLong (name : String) : Bool := decide (longestName < name.utf8ByteSize)

/-- The names of the folders on the way. -/
def folders (p : Path) : List String := p.names.dropLast

/-- The name at the end; a path of slashes only has none. -/
def last? (p : Path) : Option String := p.names.getLast?

example : ofChars "/a//b/".toList = ⟨true, ["a", "b"], true⟩ := by decide +kernel
example : ofChars "./a".toList = ⟨false, [".", "a"], false⟩ := by decide +kernel
example : ofChars "/".toList = ⟨true, [], true⟩ := by decide +kernel

end Path

end EntitySchema
