import EntitySchema.Path
/-!
  Files in memory.

  A `Directory` is a list of files, each at its `Place`: the names that lead to it from the directory.  A
  folder is there as soon as a file is in it.  Above the directory there are folders, of which nothing
  else is known.

  A path is walked from folder to folder.  One dot stays in a folder and two dots lead to the folder
  above.  What the path ends at is then read or replaced: a file, which must not be followed by a slash,
  at the end of a way of folders that are all there.

  `file?_put` says what every place holds after a file was replaced, and `read_write` that what was written
  under a path is what is read under it.
-/

namespace EntitySchema

/-- The names from the directory to a file or a folder.  The folders above the directory are the places
made of two dots only, and the root of the system is the place with a slash for its only name. -/
abbrev Place := List String

namespace Place

/-- The directory itself. -/
def here : Place := []

/-- The root of the system. -/
def root : Place := ["/"]

/-- The folder that a place lies in.  The root lies in itself. -/
def above (place : Place) : Place :=
  if place = root then root
  else if place.all (· == "..") then place ++ [".."]
  else place.dropLast

/-- Where a name leads to from a place. -/
def step (place : Place) (name : String) : Place :=
  if name = "." then place
  else if name = ".." then place.above
  else place ++ [name]

/-- The place is the directory, or a folder that it lies in. -/
def isAncestor (place : Place) : Bool := place == root || place.all (· == "..")

/-- The place is in the directory. -/
def isInside (place : Place) : Bool := place.head? != some ".." && place.head? != some "/"

end Place

/-- Files by their places. -/
structure Directory where
  files : List (Place × ByteArray)

namespace Directory

/-- A directory with the given files. -/
def ofList (files : List (String × ByteArray)) : Directory :=
  ⟨files.map fun file => (Path.namesOf file.1.toList, file.2)⟩

/-- The files in the directory, with their paths. -/
def toList (d : Directory) : List (String × ByteArray) :=
  (d.files.filter (·.1.isInside)).map fun file => (String.intercalate "/" file.1, file.2)

/-- The bytes of the file at a place. -/
def file? (d : Directory) (place : Place) : Option ByteArray :=
  (d.files.find? fun file => file.1 == place).map (·.2)

/-- A file lies below a place. -/
def holdsFile (d : Directory) (place : Place) : Bool :=
  d.files.any fun file => file.1 != place && place.isPrefixOf file.1

/-- The place is a folder. -/
def isFolder (d : Directory) (place : Place) : Bool := place.isAncestor || d.holdsFile place

/-! ## Walking along a path -/

/-- The folder that a name leads to. -/
def enter (d : Directory) (place : Place) (name : String) : Except FileError Place :=
  if Path.isTooLong name then .error .nameTooLong
  else
    let place := place.step name
    if d.isFolder place then .ok place
    else if (d.file? place).isSome then .error .notDirectory
    else .error .notFound

/-- The folder at the end of a way of folders. -/
def walk (d : Directory) (place : Place) : List String → Except FileError Place
  | [] => .ok place
  | name :: rest =>
    match d.enter place name with
    | .error e => .error e
    | .ok place => d.walk place rest

/-- The place that a path ends at, if its way there is one of folders. -/
def locate (d : Directory) (p : Path) : Except FileError Place :=
  match d.walk (if p.fromRoot then Place.root else Place.here) p.folders with
  | .error e => .error e
  | .ok folder =>
    match p.last? with
    | none => .ok folder
    | some name => .ok (folder.step name)

/-- The name at the end of a path is longer than a folder can hold. -/
def lastTooLong (p : Path) : Bool := p.last?.any Path.isTooLong

/-! ## Reading and writing -/

/-- The bytes of the file that a path leads to. -/
def readAt (d : Directory) (p : Path) : Except FileError ByteArray :=
  match d.locate p with
  | .error e => .error e
  | .ok place =>
    if d.isFolder place then .error .isDirectory
    else if lastTooLong p then .error .nameTooLong
    else
      match d.file? place with
      | none => .error .notFound
      | some bytes => if p.toFolder then .error .notDirectory else .ok bytes

/-- Files with new bytes for the one at `place`, which comes last if it is new. -/
def put (place : Place) (bytes : ByteArray) : List (Place × ByteArray) → List (Place × ByteArray)
  | [] => [(place, bytes)]
  | file :: rest =>
    if file.1 = place then (place, bytes) :: rest else file :: put place bytes rest

/-- The directory with new bytes for the file that a path leads to. -/
def writeAt (d : Directory) (p : Path) (bytes : ByteArray) : Except FileError Directory :=
  match d.locate p with
  | .error e => .error e
  | .ok place =>
    -- No file is made for a path that says it leads to a folder.
    if d.isFolder place || p.toFolder then .error .isDirectory
    else if lastTooLong p then .error .nameTooLong
    else .ok ⟨put place bytes d.files⟩

/-- The bytes of a file. -/
def read (d : Directory) (path : String) : Except FileError ByteArray :=
  match Path.ofString path with
  | .error e => .error e
  | .ok p => d.readAt p

/-- The directory with new bytes for a file. -/
def write (d : Directory) (path : String) (bytes : ByteArray) : Except FileError Directory :=
  match Path.ofString path with
  | .error e => .error e
  | .ok p => d.writeAt p bytes

/-- Files in memory are read and replaced at once. -/
instance : FileStore (StateM Directory) where
  read path := do return (← get).read path
  write path bytes := do
    match (← get).write path bytes with
    | .ok d =>
      set d
      return .ok ()
    | .error e => return .error e

/-! ## What a file holds after it was written -/

/-- A file that was written is read back. -/
theorem file?_put (d : Directory) (place : Place) (bytes : ByteArray) (other : Place) :
    (⟨put place bytes d.files⟩ : Directory).file? other =
      if other = place then some bytes else d.file? other := by
  obtain ⟨files⟩ := d
  simp only [file?]
  induction files with
  | nil => grind [put]
  | cons file rest ih => grind [put]

/-- A new file makes folders of the places on the way to it, and of no other place. -/
theorem holdsFile_put (d : Directory) (place : Place) (bytes : ByteArray) (other : Place) :
    (⟨put place bytes d.files⟩ : Directory).holdsFile other =
      (d.holdsFile other || (place != other && other.isPrefixOf place)) := by
  obtain ⟨files⟩ := d
  simp only [holdsFile]
  induction files with
  | nil => simp [put]
  | cons file rest ih =>
    by_cases h : file.1 = place
    · subst h
      simp only [put, if_true, List.any_cons]
      cases (file.1 != other && other.isPrefixOf file.1) <;> simp
    · simp only [put, if_neg h, List.any_cons, ih, Bool.or_assoc]

/-- A folder stays a folder when a file is written anywhere. -/
theorem isFolder_put_of_isFolder {d : Directory} {other : Place} (h : d.isFolder other)
    (place : Place) (bytes : ByteArray) :
    (⟨put place bytes d.files⟩ : Directory).isFolder other := by
  simp only [isFolder, Bool.or_eq_true] at h ⊢
  exact h.imp id fun h => by simp [holdsFile_put, h]

/-- A file does not become a folder when it is replaced. -/
theorem isFolder_put_self (d : Directory) (place : Place) (bytes : ByteArray) :
    (⟨put place bytes d.files⟩ : Directory).isFolder place = d.isFolder place := by
  simp [isFolder, holdsFile_put]

/-- A folder can be entered as before. -/
theorem enter_put {d : Directory} {folder there : Place} {name : String}
    (h : d.enter folder name = .ok there) (place : Place) (bytes : ByteArray) :
    (⟨put place bytes d.files⟩ : Directory).enter folder name = .ok there := by
  unfold enter at h ⊢
  split at h
  · simp at h
  · next short =>
    simp only at h
    split at h
    · next hf =>
      rw [if_neg short, if_pos (isFolder_put_of_isFolder hf place bytes)]
      exact h
    · split at h <;> simp at h

theorem walk_put {d : Directory} {names : List String} {folder there : Place}
    (h : d.walk folder names = .ok there) (place : Place) (bytes : ByteArray) :
    (⟨put place bytes d.files⟩ : Directory).walk folder names = .ok there := by
  induction names generalizing folder with
  | nil => exact h
  | cons name rest ih =>
    rw [walk] at h ⊢
    split at h
    · simp at h
    · next next hn =>
      rw [enter_put hn place bytes]
      exact ih h

/-- A way that is there stays there when a file is replaced. -/
theorem locate_put {d : Directory} {p : Path} {there : Place} (h : d.locate p = .ok there)
    (place : Place) (bytes : ByteArray) :
    (⟨put place bytes d.files⟩ : Directory).locate p = .ok there := by
  unfold locate at h ⊢
  split at h
  · simp at h
  · next folder hw =>
    rw [walk_put hw place bytes]
    exact h

/-- What was written is what is read. -/
theorem read_write {d d' : Directory} {path : String} {bytes : ByteArray}
    (h : d.write path bytes = .ok d') : d'.read path = .ok bytes := by
  unfold write at h
  unfold read
  split at h
  · simp at h
  · next p _ =>
    unfold writeAt at h
    unfold readAt
    split at h
    · simp at h
    -- The file is put at the place that the path leads to, and it leads there still.
    · next place hl =>
      split at h
      · simp at h
      · next free =>
        simp only [Bool.or_eq_true, not_or, Bool.not_eq_true] at free
        split at h
        · simp at h
        · next short =>
          simp only [Except.ok.injEq] at h
          subst h
          simp only [locate_put hl place bytes, isFolder_put_self, free.1, short, file?_put, if_true,
            free.2, Bool.false_eq_true, if_false]

end Directory

end EntitySchema
