import EntitySchema.Protocol
/-!
  A protocol under construction.

  A draft takes declarations one by one.  It refuses one whose kind is full, and one whose name its kind
  already has; the first of these is looked at first.  A refused declaration changes nothing.

  The field `indexed` says that the names of a draft stand where its protocol has them.  Whatever makes a
  draft shows it, so it is there for every draft: `d.has k name`, which asks the index, says whether `name ∈
  d.protocol.names k` (`has_iff`), and no lemma on drafts has to assume it.
-/

namespace EntitySchema

/-- A protocol under construction. -/
structure Draft where
  protocol : Protocol
  indexed : protocol.Indexed

namespace Draft

/-- A draft that says nothing. -/
def empty : Draft := ⟨Protocol.empty, Protocol.indexed_empty⟩

/-- The draft under another namespace. -/
def setNamespace (d : Draft) (path : String) : Draft where
  protocol := { d.protocol with namespacePath := path }
  indexed := d.indexed.congr (fun k => by cases k <;> rfl) rfl

/-- The draft under another name. -/
def setName (d : Draft) (name : String) : Draft where
  protocol := { d.protocol with name }
  indexed := d.indexed.congr (fun k => by cases k <;> rfl) rfl

/-- A declaration of the kind has the name. -/
def has (d : Draft) (k : Kind) (name : String) : Bool := d.protocol.contains k name

/-- A name that its kind does not have yet. -/
def checkUnique (d : Draft) (k : Kind) (name : String) : Except DefinitionError Unit :=
  if d.has k name then .error (.duplicateName k name) else .ok ()

/-- The index of the next declaration of a kind. -/
def nextIndex (d : Draft) (k : Kind) : Except DefinitionError Nat :=
  match k.capacity? with
  | some capacity =>
    if d.protocol.count k < capacity then .ok (d.protocol.count k) else .error (.tooMany k capacity)
  | none => .ok (d.protocol.count k)

/-- The index under which the draft would take a declaration. -/
def admit? (d : Draft) (k : Kind) (name : String) : Except DefinitionError Nat :=
  match d.nextIndex k with
  | .error e => .error e
  | .ok index =>
    match d.checkUnique k name with
    | .error e => .error e
    | .ok _ => .ok index

/-- One more declaration, whatever its name. -/
def push (d : Draft) (x : Declaration) : Draft := ⟨d.protocol.add x, d.indexed.add x⟩

/-- One more declaration, if the draft takes it; and the index it got, or why it was refused. -/
def add (d : Draft) (x : Declaration) : Except DefinitionError Nat × Draft :=
  match d.admit? x.kind x.name with
  | .ok index => (.ok index, d.push x)
  | .error e => (.error e, d)

/-- The finished protocol, with the hash of what its description says. -/
def finish (d : Draft) (hash : UInt32) : Protocol := { d.protocol with hash }

/-! ## What a draft refuses -/

/-- A draft has exactly the names of its protocol. -/
theorem has_iff (d : Draft) (k : Kind) (name : String) :
    d.has k name ↔ name ∈ d.protocol.names k :=
  Protocol.contains_iff d.indexed

/-- A name passes exactly if no declaration of the kind has it. -/
theorem checkUnique_eq_ok_iff (d : Draft) (k : Kind) (name : String) :
    d.checkUnique k name = .ok () ↔ name ∉ d.protocol.names k := by
  rw [← d.has_iff]
  unfold checkUnique
  split <;> simp_all

/-- The hash has no part in the index of names. -/
theorem indexed_finish (d : Draft) (hash : UInt32) : (d.finish hash).Indexed :=
  d.indexed.congr (fun k => by cases k <;> rfl) rfl

/-- Nor in the declarations. -/
theorem declarations_finish (d : Draft) (hash : UInt32) (k : Kind) :
    (d.finish hash).declarations k = d.protocol.declarations k := by
  cases k <;> rfl

/-- A refused declaration changes nothing. -/
theorem add_of_error {d d' : Draft} {x : Declaration} {e : DefinitionError}
    (h : d.add x = (.error e, d')) : d' = d := by
  unfold add at h
  split at h <;> simp_all

/-- What the draft takes is added to its protocol and to nothing else. -/
theorem protocol_add_of_ok {d d' : Draft} {x : Declaration} {index : Nat}
    (h : d.add x = (.ok index, d')) : d'.protocol = d.protocol.add x := by
  unfold add at h
  split at h
  · simp only [Prod.mk.injEq] at h
    rw [← h.2]
    rfl
  · simp at h

end Draft

end EntitySchema
