import EntitySchema.Proofs.Parser.WellFormed
/-!
  A draft after any calls.

  Whoever writes a protocol calls on a draft: for a namespace or a name, for a look at a name or at the next
  index, for one more declaration.  A call may be refused, and the calls after it are made all the same.  So a
  history is a list `calls` of `Call`, and the draft that comes of it is the fold `ofCalls calls`.

  1. **The invariant.**  `Sound d` has three parts: indices are places (`numbered`), no name is in a kind
     twice (`names_nodup`), and no kind has more declarations than it can hold (`count_le`).

  2. **One call.**  In a sound draft there are three cases for one more declaration `x`, and each says both
     the answer and the next draft (`Sound.add_cases`):

      the kind is full             (tooMany, d)
      else the name is known       (duplicateName, d)
      else                         (ok (count of the kind), d.push x)

  The draft is sound afterwards in all three (`Sound.after`).

  3. **Any calls.**  By induction on the calls (`sound_ofCalls`).

  Everything else is read off the cases: when a declaration is refused and why (`add_eq_tooMany_iff`,
  `add_eq_duplicateName_iff`), and what one that is taken changes and leaves alone (`Takes`).

  Main statement: `ofCalls_sound_and_add_exact`.
-/

namespace EntitySchema

namespace Declaration

/-- A declaration under another index has the same name. -/
theorem name_withIndex (index : Nat) (x : Declaration) : (x.withIndex index).name = x.name := by
  cases x <;> rfl

end Declaration

namespace Protocol

/-- The hash belongs to the description and not to its declarations. -/
theorem hash_add (p : Protocol) (x : Declaration) : (p.add x).hash = p.hash := by
  cases x <;> rfl

/-- One more declaration of a kind, and as many of the others. -/
theorem count_add (p : Protocol) (x : Declaration) (k : Kind) :
    (p.add x).count k = if k = x.kind then p.count k + 1 else p.count k := by
  rw [← length_names, ← length_names, names_add]
  split <;> simp

/-- One more declaration is the last of its kind, and other kinds stay as they are. -/
theorem declarations_add_eq_push (p : Protocol) (x : Declaration) (k : Kind) :
    (p.add x).declarations k = if k = x.kind then
      (p.declarations k).push (x.withIndex (p.count x.kind)) else p.declarations k := by
  apply Array.toList_inj.1
  rw [declarations_add]
  by_cases hk : k = x.kind
  · simp [hk]
  · simp [hk, Ne.symm hk]

end Protocol

namespace Draft

/-! ## Calls -/

/-- A call on a draft. -/
inductive Call where
  | setNamespace (path : String)
  | setName (name : String)
  | checkUnique (k : Kind) (name : String)
  | nextIndex (k : Kind)
  | add (x : Declaration)

/-- The draft after a call, whatever was answered. -/
def after (d : Draft) : Call → Draft
  | .setNamespace path => d.setNamespace path
  | .setName name => d.setName name
  | .checkUnique _ _ | .nextIndex _ => d
  | .add x => (d.add x).2

/-- The draft after calls in a row. -/
def ofCalls (calls : List Call) : Draft := calls.foldl after empty

/-- The kind is known by an index, and every index is in use. -/
def Full (d : Draft) (k : Kind) : Prop :=
  match k with
  | .component | .archetype | .command => d.protocol.count k = 256
  | .event => d.protocol.count k = 65536
  | .type | .enumeration | .buffer => False

/-- A kind is full if it has as many declarations as its capacity says.  Kinds without an index are never
full. -/
theorem full_iff {d : Draft} {k : Kind} : d.Full k ↔ k.capacity? = some (d.protocol.count k) := by
  cases k <;> simp [Full, Kind.capacity?, eq_comm]

/-- A kind that is full has no next index. -/
theorem nextIndex_of_full {d : Draft} {k : Kind} (h : d.Full k) :
    d.nextIndex k = .error (.tooMany k (d.protocol.count k)) := by
  simp [nextIndex, full_iff.1 h]

/-! ## Sound drafts -/

/-- Declarations are numbered, named apart, and no more than a kind can hold. -/
structure Sound (d : Draft) : Prop where
  numbered : d.protocol.Numbered
  names_nodup : ∀ k, (d.protocol.names k).Nodup
  count_le : ∀ k capacity, k.capacity? = some capacity → d.protocol.count k ≤ capacity

/-- A draft that says nothing is sound. -/
theorem sound_empty : empty.Sound where
  numbered := Protocol.numbered_empty
  names_nodup k := by cases k <;> simp [empty, Protocol.empty, Protocol.names, Protocol.declarations]
  count_le k _ _ := by cases k <;> exact Nat.zero_le _

namespace Sound

variable {d : Draft} {x : Declaration} {k : Kind} {name : String}

/-- What is found by a name in a sound draft is what has the name: names are unique, so there is no second one
that could be meant. -/
theorem find?_iff (h : d.Sound) : d.protocol.find? k name = some x ↔
    x ∈ d.protocol.declarations k ∧ x.name = name :=
  Protocol.find?_eq_some_iff d.indexed (h.names_nodup k)

/-! ## One more declaration -/

/-- The next index of a kind that is not full is the number of its declarations.  The draft tests for `<`;
since the count is never above the capacity, that is `≠`. -/
theorem nextIndex_of_not_full (h : d.Sound) (hfull : ¬ d.Full k) :
    d.nextIndex k = .ok (d.protocol.count k) := by
  rw [full_iff] at hfull
  unfold nextIndex
  cases hk : k.capacity? with
  | none => rfl
  | some capacity =>
    have hle : d.protocol.count k ≤ capacity := h.count_le k capacity hk
    have hne : capacity ≠ d.protocol.count k := fun heq => hfull (by rw [hk, heq])
    exact if_pos (by omega)

/-- One more declaration: its kind is full, or else its name is known, or else it is taken. -/
theorem add_cases (h : d.Sound) (x : Declaration) :
    (d.Full x.kind ∧
      d.add x = (.error (.tooMany x.kind (d.protocol.count x.kind)), d)) ∨
    (¬ d.Full x.kind ∧ x.name ∈ d.protocol.names x.kind ∧
      d.add x = (.error (.duplicateName x.kind x.name), d)) ∨
    (¬ d.Full x.kind ∧ x.name ∉ d.protocol.names x.kind ∧
      d.add x = (.ok (d.protocol.count x.kind), d.push x)) := by
  by_cases hfull : d.Full x.kind
  · exact .inl ⟨hfull, by simp [add, admit?, nextIndex_of_full hfull]⟩
  · have hindex : d.nextIndex x.kind = .ok (d.protocol.count x.kind) := h.nextIndex_of_not_full hfull
    have hhas : d.has x.kind x.name ↔ x.name ∈ d.protocol.names x.kind := d.has_iff x.kind x.name
    by_cases hknown : x.name ∈ d.protocol.names x.kind
    · exact .inr (.inl ⟨hfull, hknown, by simp [add, admit?, hindex, checkUnique, hhas.2 hknown]⟩)
    · exact .inr (.inr ⟨hfull, hknown, by
        simp [add, admit?, hindex, (d.checkUnique_eq_ok_iff x.kind x.name).2 hknown]⟩)

/-- A declaration keeps a draft sound if its kind is not full and its name is new. -/
theorem push (h : d.Sound) (hfull : ¬ d.Full x.kind) (hnew : x.name ∉ d.protocol.names x.kind) :
    (d.push x).Sound where
  numbered := h.numbered.add x
  names_nodup k := by
    rw [Draft.push, Protocol.names_add]
    split
    · next hk =>
      subst hk
      rw [← List.concat_eq_append]
      exact (h.names_nodup x.kind).concat hnew
    · exact h.names_nodup k
  count_le k capacity hk := by
    have hle : d.protocol.count k ≤ capacity := h.count_le k capacity hk
    rw [Draft.push, Protocol.count_add]
    split
    -- The bound is not reached yet: a kind at its bound is full.
    · next heq =>
      have hne : d.protocol.count k ≠ capacity := fun hcount =>
        hfull (full_iff.2 (by rw [← heq, hk, hcount]))
      omega
    · exact hle

/-- Only the declarations matter. -/
theorem congr {d' : Draft} (h : d.Sound) (hnames : ∀ k, d'.protocol.names k = d.protocol.names k)
    (hnumbered : d'.protocol.Numbered) : d'.Sound where
  numbered := hnumbered
  names_nodup k := hnames k ▸ h.names_nodup k
  count_le k capacity hk := by
    rw [← Protocol.length_names, hnames, Protocol.length_names]
    exact h.count_le k capacity hk

/-- A namespace is no declaration. -/
theorem setNamespace (h : d.Sound) (path : String) : (d.setNamespace path).Sound :=
  h.congr (fun k => by cases k <;> rfl)
    ⟨h.numbered.components, h.numbered.archetypes, h.numbered.events, h.numbered.commands⟩

/-- Nor is the name of the protocol. -/
theorem setName (h : d.Sound) (name : String) : (d.setName name).Sound :=
  h.congr (fun k => by cases k <;> rfl)
    ⟨h.numbered.components, h.numbered.archetypes, h.numbered.events, h.numbered.commands⟩

/-- A declaration is refused for its index exactly if its kind is full. -/
theorem add_eq_tooMany_iff (h : d.Sound) {capacity : Nat} :
    (d.add x).1 = .error (.tooMany k capacity) ↔
      k = x.kind ∧ d.Full k ∧ capacity = d.protocol.count k := by
  -- The three answers exclude each other, so each condition is that of one of them.
  rcases h.add_cases x with ⟨hfull, heq⟩ | ⟨hfull, -, heq⟩ | ⟨hfull, -, heq⟩
  · rw [heq]
    constructor
    · intro herror
      cases herror
      exact ⟨rfl, hfull, rfl⟩
    · rintro ⟨rfl, -, rfl⟩
      rfl
  · rw [heq]
    refine ⟨nofun, ?_⟩
    rintro ⟨rfl, hcontra, -⟩
    exact absurd hcontra hfull
  · rw [heq]
    refine ⟨nofun, ?_⟩
    rintro ⟨rfl, hcontra, -⟩
    exact absurd hcontra hfull

/-- A declaration is refused for its name exactly if its kind is not full and has the name. -/
theorem add_eq_duplicateName_iff (h : d.Sound) :
    (d.add x).1 = .error (.duplicateName k name) ↔
      k = x.kind ∧ name = x.name ∧ ¬ d.Full k ∧
        ∃ y ∈ d.protocol.declarations k, y.name = name := by
  rw [← Protocol.contains_iff_exists d.indexed, Protocol.contains_iff d.indexed]
  rcases h.add_cases x with ⟨hfull, heq⟩ | ⟨hfull, hknown, heq⟩ | ⟨-, hnew, heq⟩
  · rw [heq]
    refine ⟨nofun, ?_⟩
    rintro ⟨rfl, -, hcontra, -⟩
    exact absurd hfull hcontra
  · rw [heq]
    constructor
    · intro herror
      cases herror
      exact ⟨rfl, rfl, hfull, hknown⟩
    · rintro ⟨rfl, rfl, -, -⟩
      rfl
  · rw [heq]
    refine ⟨nofun, ?_⟩
    rintro ⟨rfl, rfl, -, hcontra⟩
    exact absurd hcontra hnew

/-! ## Any calls -/

/-- A call keeps a draft sound, refused or not. -/
theorem after (h : d.Sound) (call : Call) : (d.after call).Sound := by
  cases call with
  | setNamespace path => exact h.setNamespace path
  | setName name => exact h.setName name
  | checkUnique | nextIndex => exact h
  | add x =>
    rw [Draft.after]
    rcases h.add_cases x with ⟨-, hadd⟩ | ⟨-, -, hadd⟩ | ⟨hfull, hnew, hadd⟩
    · exact hadd ▸ h
    · exact hadd ▸ h
    · exact hadd ▸ h.push hfull hnew

/-- Calls in a row keep a draft sound. -/
theorem foldl_after (h : d.Sound) (calls : List Call) : (calls.foldl Draft.after d).Sound := by
  induction calls generalizing d with
  | nil => exact h
  | cons call calls ih => exact ih (h.after call)

end Sound

/-- Whatever was called, the draft is sound. -/
theorem sound_ofCalls (calls : List Call) : (ofCalls calls).Sound := sound_empty.foldl_after calls

/-! ## What a declaration that is taken changes -/

/-- The draft `d'` is `d` with the declaration `x` under an index, and is `d` in everything else. -/
structure Takes (d : Draft) (x : Declaration) (index : Nat) (d' : Draft) : Prop where
  index_eq : index = d.protocol.count x.kind
  declarations : ∀ k, d'.protocol.declarations k = if k = x.kind then
    (d.protocol.declarations k).push (x.withIndex index) else d.protocol.declarations k
  namespacePath : d'.protocol.namespacePath = d.protocol.namespacePath
  name : d'.protocol.name = d.protocol.name
  hash : d'.protocol.hash = d.protocol.hash
  find?_new : d'.protocol.find? x.kind x.name = some (x.withIndex index)
  contains_other : ∀ k name, (k, name) ≠ (x.kind, x.name) →
    d'.protocol.contains k name = d.protocol.contains k name
  find?_other : ∀ k name, (k, name) ≠ (x.kind, x.name) →
    d'.protocol.find? k name = d.protocol.find? k name

/-- What a push appends has no name but its own. -/
theorem mem_declarations_push {d : Draft} {x y : Declaration} {k : Kind} {name : String}
    (hother : (k, name) ≠ (x.kind, x.name)) :
    (y ∈ (d.push x).protocol.declarations k ∧ y.name = name) ↔
      y ∈ d.protocol.declarations k ∧ y.name = name := by
  rw [push, Protocol.declarations_add_eq_push]
  split
  · next hk =>
    rw [Array.mem_push]
    refine ⟨?_, fun h => ⟨.inl h.1, h.2⟩⟩
    rintro ⟨hy | rfl, hname⟩
    · exact ⟨hy, hname⟩
    · rw [Declaration.name_withIndex] at hname
      exact absurd (by rw [hk, hname]) hother
  · exact Iff.rfl

/-- A declaration that is pushed onto a sound draft is taken, if the draft is sound with it. -/
theorem Sound.takes_push {d : Draft} {x : Declaration} (h : d.Sound) (hnext : (d.push x).Sound) :
    d.Takes x (d.protocol.count x.kind) (d.push x) where
  index_eq := rfl
  declarations := d.protocol.declarations_add_eq_push x
  namespacePath := d.protocol.namespacePath_add x
  name := d.protocol.name_add x
  hash := d.protocol.hash_add x
  find?_new := by
    rw [hnext.find?_iff]
    refine ⟨?_, x.name_withIndex _⟩
    rw [Draft.push, Protocol.declarations_add_eq_push, if_pos rfl]
    exact Array.mem_push_self
  contains_other k name hother := by
    rw [Bool.eq_iff_iff, Protocol.contains_iff_exists (d.push x).indexed,
      Protocol.contains_iff_exists d.indexed]
    exact exists_congr fun y => mem_declarations_push hother
  find?_other k name hother := by
    -- Both drafts are sound, so what they find is a matter of their declarations.
    refine Option.ext fun y => ?_
    rw [hnext.find?_iff, h.find?_iff]
    exact mem_declarations_push hother

/-- A declaration that gets an index is taken under it: of the three cases only one answers with an index. -/
theorem Sound.takes_of_add {d : Draft} {x : Declaration} {index : Nat} (h : d.Sound)
    (hadd : (d.add x).1 = .ok index) : d.Takes x index (d.add x).2 := by
  rcases h.add_cases x with ⟨-, heq⟩ | ⟨-, -, heq⟩ | ⟨hfull, hnew, heq⟩
  · rw [heq] at hadd
    cases hadd
  · rw [heq] at hadd
    cases hadd
  · rw [heq] at hadd ⊢
    cases hadd
    exact h.takes_push (h.push hfull hnew)

/-- After any `calls` on a draft the indices are places, names are unique in their kinds, and lookups answer
from the declarations that are there: `contains k name` says whether there is an `x` of the kind `k` with that
name, and `find? k name` finds just that `x`.  One more declaration `x` is refused for its index exactly if
its kind is full, otherwise for its name exactly if the kind has it, and then the draft stays as it is; else
it is taken, and nothing but its own entry is new. -/
theorem ofCalls_sound_and_add_exact (calls : List Call) :
    (ofCalls calls).protocol.Numbered ∧
    (∀ k, ((ofCalls calls).protocol.names k).Nodup) ∧
    (∀ k name, (ofCalls calls).protocol.contains k name ↔
      ∃ x ∈ (ofCalls calls).protocol.declarations k, x.name = name) ∧
    (∀ k name x, (ofCalls calls).protocol.find? k name = some x ↔
      x ∈ (ofCalls calls).protocol.declarations k ∧ x.name = name) ∧
    ∀ x,
      (∀ k capacity, ((ofCalls calls).add x).1 = .error (.tooMany k capacity) ↔
        k = x.kind ∧ (ofCalls calls).Full k ∧ capacity = (ofCalls calls).protocol.count k) ∧
      (∀ k name, ((ofCalls calls).add x).1 = .error (.duplicateName k name) ↔
        k = x.kind ∧ name = x.name ∧ ¬ (ofCalls calls).Full k ∧
          ∃ y ∈ (ofCalls calls).protocol.declarations k, y.name = name) ∧
      (∀ e, ((ofCalls calls).add x).1 = .error e → ((ofCalls calls).add x).2 = ofCalls calls) ∧
      ∀ index, ((ofCalls calls).add x).1 = .ok index →
        (ofCalls calls).Takes x index ((ofCalls calls).add x).2 := by
  have h : (ofCalls calls).Sound := sound_ofCalls calls
  exact ⟨h.numbered, h.names_nodup, fun _ _ => Protocol.contains_iff_exists (ofCalls calls).indexed,
    fun _ _ _ => h.find?_iff, fun x =>
    ⟨fun _ _ => h.add_eq_tooMany_iff, fun _ _ => h.add_eq_duplicateName_iff,
      fun _ he => add_of_error (Prod.ext he rfl), fun _ hok => h.takes_of_add hok⟩⟩

/-- A component whose index is stale, a second one with its name, and an event with the same name. -/
theorem ofCalls_sound_and_add_exact_stale :
    let shield : Declaration := .component ⟨7, "Shield", [], ⟨[]⟩⟩
    let calls := [.add shield, .add shield, .setName "Fleet", .add (.event (.named 3 "Shield" [] .empty))]
    ((ofCalls calls).add shield).1 = .error (.duplicateName .component "Shield") ∧
      ((ofCalls calls).add shield).2 = ofCalls calls ∧
      (ofCalls calls).Takes (.component ⟨0, "Hull", [], ⟨[]⟩⟩) 1
        ((ofCalls calls).add (.component ⟨0, "Hull", [], ⟨[]⟩⟩)).2 := by
  intro shield calls
  obtain ⟨-, -, -, -, hadd⟩ := ofCalls_sound_and_add_exact calls
  have hrefused : ((ofCalls calls).add shield).1 = .error (.duplicateName .component "Shield") := by
    decide +kernel
  have htaken : ((ofCalls calls).add (.component ⟨0, "Hull", [], ⟨[]⟩⟩)).1 = .ok 1 := by decide +kernel
  exact ⟨hrefused, (hadd shield).2.2.1 _ hrefused, (hadd _).2.2.2 1 htaken⟩

end Draft

end EntitySchema
