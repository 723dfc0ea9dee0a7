import EntitySchema.Proofs.Parser.Clauses
import Mathlib.Data.List.Induction
/-!
  Which descriptions a host accepts.

  1. **One clause.**  A parser takes the clause `c` exactly if it `Fits` behind the clauses `before` it
     (`exists_take?_iff`):

      its name is new            c.declared? = some (k, name)  →  name ∉ names k before
      its kind is not full       (names k before).length < capacity of k
      its levels are counted     0, 1, 2, …
      its items are known        a component in `before`, or a type of the host

  What the parser knows of `before` is the names in its draft, and they are the names that the clauses declare
  (`names_of_built`).

  2. **All clauses.**  To fit one behind the other is a property of all clauses together.
     `forall_prefix_concat_iff` takes the last clause off a statement about every clause behind those before
     it, and with it names that are new each time are names without repetition (`names_nodup_iff`), and room
     each time is a bound on their number (`length_names_le_iff`).

  3. **Types of fields.**  They are looked at when everything is built, so a type may be declared below its
     use (`knowsUses_iff`).

  Together this is `Admissible` (`exists_built_iff`).

  Main statement: `parse_isOk_iff`.
-/

namespace EntitySchema

/-! ## Names -/

namespace Clause

variable {k : Kind} {c : Clause} {before cs : List Clause}

/-- Names stand in the order of the clauses. -/
theorem names_append (k : Kind) (cs ds : List Clause) : names k (cs ++ ds) = names k cs ++ names k ds := by
  simp [names]

/-- A clause that declares a name has it, among the names of its kind. -/
theorem names_singleton_of_some {name : String} (h : c.declared? = some (k, name)) :
    names k [c] = [name] := by
  simp [names, h]

/-- A clause has no names of other kinds. -/
theorem names_singleton_of_ne {name : String} {kind : Kind} (h : c.declared? = some (kind, name))
    (hk : kind ≠ k) : names k [c] = [] := by
  simp [names, h, hk]

/-- A clause that declares nothing has no names. -/
theorem names_singleton_of_none (h : c.declared? = none) : names k [c] = [] := by
  simp [names, h]

end Clause

/-! ## Items and levels -/

/-- A name of an item is known if a component has it or the host provides it. -/
theorem exists_resolve_iff {host : HostTypes} {draft : Draft} {name : String} :
    (∃ type, Body.resolve host draft name = .ok type) ↔
      name ∈ draft.protocol.names .component ∨ host.allowsComponent name := by
  rw [← Protocol.isSome_find?_iff draft.indexed, Protocol.find?, Option.isSome_map, Body.resolve]
  cases draft.protocol.component? name with
  | some c => simp
  | none => cases host.allowsComponent name <;> simp

/-- Items are read exactly if all their names are known. -/
theorem exists_items_iff {host : HostTypes} {draft : Draft} {lines : List ItemLine} {read : Array Item} :
    (∃ items, lines.foldlM (ItemLine.append? host draft) read = some items) ↔
      ∀ line ∈ lines, line.name ∈ draft.protocol.names .component ∨ host.allowsComponent line.name := by
  induction lines generalizing read with
  | nil => exact iff_of_true ⟨read, rfl⟩ (by simp)
  | cons line lines ih =>
    rw [List.forall_mem_cons, ← exists_resolve_iff, List.foldlM_cons, ItemLine.append?]
    -- The first item is looked up, and the others behind it.
    cases Body.resolve host draft line.name with
    | ok type => simp [ih]
    | error => simp

/-- A level is added exactly if its number is that of the levels there are. -/
theorem exists_addLod_iff {archetype : Archetype} {level : Int} {items : List Item} :
    (∃ next, archetype.addLod level items = .ok next) ↔ level = archetype.lods.length := by
  unfold Archetype.addLod Archetype.nextLevel
  split_ifs <;> simp_all

/-- A level that is added makes one more. -/
theorem length_lods_of_addLod {archetype next : Archetype} {level : Int} {items : List Item}
    (h : archetype.addLod level items = .ok next) : next.lods.length = archetype.lods.length + 1 := by
  unfold Archetype.addLod at h
  split at h
  · cases h
    simp
  · cases h

/-- Levels are added to those that are there exactly if they go on counting and their items are known. -/
theorem exists_lods_iff {host : HostTypes} {draft : Draft} {blocks : List LodBlock}
    {archetype : Archetype} :
    (∃ next, blocks.foldlM (LodBlock.append? host draft) archetype = some next) ↔
      blocks.map (·.level) = (List.range' archetype.lods.length blocks.length).map Int.ofNat ∧
      ∀ block ∈ blocks, ∀ item ∈ block.items,
        item.name ∈ draft.protocol.names .component ∨ host.allowsComponent item.name := by
  -- The count starts at the levels that are there, so every block moves it on by one.
  induction blocks generalizing archetype with
  | nil => exact iff_of_true ⟨archetype, rfl⟩ (by simp)
  | cons block blocks ih =>
    rw [List.forall_mem_cons, List.foldlM_cons, List.map_cons, List.length_cons, List.range'_succ,
      List.map_cons, List.cons.injEq]
    constructor
    · rintro ⟨next, h⟩
      obtain ⟨mid, hmid, hnext⟩ := Option.bind_eq_some_iff.1 h
      obtain ⟨items, hitems, hadd⟩ := LodBlock.append?_eq_some_iff.1 hmid
      obtain ⟨hlevels, hrest⟩ := ih.1 ⟨next, hnext⟩
      rw [length_lods_of_addLod hadd] at hlevels
      exact ⟨⟨exists_addLod_iff.1 ⟨mid, hadd⟩, hlevels⟩, exists_items_iff.1 ⟨items, hitems⟩, hrest⟩
    · rintro ⟨⟨hlevel, hlevels⟩, hitems, hrest⟩
      obtain ⟨items, hitems⟩ := exists_items_iff.2 hitems
      obtain ⟨mid, hadd⟩ := exists_addLod_iff.2 hlevel
      rw [← length_lods_of_addLod hadd] at hlevels
      obtain ⟨next, hnext⟩ := ih.2 ⟨hlevels, hrest⟩
      exact ⟨next, Option.bind_eq_some_iff.2
        ⟨mid, LodBlock.append?_eq_some_iff.2 ⟨items, hitems, hadd⟩, hnext⟩⟩

/-! ## Single clauses -/

/-- The types of the fields in the order in which they are written. -/
theorem map_typeName_foldl_append {lines : List FieldLine} {read : Array PlacedField} :
    (lines.foldl FieldLine.append read).toList.map (·.field.typeName) =
      read.toList.map (·.field.typeName) ++ lines.map (·.typeName) := by
  induction lines generalizing read with
  | nil => simp
  | cons line lines ih => simp [ih, FieldLine.append]

/-- The effect of a clause declares what the clause says. -/
theorem effect?_eq_some {host : HostTypes} {draft : Draft} {c : Clause} {effect : Effect}
    (h : c.effect? host draft = some effect) :
    (∃ x more, effect = .declare x more ∧ c.declared? = some (x.kind, x.name) ∧
      more.map (·.typeName) = c.componentFields.map (·.typeName)) ∨
    c.declared? = none ∧ c.componentFields = [] ∧
      ((∃ path, effect = .setNamespace path) ∨ ∃ name, effect = .setName name) := by
  cases c with
  | namespaceLine =>
    cases h
    exact Or.inr ⟨rfl, rfl, Or.inl ⟨_, rfl⟩⟩
  | nameLine =>
    cases h
    exact Or.inr ⟨rfl, rfl, Or.inr ⟨_, rfl⟩⟩
  | component name pairs? fields =>
    cases h
    refine Or.inl ⟨_, _, rfl, rfl, ?_⟩
    rw [FieldOwner.uses, List.map_map]
    exact map_typeName_foldl_append
  | event | type | buffer | enumeration | signature | command =>
    cases h
    exact Or.inl ⟨_, _, rfl, rfl, rfl⟩
  -- Levels and items leave the name of an archetype alone.
  | archetype name pairs? lods =>
    obtain ⟨archetype, hlods, rfl⟩ := Option.map_eq_some_iff.1 h
    have hname := Parser.name_of_append? hlods
    exact Or.inl ⟨_, _, rfl, by rw [Clause.declared?, ← show archetype.name = name from hname]; rfl, rfl⟩

namespace Clause

/-- The clause can stand behind other clauses. -/
structure Fits (host : HostTypes) (before : List Clause) (c : Clause) : Prop where
  /-- No clause before it declares the name for the same kind. -/
  name_new : ∀ k name, c.declared? = some (k, name) → name ∉ names k before
  /-- The kind has room for one more. -/
  count_lt : ∀ k name, c.declared? = some (k, name) → ∀ capacity, k.capacity? = some capacity →
    (names k before).length < capacity
  /-- Levels of detail are counted from zero. -/
  levels : c.lods.map (·.level) = (List.range c.lods.length).map Int.ofNat
  /-- Items are components declared before, or types of the host. -/
  items : ∀ lod ∈ c.lods, ∀ item ∈ lod.items,
    item.name ∈ names .component before ∨ host.allowsComponent item.name

end Clause

namespace Parser

variable {host : HostTypes} {p p' : Parser} {c : Clause} {before cs : List Clause}

/-- A draft admits a name exactly if it does not have it, and has fewer names of the kind than the kind can
hold. -/
theorem exists_admit?_iff {draft : Draft} {k : Kind} {name : String} :
    (∃ index, draft.admit? k name = .ok index) ↔ name ∉ draft.protocol.names k ∧
      ∀ capacity, k.capacity? = some capacity → (draft.protocol.names k).length < capacity := by
  simp only [Draft.admit?_eq_ok_iff, Draft.checkUnique_eq_ok_iff, Protocol.length_names, Draft.nextIndex]
  cases k.capacity? with
  | none => simp
  | some capacity => by_cases h : draft.protocol.count k < capacity <;> simp [h]

/-- A declaration is taken exactly if it is admitted, and then it is pushed and the uses of its types are
noted. -/
theorem settle?_declare_eq_some_iff {draft : Draft} {uses : Array FieldUse} {x : Declaration}
    {more : List FieldUse} : settle? draft uses (.declare x more) = some p ↔
      (∃ index, draft.admit? x.kind x.name = .ok index) ∧
        p = ⟨draft.push x, uses ++ more.toArray, .between⟩ := by
  rw [settle?, apply, Draft.add]
  cases draft.admit? x.kind x.name <;> simp [eq_comm]

/-- After a clause a draft has the names of the clause, and knows the types of its fields. -/
theorem names_of_take? (h : take? host p c = some p') :
    (∀ k, p'.draft.protocol.names k = p.draft.protocol.names k ++ Clause.names k [c]) ∧
      p'.uses.toList.map (·.typeName) =
        p.uses.toList.map (·.typeName) ++ c.componentFields.map (·.typeName) := by
  obtain ⟨effect, heffect, hsettle⟩ := Option.bind_eq_some_iff.1 h
  rcases effect?_eq_some heffect with ⟨x, more, rfl, hdeclared, htypes⟩ | ⟨hnone, hfields, heffect⟩
  · obtain ⟨-, rfl⟩ := settle?_declare_eq_some_iff.1 hsettle
    refine ⟨fun k => ?_, by simp [htypes]⟩
    rw [show (p.draft.push x).protocol = p.draft.protocol.add x from rfl, Protocol.names_add]
    -- Kinds other than that of the declaration get no name.
    split
    · next hk =>
      subst hk
      rw [Clause.names_singleton_of_some hdeclared]
    · next hk =>
      rw [Clause.names_singleton_of_ne hdeclared (Ne.symm hk), List.append_nil]
  · simp only [Clause.names_singleton_of_none hnone, hfields, List.map_nil, List.append_nil]
    rcases heffect with ⟨path, rfl⟩ | ⟨name, rfl⟩
    · cases hsettle
      exact ⟨fun k => by cases k <;> rfl, rfl⟩
    · cases hsettle
      exact ⟨fun k => by cases k <;> rfl, rfl⟩

/-- Only an archetype can be without effect. -/
theorem exists_effect?_iff {draft : Draft} : (∃ effect, c.effect? host draft = some effect) ↔
    c.lods.map (·.level) = (List.range c.lods.length).map Int.ofNat ∧
    ∀ lod ∈ c.lods, ∀ item ∈ lod.items,
      item.name ∈ draft.protocol.names .component ∨ host.allowsComponent item.name := by
  cases c with
  | archetype name pairs? lods =>
    rw [Clause.lods, List.range_eq_range']
    refine Iff.trans ?_ (@exists_lods_iff host draft lods (.named 0 name (Pairs.metadata pairs?)))
    constructor
    · rintro ⟨effect, h⟩
      obtain ⟨next, hnext, -⟩ := Option.map_eq_some_iff.1 h
      exact ⟨next, hnext⟩
    · rintro ⟨next, hnext⟩
      exact ⟨_, Option.map_eq_some_iff.2 ⟨next, hnext, rfl⟩⟩
  | namespaceLine | nameLine | component | event | type | buffer | enumeration | signature | command =>
    exact iff_of_true ⟨_, rfl⟩ (by simp [Clause.lods])

/-- A parser takes the clauses that fit behind those it has taken. -/
theorem exists_take?_iff (hnames : ∀ k, p.draft.protocol.names k = Clause.names k before) :
    (∃ p', take? host p c = some p') ↔ c.Fits host before := by
  have heffects := @exists_effect?_iff host c p.draft
  rw [hnames] at heffects
  constructor
  · rintro ⟨p', h⟩
    obtain ⟨effect, heffect, hsettle⟩ := Option.bind_eq_some_iff.1 h
    obtain ⟨hlevels, hitems⟩ := heffects.1 ⟨effect, heffect⟩
    -- What could be added at the end of the declaration could be named at its start.
    have hfree : ∀ k name, c.declared? = some (k, name) →
        ∃ index, p.draft.admit? k name = .ok index := by
      intro k name hk
      rcases effect?_eq_some heffect with ⟨x, more, rfl, hdeclared, -⟩ | ⟨hnone, -⟩
      · cases hdeclared.symm.trans hk
        exact (settle?_declare_eq_some_iff.1 hsettle).1
      · cases hnone.symm.trans hk
    refine ⟨fun k name hk => ?_, fun k name hk => ?_, hlevels, hitems⟩
    · rw [← hnames]
      exact (exists_admit?_iff.1 (hfree k name hk)).1
    · rw [← hnames]
      exact (exists_admit?_iff.1 (hfree k name hk)).2
  · intro hfits
    obtain ⟨effect, heffect⟩ := heffects.2 ⟨hfits.levels, hfits.items⟩
    rcases effect?_eq_some heffect with ⟨x, more, rfl, hdeclared, -⟩ | ⟨-, -, hset⟩
    · have hfree : ∃ index, p.draft.admit? x.kind x.name = .ok index := by
        rw [exists_admit?_iff, hnames]
        exact ⟨hfits.name_new _ _ hdeclared, hfits.count_lt _ _ hdeclared⟩
      exact ⟨_, Option.bind_eq_some_iff.2
        ⟨_, heffect, settle?_declare_eq_some_iff.2 ⟨hfree, rfl⟩⟩⟩
    · rcases hset with ⟨path, rfl⟩ | ⟨name, rfl⟩
      · exact ⟨_, Option.bind_eq_some_iff.2 ⟨_, heffect, rfl⟩⟩
      · exact ⟨_, Option.bind_eq_some_iff.2 ⟨_, heffect, rfl⟩⟩

/-! ## All clauses -/

/-- To take one clause more is to take it behind the others. -/
theorem built_concat_iff : (cs ++ [c]).foldlM (take? host) start = some p ↔
    ∃ mid, cs.foldlM (take? host) start = some mid ∧ take? host mid c = some p := by
  simp [List.foldlM_append, Option.bind_eq_some_iff]

/-- A draft has the names of the clauses that were taken, and knows the types of their fields. -/
theorem names_of_built (h : cs.foldlM (take? host) start = some p) :
    (∀ k, p.draft.protocol.names k = Clause.names k cs) ∧
      p.uses.toList.map (·.typeName) = cs.flatMap fun c => c.componentFields.map (·.typeName) := by
  -- A clause is judged by those before it, so it is the last one that is taken off.
  induction cs using List.reverseRecOn generalizing p with
  | nil =>
    cases h
    refine ⟨fun k => ?_, rfl⟩
    cases k <;> simp [start, Draft.empty, Protocol.names, Protocol.declarations, Protocol.empty,
      Clause.names]
  | append_singleton cs c ih =>
    obtain ⟨mid, hmid, hlast⟩ := built_concat_iff.1 h
    obtain ⟨hnames, huses⟩ := ih hmid
    obtain ⟨hnames', huses'⟩ := names_of_take? hlast
    refine ⟨fun k => ?_, ?_⟩
    · rw [hnames', hnames, Clause.names_append]
    · rw [huses', huses, List.flatMap_append, List.flatMap_singleton]

end Parser

namespace Clause

variable {host : HostTypes} {cs : List Clause}

/-- What holds of every clause behind those before it. -/
theorem forall_prefix_concat_iff {P : List Clause → Clause → Prop} {d : Clause} :
    (∀ before c, before ++ [c] <+: cs ++ [d] → P before c) ↔
      (∀ before c, before ++ [c] <+: cs → P before c) ∧ P cs d := by
  constructor
  · exact fun h => ⟨fun before c hc => h before c (hc.trans (List.prefix_append cs [d])),
      h cs d (List.prefix_refl _)⟩
  · rintro ⟨h, hlast⟩ before c hc
    rcases List.prefix_concat_iff.1 hc with heq | hc
    · obtain ⟨rfl, hd⟩ := List.append_inj' heq rfl
      cases hd
      exact hlast
    · exact h before c hc

/-- Where there are no clauses nothing is to be shown. -/
theorem forall_prefix_nil {P : List Clause → Clause → Prop} :
    ∀ before c, before ++ [c] <+: [] → P before c := by
  intro before c hc
  simp at hc

/-- Every clause is the last one of some clauses in front. -/
theorem forall_mem_iff_prefix {P : Clause → Prop} :
    (∀ c ∈ cs, P c) ↔ ∀ before c, before ++ [c] <+: cs → P c := by
  induction cs using List.reverseRecOn with
  | nil => exact iff_of_true (by simp) forall_prefix_nil
  | append_singleton cs d ih =>
    rw [forall_prefix_concat_iff, ← ih, List.forall_mem_append]
    simp

/-- Names are new behind those before them exactly if no name is there twice. -/
theorem names_nodup_iff : (∀ k, (names k cs).Nodup) ↔
    ∀ before c, before ++ [c] <+: cs → ∀ k name, c.declared? = some (k, name) →
      name ∉ names k before := by
  induction cs using List.reverseRecOn with
  | nil => exact iff_of_true (by simp [names]) forall_prefix_nil
  | append_singleton cs d ih =>
    rw [forall_prefix_concat_iff, ← ih]
    simp only [names_append]
    -- Only the names of the last clause are to be compared with those before it.
    constructor
    · intro h
      refine ⟨fun k => (List.nodup_append.1 (h k)).1, fun k name hd hmem => ?_⟩
      have hlast := h k
      rw [names_singleton_of_some hd] at hlast
      exact (List.nodup_append.1 hlast).2.2 name hmem name (List.mem_singleton_self name) rfl
    · rintro ⟨h, hnew⟩ k
      cases hd : d.declared? with
      | none => simpa [names_singleton_of_none hd] using h k
      | some declared =>
        obtain ⟨kind, name⟩ := declared
        by_cases hk : kind = k
        · subst hk
          rw [names_singleton_of_some hd, List.nodup_append]
          refine ⟨h kind, by simp, fun a ha b hb hab => ?_⟩
          rw [List.mem_singleton.1 hb] at hab
          exact hnew kind name hd (hab ▸ ha)
        · simpa [names_singleton_of_ne hd hk] using h k

/-- A kind is not full behind the names before it exactly if it has no more than it can hold. -/
theorem length_names_le_iff : (∀ k capacity, k.capacity? = some capacity →
    (names k cs).length ≤ capacity) ↔
    ∀ before c, before ++ [c] <+: cs → ∀ k name, c.declared? = some (k, name) →
      ∀ capacity, k.capacity? = some capacity → (names k before).length < capacity := by
  induction cs using List.reverseRecOn with
  | nil => exact iff_of_true (by simp [names]) forall_prefix_nil
  | append_singleton cs d ih =>
    rw [forall_prefix_concat_iff, ← ih]
    simp only [names_append, List.length_append]
    -- The last clause adds at most one name, to one kind.
    constructor
    · intro h
      refine ⟨fun k capacity hk => ?_, fun k name hd capacity hk => ?_⟩
      · have hle := h k capacity hk
        omega
      · have hle := h k capacity hk
        rw [names_singleton_of_some hd, List.length_singleton] at hle
        omega
    · rintro ⟨h, hlt⟩ k capacity hk
      cases hd : d.declared? with
      | none => simpa [names_singleton_of_none hd] using h k capacity hk
      | some declared =>
        obtain ⟨kind, name⟩ := declared
        by_cases hkind : kind = k
        · subst hkind
          rw [names_singleton_of_some hd]
          exact hlt kind name hd capacity hk
        · simpa [names_singleton_of_ne hd hkind] using h k capacity hk

/-- Clauses that fit one behind the other. -/
theorem forall_fits_iff : (∀ before c, before ++ [c] <+: cs → c.Fits host before) ↔
    (∀ k, (names k cs).Nodup) ∧
    (∀ k capacity, k.capacity? = some capacity → (names k cs).length ≤ capacity) ∧
    (∀ c ∈ cs, c.lods.map (·.level) = (List.range c.lods.length).map Int.ofNat) ∧
    ∀ before c, before ++ [c] <+: cs → ∀ lod ∈ c.lods, ∀ item ∈ lod.items,
      item.name ∈ names .component before ∨ host.allowsComponent item.name := by
  rw [names_nodup_iff, length_names_le_iff, forall_mem_iff_prefix]
  constructor
  · intro h
    exact ⟨fun before c hc => (h before c hc).name_new, fun before c hc => (h before c hc).count_lt,
      fun before c hc => (h before c hc).levels, fun before c hc => (h before c hc).items⟩
  · rintro ⟨hnew, hlt, hlevels, hitems⟩ before c hc
    exact ⟨hnew before c hc, hlt before c hc, hlevels before c hc, hitems before c hc⟩

end Clause

namespace Parser

/-- Clauses are taken one after the other exactly if each fits behind those before it. -/
theorem exists_built_iff_fits {host : HostTypes} {cs : List Clause} :
    (∃ q, cs.foldlM (take? host) start = some q) ↔
      ∀ before c, before ++ [c] <+: cs → c.Fits host before := by
  induction cs using List.reverseRecOn with
  | nil => exact iff_of_true ⟨start, rfl⟩ Clause.forall_prefix_nil
  | append_singleton cs c ih =>
    rw [Clause.forall_prefix_concat_iff, ← ih]
    constructor
    · rintro ⟨q, h⟩
      obtain ⟨mid, hmid, hlast⟩ := built_concat_iff.1 h
      exact ⟨⟨mid, hmid⟩, (exists_take?_iff (names_of_built hmid).1).1 ⟨q, hlast⟩⟩
    · rintro ⟨⟨mid, hmid⟩, hfits⟩
      obtain ⟨q, hq⟩ := (exists_take?_iff (names_of_built hmid).1).2 hfits
      exact ⟨q, built_concat_iff.2 ⟨mid, hmid, hq⟩⟩

/-- The types of fields are known to a parser exactly if they are known to the host or declared. -/
theorem knowsUses_iff {host : HostTypes} {cs : List Clause} {q : Parser}
    (h : cs.foldlM (take? host) start = some q) :
    q.KnowsUses host ↔ (host.restrictsFields → ∀ c ∈ cs, ∀ field ∈ c.componentFields,
      host.allowsField field.typeName ∨
        ∃ k ∈ [Kind.type, .enumeration, .buffer, .component], field.typeName ∈ Clause.names k cs) := by
  obtain ⟨hnames, huses⟩ := names_of_built h
  have hknows : ∀ typeName, q.knowsFieldType host typeName ↔ host.allowsField typeName ∨
      ∃ k ∈ [Kind.type, .enumeration, .buffer, .component], typeName ∈ Clause.names k cs := by
    intro typeName
    simp only [knowsFieldType, Bool.or_eq_true, List.any_eq_true, Draft.has_iff, hnames]
  -- A use matters for the name of its type only.
  have hall : (∀ u ∈ q.uses, q.knowsFieldType host u.typeName) ↔
      ∀ typeName ∈ q.uses.toList.map (·.typeName), q.knowsFieldType host typeName := by
    simp
  rw [KnowsUses, hall, huses]
  simp only [hknows, List.mem_flatMap, List.mem_map]
  refine imp_congr_right fun _ => ⟨?_, ?_⟩
  · intro hall c hc field hfield
    exact hall _ ⟨c, hc, field, hfield, rfl⟩
  · rintro hall _ ⟨c, hc, field, hfield, rfl⟩
    exact hall c hc field hfield

/-- Clauses are taken one after the other, and their field types are known, if they are admissible. -/
theorem exists_built_iff {host : HostTypes} {cs : List Clause} :
    (∃ q, cs.foldlM (take? host) start = some q ∧ q.KnowsUses host) ↔ Admissible host cs := by
  constructor
  · rintro ⟨q, hbuilt, hknown⟩
    obtain ⟨hnodup, hle, hlevels, hitems⟩ :=
      Clause.forall_fits_iff.1 (exists_built_iff_fits.1 ⟨q, hbuilt⟩)
    exact {
      names_nodup := hnodup
      components_le := hle .component 256 rfl
      archetypes_le := hle .archetype 256 rfl
      commands_le := hle .command 256 rfl
      events_le := hle .event 65536 rfl
      levels := hlevels
      items := hitems
      fields := (knowsUses_iff hbuilt).1 hknown }
  · intro h
    -- Every kind with a bound has a condition of its own.
    have hle : ∀ k capacity, k.capacity? = some capacity → (Clause.names k cs).length ≤ capacity := by
      intro k capacity hk
      cases k with
      | component => cases hk; exact h.components_le
      | archetype => cases hk; exact h.archetypes_le
      | command => cases hk; exact h.commands_le
      | event => cases hk; exact h.events_le
      | type | enumeration | buffer => cases hk
    obtain ⟨q, hbuilt⟩ := exists_built_iff_fits.2
      (Clause.forall_fits_iff.2 ⟨h.names_nodup, hle, h.levels, h.items⟩)
    exact ⟨q, hbuilt, (knowsUses_iff hbuilt).2 h.fields⟩

end Parser

/-- Which sources are read.  A `source` describes a protocol to `host` exactly if it has tokens `ts`, what
they mean, `Token.meaning ts`, is a program of some clauses `cs`, and the host accepts these clauses,
`Admissible host cs`.  The first is a matter of the text, the second of the grammar, and only the third of the
host and of names and numbers. -/
theorem parse_isOk_iff {host : HostTypes} {source : String} :
    (∃ r, parse host source = .ok r) ↔
      ∃ ts cs, tokenize source = .ok ts ∧ Program cs (Token.meaning ts) ∧ Admissible host cs := by
  constructor
  · rintro ⟨r, h⟩
    obtain ⟨ts, q, hts, hq, hknown, -⟩ := Parser.parse_eq_ok_iff.1 h
    obtain ⟨cs, hprogram, hbuilt⟩ := Parser.completes_between_iff.1 hq
    exact ⟨ts, cs, hts, hprogram, Parser.exists_built_iff.1 ⟨q, hbuilt, hknown⟩⟩
  · rintro ⟨ts, cs, hts, hprogram, hadmissible⟩
    obtain ⟨q, hbuilt, hknown⟩ := Parser.exists_built_iff.2 hadmissible
    exact ⟨_, Parser.parse_eq_ok_iff.2
      ⟨ts, q, hts, Parser.completes_between_iff.2 ⟨cs, hprogram, hbuilt⟩, hknown, rfl⟩⟩

end EntitySchema
