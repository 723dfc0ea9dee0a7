import EntitySchema.Proofs.Parser.Accepts
/-!
  One source under several hosts.

  A host is asked about the items of archetypes, and about the types of fields once the source has been read.
  Its answers only let the parser go on or stop it: what a source describes is the same for every host that
  lets it pass (`eq_of_parse`).  In particular a name that is declared stands for its component, whether the
  host provides a type of that name or not.

  Whether a host lets a source pass is the question whether its clauses are `Admissible`.  That is a statement
  in which the host stands on the side of what is allowed only, so it is monotone in it: `host.Grants other`
  says that `other` allows at least as much, and then `Admissible host cs → Admissible other cs`
  (`Admissible.of_grants`).  The one place where more is less is the list of field types.  A host that names
  none does not look at them, so it grants them all, and a host that names some has to know those that `host`
  knew.

  Main statement: `parse_filters`.
-/

namespace EntitySchema

/-- The other host lets pass whatever this one lets pass.  A host without field types looks at none, so it
grants them all. -/
structure HostTypes.Grants (host other : HostTypes) : Prop where
  components : ∀ name ∈ host.components, name ∈ other.components
  fields : other.fields = [] ∨ host.fields ≠ [] ∧ ∀ name ∈ host.fields, name ∈ other.fields

namespace HostTypes.Grants

variable {host other : HostTypes} {name : String}

/-- What the host lets archetypes list, the other one does too. -/
theorem allowsComponent (h : host.Grants other) (hname : host.allowsComponent name) :
    other.allowsComponent name := by
  rw [HostTypes.allowsComponent, List.contains_iff_mem] at *
  exact h.components name hname

/-- If the other host looks at field types, this one did too. -/
theorem restrictsFields (h : host.Grants other) (hother : other.restrictsFields) :
    host.restrictsFields := by
  rcases h.fields with hnone | ⟨hsome, -⟩
  · simp [HostTypes.restrictsFields, hnone] at hother
  · simp [HostTypes.restrictsFields, hsome]

/-- And then a type that passed here passes there. -/
theorem allowsField (h : host.Grants other) (hother : other.restrictsFields)
    (hname : host.allowsField name) : other.allowsField name := by
  rcases h.fields with hnone | ⟨-, hfields⟩
  · simp [HostTypes.restrictsFields, hnone] at hother
  · rw [HostTypes.allowsField, List.contains_iff_mem] at *
    exact hfields name hname

end HostTypes.Grants

/-- Clauses are looked at by their names, their levels, and what the host says of items and fields. -/
theorem Admissible.of_grants {host other : HostTypes} {cs : List Clause} (h : Admissible host cs)
    (hgrants : host.Grants other) : Admissible other cs where
  names_nodup := h.names_nodup
  components_le := h.components_le
  archetypes_le := h.archetypes_le
  commands_le := h.commands_le
  events_le := h.events_le
  levels := h.levels
  items before c hc lod hlod item hitem :=
    (h.items before c hc lod hlod item hitem).imp_right hgrants.allowsComponent
  fields hother c hc field hfield :=
    (h.fields (hgrants.restrictsFields hother) c hc field hfield).imp_left (hgrants.allowsField hother)

/-- Hosts that let a source pass read the same protocol: the machine moves by the lexemes, and no host can
lead it two ways. -/
theorem eq_of_parse {host other : HostTypes} {source : String} {r r' : Protocol}
    (h : parse host source = .ok r) (h' : parse other source = .ok r') : r = r' := by
  obtain ⟨ts, q, hts, hq, -, rfl⟩ := Parser.parse_eq_ok_iff.1 h
  obtain ⟨ts', q', hts', hq', -, rfl⟩ := Parser.parse_eq_ok_iff.1 h'
  -- The tokens are those of the source, whoever the host is.
  cases hts.symm.trans hts'
  rw [Parser.completes_unique hq hq']

/-- A host that grants at least as much lets a source pass that passed before. -/
theorem exists_parse_of_grants {host other : HostTypes} {source : String} {r : Protocol}
    (h : parse host source = .ok r) (hgrants : host.Grants other) : ∃ r', parse other source = .ok r' := by
  obtain ⟨ts, q, hts, hq, hknown, -⟩ := Parser.parse_eq_ok_iff.1 h
  obtain ⟨cs, hprogram, hbuilt⟩ := Parser.completes_between_iff.1 hq
  have hadmissible : Admissible other cs :=
    (Parser.exists_built_iff.1 ⟨q, hbuilt, hknown⟩).of_grants hgrants
  obtain ⟨q', hbuilt', hknown'⟩ := Parser.exists_built_iff.2 hadmissible
  exact ⟨_, Parser.parse_eq_ok_iff.2
    ⟨ts, q', hts, Parser.completes_between_iff.2 ⟨cs, hprogram, hbuilt'⟩, hknown', rfl⟩⟩

/-- The types of a host only filter.  Let `host` read `source` as `r`.  If another host reads it too, then as
the same protocol, `r' = r`.  And `other` does read it if it provides the types of `host` for archetypes, and
as to the types of fields either looks at none, or `host` looked at them too and it provides those of `host`.
-/
theorem parse_filters {host other : HostTypes} {source : String} {r : Protocol}
    (h : parse host source = .ok r) :
    (∀ r', parse other source = .ok r' → r' = r) ∧
      ((∀ name ∈ host.components, name ∈ other.components) →
        (other.fields = [] ∨ host.fields ≠ [] ∧ ∀ name ∈ host.fields, name ∈ other.fields) →
        parse other source = .ok r) := by
  refine ⟨fun r' h' => eq_of_parse h' h, fun hcomponents hfields => ?_⟩
  obtain ⟨r', h'⟩ := exists_parse_of_grants h ⟨hcomponents, hfields⟩
  rw [h', eq_of_parse h' h]

/-- A component that the second host provides too, and a type of the host beside it.  The second item is
refused where no host provides its type. -/
theorem parse_filters_declared :
    ∃ r, parse ⟨["T"], ["int"]⟩ "component A\n  x int\narchetype E\n  lod 0\n    A\n    T\n" = .ok r ∧
      parse ⟨["A", "T"], ["float", "int"]⟩ "component A\n  x int\narchetype E\n  lod 0\n    A\n    T\n" =
        .ok r ∧
      r.archetypes.toList.map (·.lods) = [[⟨0, [⟨.component 0, ⟨[]⟩⟩, ⟨.host "T", ⟨[]⟩⟩]⟩]] ∧
      (parse ⟨["A"], []⟩
        "component A\n  x int\narchetype E\n  lod 0\n    A\n    T\n").toOption.isSome = false := by
  have hlods : (parse ⟨["T"], ["int"]⟩
      "component A\n  x int\narchetype E\n  lod 0\n    A\n    T\n").toOption.map
        (fun r => r.archetypes.toList.map (·.lods)) =
      some [[⟨0, [⟨.component 0, ⟨[]⟩⟩, ⟨.host "T", ⟨[]⟩⟩]⟩]] := by
    decide +kernel
  cases h : parse ⟨["T"], ["int"]⟩ "component A\n  x int\narchetype E\n  lod 0\n    A\n    T\n" with
  | ok r =>
    rw [h] at hlods
    exact ⟨r, rfl, (parse_filters h).2 (by decide) (by decide), Option.some.inj hlods, by decide +kernel⟩
  | error e =>
    rw [h] at hlods
    cases hlods

end EntitySchema
