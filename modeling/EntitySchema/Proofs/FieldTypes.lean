import EntitySchema.Proofs.Content
import EntitySchema.Proofs.Parser.TypePlaces
/-!
  The types of component fields are judged last, and exactly.

  While a source is read, nobody asks the host about the types of fields: a parser takes the same tokens in
  the same way whatever types the host provides for them (`feedRead_setFields`).  So every other fault comes
  first, wherever it stands, and what was read is what would be read for `host.setFields []`, the host that
  does not restrict these types.

  Only then does the parser go through the uses it has collected.  They are the fields of all components in
  order (`Parser.UsesFollow`), one use for each field, and by now everything is declared, so declarations
  further down count too.  The list of uses and the list of fields go side by side (`List.Forall₂`), so the
  first use with an unknown type belongs to the first field with one (`exists_first_of_forall₂`); a place
  among the fields of all components is then a component and a place among its own
  (`exists_component_of_flatMap`).

  The statement names no parser.  `r.KnowsFieldTypes host` says of the protocol `r` that the types of all
  component fields are provided by the host or declared somewhere in `r`, and `r.FirstUnknown host c f` that
  `f`, in the component `c`, is the first field of which this does not hold.

  Main statement: `parse_judges_fieldTypes`.
-/

namespace EntitySchema

/-- The host with other types for fields. -/
def HostTypes.setFields (host : HostTypes) (fields : List String) : HostTypes := { host with fields }

/-- A type that fields of components can have. -/
def Protocol.KnowsFieldType (host : HostTypes) (r : Protocol) (typeName : String) : Prop :=
  typeName ∈ host.fields ∨
    ∃ k ∈ [Kind.type, .enumeration, .buffer, .component], typeName ∈ r.names k

/-- The types of all component fields are known. -/
def Protocol.KnowsFieldTypes (host : HostTypes) (r : Protocol) : Prop :=
  ∀ c ∈ r.components, ∀ f ∈ c.fields, r.KnowsFieldType host f.typeName

/-- The field is the first one with a type that is not known, in the order of components and then of fields. -/
def Protocol.FirstUnknown (host : HostTypes) (r : Protocol) (c : Component) (f : Field) : Prop :=
  ∃ above below before after, r.components.toList = above ++ c :: below ∧ c.fields = before ++ f :: after ∧
    (∀ c' ∈ above, ∀ f' ∈ c'.fields, r.KnowsFieldType host f'.typeName) ∧
    (∀ f' ∈ before, r.KnowsFieldType host f'.typeName) ∧ ¬ r.KnowsFieldType host f.typeName

/-- Where there is a first field with an unknown type not all types are known. -/
theorem Protocol.FirstUnknown.not_knowsFieldTypes {host : HostTypes} {r : Protocol} {c : Component} {f : Field}
    (h : r.FirstUnknown host c f) : ¬ r.KnowsFieldTypes host := by
  intro hall
  obtain ⟨above, below, before, after, hcomponents, hfields, -, -, hunknown⟩ := h
  have hc : c ∈ r.components := by simp [← Array.mem_toList_iff, hcomponents]
  exact hunknown (hall c hc f (by simp [hfields]))

/-! ## Reading without a look at field types -/

namespace Parser

variable {host : HostTypes} {p : Parser}

/-- A token is taken in the same way, whatever types the host provides for fields. -/
theorem feedToken_setFields (host : HostTypes) (fields : List String) (t : Token) (p : Parser) :
    p.feedToken (host.setFields fields) t = p.feedToken host t := rfl

/-- So are tokens in a row. -/
theorem feedTokens_setFields (host : HostTypes) (fields : List String) (ts : List Token) (p : Parser) :
    p.feedTokens (host.setFields fields) ts = p.feedTokens host ts := by
  induction ts generalizing p with
  | nil => rfl
  | cons t ts ih =>
    rw [feedTokens, feedTokens, feedToken_setFields]
    cases p.feedToken host t with
    | ok q => exact ih q
    | error e => rfl

/-- Nothing that a parser reads depends on the field types of the host. -/
theorem feedRead_setFields (host : HostTypes) (fields : List String) (place : Position) (ts : List Token)
    (error : Option LexError) (p : Parser) :
    p.feedRead (host.setFields fields) place ts error = p.feedRead host place ts error := by
  rw [feedRead, feedTokens_setFields, feedRead]
  rfl

/-- A host without field types has no fault to find with them. -/
theorem checkFieldTypes_setFields_nil (host : HostTypes) (p : Parser) :
    p.checkFieldTypes (host.setFields []) = .ok () := rfl

/-! ## The first unknown type -/

/-- The parser asks its draft what can be asked of the finished protocol: the names of types, enumerations,
buffers and components. -/
theorem knowsFieldType_iff (host : HostTypes) (p : Parser) (hash : UInt32) (typeName : String) :
    p.knowsFieldType host typeName ↔ (p.draft.finish hash).KnowsFieldType host typeName := by
  have hnames : ∀ k, (p.draft.finish hash).names k = p.draft.protocol.names k := by
    intro k
    cases k <;> rfl
  simp only [knowsFieldType, Protocol.KnowsFieldType, HostTypes.allowsField, Bool.or_eq_true,
    List.contains_iff_mem, List.any_eq_true, Draft.has_iff, hnames]

/-- What stands on the right of two lists side by side has something on its left. -/
theorem exists_left_of_mem_right {α β : Type} {R : α → β → Prop} {as : List α} {bs : List β} {b : β}
    (h : List.Forall₂ R as bs) (hb : b ∈ bs) : ∃ a ∈ as, R a b := by
  induction h with
  | nil => cases hb
  | @cons a b' as bs hab _ ih =>
    rcases List.mem_cons.1 hb with rfl | hb
    · exact ⟨a, List.mem_cons_self, hab⟩
    · obtain ⟨a', ha', hab'⟩ := ih hb
      exact ⟨a', List.mem_cons_of_mem a ha', hab'⟩

/-- Where members correspond, the first one that is found corresponds to the first one of its sort.  The
members `before` it correspond to members that were not found. -/
theorem exists_first_of_forall₂ {α β : Type} {R : α → β → Prop} {as : List α} {bs : List β}
    {P : α → Bool} {Q : β → Prop} {a : α} (h : List.Forall₂ R as bs) (hP : ∀ a b, R a b → (P a ↔ Q b))
    (hfind : as.find? P = some a) :
    ∃ before b after, bs = before ++ b :: after ∧ R a b ∧ Q b ∧ ∀ b' ∈ before, ¬ Q b' := by
  induction h with
  | nil => cases hfind
  | @cons a' b as bs hab _ ih =>
    by_cases ha : P a'
    · rw [List.find?_cons_of_pos ha] at hfind
      cases hfind
      exact ⟨[], b, bs, rfl, hab, (hP _ b hab).1 ha, nofun⟩
    · rw [List.find?_cons_of_neg ha] at hfind
      obtain ⟨before, b', after, rfl, hab', hb', hbefore⟩ := ih hfind
      refine ⟨b :: before, b', after, rfl, hab', hb', List.forall_mem_cons.2 ⟨?_, hbefore⟩⟩
      rwa [← hP a' b hab]

end Parser

/-- A place among the fields of all components is a component `c` and a place among its fields: in front of it
stand the fields of the components `above` and the fields `fs` of `c`. -/
theorem exists_component_of_flatMap {cs : List Component} {x : String × Field}
    {before after : List (String × Field)} (h : cs.flatMap Component.ownFields = before ++ x :: after) :
    ∃ above c below fs f gs, cs = above ++ c :: below ∧ c.fields = fs ++ f :: gs ∧ x = (c.name, f) ∧
      before = above.flatMap Component.ownFields ++ fs.map fun f => (c.name, f) := by
  induction cs generalizing before with
  | nil => simp at h
  | cons c cs ih =>
    rw [List.flatMap_cons] at h
    -- The field belongs to a component further below, or to this one.
    rcases List.append_eq_append_iff.1 h with ⟨more, rfl, hmore⟩ | ⟨more, hfields, hmore⟩
    · obtain ⟨above, d, below, fs, f, gs, rfl, hd, hx, rfl⟩ := ih hmore
      exact ⟨c :: above, d, below, fs, f, gs, rfl, hd, hx, by simp⟩
    · cases more with
      | nil =>
        obtain ⟨above, d, below, fs, f, gs, rfl, hd, hx, hnil⟩ := @ih [] hmore.symm
        refine ⟨c :: above, d, below, fs, f, gs, rfl, hd, hx, ?_⟩
        rw [List.append_nil] at hfields
        rw [List.flatMap_cons, List.append_assoc, ← hnil, hfields, List.append_nil]
      | cons y more =>
        obtain ⟨rfl, -⟩ := List.cons.inj hmore
        obtain ⟨fs, rest, hrest, rfl, htail⟩ := List.map_eq_append_iff.1 hfields
        obtain ⟨f, gs, rfl, rfl, -⟩ := List.map_eq_cons_iff.1 htail
        exact ⟨[], c, cs, fs, f, gs, rfl, hrest, rfl, rfl⟩

namespace Parser

variable {host : HostTypes} {p : Parser} {h : List Token}

/-- The use that is reported is that of the first field with a type that is not known. -/
theorem firstUnknown_of_unknownUse? {u : FieldUse} (hp : p.UsesFollow h) (hash : UInt32)
    (hu : p.unknownUse? host = some u) :
    ∃ c f, (p.draft.finish hash).FirstUnknown host c f ∧ u.IsOf h (c.name, f) := by
  unfold unknownUse? at hu
  split at hu
  · rw [← Array.find?_toList] at hu
    obtain ⟨before, x, after, hfields, hx, hunknown, hbefore⟩ := exists_first_of_forall₂
      (Q := fun x => ¬ (p.draft.finish hash).KnowsFieldType host x.2.typeName) hp
      (fun u x hux => by rw [← knowsFieldType_iff, ← hux.typeName]; simp) hu
    obtain ⟨above, c, below, fs, f, gs, hcomponents, hc, rfl, rfl⟩ := exists_component_of_flatMap hfields
    simp only [List.mem_append, not_not] at hbefore
    refine ⟨c, f, ⟨above, below, fs, gs, hcomponents, hc, ?_, ?_, hunknown⟩, hx⟩
    · intro c' hc' f' hf'
      exact hbefore (c'.name, f') (Or.inl (List.mem_flatMap.2 ⟨c', hc', List.mem_map_of_mem hf'⟩))
    · intro f' hf'
      exact hbefore (c.name, f') (Or.inr (List.mem_map_of_mem hf'))
  · cases hu

/-- If no use is reported, all types are known. -/
theorem knowsFieldTypes_of_unknownUse? (hp : p.UsesFollow h) (hhost : host.fields ≠ []) (hash : UInt32)
    (hu : p.unknownUse? host = none) : (p.draft.finish hash).KnowsFieldTypes host := by
  intro c hc f hf
  have hrestricts : host.restrictsFields := by simp [HostTypes.restrictsFields, hhost]
  have hall := (unknownUse?_eq_none_iff host p).1 hu hrestricts
  have hmem : (c.name, f) ∈ p.draft.protocol.componentFields :=
    List.mem_flatMap.2 ⟨c, Array.mem_toList_iff.2 hc, List.mem_map_of_mem hf⟩
  obtain ⟨u, huses, hof⟩ := exists_left_of_mem_right hp hmem
  rw [← knowsFieldType_iff, ← hof.typeName]
  exact hall u (Array.mem_toList_iff.1 huses)

end Parser

/-- Field types are judged last, and exactly.  A fault that is found for a host without field types is found
for the host.  Otherwise the host lets the source pass exactly if it knows the types of all component fields,
or they are declared anywhere; and if not, the first field `f` with an unknown type is reported, with its
component `c`, at the place where its type is written. -/
theorem parse_judges_fieldTypes {host : HostTypes} (hhost : host.fields ≠ []) (source : String) :
    (∀ e, parse (host.setFields []) source = .error e → parse host source = .error e) ∧
    ∀ r, parse (host.setFields []) source = .ok r →
      (r.KnowsFieldTypes host → parse host source = .ok r) ∧
      (¬ r.KnowsFieldTypes host → ∃ ts c f place, tokenize source = .ok ts ∧ r.FirstUnknown host c f ∧
        Token.TypeAt (Token.withoutComments ts) c.name f place ∧
        parse host source = .error (.parse ⟨.unknownFieldType f.typeName c.name, place⟩)) := by
  rw [parse_eq_feedRead, parse_eq_feedRead, Parser.feedRead_setFields]
  -- Up to the types both hosts read the same, and stop at the same fault.
  cases hread : Parser.start.feedRead host .start (lex source).tokens (lex source).error with
  | error e =>
    constructor
    · intro e' he'
      exact he'
    · intro r hr
      cases hr
  | ok p =>
    simp only [Parser.checkFieldTypes_setFields_nil]
    refine ⟨fun e he => (by cases he), ?_⟩
    rintro r ⟨⟩
    obtain ⟨hnone, mid, hmid, hend⟩ := Parser.feedRead_eq_ok_iff.1 hread
    have hts : tokenize source = .ok (lex source).tokens := tokenize_eq_ok_iff_lex.2 ⟨hnone, rfl⟩
    have huses := Parser.usesFollow_of_feedEnd (Parser.follows_of_feedTokens hmid).2 hend
    generalize contentHash (lex source).tokens = hash
    -- The host without field types takes whatever is left; the other looks for the first use that it does not
    -- know.
    cases hu : p.unknownUse? host with
    | none =>
      have hknown := Parser.knowsFieldTypes_of_unknownUse? huses hhost hash hu
      simp only [Parser.checkFieldTypes, hu]
      exact ⟨fun _ => trivial, fun hunknown => absurd hknown hunknown⟩
    | some u =>
      obtain ⟨c, f, hfirst, hof⟩ := Parser.firstUnknown_of_unknownUse? huses hash hu
      simp only [Parser.checkFieldTypes, hu]
      refine ⟨fun hknown => absurd hknown hfirst.not_knowsFieldTypes, fun _ => ?_⟩
      refine ⟨_, c, f, u.position, hts, hfirst, hof.place, ?_⟩
      rw [hof.component, hof.typeName]

/-- The first type is declared further down, the last two are not declared at all; and a word that is no
keyword is reported instead of an unknown type above it. -/
theorem parse_judges_fieldTypes_second :
    let source := "component A # c\n  x T\ncomponent B\n  a int\n  y U [k 'v']\n  z V\ntype T\n  w q\n"
    (∃ r ts c f, parse ⟨[], ["int", "U", "V"]⟩ source = .ok r ∧ tokenize source = .ok ts ∧
      r.FirstUnknown ⟨[], ["int"]⟩ c f ∧ c.name = "B" ∧ f.typeName = "U" ∧
      Token.TypeAt (Token.withoutComments ts) "B" f ⟨5, 5⟩) ∧
    parse ⟨[], ["int"]⟩ "component A\n  x T\nfoo" = .error (.parse ⟨.unknownKeyword "foo", ⟨3, 1⟩⟩) := by
  intro source
  have hword : parse ⟨[], []⟩ "component A\n  x T\nfoo" =
      .error (.parse ⟨.unknownKeyword "foo", ⟨3, 1⟩⟩) :=
    eq_error_of_map (show (parse ⟨[], []⟩ "component A\n  x T\nfoo").map Protocol.name = _ by decide +kernel)
  obtain ⟨hfails, -⟩ := @parse_judges_fieldTypes ⟨[], ["int"]⟩ (by decide) "component A\n  x T\nfoo"
  refine ⟨?_, hfails _ hword⟩
  obtain ⟨r, hr⟩ := exists_ok_of_isSome (show (parse ⟨[], []⟩ source).toOption.isSome by decide +kernel)
  have hpasses : (parse ⟨[], ["int", "U", "V"]⟩ source).toOption.isSome := by decide +kernel
  have herror : parse ⟨[], ["int"]⟩ source = .error (.parse ⟨.unknownFieldType "U" "B", ⟨5, 5⟩⟩) :=
    eq_error_of_map (show (parse ⟨[], ["int"]⟩ source).map Protocol.name = _ by decide +kernel)
  obtain ⟨hknown, hunknown⟩ := (@parse_judges_fieldTypes ⟨[], ["int"]⟩ (by decide) source).2 r hr
  obtain ⟨hknown', hunknown'⟩ := (@parse_judges_fieldTypes ⟨[], ["int", "U", "V"]⟩ (by decide) source).2 r hr
  obtain ⟨ts, c, f, place, hts, hfirst, htype, hparse⟩ :=
    hunknown fun hall => by cases herror.symm.trans (hknown hall)
  obtain ⟨⟨htypeName, hname⟩, rfl⟩ : ("U" = f.typeName ∧ "B" = c.name) ∧ ⟨5, 5⟩ = place := by
    simpa using herror.symm.trans hparse
  rw [← hname] at htype
  refine ⟨r, ts, c, f, hknown' ?_, hts, hfirst, hname.symm, htypeName.symm, htype⟩
  by_contra hall
  obtain ⟨_, _, _, _, _, _, _, hparse'⟩ := hunknown' hall
  rw [hparse'] at hpasses
  cases hpasses

end EntitySchema
