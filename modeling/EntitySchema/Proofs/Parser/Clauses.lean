import EntitySchema.Proofs.Parser.Scopes
/-!
  How a parser reads clauses.

  What a clause does to a draft is computed from its parts (`Clause.effect?`), and `Parser.take? host p c` is
  the parser after a whole clause, if it takes it.  A parser comes from between declarations to `q` exactly by
  the clauses of a program:

      Completes host p xs q  ↔  ∃ cs, Program cs xs ∧ cs.foldlM (take? host) p = some q

  This is `completes_between_iff`.  From left to right the first word of a line is a keyword, what follows it
  is the rest of one clause and no other (`exists_clause_of_completes`), and the induction goes on behind that
  clause.  From right to left a clause is read as a whole (`completes_of_clause`).

  A draft is asked about a declaration twice, when its name is read and when it is complete.  It cannot have
  changed in between, so what it takes at the end it took at the name (`exists_admit?_of_settle?`).
-/

namespace EntitySchema

/-- What a clause does to a draft; nothing if the levels or the items of an archetype are wrong. -/
def Clause.effect? (host : HostTypes) (draft : Draft) : Clause → Option Effect
  | namespaceLine first more =>
    some (.setNamespace (more.foldl (fun path part => path ++ "." ++ part) first))
  | nameLine name => some (.setName name)
  | component name pairs? fields =>
    some ((FieldOwner.component name (Pairs.metadata pairs?)).effect fields)
  | event name pairs? fields => some ((FieldOwner.event name (Pairs.metadata pairs?)).effect fields)
  | type name fields => some ((FieldOwner.type name).effect fields)
  | buffer name fields => some ((FieldOwner.buffer name).effect fields)
  | enumeration name constants =>
    some (.declare (.enumeration ⟨name, (constants.foldl ConstantLine.append #[]).toList⟩) [])
  | signature name parameterType returnType =>
    some (.declare (.command ⟨0, name, .signature parameterType returnType⟩) [])
  | command name fields => some ((FieldOwner.command name).effect fields)
  | archetype name pairs? lods =>
    (lods.foldlM (LodBlock.append? host draft) (.named 0 name (Pairs.metadata pairs?))).map
      fun archetype => .declare (.archetype archetype) []

/-- A draft takes a declaration if its kind is not full and does not have the name. -/
theorem Draft.admit?_eq_ok_iff {draft : Draft} {k : Kind} {name : String} {index : Nat} :
    draft.admit? k name = .ok index ↔
      draft.nextIndex k = .ok index ∧ draft.checkUnique k name = .ok () := by
  unfold admit?
  cases draft.nextIndex k with
  | error => simp
  | ok i => cases draft.checkUnique k name <;> simp

/-- A keyword comes from its own word only. -/
theorem Keyword.word_of_ofWord? {word : String} {k : Keyword} (h : ofWord? word = some k) :
    word = k.word := by
  unfold ofWord? at h
  split at h
  · cases h
    assumption
  · split at h
    · cases h
      assumption
    · obtain ⟨kind, hkind, rfl⟩ := Option.map_eq_some_iff.1 h
      unfold Kind.ofKeyword? at hkind
      have hword := List.find?_some hkind
      exact (beq_iff_eq.1 hword).symm

/-- A level of detail changes nothing but the levels. -/
theorem Archetype.name_of_addLod {a next : Archetype} {level : Int} {items : List Item}
    (h : a.addLod level items = .ok next) : next.name = a.name := by
  unfold addLod at h
  split at h
  · cases h
    rfl
  · cases h

namespace Parser

/-- The parser after a whole clause, if it takes it. -/
def take? (host : HostTypes) (p : Parser) (c : Clause) : Option Parser :=
  (c.effect? host p.draft).bind (settle? p.draft p.uses)

variable {host : HostTypes} {draft : Draft} {uses : Array FieldUse} {xs : List Lexeme} {q : Parser}

/-! ## First lines -/

/-- Behind a part of a namespace come further parts, each behind a dot, and the end of the line. -/
theorem completes_namespaceMore_iff {path : String} :
    Completes host ⟨draft, uses, .namespaceMore path⟩ xs q ↔
      ∃ (more : List String) (tail rest : List Lexeme) (p : Parser),
        xs = Clause.dotted more ++ tail ∧ LineEnd tail rest ∧
        settle? draft uses (.setNamespace
          (more.foldl (fun path part => path ++ "." ++ part) path)) = some p ∧
        p.Completes host rest q := by
  have hends : ∀ (path : String) found, found = some .endLine ∨ found = none →
      State.step host draft .start found (.namespaceMore path) = .ok ⟨.between, .setNamespace path⟩ := by
    rintro path found (rfl | rfl) <;> rfl
  constructor
  · intro hq
    -- A dot and a part are taken together, so the rest is shorter by two.
    induction hn : xs.length using Nat.strongRecOn generalizing xs path with
    | ind n ih =>
      cases xs with
      | nil =>
        obtain ⟨p, hp, hq⟩ := (completes_of_lineEnd .last (hends path)).1 hq
        exact ⟨[], [], [], p, rfl, .last, hp, hq⟩
      | cons x xs =>
        cases x with
        | endLine =>
          obtain ⟨p, hp, hq⟩ := (completes_of_lineEnd (.mark xs) (hends path)).1 hq
          exact ⟨[], _, xs, p, rfl, .mark xs, hp, hq⟩
        | operator mark =>
          by_cases hmark : mark = '.'
          · subst hmark
            obtain ⟨part, ys, rfl, htail⟩ :=
              (completes_symbol_iff fun _ => rfl).1 ((completes_enter rfl).1 hq)
            obtain ⟨more, tail, rest, p, rfl, hend, hp, hrest⟩ :=
              ih ys.length (by rw [← hn, List.length_cons, List.length_cons]; omega) htail rfl
            exact ⟨part :: more, tail, rest, p, rfl, hend, hp, hrest⟩
          · have hstep : State.step host draft .start (some (.operator mark)) (.namespaceMore path) =
                .error (.missingLineEnd (some (.operator mark))) := by
              simp [State.step, State.stepNamespaceMore, State.onLineEnd, hmark]
            exact absurd hq (not_completes hstep)
        | symbol | number | string | comment | openScope | closeScope | openMeta | closeMeta =>
          exact absurd hq (not_completes rfl)
  · rintro ⟨more, tail, rest, p, rfl, hend, hp, hq⟩
    induction more generalizing path with
    | nil => exact (completes_of_lineEnd hend (hends path)).2 ⟨p, hp, hq⟩
    | cons part more ih =>
      have hp' : settle? draft uses (.setNamespace (more.foldl
          (fun path part => path ++ "." ++ part) (path ++ "." ++ part))) = some p := hp
      have hmore := ih hp'
      exact (completes_enter rfl).2 ((completes_symbol_iff fun _ => rfl).2 ⟨part, _, rfl, hmore⟩)

/-- The name of a declaration is taken if the draft would take the declaration. -/
theorem completes_declarationName_iff {kind : Kind} :
    Completes host ⟨draft, uses, .declarationName kind⟩ xs q ↔
      ∃ name rest, xs = .symbol name :: rest ∧ (∃ index, draft.admit? kind name = .ok index) ∧
        Completes host ⟨draft, uses, State.afterName name kind⟩ rest q := by
  constructor
  · intro hq
    cases xs with
    | nil => exact absurd hq (not_completes_nil rfl)
    | cons x xs =>
      cases x with
      | symbol name =>
        -- The name is looked at first and then the room for it, and each can be refused.
        cases hunique : draft.checkUnique kind name with
        | error e =>
          have hstep : State.step host draft .start (some (.symbol name)) (.declarationName kind) =
              .error (.definition e) := by
            simp [State.step, State.stepName, State.onSymbol, hunique]
          exact absurd hq (not_completes hstep)
        | ok =>
          cases hindex : draft.nextIndex kind with
          | error e =>
            have hstep : State.step host draft .start (some (.symbol name)) (.declarationName kind) =
                .error (.definition e) := by
              simp [State.step, State.stepName, State.onSymbol, hunique, hindex]
            exact absurd hq (not_completes hstep)
          | ok index =>
            refine ⟨name, xs, rfl, ⟨index, Draft.admit?_eq_ok_iff.2 ⟨hindex, hunique⟩⟩,
              (completes_enter ?_).1 hq⟩
            simp [State.step, State.stepName, State.onSymbol, hunique, hindex]
      | number | string | comment | operator | openScope | closeScope | endLine | openMeta | closeMeta =>
        exact absurd hq (not_completes rfl)
  · rintro ⟨name, rest, rfl, ⟨index, hfree⟩, hq⟩
    obtain ⟨hindex, hunique⟩ := Draft.admit?_eq_ok_iff.1 hfree
    refine (completes_enter ?_).2 hq
    simp [State.step, State.stepName, State.onSymbol, hunique, hindex]

/-- A command goes on with its scope or with the type of its parameter. -/
theorem completes_commandForm_iff {name : String} :
    Completes host ⟨draft, uses, .commandForm name⟩ xs q ↔
      (∃ rest, xs = .openScope :: rest ∧
        Completes host ⟨draft, uses, .inBody (.fields (.command name) #[])⟩ rest q) ∨
      ∃ parameterType rest, xs = .symbol parameterType :: rest ∧
        Completes host ⟨draft, uses, .commandReturn name parameterType⟩ rest q := by
  constructor
  · intro hq
    cases xs with
    | nil => exact absurd hq (not_completes_nil rfl)
    | cons x xs =>
      cases x with
      | openScope => exact Or.inl ⟨xs, rfl, (completes_enter rfl).1 hq⟩
      | symbol parameterType => exact Or.inr ⟨parameterType, xs, rfl, (completes_enter rfl).1 hq⟩
      | number | string | comment | operator | closeScope | endLine | openMeta | closeMeta =>
        exact absurd hq (not_completes rfl)
  · rintro (⟨rest, rfl, hq⟩ | ⟨parameterType, rest, rfl, hq⟩)
    · exact (completes_enter rfl).2 hq
    · exact (completes_enter rfl).2 hq

/-! ## Clauses -/

/-- What follows a keyword is the rest of a clause. -/
theorem exists_clause_of_completes {k : Keyword}
    (hq : Completes host ⟨draft, uses, State.afterKeyword k⟩ xs q) :
    ∃ c tail rest p, .symbol k.word :: xs = c.lexemes ++ tail ∧ c.Ends tail rest ∧
      take? host ⟨draft, uses, .between⟩ c = some p ∧ p.Completes host rest q := by
  cases k with
  | namespaceLine =>
    obtain ⟨first, tail, rfl, hmore⟩ := (completes_symbol_iff fun _ => rfl).1 hq
    obtain ⟨more, tail, rest, p, rfl, hend, hp, hrest⟩ := completes_namespaceMore_iff.1 hmore
    exact ⟨.namespaceLine first more, tail, rest, p, rfl, hend, hp, hrest⟩
  | nameLine =>
    obtain ⟨name, tail, rfl, hname⟩ := (completes_symbol_iff fun _ => rfl).1 hq
    obtain ⟨rest, p, hend, hp, hrest⟩ := (completes_lineEnd_iff fun _ => rfl).1 hname
    exact ⟨.nameLine name, tail, rest, p, rfl, hend, hp, hrest⟩
  | declaration kind =>
    obtain ⟨name, tail, rfl, -, hname⟩ := completes_declarationName_iff.1 hq
    cases kind with
    | component =>
      obtain ⟨pairs?, tail, rfl, hbody⟩ := completes_header_iff.1 hname
      obtain ⟨fields, rest, p, rfl, hp, hrest⟩ := completes_fields_iff.1 hbody
      exact ⟨.component name pairs? fields, rest, rest, p,
        by simp [Clause.lexemes, Keyword.word, Kind.keyword], rfl, hp, hrest⟩
    | event =>
      obtain ⟨pairs?, tail, rfl, hbody⟩ := completes_header_iff.1 hname
      obtain ⟨fields, rest, p, rfl, hp, hrest⟩ := completes_fields_iff.1 hbody
      exact ⟨.event name pairs? fields, rest, rest, p,
        by simp [Clause.lexemes, Keyword.word, Kind.keyword], rfl, hp, hrest⟩
    | archetype =>
      obtain ⟨pairs?, tail, rfl, hbody⟩ := completes_header_iff.1 hname
      obtain ⟨lods, archetype, rest, p, rfl, hlods, hp, hrest⟩ := completes_lods_iff.1 hbody
      refine ⟨.archetype name pairs? lods, rest, rest, p,
        by simp [Clause.lexemes, Keyword.word, Kind.keyword], rfl, ?_, hrest⟩
      simp only [take?, Clause.effect?, hlods, Option.map_some, Option.bind_some]
      exact hp
    | type =>
      obtain ⟨tail, rfl, hbody⟩ := completes_opening_iff.1 hname
      obtain ⟨fields, rest, p, rfl, hp, hrest⟩ := completes_fields_iff.1 hbody
      exact ⟨.type name fields, rest, rest, p,
        by simp [Clause.lexemes, Keyword.word, Kind.keyword], rfl, hp, hrest⟩
    | buffer =>
      obtain ⟨tail, rfl, hbody⟩ := completes_opening_iff.1 hname
      obtain ⟨fields, rest, p, rfl, hp, hrest⟩ := completes_fields_iff.1 hbody
      exact ⟨.buffer name fields, rest, rest, p,
        by simp [Clause.lexemes, Keyword.word, Kind.keyword], rfl, hp, hrest⟩
    | enumeration =>
      obtain ⟨tail, rfl, hbody⟩ := completes_opening_iff.1 hname
      obtain ⟨constants, rest, p, rfl, hp, hrest⟩ := completes_constants_iff.1 hbody
      exact ⟨.enumeration name constants, rest, rest, p,
        by simp [Clause.lexemes, Keyword.word, Kind.keyword], rfl, hp, hrest⟩
    | command =>
      -- Only the lexeme behind the name tells the two forms of a command apart.
      rcases completes_commandForm_iff.1 hname with ⟨tail, rfl, hbody⟩ | ⟨parameterType, tail, rfl, hform⟩
      · obtain ⟨fields, rest, p, rfl, hp, hrest⟩ := completes_fields_iff.1 hbody
        exact ⟨.command name fields, rest, rest, p,
          by simp [Clause.lexemes, Keyword.word, Kind.keyword], rfl, hp, hrest⟩
      · obtain ⟨returnType, tail, rfl, hreturn⟩ := (completes_symbol_iff fun _ => rfl).1 hform
        obtain ⟨rest, p, hend, hp, hrest⟩ := (completes_lineEnd_iff fun _ => rfl).1 hreturn
        exact ⟨.signature name parameterType returnType, tail, rest, p, rfl, hend, hp, hrest⟩

/-- A keyword between declarations is taken. -/
theorem completes_word_iff (k : Keyword) :
    Completes host ⟨draft, uses, .between⟩ (.symbol k.word :: xs) q ↔
      Completes host ⟨draft, uses, State.afterKeyword k⟩ xs q := by
  refine completes_enter ?_
  simp [State.step, State.stepBetween, Keyword.ofWord?_word]

/-- What the draft takes at the end of a declaration it took at the name. -/
theorem exists_admit?_of_settle? {declaration : Declaration} {more : List FieldUse} {p : Parser}
    (h : settle? draft uses (.declare declaration more) = some p) :
    ∃ index, draft.admit? declaration.kind declaration.name = .ok index := by
  cases hfree : draft.admit? declaration.kind declaration.name with
  | ok index => exact ⟨index, rfl⟩
  | error e => simp [settle?, apply, Draft.add, hfree] at h

/-- Levels of detail leave the name of their archetype alone. -/
theorem name_of_append? {blocks : List LodBlock} {archetype next : Archetype}
    (h : blocks.foldlM (LodBlock.append? host draft) archetype = some next) :
    next.name = archetype.name := by
  induction blocks generalizing archetype with
  | nil =>
    cases h
    rfl
  | cons block blocks ih =>
    rw [List.foldlM_cons] at h
    obtain ⟨mid, hmid, hnext⟩ := Option.bind_eq_some_iff.1 h
    obtain ⟨items, -, hadd⟩ := LodBlock.append?_eq_some_iff.1 hmid
    rw [ih hnext, Archetype.name_of_addLod hadd]

/-- A clause is read as a whole. -/
theorem completes_of_clause {c : Clause} {tail rest : List Lexeme} {p : Parser}
    (hends : c.Ends tail rest) (htake : take? host ⟨draft, uses, .between⟩ c = some p)
    (hq : p.Completes host rest q) :
    Completes host ⟨draft, uses, .between⟩ (c.lexemes ++ tail) q := by
  -- The draft is asked twice: at the name, and when the declaration is complete.
  have hname : ∀ {kind : Kind} {name : String} {xs : List Lexeme},
      (∃ index, draft.admit? kind name = .ok index) →
      Completes host ⟨draft, uses, State.afterName name kind⟩ xs q →
      Completes host ⟨draft, uses, .between⟩ (.symbol kind.keyword :: .symbol name :: xs) q :=
    fun hfree hbody => (completes_word_iff (.declaration _)).2
      (completes_declarationName_iff.2 ⟨_, _, rfl, hfree, hbody⟩)
  cases c with
  | namespaceLine first more =>
    exact (completes_word_iff .namespaceLine).2 ((completes_symbol_iff fun _ => rfl).2
      ⟨first, _, rfl, completes_namespaceMore_iff.2 ⟨more, tail, rest, p, rfl, hends, htake, hq⟩⟩)
  | nameLine name =>
    have hsettle : settle? draft uses (.setName name) = some p := htake
    have hline : Completes host ⟨draft, uses, .protocolNameEnd name⟩ tail q :=
      (completes_lineEnd_iff fun _ => rfl).2 ⟨rest, p, hends, hsettle, hq⟩
    exact (completes_word_iff .nameLine).2 ((completes_symbol_iff fun _ => rfl).2
      ⟨name, _, rfl, hline⟩)
  | component name pairs? fields =>
    cases hends
    simp only [Clause.lexemes, List.cons_append, List.append_assoc, List.nil_append]
    exact hname (exists_admit?_of_settle? htake) (completes_header_iff.2
      ⟨pairs?, _, rfl, completes_fields_iff.2 ⟨fields, tail, p, rfl, htake, hq⟩⟩)
  | event name pairs? fields =>
    cases hends
    simp only [Clause.lexemes, List.cons_append, List.append_assoc, List.nil_append]
    exact hname (exists_admit?_of_settle? htake) (completes_header_iff.2
      ⟨pairs?, _, rfl, completes_fields_iff.2 ⟨fields, tail, p, rfl, htake, hq⟩⟩)
  | type name fields =>
    cases hends
    simp only [Clause.lexemes, List.cons_append, List.append_assoc, List.nil_append]
    exact hname (exists_admit?_of_settle? htake) (completes_opening_iff.2
      ⟨_, rfl, completes_fields_iff.2 ⟨fields, tail, p, rfl, htake, hq⟩⟩)
  | buffer name fields =>
    cases hends
    simp only [Clause.lexemes, List.cons_append, List.append_assoc, List.nil_append]
    exact hname (exists_admit?_of_settle? htake) (completes_opening_iff.2
      ⟨_, rfl, completes_fields_iff.2 ⟨fields, tail, p, rfl, htake, hq⟩⟩)
  | enumeration name constants =>
    cases hends
    simp only [Clause.lexemes, List.cons_append, List.append_assoc, List.nil_append]
    exact hname (exists_admit?_of_settle? htake) (completes_opening_iff.2
      ⟨_, rfl, completes_constants_iff.2 ⟨constants, tail, p, rfl, htake, hq⟩⟩)
  | signature name parameterType returnType =>
    have hline : Completes host ⟨draft, uses, .commandEnd name parameterType returnType⟩ tail q :=
      (completes_lineEnd_iff fun _ => rfl).2 ⟨rest, p, hends, htake, hq⟩
    exact hname (exists_admit?_of_settle? htake) (completes_commandForm_iff.2 (Or.inr
      ⟨parameterType, _, rfl, (completes_symbol_iff fun _ => rfl).2 ⟨returnType, _, rfl, hline⟩⟩))
  | command name fields =>
    cases hends
    simp only [Clause.lexemes, List.cons_append, List.append_assoc, List.nil_append]
    exact hname (exists_admit?_of_settle? htake) (completes_commandForm_iff.2 (Or.inl
      ⟨_, rfl, completes_fields_iff.2 ⟨fields, tail, p, rfl, htake, hq⟩⟩))
  | archetype name pairs? lods =>
    cases hends
    obtain ⟨effect, heffect, hsettle⟩ := Option.bind_eq_some_iff.1 htake
    obtain ⟨archetype, hlods, rfl⟩ := Option.map_eq_some_iff.1 heffect
    have hfree := exists_admit?_of_settle? hsettle
    rw [show (Declaration.archetype archetype).name = name from name_of_append? hlods] at hfree
    simp only [Clause.lexemes, List.cons_append, List.append_assoc, List.nil_append]
    exact hname hfree (completes_header_iff.2
      ⟨pairs?, _, rfl, completes_lods_iff.2 ⟨lods, archetype, tail, p, rfl, hlods, hsettle, hq⟩⟩)

/-! ## Programs -/

/-- After a clause a parser is between declarations. -/
theorem state_of_take? {c : Clause} {p p' : Parser} (h : take? host p c = some p') :
    p'.state = .between := by
  obtain ⟨effect, -, hsettle⟩ := Option.bind_eq_some_iff.1 h
  exact settle?_eq_some hsettle

/-- What comes behind a clause is no longer with its end than without. -/
theorem length_le_of_ends {c : Clause} {tail rest : List Lexeme} (h : c.Ends tail rest) :
    rest.length ≤ tail.length := by
  have hline : LineEnd tail rest → rest.length ≤ tail.length := by
    rintro (_ | _) <;> simp
  cases c with
  | namespaceLine | nameLine | signature => exact hline h
  | component | event | type | buffer | enumeration | command | archetype =>
    cases h
    exact Nat.le_refl _

/-- A parser between declarations comes to `q` exactly by the clauses of a program. -/
theorem completes_between_iff : Completes host ⟨draft, uses, .between⟩ xs q ↔
    ∃ cs, Program cs xs ∧ cs.foldlM (take? host) ⟨draft, uses, .between⟩ = some q := by
  constructor
  · intro hq
    induction hn : xs.length using Nat.strongRecOn generalizing draft uses xs with
    | ind n ih =>
      cases xs with
      | nil =>
        obtain rfl := completes_between_nil.1 hq
        exact ⟨[], .nil, rfl⟩
      | cons x xs =>
        cases x with
        | endLine =>
          obtain ⟨cs, hprogram, hcs⟩ := ih xs.length (by rw [← hn, List.length_cons]; omega)
            ((completes_enter rfl).1 hq) rfl
          exact ⟨cs, hprogram.blank, hcs⟩
        | symbol word =>
          cases hkeyword : Keyword.ofWord? word with
          | none =>
            have hstep : State.step host draft .start (some (.symbol word)) .between =
                .error (.unknownKeyword word) := by
              simp [State.step, State.stepBetween, hkeyword]
            exact absurd hq (not_completes hstep)
          | some k =>
            obtain rfl := Keyword.word_of_ofWord? hkeyword
            obtain ⟨c, tail, rest, p, hxs, hends, hp, hrest⟩ :=
              exists_clause_of_completes ((completes_word_iff k).1 hq)
            obtain ⟨draft', uses', state⟩ := p
            obtain rfl : state = .between := state_of_take? hp
            -- No clause is empty, so the induction can go on behind it.
            have hshort : rest.length < n := by
              have hle := length_le_of_ends hends
              have hlength := congrArg List.length hxs
              have hpos : 0 < c.lexemes.length := by cases c <;> simp [Clause.lexemes]
              rw [List.length_append, hn] at hlength
              omega
            obtain ⟨cs, hprogram, hcs⟩ := ih rest.length hshort hrest rfl
            refine ⟨c :: cs, hxs ▸ .clause hends hprogram, ?_⟩
            rw [List.foldlM_cons, hp]
            exact hcs
        | number | string | comment | operator | openScope | closeScope | openMeta | closeMeta =>
          exact absurd hq (not_completes rfl)
  · rintro ⟨cs, hprogram, hcs⟩
    -- From clauses to the parser the induction is on the program.
    induction hprogram generalizing draft uses with
    | nil =>
      cases hcs
      exact completes_between_nil.2 rfl
    | blank _ ih => exact (completes_enter rfl).2 (ih hcs)
    | clause hends _ ih =>
      rw [List.foldlM_cons] at hcs
      obtain ⟨⟨draft', uses', state⟩, hp, hcs⟩ := Option.bind_eq_some_iff.1 hcs
      obtain rfl : state = .between := state_of_take? hp
      exact completes_of_clause hends hp (ih hcs)

end Parser

end EntitySchema
