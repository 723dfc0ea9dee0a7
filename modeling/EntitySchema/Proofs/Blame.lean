import EntitySchema.Proofs.FieldTypes
/-!
  Where faults of the parser are placed.

  A fault is placed at the token that was looked at last.  The machine is built so that this is the token at
  fault: a name is looked at when it is read, and so is the number of a level of detail, although both are
  looked at again when what they name is complete.

  `fault.Blames source ts place` says for every fault what the tokens `ts` end with that were read until it
  was found, comments apart, and which of them stands at `place`.  It is an inductive with a constructor for
  every kind of fault, so what is said of a kind can be read off its constructor: a duplicate name stands
  behind the keyword of its kind, the number of a level behind the word `lod`, and so on.  Only the types of
  fields are judged later, at the end of the source, and then the place is that of the type.

  The proof takes the three moments at which parsing stops one by one (`Parser.Stops`).

  1. At a token: the machine refuses what it found, and whatever it refuses blames that token
     (`State.Refuses.blames`).  What stands in front of the token is known because the state follows from it
     (`State.Follows`).

  2. At the end of the source: nothing was found, and the fault says so (`Parser.found?_of_feedEnd`).

  3. Behind the end: the first use of an unknown type is a use, so it has a place in the source.

  Since a fault ends what was read, no fault with a name, with the number of declarations or with a level of
  detail is found behind the name or the number.

  Main statement: `parse_error_blames`.
-/

namespace EntitySchema

/-- The level that is out of turn. -/
def LodError.level : LodError → Int
  | duplicate level | outOfOrder _ level => level

/-- The tokens of a source, comments apart, that have been read when the fault is found, and its place. -/
inductive ParseFault.Blames (source : String) : List Token → Position → ParseFault → Prop where
  /-- What was found is the last token. -/
  | found {front : List Token} {x : Lexeme} {place : Position} {fault : ParseFault}
      (hfound : fault.found? = some (some x)) : Blames source (front ++ [⟨x, place⟩]) place fault
  /-- Nothing was found: all tokens have been read, and the place is that of the last one, if there is one. -/
  | endOfSource {ts : List Token} {fault : ParseFault} (hfound : fault.found? = some none)
      (hts : tokenize source = .ok ts) :
      Blames source (Token.withoutComments ts)
        (((Token.withoutComments ts).getLast?.map (·.position)).getD .start) fault
  /-- The word is the last token. -/
  | unknownKeyword {front : List Token} {word : String} {place : Position} :
      Blames source (front ++ [⟨.symbol word, place⟩]) place (.unknownKeyword word)
  /-- The name of the item is the last token. -/
  | unknownComponentType {front : List Token} {name : String} {place : Position} :
      Blames source (front ++ [⟨.symbol name, place⟩]) place (.unknownComponentType name)
  /-- The name is the last token, behind the keyword of its kind and a whole description. -/
  | duplicateName {front : List Token} {cs : List Clause} {kind : Kind} {name : String}
      {keywordPlace place : Position} (hprogram : Program cs (Token.lexemes front)) :
      Blames source (front ++ [⟨.symbol kind.keyword, keywordPlace⟩, ⟨.symbol name, place⟩]) place
        (.definition (.duplicateName kind name))
  /-- The name of the declaration that is one too many is the last token, behind the keyword of its kind and a
  whole description. -/
  | tooMany {front : List Token} {cs : List Clause} {kind : Kind} {name : String} {capacity : Nat}
      {keywordPlace place : Position} (hprogram : Program cs (Token.lexemes front)) :
      Blames source (front ++ [⟨.symbol kind.keyword, keywordPlace⟩, ⟨.symbol name, place⟩]) place
        (.definition (.tooMany kind capacity))
  /-- The number of the level is the last token, behind the word for levels. -/
  | lod {front : List Token} {e : LodError} {wordPlace place : Position} :
      Blames source (front ++ [⟨.symbol "lod", wordPlace⟩, ⟨.number e.level, place⟩]) place (.lod e)
  /-- All tokens have been read, and the type of a field in the component stands at the place. -/
  | unknownFieldType {ts : List Token} {component : String} {f : Field} {place : Position}
      (hts : tokenize source = .ok ts) (htype : Token.TypeAt (Token.withoutComments ts) component f place) :
      Blames source (Token.withoutComments ts) place (.unknownFieldType f.typeName component)

/-- The fault names the level that was asked for. -/
theorem Archetype.level_of_nextLevel {a : Archetype} {level : Int} {e : LodError}
    (h : a.nextLevel level = .error e) : e.level = level := by
  unfold nextLevel at h
  split at h
  · cases h
  split at h
  · cases h
    rfl
  · cases h
    rfl

namespace State.Refuses

variable {s : State} {fault : ParseFault} {source : String} {front : List Token} {x : Lexeme}
  {place : Position}

/-- The machine finds its faults at the token that they blame. -/
theorem blames (h : s.Refuses (some x) fault) (hs : s.Follows front) :
    fault.Blames source (front ++ [⟨x, place⟩]) place := by
  cases h with
  | found hfound => exact .found hfound
  | keyword => exact .unknownKeyword
  | item => exact .unknownComponentType
  | duplicateName =>
    obtain ⟨cs, above, keywordPlace, rfl, hprogram⟩ := hs
    rw [List.append_assoc]
    exact .duplicateName hprogram
  | tooMany =>
    obtain ⟨cs, above, keywordPlace, rfl, hprogram⟩ := hs
    rw [List.append_assoc]
    exact .tooMany hprogram
  | lodLevel hlevel =>
    obtain ⟨above, wordPlace, rfl⟩ := hs
    rw [List.append_assoc, ← Archetype.level_of_nextLevel hlevel]
    exact .lod

/-- At the end of the source nothing was found. -/
theorem found?_of_none (h : s.Refuses none fault) : fault.found? = some none := by
  cases h with
  | found hfound => exact hfound

end State.Refuses

/-- A fault at the end of the source says so, and is placed where it is told. -/
theorem Parser.found?_of_feedEnd {host : HostTypes} {place : Position} {p : Parser} {e : ParseError}
    (hp : p.state.Granted p.draft) (h : p.feedEnd host place = .error e) :
    e.fault.found? = some none ∧ e.position = place := by
  unfold feedEnd at h
  split at h
  · next fault hfault =>
    cases h
    exact ⟨(refuses_of_feed hp hfault).found?_of_none, rfl⟩
  · next mid hmid =>
    split at h
    · next fault hfault =>
      cases h
      exact ⟨(refuses_of_feed (granted_of_feed hp hmid) hfault).found?_of_none, rfl⟩
    · cases h

/-- Every fault `e` of the parser blames what was read last, or the end of the source; an unknown field type is
placed where it is written.  What was read is `history host source`, a part of the tokens of the source from
the first one on (`history_isPrefix`); a parse that succeeds reads just the tokens that its hash is taken of
(`Parser.readSource_of_feedSource`), so it is the same reading in both cases. -/
theorem parse_error_blames {host : HostTypes} {source : String} {e : ParseError}
    (h : parse host source = .error (.parse e)) :
    history host source <+: (lex source).tokens ∧
      e.fault.Blames source (Token.withoutComments (history host source)) e.position := by
  refine ⟨history_isPrefix host source, ?_⟩
  -- The fault was found at a token, at the end of the source, or when types were looked at.
  cases Parser.stops_of_parse_error h with
  | @atToken front t p fault hread ht htaken hfault =>
    have hlast : Token.withoutComments (front ++ [t]) = Token.withoutComments front ++ [t] := by
      simp [Token.withoutComments, ht]
    rw [hread, hlast]
    exact (Parser.refuses_of_feed (Parser.granted_of_feedTokens htaken) hfault).blames
      (Parser.follows_of_feedTokens htaken).1
  | atEnd hts hread htaken hfault =>
    obtain ⟨hfound, hplace⟩ := Parser.found?_of_feedEnd (Parser.granted_of_feedTokens htaken) hfault
    rw [hread, hplace, Parser.placeAfter_eq]
    exact .endOfSource hfound hts
  | atType hts hread htaken hend hunknown =>
    have huses := Parser.usesFollow_of_feedEnd (Parser.follows_of_feedTokens htaken).2 hend
    obtain ⟨c, f, -, hof⟩ := Parser.firstUnknown_of_unknownUse? huses 0 hunknown
    rw [hread, hof.typeName, hof.component]
    exact .unknownFieldType hts hof.place

/-- A name that another kind has too, and that is taken; a level that leaves a gap; and a source that ends too
early.  Comments stand around all of them, and the first two sources go on with a fault in the text. -/
theorem parse_error_blames_early :
    let named := "type E\n  x int\nevent E # c\n  y int\n\n# d\nevent E # e\n  z int ?"
    let levels := "archetype A\n  lod 0\n    T # c\n  lod 2 # d\n    ?"
    let ended := "# c\nevent # d"
    ((ParseFault.definition (.duplicateName .event "E")).Blames named
        (Token.withoutComments (history .empty named)) ⟨7, 7⟩ ∧
      (history .empty named).getLast? = some ⟨.symbol "E", ⟨7, 7⟩⟩) ∧
    ((ParseFault.lod (.outOfOrder 1 2)).Blames levels
        (Token.withoutComments (history ⟨["T"], []⟩ levels)) ⟨4, 7⟩ ∧
      (history ⟨["T"], []⟩ levels).getLast? = some ⟨.number 2, ⟨4, 7⟩⟩) ∧
    ((ParseFault.expected (.name .event) none).Blames ended
        (Token.withoutComments (history .empty ended)) ⟨2, 1⟩ ∧
      (history .empty ended).getLast? = some ⟨.comment "d", ⟨2, 7⟩⟩) := by
  intro named levels ended
  have hnamed : parse .empty named = .error (.parse ⟨.definition (.duplicateName .event "E"), ⟨7, 7⟩⟩) :=
    eq_error_of_map (show (parse .empty named).map Protocol.name = _ by decide +kernel)
  have hlevels : parse ⟨["T"], []⟩ levels = .error (.parse ⟨.lod (.outOfOrder 1 2), ⟨4, 7⟩⟩) :=
    eq_error_of_map (show (parse ⟨["T"], []⟩ levels).map Protocol.name = _ by decide +kernel)
  have hended : parse .empty ended = .error (.parse ⟨.expected (.name .event) none, ⟨2, 1⟩⟩) :=
    eq_error_of_map (show (parse .empty ended).map Protocol.name = _ by decide +kernel)
  exact ⟨⟨(parse_error_blames hnamed).2, by decide +kernel⟩, ⟨(parse_error_blames hlevels).2, by decide +kernel⟩,
    (parse_error_blames hended).2, by decide +kernel⟩

end EntitySchema
