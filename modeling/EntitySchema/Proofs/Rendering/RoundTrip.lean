import EntitySchema.Proofs.Parser.Described
import EntitySchema.Proofs.Rendering.Lines
/-!
  Descriptions that are written down and read again.

  Every clause has its lines: one for what stands before its scope, and one for every member, two spaces
  further in (`Clause.lines`).  A text of these lines is read as a program of the clauses, whatever separates
  the words of a line.

  1. **Lines say clauses.**  Members one level deeper, each on a line, are a scope (`Line.said_members`), and
     levels of detail are scopes in a scope (`Line.said_lods`).  So the lines of a clause say the clause and
     end it before the lines behind it (`exists_lexemes_lines`), and all lines are a program
     (`program_lines`).  A scope has to have a member: an empty one would leave nothing on the page but the
     end of a line.

  2. **Lines can be read.**  No line is more than one level deeper than the one before it (`climbs_flatMap`),
     and the words of a clause that is `Writable` are legible (`Writable.legible_lines`).

  3. **Meta data is kept.**  Where no key is given twice, the map of the pairs is the pairs themselves
     (`Pairs.metadata_eq`).

  The parser then finds what the clauses describe, and the hash is that of the text with single spaces, which
  is the canonical text of the tokens:

      parse host (render sp cs) = .ok r
      r.declarations k = Clause.declarations k cs
      r.hash = hashText (render .single cs)

  Main statement: `parse_render`.
-/

namespace EntitySchema

/-! ## The lines of a clause -/

/-- The line of a field, one level in. -/
def FieldLine.toLine (line : FieldLine) : Line :=
  ⟨1, .symbol line.name, .symbol line.typeName :: Pairs.bracketed line.pairs?⟩

/-- The line of a constant, one level in. -/
def ConstantLine.toLine (line : ConstantLine) : Line :=
  ⟨1, .symbol line.name, .number line.value :: Pairs.bracketed line.pairs?⟩

/-- The line of an item, two levels in. -/
def ItemLine.toLine (line : ItemLine) : Line := ⟨2, .symbol line.name, Pairs.bracketed line.pairs?⟩

/-- The line of a level of detail, and those of its items. -/
def LodBlock.lines (block : LodBlock) : List Line :=
  ⟨1, .symbol "lod", [.number block.level]⟩ :: block.items.map ItemLine.toLine

namespace Clause

/-- The lines of a clause. -/
def lines : Clause → List Line
  | namespaceLine first more => [⟨0, .symbol "namespace", .symbol first :: dotted more⟩]
  | nameLine name => [⟨0, .symbol "name", [.symbol name]⟩]
  | component name pairs? fields =>
    ⟨0, .symbol "component", .symbol name :: Pairs.bracketed pairs?⟩ :: fields.map FieldLine.toLine
  | event name pairs? fields =>
    ⟨0, .symbol "event", .symbol name :: Pairs.bracketed pairs?⟩ :: fields.map FieldLine.toLine
  | type name fields => ⟨0, .symbol "type", [.symbol name]⟩ :: fields.map FieldLine.toLine
  | buffer name fields => ⟨0, .symbol "buffer", [.symbol name]⟩ :: fields.map FieldLine.toLine
  | enumeration name constants =>
    ⟨0, .symbol "enum", [.symbol name]⟩ :: constants.map ConstantLine.toLine
  | signature name parameterType returnType =>
    [⟨0, .symbol "command", [.symbol name, .symbol parameterType, .symbol returnType]⟩]
  | command name fields => ⟨0, .symbol "command", [.symbol name]⟩ :: fields.map FieldLine.toLine
  | archetype name pairs? lods =>
    ⟨0, .symbol "archetype", .symbol name :: Pairs.bracketed pairs?⟩ :: lods.flatMap LodBlock.lines

/-- Clauses as a text. -/
def render (sp : Spacing) (cs : List Clause) : String := String.ofList (Line.text sp (cs.flatMap lines))

/-- The scope of the clause, if it has one, is not empty. -/
def Filled : Clause → Prop
  | namespaceLine _ _ | nameLine _ | signature _ _ _ => True
  | component _ _ fields | event _ _ fields | type _ fields | buffer _ fields | command _ fields =>
    fields ≠ []
  | enumeration _ constants => constants ≠ []
  | archetype _ _ lods => lods ≠ [] ∧ ∀ block ∈ lods, block.items ≠ []

/-- The clause can be written on lines. -/
structure Writable (c : Clause) : Prop where
  /-- Its words can be spelled. -/
  legible : ∀ x ∈ c.lexemes, x.Legible
  /-- Its scopes are not empty. -/
  filled : c.Filled
  /-- No meta data in it has a key twice. -/
  keys_nodup : ∀ pairs ∈ c.blocks.filterMap id, (pairs.map (·.1)).Nodup

end Clause

/-! ## What lines say -/

namespace Line

variable {depth : Nat} {line : Line} {rows more : List Line}

/-- Before a line that is not deeper the line ends, and scopes close. -/
theorem map_lexeme_marks_of_le {level : Nat} (h : level ≤ depth) :
    (Piece.marks depth level false).map Piece.lexeme =
      .endLine :: List.replicate (depth - level) .closeScope := by
  simp [Piece.marks, Nat.not_lt.2 h, Piece.lexeme]

/-- Before a line one level deeper a scope opens. -/
theorem said_deeper (h : line.depth = depth + 1) :
    said depth (line :: more) = .openScope :: (line.words ++ said (depth + 1) more) := by
  rw [said_cons, h]
  simp [Piece.marks, Piece.lexeme]

/-- Before a line of the same level the line ends. -/
theorem said_same (h : line.depth = depth) :
    said depth (line :: more) = .endLine :: (line.words ++ said depth more) := by
  rw [said_cons, h, map_lexeme_marks_of_le (Nat.le_refl _)]
  simp

/-- Everything that is open ends before lines of their own. -/
theorem said_top (h : ∀ line ∈ more.head?, line.depth = 0) :
    said depth more = .endLine :: (List.replicate depth .closeScope ++ lexemes more) := by
  cases more with
  | nil => simp [said, piecesBehind, lexemes, pieces, map_lexeme_marks_of_le (Nat.zero_le depth)]
  | cons line lines =>
    rw [said_cons, h line rfl, map_lexeme_marks_of_le (Nat.zero_le depth), lexemes_cons, h line rfl]
    simp

/-- Lines of one level end one after the other. -/
theorem said_rows (hrows : ∀ row ∈ rows, row.depth = depth) {tail : List Lexeme}
    (htail : said depth more = .endLine :: tail) :
    said depth (rows ++ more) =
      .endLine :: (rows.flatMap (fun row => row.words ++ [.endLine]) ++ tail) := by
  induction rows with
  | nil => exact htail
  | cons row rows ih =>
    rw [List.cons_append, said_same (hrows row List.mem_cons_self),
      ih fun other ho => hrows other (List.mem_cons_of_mem row ho)]
    simp

/-- Members one level deeper, each on a line, are a scope. -/
theorem said_members {α : Type} (toLine : α → Line) (write : α → List Lexeme)
    (hdepth : ∀ a, (toLine a).depth = depth + 1)
    (hwrite : ∀ a, write a = (toLine a).words ++ [.endLine]) {as : List α} (hne : as ≠ [])
    {tail : List Lexeme} (htail : said (depth + 1) more = .endLine :: tail) :
    said depth (as.map toLine ++ more) = .openScope :: (as.flatMap write ++ tail) := by
  obtain rfl : write = fun a => (toLine a).words ++ [.endLine] := funext hwrite
  cases as with
  | nil => exact absurd rfl hne
  -- The first member opens the scope, and the others are lines of one level.
  | cons a as =>
    rw [List.map_cons, List.cons_append, said_deeper (hdepth a),
      said_rows (by simpa using fun a _ => hdepth a) htail]
    simp [List.flatMap_map]

/-- Lines of one level climb at most once, at the first of them. -/
theorem climbs_rows {level : Nat} (hrows : ∀ row ∈ rows, row.depth = level) (hlevel : level ≤ depth + 1)
    (hmore : ∀ depth, Climbs depth more) : Climbs depth (rows ++ more) := by
  induction rows generalizing depth with
  | nil => exact hmore depth
  | cons row rows ih =>
    have hrow := hrows row List.mem_cons_self
    refine ⟨hrow ▸ hlevel, ih (fun other ho => hrows other (List.mem_cons_of_mem row ho)) ?_⟩
    omega

end Line

/-! ## Lines of levels of detail -/

namespace Line

variable {more : List Line}

/-- Further levels of detail end the items before them. -/
theorem said_lods (htop : ∀ line ∈ more.head?, line.depth = 0) {blocks : List LodBlock}
    (hne : ∀ block ∈ blocks, block.items ≠ []) :
    said 2 (blocks.flatMap LodBlock.lines ++ more) = .endLine :: .closeScope ::
      (blocks.flatMap LodBlock.lexemes ++ .closeScope :: lexemes more) := by
  induction blocks with
  | nil => exact said_top htop
  | cons block blocks ih =>
    -- What comes behind the items is said at their level, two scopes deep.
    have hmore := ih fun other ho => hne other (List.mem_cons_of_mem block ho)
    have hitems := said_members ItemLine.toLine ItemLine.lexemes (fun _ => rfl) (fun _ => rfl)
      (hne block List.mem_cons_self) hmore
    rw [List.flatMap_cons, LodBlock.lines, List.append_assoc, List.cons_append, said_cons, hitems]
    simp [map_lexeme_marks_of_le, words, LodBlock.lexemes]

/-- Levels of detail are the scope of an archetype. -/
theorem said_archetype (htop : ∀ line ∈ more.head?, line.depth = 0) {blocks : List LodBlock}
    (hblocks : blocks ≠ []) (hne : ∀ block ∈ blocks, block.items ≠ []) :
    said 0 (blocks.flatMap LodBlock.lines ++ more) =
      .openScope :: (blocks.flatMap LodBlock.lexemes ++ .closeScope :: lexemes more) := by
  cases blocks with
  | nil => exact absurd rfl hblocks
  | cons block blocks =>
    have hmore := said_lods htop fun other ho => hne other (List.mem_cons_of_mem block ho)
    have hitems := said_members ItemLine.toLine ItemLine.lexemes (fun _ => rfl) (fun _ => rfl)
      (hne block List.mem_cons_self) hmore
    rw [List.flatMap_cons, LodBlock.lines, List.append_assoc, List.cons_append, said_deeper rfl, hitems]
    simp [words, LodBlock.lexemes]

/-- Levels of detail climb one level at a time. -/
theorem climbs_lods (hmore : ∀ depth, Climbs depth more) (blocks : List LodBlock) :
    ∀ depth, Climbs depth (blocks.flatMap LodBlock.lines ++ more) := by
  induction blocks with
  | nil => exact hmore
  | cons block blocks ih =>
    intro depth
    rw [List.flatMap_cons, LodBlock.lines, List.append_assoc]
    have hitems : ∀ row ∈ block.items.map ItemLine.toLine, row.depth = 2 := by simp [ItemLine.toLine]
    exact ⟨Nat.le_add_left 1 depth, climbs_rows hitems (Nat.le_refl _) ih⟩

/-- Every word of a line is said. -/
theorem mem_lexemes {lines : List Line} {line : Line} (h : line ∈ lines) {x : Lexeme}
    (hx : x ∈ line.words) : x ∈ lexemes lines := by
  have hsaid : ∀ (lines : List Line) (depth : Nat), line ∈ lines → x ∈ said depth lines := by
    intro lines
    induction lines with
    | nil => simp
    | cons other lines ih =>
      intro depth hmem
      rw [said_cons, List.mem_append, List.mem_append]
      rcases List.mem_cons.1 hmem with rfl | hmem
      · exact Or.inl (Or.inr hx)
      · exact Or.inr (ih other.depth hmem)
  cases lines with
  | nil => cases h
  | cons first lines =>
    rw [lexemes_cons, List.mem_append]
    rcases List.mem_cons.1 h with rfl | h
    · exact Or.inl hx
    · exact Or.inr (hsaid lines first.depth h)

end Line

/-! ## Lines of clauses are programs -/

/-- Meta data is content, brackets included. -/
theorem Pairs.isContent_of_mem_bracketed {pairs? : Option Pairs} {x : Lexeme}
    (h : x ∈ bracketed pairs?) : x.isContent := by
  cases pairs? with
  | none => cases h
  | some pairs =>
    rw [bracketed, List.mem_append, List.mem_cons, List.mem_singleton] at h
    rcases h with (rfl | h) | rfl
    · rfl
    · obtain ⟨pair, -, hx⟩ := List.mem_flatMap.1 h
      simp only [List.mem_cons, List.not_mem_nil, or_false] at hx
      rcases hx with rfl | rfl <;> rfl
    · rfl

namespace Clause

variable {c : Clause} {cs : List Clause} {more : List Line}

/-- The first line of a clause is not indented. -/
theorem depth_of_head (c : Clause) (more : List Line) : ∀ line ∈ (c.lines ++ more).head?, line.depth = 0 := by
  cases c <;> simp [lines]

/-- Nor is the first line of clauses. -/
theorem depth_of_head_flatMap (cs : List Clause) : ∀ line ∈ (cs.flatMap lines).head?, line.depth = 0 := by
  cases cs with
  | nil => simp
  | cons c cs => exact c.depth_of_head _

/-- All words on the lines of a clause are content. -/
theorem isContent_of_mem_words (c : Clause) : ∀ line ∈ c.lines, ∀ x ∈ line.words, x.isContent := by
  have hfields : ∀ fields : List FieldLine, ∀ line ∈ fields.map FieldLine.toLine,
      ∀ x ∈ line.words, x.isContent := by
    simp only [List.forall_mem_map, FieldLine.toLine, Line.words, List.forall_mem_cons]
    exact fun _ _ _ => ⟨rfl, rfl, fun _ => Pairs.isContent_of_mem_bracketed⟩
  have hitems : ∀ items : List ItemLine, ∀ line ∈ items.map ItemLine.toLine,
      ∀ x ∈ line.words, x.isContent := by
    simp only [List.forall_mem_map, ItemLine.toLine, Line.words, List.forall_mem_cons]
    exact fun _ _ _ => ⟨rfl, fun _ => Pairs.isContent_of_mem_bracketed⟩
  cases c with
  | namespaceLine first more =>
    simp only [lines, Line.words, List.forall_mem_singleton, List.forall_mem_cons]
    refine ⟨rfl, rfl, fun x hx => ?_⟩
    obtain ⟨part, -, hx⟩ := List.mem_flatMap.1 hx
    simp only [List.mem_cons, List.not_mem_nil, or_false] at hx
    rcases hx with rfl | rfl <;> rfl
  | nameLine | signature => simp [lines, Line.words, Lexeme.isContent]
  | component name pairs? fields | event name pairs? fields =>
    exact List.forall_mem_cons.2 ⟨List.forall_mem_cons.2 ⟨rfl, List.forall_mem_cons.2
      ⟨rfl, fun _ => Pairs.isContent_of_mem_bracketed⟩⟩, hfields fields⟩
  | type name fields | buffer name fields | command name fields =>
    exact List.forall_mem_cons.2 ⟨by simp [Line.words, Lexeme.isContent], hfields fields⟩
  | enumeration name constants =>
    refine List.forall_mem_cons.2 ⟨by simp [Line.words, Lexeme.isContent], ?_⟩
    simp only [List.forall_mem_map, ConstantLine.toLine, Line.words, List.forall_mem_cons]
    exact fun _ _ => ⟨rfl, rfl, fun _ => Pairs.isContent_of_mem_bracketed⟩
  | archetype name pairs? blocks =>
    refine List.forall_mem_cons.2 ⟨List.forall_mem_cons.2 ⟨rfl, List.forall_mem_cons.2
      ⟨rfl, fun _ => Pairs.isContent_of_mem_bracketed⟩⟩, fun line hline => ?_⟩
    obtain ⟨block, -, hline⟩ := List.mem_flatMap.1 hline
    rcases List.mem_cons.1 hline with rfl | hline
    · simp [Line.words, Lexeme.isContent]
    · exact hitems block.items line hline

/-- The lines of a clause say the clause, and end it before the lines behind it. -/
theorem exists_lexemes_lines (hc : c.Filled) (htop : ∀ line ∈ more.head?, line.depth = 0) :
    ∃ tail, Line.lexemes (c.lines ++ more) = c.lexemes ++ tail ∧ c.Ends tail (Line.lexemes more) := by
  have hfields : ∀ {fields : List FieldLine}, fields ≠ [] →
      Line.said 0 (fields.map FieldLine.toLine ++ more) =
        .openScope :: (fields.flatMap FieldLine.lexemes ++ .closeScope :: Line.lexemes more) :=
    fun hne => Line.said_members FieldLine.toLine FieldLine.lexemes (fun _ => rfl) (fun _ => rfl) hne
      (Line.said_top htop)
  cases c with
  | namespaceLine | nameLine | signature =>
    refine ⟨_, ?_, .mark _⟩
    rw [lines, List.singleton_append, Line.lexemes_cons, Line.said_top htop]
    rfl
  | component name pairs? fields | event name pairs? fields =>
    refine ⟨_, ?_, rfl⟩
    rw [lines, List.cons_append, Line.lexemes_cons, hfields hc]
    simp [Line.words, lexemes]
  | type name fields | buffer name fields | command name fields =>
    refine ⟨_, ?_, rfl⟩
    rw [lines, List.cons_append, Line.lexemes_cons, hfields hc]
    simp [Line.words, lexemes]
  | enumeration name constants =>
    refine ⟨_, ?_, rfl⟩
    rw [lines, List.cons_append, Line.lexemes_cons, Line.said_members ConstantLine.toLine
      ConstantLine.lexemes (fun _ => rfl) (fun _ => rfl) hc (Line.said_top htop)]
    simp [Line.words, lexemes]
  | archetype name pairs? blocks =>
    refine ⟨_, ?_, rfl⟩
    rw [lines, List.cons_append, Line.lexemes_cons, Line.said_archetype htop hc.1 hc.2]
    simp [Line.words, lexemes]

/-- The lines of a clause climb one level at a time. -/
theorem climbs_lines (c : Clause) (hmore : ∀ depth, Line.Climbs depth more) :
    ∀ depth, Line.Climbs depth (c.lines ++ more) := by
  intro depth
  have hmembers : ∀ {α : Type} {toLine : α → Line} (as : List α), (∀ a, (toLine a).depth = 1) →
      Line.Climbs 0 (as.map toLine ++ more) :=
    fun as hdepth => Line.climbs_rows (by simpa using fun a _ => hdepth a) (Nat.le_refl _) hmore
  cases c with
  | namespaceLine | nameLine | signature => exact ⟨Nat.zero_le _, hmore 0⟩
  | component name pairs? fields | event name pairs? fields | type name fields | buffer name fields
  | command name fields => exact ⟨Nat.zero_le _, hmembers fields fun _ => rfl⟩
  | enumeration name constants => exact ⟨Nat.zero_le _, hmembers constants fun _ => rfl⟩
  | archetype name pairs? blocks => exact ⟨Nat.zero_le _, Line.climbs_lods hmore blocks 0⟩

/-- So do the lines of clauses. -/
theorem climbs_flatMap (cs : List Clause) : ∀ depth, Line.Climbs depth (cs.flatMap lines) := by
  induction cs with
  | nil => exact fun _ => trivial
  | cons c cs ih => exact c.climbs_lines ih

/-- The lines of clauses are a program of the clauses. -/
theorem program_lines (hcs : ∀ c ∈ cs, c.Filled) : Program cs (Line.lexemes (cs.flatMap lines)) := by
  induction cs with
  | nil => exact .nil
  | cons c cs ih =>
    obtain ⟨tail, heq, hends⟩ :=
      exists_lexemes_lines (hcs c List.mem_cons_self) (depth_of_head_flatMap cs)
    rw [List.flatMap_cons, heq]
    exact .clause hends (ih fun d hd => hcs d (List.mem_cons_of_mem c hd))

/-- Behind the last clause nothing is left but the end of its line. -/
theorem not_isContent_of_ends {tail : List Lexeme} (h : c.Ends tail []) : ∀ x ∈ tail, ¬ x.isContent := by
  have hline : LineEnd tail [] → ∀ x ∈ tail, ¬ x.isContent := by
    rintro (_ | _) <;> simp [Lexeme.isContent]
  cases c with
  | namespaceLine | nameLine | signature => exact hline h
  | component | event | type | buffer | enumeration | command | archetype =>
    cases h
    simp

/-- The lines of a clause that can be written are legible. -/
theorem Writable.legible_lines (h : c.Writable) : ∀ line ∈ c.lines, line.Legible := by
  intro line hline x hx
  have hcontent := c.isContent_of_mem_words line hline x hx
  have htop : ∀ line ∈ ([] : List Line).head?, line.depth = 0 := by simp
  obtain ⟨tail, heq, hends⟩ := exists_lexemes_lines h.filled htop
  -- A word on a line of the clause is among its lexemes, since what ends the clause is no content.
  have hmem := Line.mem_lexemes (List.mem_append_left [] hline) hx
  rw [heq, List.mem_append] at hmem
  exact ⟨hcontent, h.legible x
    (hmem.resolve_right fun htail => not_isContent_of_ends hends x htail hcontent)⟩

end Clause

/-! ## Meta data -/

/-- A new key comes last. -/
theorem Metadata.put_of_not_mem {key value : String} {entries : List (String × String)}
    (h : key ∉ entries.map (·.1)) : put key value entries = entries ++ [(key, value)] := by
  induction entries with
  | nil => rfl
  | cons entry entries ih =>
    rw [List.map_cons, List.mem_cons, not_or] at h
    rw [put, if_neg (Ne.symm h.1), ih h.2]
    rfl

namespace Pairs

/-- Distinct keys are kept with their values as they stand. -/
theorem metadata_eq {pairs? : Option Pairs} (h : ∀ pairs ∈ pairs?, (pairs.map (·.1)).Nodup) :
    metadata pairs? = ⟨pairs?.getD []⟩ := by
  -- Pairs with new keys are put behind those that are there.
  have hfold : ∀ (pairs : Pairs) (read : Metadata), (read.keys ++ pairs.map (·.1)).Nodup →
      pairs.foldl (fun read pair => read.insert pair.1 pair.2) read = ⟨read.entries ++ pairs⟩ := by
    intro pairs
    induction pairs with
    | nil => simp
    | cons pair pairs ih =>
      intro read hnodup
      have hnew : pair.1 ∉ read.keys := by
        intro hmem
        exact (List.nodup_append.1 hnodup).2.2 _ hmem _ (List.mem_cons_self) rfl
      have hinsert : read.insert pair.1 pair.2 = ⟨read.entries ++ [pair]⟩ :=
        congrArg Metadata.mk (Metadata.put_of_not_mem hnew)
      rw [List.foldl_cons, hinsert, ih]
      · simp
      · simpa [Metadata.keys] using hnodup
  cases pairs? with
  | none => rfl
  | some pairs => exact hfold pairs .empty (by simpa [Metadata.keys, Metadata.empty] using h pairs rfl)

end Pairs

/-! ## Reading what was written -/

/-- Parsing undoes rendering, whatever separates the words.  Clauses `cs` that can be written and that `host`
accepts are read as what they describe, with any spacing `sp`: their namespace, their name, and of each kind
`k` their declarations in order, with meta data as it stands.  The hash is that of their text with single
spaces. -/
theorem parse_render {host : HostTypes} (sp : Spacing) {cs : List Clause} (hcs : ∀ c ∈ cs, c.Writable)
    (h : Admissible host cs) :
    ∃ r, parse host (Clause.render sp cs) = .ok r ∧
      r.namespacePath = Clause.namespacePath cs ∧ r.name = Clause.protocolName cs ∧
      (∀ k, (r.declarations k).toList = Clause.declarations k cs) ∧
      (∀ c ∈ cs, ∀ pairs? ∈ c.blocks, Pairs.metadata pairs? = ⟨pairs?.getD []⟩) ∧
      r.hash = Fnv.hashText (Clause.render .single cs) := by
  have hlegible : ∀ line ∈ cs.flatMap Clause.lines, line.Legible := by
    intro line hline
    obtain ⟨c, hc, hline⟩ := List.mem_flatMap.1 hline
    exact (hcs c hc).legible_lines line hline
  have hclimbs := Clause.climbs_flatMap cs 0
  have htop := Clause.depth_of_head_flatMap cs
  obtain ⟨ts, hts, hlexemes⟩ := Line.tokenize_text sp hlegible hclimbs htop
  have hprogram : Program cs (Token.meaning ts) := by
    rw [Token.meaning, Line.withoutComments_of_lexemes hlexemes hlegible, hlexemes]
    exact Clause.program_lines fun c hc => (hcs c hc).filled
  -- The lines are read as the clauses, and the clauses build what they describe.
  obtain ⟨q, hbuilt, hknown⟩ := Parser.exists_built_iff.2 h
  have hdescribes := Parser.describes_of_built hbuilt
  refine ⟨_, Parser.parse_eq_ok_iff.2
    ⟨ts, q, hts, Parser.completes_between_iff.2 ⟨cs, hprogram, hbuilt⟩, hknown, rfl⟩, hdescribes.namespacePath,
    hdescribes.name, fun k => ?_, fun c hc pairs? hpairs => ?_, ?_⟩
  · rw [← hdescribes.declarations]
    cases k <;> rfl
  · exact Pairs.metadata_eq fun pairs hp => (hcs c hc).keys_nodup pairs
      (List.mem_filterMap.2 ⟨pairs?, hpairs, hp⟩)
  · rw [Clause.render, ← Line.canonicalText_lines hlexemes hlegible hclimbs htop]
    rfl

/-- A namespace, a name, a component with meta data and an archetype with two levels of detail. -/
theorem parse_render_archetype :
    let cs : List Clause := [.namespaceLine "a" ["b"], .nameLine "p",
      .component "A" (some [("k", "it's"), ("l", "v")]) [⟨"x", "int", none⟩],
      .archetype "E" none [⟨0, [⟨"A", none⟩, ⟨"T", none⟩]⟩, ⟨1, [⟨"A", some [("k", "v")]⟩]⟩]]
    Clause.render .compact cs = "namespace a.b\nname p\ncomponent A [k \x22it's\x22, l 'v']\n  x int\n" ++
        "archetype E\n  lod 0\n    A\n    T\n  lod 1\n    A [k 'v']\n" ∧
      ∃ r, parse ⟨["T"], []⟩ (Clause.render .compact cs) = .ok r ∧ r.namespacePath = "a.b" ∧
        r.name = "p" ∧ (r.declarations .component).toList =
          [.component ⟨0, "A", [⟨0, "x", "int", ⟨[]⟩⟩], ⟨[("k", "it's"), ("l", "v")]⟩⟩] ∧
        (r.declarations .archetype).toList = [.archetype ⟨0, "E", ⟨[]⟩, Fnv.wireId "E",
          [⟨0, [⟨.component 0, ⟨[]⟩⟩, ⟨.host "T", ⟨[]⟩⟩]⟩, ⟨1, [⟨.component 0, ⟨[("k", "v")]⟩⟩]⟩]⟩] ∧
        r.hash = Fnv.hashText (Clause.render .single cs) := by
  intro cs
  have hcs : ∀ c ∈ cs, c.Writable := by
    simp only [cs, List.forall_mem_cons]
    refine ⟨⟨by decide, trivial, by decide⟩, ⟨by decide, trivial, by decide⟩,
      ⟨by decide, by simp [Clause.Filled], by decide⟩, ⟨by decide, by simp [Clause.Filled], by decide⟩, by simp⟩
  have hbuilt : (cs.foldlM (Parser.take? ⟨["T"], []⟩) Parser.start).isSome := by decide +kernel
  obtain ⟨q, hq⟩ := Option.isSome_iff_exists.1 hbuilt
  have hadmissible : Admissible ⟨["T"], []⟩ cs :=
    Parser.exists_built_iff.1 ⟨q, hq, fun h => absurd h (by decide)⟩
  obtain ⟨r, hr, hpath, hname, hdeclarations, -, hhash⟩ := parse_render .compact hcs hadmissible
  exact ⟨by decide +kernel, r, hr, hpath.trans (by decide +kernel), hname.trans (by decide +kernel),
    (hdeclarations .component).trans (by decide +kernel),
    (hdeclarations .archetype).trans (by decide +kernel), hhash⟩

end EntitySchema
