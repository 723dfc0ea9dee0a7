import EntitySchema.Proofs.Content
import EntitySchema.Proofs.Parser.TypePlaces
import EntitySchema.Proofs.Parser.WellFormed
/-!
  The meta data that a parser reads.

  Behind an opening bracket a parser inserts one pair after the other into nothing, and at the closing bracket
  it takes what it has.  So the meta data of a block is the ordered map of the pairs as they are written:
  `m.IsMapOf pairs` says that the keys of `m` are those of `pairs` in the order of their first occurrence,
  each with the value it was given last.

  1. **While the block is open**, whatever becomes of the parse later: the state `.metaKey holder read` knows
     the tokens behind its bracket (`State.Follows`), so `read` is the map of the pairs among them
     (`isMapOf_of_feedTokens`).

  2. **In a protocol that was read**, of every block of every declaration: a declaration is described by a
     clause, and its blocks are those of the clause (`isMapOf_of_parse`).

  Main statement: `isMapOf_of_insertions_and_blocks`.
-/

namespace EntitySchema

namespace Parser

variable {host : HostTypes} {ts : List Token} {p : Parser} {holder : MetaHolder} {read : Metadata}

/-- Along a parse, the meta data that is open is the map of the pairs behind its bracket. -/
theorem isMapOf_of_feedTokens (h : start.feedTokens host ts = .ok p) (hstate : p.state = .metaKey holder read) :
    ∃ front pairs, Token.meaning ts = front ++ .openMeta :: Pairs.lexemes pairs ∧ read.IsMapOf pairs := by
  have hfollows := (follows_of_feedTokens h).1
  rw [hstate] at hfollows
  obtain ⟨front, more, pairs, htokens, -, hmore, rfl⟩ := hfollows
  refine ⟨Token.lexemes front, pairs, ?_, Metadata.isMapOf_ofList pairs⟩
  calc Token.meaning ts = Token.lexemes (front ++ more) := congrArg Token.lexemes htokens
    _ = Token.lexemes front ++ .openMeta :: pairs.lexemes := by rw [Token.lexemes_append, hmore]

end Parser

/-- The meta data of every declaration that was read is, block by block, the map of the pairs in the clause that
it comes from. -/
theorem isMapOf_of_parse {host : HostTypes} {source : String} {r : Protocol} (h : parse host source = .ok r) :
    ∃ ts cs, tokenize source = .ok ts ∧ Program cs (Token.meaning ts) ∧
      ∀ k, ∀ d ∈ r.declarations k, ∃ before c after, cs = before ++ c :: after ∧
        c.declaration? before = some d ∧
        List.Forall₂ (fun (m : Metadata) pairs? => m.IsMapOf (pairs?.getD [])) d.blocks c.blocks := by
  obtain ⟨ts, q, hts, hq, -, rfl⟩ := Parser.parse_eq_ok_iff.1 h
  obtain ⟨cs, hprogram, hbuilt⟩ := Parser.completes_between_iff.1 hq
  refine ⟨ts, cs, hts, hprogram, fun k d hd => ?_⟩
  obtain ⟨before, c, after, hcs, hc⟩ := Parser.exists_clause_of_built hbuilt hd
  refine ⟨before, c, after, hcs, hc, ?_⟩
  rw [Clause.blocks_of_declaration? hc, List.forall₂_map_left_iff, List.forall₂_same]
  exact fun pairs? _ => Pairs.isMapOf_metadata pairs?

/-- Meta data is an ordered map.  Whatever is inserted into nothing, and in whatever order, gives the map of
these entries; one more insertion gives that of one entry more, hands out what its key found, and leaves all
other keys with their values at their places.  So the block that a parser is reading is the map of the pairs
behind its bracket, and so is, in a protocol that was read, every block of every declaration. -/
theorem isMapOf_of_insertions_and_blocks :
    (∀ given : List (String × String), (Metadata.ofList given).IsMapOf given) ∧
      (∀ (given : List (String × String)) (key value : String),
        ((Metadata.ofList given).exchange key value).2 = Metadata.ofList (given ++ [(key, value)]) ∧
          (Metadata.ofList given).Exchanges key ((Metadata.ofList given).exchange key value).1
            ((Metadata.ofList given).exchange key value).2) ∧
      (∀ (host : HostTypes) (ts : List Token) (p : Parser) (holder : MetaHolder) (read : Metadata),
        Parser.start.feedTokens host ts = .ok p → p.state = .metaKey holder read →
          ∃ front pairs, Token.meaning ts = front ++ .openMeta :: Pairs.lexemes pairs ∧ read.IsMapOf pairs) ∧
      ∀ (host : HostTypes) (source : String) (r : Protocol), parse host source = .ok r →
        ∃ ts cs, tokenize source = .ok ts ∧ Program cs (Token.meaning ts) ∧
          ∀ k, ∀ d ∈ r.declarations k, ∃ before c after, cs = before ++ c :: after ∧
            c.declaration? before = some d ∧
            List.Forall₂ (fun (m : Metadata) pairs? => m.IsMapOf (pairs?.getD [])) d.blocks c.blocks := by
  refine ⟨Metadata.isMapOf_ofList, fun given key value => ⟨?_, Metadata.exchanges_exchange _ key value⟩,
    fun _ _ _ _ _ => Parser.isMapOf_of_feedTokens, fun _ _ _ => isMapOf_of_parse⟩
  rw [Metadata.exchange_eq, Metadata.ofList_concat]

/-- A key that is given again: by an insertion, behind a bracket that is open, and in a component. -/
theorem isMapOf_of_insertions_and_blocks_repeated :
    let given := [("range", "0-10"), ("priority", "low")]
    let front : List Token := [⟨.symbol "event", ⟨1, 1⟩⟩, ⟨.symbol "E", ⟨1, 7⟩⟩, ⟨.openMeta, ⟨1, 9⟩⟩,
      ⟨.symbol "k", ⟨1, 10⟩⟩, ⟨.string "1", ⟨1, 12⟩⟩, ⟨.symbol "k", ⟨1, 16⟩⟩, ⟨.string "2", ⟨1, 18⟩⟩]
    ((Metadata.ofList given).exchange "range" "0-122").1 = some "0-10" ∧
      Metadata.ofList (given ++ [("range", "0-122")]) = ⟨[("range", "0-122"), ("priority", "low")]⟩ ∧
      (Metadata.ofList (given ++ [("range", "0-122")])).IsMapOf (given ++ [("range", "0-122")]) ∧
      (∃ before pairs, Token.meaning front = before ++ .openMeta :: Pairs.lexemes pairs ∧
        Metadata.IsMapOf ⟨[("k", "2")]⟩ pairs) ∧
      ∃ r, parse HostTypes.empty "component A [k '1', l '2', k '3']\n  x int\n" = .ok r ∧
        r.components = #[⟨0, "A", [⟨0, "x", "int", ⟨[]⟩⟩], ⟨[("k", "3"), ("l", "2")]⟩⟩] ∧
        ∀ d ∈ r.declarations .component, ∃ c : Clause,
          List.Forall₂ (fun (m : Metadata) pairs? => m.IsMapOf (pairs?.getD [])) d.blocks c.blocks := by
  intro given front
  obtain ⟨hmap, hexchange, hopen, hparse⟩ := isMapOf_of_insertions_and_blocks
  obtain ⟨p, hp, hstate⟩ := exists_ok_of_map
    (show (Parser.start.feedTokens HostTypes.empty front).toOption.map (·.state) =
      some (.metaKey (.header (.event "E")) ⟨[("k", "2")]⟩) by decide +kernel)
  obtain ⟨r, hr, hcomponents⟩ := exists_ok_of_map
    (show (parse HostTypes.empty "component A [k '1', l '2', k '3']\n  x int\n").toOption.map (·.components) =
      some #[⟨0, "A", [⟨0, "x", "int", ⟨[]⟩⟩], ⟨[("k", "3"), ("l", "2")]⟩⟩] by decide +kernel)
  obtain ⟨_, _, -, -, hblocks⟩ := hparse HostTypes.empty _ r hr
  refine ⟨(hexchange given "range" "0-122").2.old_eq.trans (by decide), by decide, hmap _,
    hopen _ front p _ _ hp hstate, r, hr, hcomponents, fun d hd => ?_⟩
  obtain ⟨_, c, _, -, -, hc⟩ := hblocks .component d hd
  exact ⟨c, hc⟩

end EntitySchema
