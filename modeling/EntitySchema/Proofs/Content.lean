import EntitySchema.Proofs.Parser.Marks
/-!
  What the hashed text determines.

  The content hash of a token list `ts` is taken of `canonicalText Flags.discardComments ts`, the canonical
  text without comments.  That text does not show every mark: an open scope without content leaves no trace on
  the page, and a scope that is closed and opened again looks like one that goes on.  So two token lists can
  have the same text without being the same.  What the text of `ts` does determine is its `body`, the pieces
  without comments, up to `squeeze`.

  The argument goes there and back.

  1. Down: a list that a parser has read opens scopes behind words only (`headed_body`), and for such lists
     what is written and read again is the squeezed list and nothing else (`tokenize_hashedText`).

  2. Back: among the lists with the same squeezed pieces a parser can read one at most
     (`Parser.eq_of_squeeze_eq`).

  So two sources that are read as protocols and have the same text have the same lexemes, and since the host
  has no part in what is read they are read as the same protocol.

  Main statement: `protocol_eq_of_canonicalText_eq`, if `parse host source = .ok r`, `parse host' source' =
  .ok r'` and the hashed texts are equal, then `r = r'`.
-/

namespace EntitySchema

/-- The pieces of the tokens that carry meaning: all but the comments, each with what the canonical form has
to know of it. -/
def Token.body (ts : List Token) : List Piece := pieces (Token.withoutComments ts)

namespace Token

/-- Pieces are lexemes with some knowledge of what stood in front of them; without it they are the lexemes. -/
theorem map_lexeme_body (ts : List Token) : (body ts).map Piece.lexeme = meaning ts :=
  map_lexeme_piecesFrom none _

/-- It makes no difference whether comments are left out of the tokens or of the pieces. -/
theorem body_eq_withoutRemarks (ts : List Token) : body ts = Piece.withoutRemarks (pieces ts) :=
  piecesFrom_withoutComments none none ts

/-- No comment is left. -/
theorem isRemark_of_mem_body {ts : List Token} : ∀ p ∈ body ts, p.isRemark = false := by
  rw [body_eq_withoutRemarks]
  intro p hp
  simpa using (List.mem_filter.1 hp).2

end Token

namespace Parser

variable {host : HostTypes} {ts : List Token} {mid : Parser}

/-- In a list that a parser has read scopes open behind words only: no rule of the grammar has a scope behind
a mark. -/
theorem headed_body (hlegible : ∀ t ∈ ts, t.lexeme.Legible)
    (h : start.feedLexemes host (Token.meaning ts) = .ok mid) : Spot.top.Headed (Token.body ts) := by
  rw [← Token.map_lexeme_body] at h
  refine headed_of_feedLexemes (fun p hp => ?_) Token.isRemark_of_mem_body (fun _ => rfl) h
  exact (proper_and_legible_of_mem_piecesFrom none
    (fun t ht => hlegible t (List.mem_filter.1 ht).1) p hp).1

/-- So they do with the comments, which may stand between the word and its scope without being in the way. -/
theorem headed_pieces (hlegible : ∀ t ∈ ts, t.lexeme.Legible) (horderly : Spot.top.Orderly (pieces ts))
    (h : start.feedLexemes host (Token.meaning ts) = .ok mid) : Spot.top.Headed (pieces ts) := by
  have hbare := headed_body hlegible h
  rw [Token.body_eq_withoutRemarks] at hbare
  exact Spot.headed_of_withoutRemarks horderly .top hbare

/-- In a list that a parser has read nothing but empty scopes is lost when it is settled.  Settling moves
comments and ends lines; there are no comments here, and every line is ended already. -/
theorem settle_body (hlegible : ∀ t ∈ ts, t.lexeme.Legible) (horderly : Spot.top.Orderly (pieces ts))
    (h : start.feedLexemes host (Token.meaning ts) = .ok mid) :
    Spot.top.settle (Token.body ts) = Piece.squeeze (Token.body ts) :=
  Spot.settle_eq_squeeze (Spot.orderly_withoutComments horderly) (headed_body hlegible h)
    Token.isRemark_of_mem_body (by simp) (by simp)

/-- The hashed text of a list that a parser has read is read as the list, squeezed. -/
theorem tokenize_hashedText {source : String} (hts : tokenize source = .ok ts)
    (h : start.feedLexemes host (Token.meaning ts) = .ok mid) :
    ∃ us, tokenize (canonicalText Flags.discardComments ts) = .ok us ∧
      pieces us = Piece.squeeze (Token.body ts) := by
  obtain ⟨hlegible, horderly⟩ := legible_and_orderly_of_tokenize hts
  obtain ⟨us, hus, hpieces⟩ := @tokenize_canonicalText (Token.withoutComments ts)
    (fun t ht => hlegible t (List.mem_filter.1 ht).1) (Spot.orderly_withoutComments horderly)
    (Spot.stepwise_of_founded (Spot.founded_of_headed (headed_body hlegible h)) (by simp))
  rw [canonicalText_discardComments]
  exact ⟨us, hus, hpieces.trans (settle_body hlegible horderly h)⟩

end Parser

/-- Sources with the same hashed text are read as the same protocol.  The text that is hashed is the canonical
text of the tokens without their comments.  If `source` is read as `r` for `host`, and `source'` as `r'` for
`host'`, and their tokens `ts` and `ts'` have this text in common, then `r = r'`, with indices, members, meta
data and hash.  The two hosts need not have anything in common: what they provide lets a source pass or not,
and shows in nothing that is read. -/
theorem protocol_eq_of_canonicalText_eq {host host' : HostTypes} {source source' : String}
    {r r' : Protocol} {ts ts' : List Token} (h : parse host source = .ok r)
    (h' : parse host' source' = .ok r') (hts : tokenize source = .ok ts)
    (hts' : tokenize source' = .ok ts')
    (htext : canonicalText Flags.discardComments ts = canonicalText Flags.discardComments ts') :
    r = r' := by
  obtain ⟨us, q, hus, hq, -, rfl⟩ := Parser.parse_eq_ok_iff.1 h
  obtain ⟨us', q', hus', hq', -, rfl⟩ := Parser.parse_eq_ok_iff.1 h'
  cases Except.ok.inj (hus.symm.trans hts)
  cases Except.ok.inj (hus'.symm.trans hts')
  -- The text determines the pieces up to scopes without content, and the parser excludes those.
  have hbody : Token.body ts = Token.body ts' := by
    obtain ⟨mid, -, hmid, -⟩ := hq
    obtain ⟨mid', -, hmid', -⟩ := hq'
    obtain ⟨vs, hvs, hpieces⟩ := Parser.tokenize_hashedText hts hmid
    obtain ⟨vs', hvs', hpieces'⟩ := Parser.tokenize_hashedText hts' hmid'
    rw [htext] at hvs
    cases Except.ok.inj (hvs.symm.trans hvs')
    rw [← Token.map_lexeme_body] at hmid hmid'
    exact Parser.eq_of_squeeze_eq (hpieces.symm.trans hpieces') hmid hmid'
  have hsame := congrArg (List.map Piece.lexeme) hbody
  rw [Token.map_lexeme_body, Token.map_lexeme_body] at hsame
  rw [hsame] at hq
  cases Parser.completes_unique hq hq'
  rw [contentHash, contentHash, htext]

/-- A result that is there.  Whether it is can be computed where the result itself could not be compared. -/
theorem exists_ok_of_isSome {ε α : Type} {x : Except ε α} (h : x.toOption.isSome) :
    ∃ a, x = .ok a := by
  cases x with
  | error e => cases h
  | ok a => exact ⟨a, rfl⟩

/-- A result of which a part is known. -/
theorem exists_ok_of_map {ε α β : Type} {f : α → β} {x : Except ε α} {b : β} (h : x.toOption.map f = some b) :
    ∃ a, x = .ok a ∧ f a = b := by
  cases x with
  | error e => cases h
  | ok a => exact ⟨a, rfl, Option.some.inj h⟩

/-- A fault, told from a part of the result that would be there without it. -/
theorem eq_error_of_map {ε α β : Type} {f : α → β} {x : Except ε α} {e : ε} (h : x.map f = .error e) :
    x = .error e := by
  cases x with
  | error e' =>
    cases h
    rfl
  | ok a => cases h

/-- Other blanks, a comment, no newline at the end, and another host. -/
theorem protocol_eq_of_canonicalText_eq_event :
    ∃ r, parse HostTypes.empty "event E\n  x int\n" = .ok r ∧
      parse ⟨["W"], ["W"]⟩ "event  E # c\n\n  x , int" = .ok r := by
  have hts : tokenize "event E\n  x int\n" = .ok [⟨.symbol "event", ⟨1, 1⟩⟩, ⟨.symbol "E", ⟨1, 7⟩⟩,
      ⟨.openScope, ⟨2, 3⟩⟩, ⟨.symbol "x", ⟨2, 3⟩⟩, ⟨.symbol "int", ⟨2, 5⟩⟩, ⟨.endLine, ⟨2, 8⟩⟩,
      ⟨.closeScope, ⟨3, 1⟩⟩] := by
    decide +kernel
  have hts' : tokenize "event  E # c\n\n  x , int" = .ok [⟨.symbol "event", ⟨1, 1⟩⟩,
      ⟨.symbol "E", ⟨1, 8⟩⟩, ⟨.comment "c", ⟨1, 10⟩⟩, ⟨.openScope, ⟨3, 3⟩⟩, ⟨.symbol "x", ⟨3, 3⟩⟩,
      ⟨.symbol "int", ⟨3, 7⟩⟩, ⟨.endLine, ⟨3, 10⟩⟩, ⟨.closeScope, ⟨3, 10⟩⟩] := by
    decide +kernel
  obtain ⟨r, h⟩ := exists_ok_of_isSome
    (show (parse HostTypes.empty "event E\n  x int\n").toOption.isSome by decide +kernel)
  obtain ⟨r', h'⟩ := exists_ok_of_isSome
    (show (parse ⟨["W"], ["W"]⟩ "event  E # c\n\n  x , int").toOption.isSome by decide +kernel)
  exact ⟨r, h, protocol_eq_of_canonicalText_eq h h' hts hts' (by decide +kernel) ▸ h'⟩

end EntitySchema
