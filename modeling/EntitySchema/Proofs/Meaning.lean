import EntitySchema.Proofs.Content
import EntitySchema.Proofs.Lexer.Calls
/-!
  What the meaning of a token list decides.

  The meaning of a token list is its lexemes in order, without comments and without places.  It decides the
  content hash and, for every host, whether and as what a source is read
  (`contentHash_eq_and_parse_eq_ok_iff`):

      meaning us = meaning ts  →
        contentHash us = contentHash ts  and  (parse host source' = .ok r ↔ parse host source = .ok r)

  So an edit of a source that keeps its meaning changes neither.

  One more end of a line does change the hash, behind content (`contentHash_of_body_eq`).  It is one more
  newline on the hashed page, and absorbing a newline has no fixed point (`Fnv.absorb_newline_ne`): the last
  five bits of a word after the step depend on its last five bits alone, so there are 32 cases to look at and
  not `2 ^ 32`.
-/

namespace EntitySchema

/-! ## The same meaning -/

/-- The meaning can be taken of the lexemes alone. -/
theorem Token.meaning_eq_withoutComments (ts : List Token) :
    meaning ts = Lexeme.withoutComments (ts.map (·.lexeme)) := by
  rw [Lexeme.withoutComments, List.filter_map]
  rfl

/-- Only the meaning of a list shows in its pieces without remarks. -/
theorem Token.body_eq_map (ts : List Token) : body ts = (meaning ts).map (Piece.ofLexeme true) :=
  piecesFrom_eq_map (fun t ht => by simpa using (List.mem_filter.1 ht).2) none

/-- The hashed text is the page of the `body`, if all tokens can be written at all. -/
theorem toList_hashedText {ts : List Token} (h : ∀ t ∈ ts, t.lexeme.Legible) :
    (canonicalText Flags.discardComments ts).toList = Spot.top.tail (Token.body ts) := by
  rw [canonicalText_discardComments]
  exact canonicalText_eq_tail fun t ht => h t (List.mem_filter.1 ht).1

/-- Sources with the same meaning have the same hash and are read as the same protocol. -/
theorem contentHash_eq_and_parse_eq_ok_iff {source source' : String} {ts us : List Token}
    (hts : tokenize source = .ok ts) (hus : tokenize source' = .ok us)
    (h : Token.meaning us = Token.meaning ts) :
    contentHash us = contentHash ts ∧ ∀ (host : HostTypes) (r : Protocol),
      parse host source' = .ok r ↔ parse host source = .ok r := by
  have hhash : contentHash us = contentHash ts := contentHash_eq_of_lexemes_eq h
  refine ⟨hhash, fun host r => ?_⟩
  rw [Parser.parse_eq_ok_iff, Parser.parse_eq_ok_iff, hts, hus]
  simp only [Except.ok.injEq, exists_and_left, exists_eq_left', h, hhash]

/-! ## The hash of one more line end -/

/-- One more newline always changes a hash: not even its last five bits can stay. -/
theorem Fnv.absorb_newline_ne (h : UInt32) : absorb h 10 ≠ h := by
  intro heq
  -- Multiplication and exclusive or carry nothing downwards, so the last five bits can be cut out.
  have hbits := congrArg (fun w : UInt32 => w.toBitVec.setWidth 5) heq
  have hnone : ∀ x : BitVec 5, (x ^^^ 10#5) * 19#5 ≠ x := by decide
  refine hnone (h.toBitVec.setWidth 5) ?_
  simpa [absorb, prime, BitVec.setWidth_mul, BitVec.setWidth_xor] using hbits

/-- A text with one more newline is hashed one step further. -/
theorem Fnv.hashText_newline (text : String) : hashText (text ++ "\n") = absorb (hashText text) 10 := by
  rw [hashText, bytesOf, String.toList_append, List.flatMap_append]
  exact hash_concat _ _

namespace Spot

/-- The end of a line that is open is one more newline. -/
theorem tail_append_ends {s : Spot} {ps : List Piece} {depth : Nat} (h : s.reach ps = inLine depth) :
    s.tail (ps ++ [.ends]) = s.tail ps ++ ['\n'] := by
  induction ps generalizing s with
  | nil =>
    obtain rfl : s = inLine depth := h
    rfl
  | cons p ps ih => rw [List.cons_append, tail, tail, ih h, List.append_assoc]

end Spot

/-- One more end of a line, behind a word, is one more newline in the hash. -/
theorem contentHash_of_body_eq {ts us : List Token} (hts : ∀ t ∈ ts, t.lexeme.Legible)
    (hus : ∀ t ∈ us, t.lexeme.Legible) {depth : Nat}
    (hline : Spot.top.reach (Token.body ts) = .inLine depth)
    (h : Token.body us = Token.body ts ++ [.ends]) :
    contentHash us = Fnv.absorb (contentHash ts) 10 := by
  have htext : canonicalText Flags.discardComments us =
      canonicalText Flags.discardComments ts ++ "\n" := by
    rw [← String.toList_inj, String.toList_append, toList_hashedText hts, toList_hashedText hus, h,
      Spot.tail_append_ends hline]
    rfl
  rw [contentHash, contentHash, htext, Fnv.hashText_newline]

end EntitySchema
