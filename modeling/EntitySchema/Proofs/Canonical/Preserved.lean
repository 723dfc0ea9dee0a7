import EntitySchema.Proofs.Canonical.Settle
import EntitySchema.Proofs.Lexer.Onward
import EntitySchema.Proofs.Meaning
/-!
  What a canonical text says, whatever the tokens.

  Tokens from anywhere need not be laid out as a lexer would have read them: scopes can close that never
  opened, or open one in another without a line between them.  Their canonical text can then be too deep for a
  lexer.  But it says its words and remarks all the same, `Says (s.tail ps) (words and remarks of ps)`: each
  is spelled so that it is found again, a word ends before the next one starts, and what stands between the
  two is a space, or a line start with an even margin.

  `Says` mentions no layout, so the induction on the pieces needs no condition on the spot
  (`Lexer.Says.tail`).  That a lexer which goes on after errors recovers what a text says is a fact about
  lexers (`SourceLexer.recovers_of_says`).

  Main statement: `canonicalText_recovers`.
-/

namespace EntitySchema

/-- Without comments what is written is content. -/
theorem Lexeme.filter_isWritten_withoutComments (xs : List Lexeme) :
    (withoutComments xs).filter isWritten = xs.filter isContent := by
  rw [withoutComments, List.filter_filter]
  exact List.filter_congr fun x _ => by cases x <;> rfl

namespace Lexer.Says

/-- What stands in front of a word or a remark on a page is layout. -/
theorem lead_append {c : Char} {cs : List Char} {xs : List Lexeme} (h : Says (c :: cs) xs)
    (hc : c ≠ ' ' ∧ c ≠ '\t') (own : Bool) (s : Spot) : Says (s.lead own ++ c :: cs) xs := by
  have of_lineStart : ∀ level, Says (Spot.lineStart level ++ c :: cs) xs := fun level =>
    .line (by simpa using hc) h
  cases s with
  | top => exact h
  | inLine depth =>
    cases own with
    | true => exact of_lineStart depth
    | false => exact .separator (by decide) h
  | remarked depth => exact of_lineStart depth
  | fresh _ indent _ => exact of_lineStart indent

/-- A page says its words and remarks, in order.  By induction on the pieces, from any spot; marks are not
written, so they change nothing but the spot. -/
theorem tail {ps : List Piece} (hps : ∀ p ∈ ps, p.Proper ∧ p.lexeme.Legible) (s : Spot) :
    Says (s.tail ps) ((ps.map Piece.lexeme).filter Lexeme.isWritten) := by
  induction ps generalizing s with
  | nil =>
    have hline : Says ['\n'] [] := @line 0 [] [] (by simp) .nothing
    cases s with
    | top | inLine => exact .nothing
    | remarked | fresh => exact hline
  | cons p ps ih =>
    obtain ⟨hproper, hlegible⟩ := hps p List.mem_cons_self
    have hmore := ih (fun q hq => hps q (List.mem_cons_of_mem p hq)) (s.after p)
    rw [List.map_cons, List.filter_cons]
    cases p with
    -- A word is found again, since a space or a newline follows.
    | word x =>
      have hwritten : x.isWritten := by simp [Lexeme.isWritten, show x.isContent from hproper]
      rw [Spot.after_word] at hmore
      obtain ⟨c, cs, hchars, hc, hscan⟩ := Scan.ofChars_chars hproper hlegible
        ((Spot.boundary_tail_inLine s.indent ps).apart x)
      have hword : Says (c :: (cs ++ (Spot.inLine s.indent).tail ps))
          (x :: (ps.map Piece.lexeme).filter Lexeme.isWritten) :=
        .lexeme hc.2.2.2.1 (by rw [hscan]) (by rw [hscan]; exact hmore)
      rw [Spot.tail, Spot.after_word, Spot.written, hchars, List.append_assoc, List.cons_append,
        Piece.lexeme, if_pos hwritten]
      exact hword.lead_append ⟨hc.1, hc.2.1⟩ false s
    -- A comment goes to the end of its line, and what follows it starts with a newline.
    | remark text own =>
      have hfresh : (s.after (.remark text own)).isFresh := by cases s <;> rfl
      obtain ⟨ds, hds⟩ := Spot.exists_tail_of_isFresh hfresh ps
      have hline : ∀ c ∈ ((s.after (.remark text own)).tail ps).head?, c = '\n' := by
        rw [hds]
        simp
      obtain ⟨cs, hremark, hscan⟩ := Scan.ofChars_remark hlegible hline
      have hsays : Says ('#' :: (cs ++ (s.after (.remark text own)).tail ps))
          (.comment text :: (ps.map Piece.lexeme).filter Lexeme.isWritten) :=
        .lexeme (by decide) (by rw [hscan]) (by rw [hscan]; exact hmore)
      rw [Spot.tail, Spot.written, hremark, List.append_assoc, List.cons_append, Piece.lexeme,
        if_pos (show (Lexeme.comment text).isWritten from rfl)]
      exact hsays.lead_append (by decide) own s
    | opens | closes | ends =>
      rw [Spot.tail, Spot.written, List.nil_append]
      exact hmore

end Lexer.Says

/-- A lexer recovers what a canonical text is made of. -/
theorem recovers_canonicalText {ts : List Token} (h : ∀ t ∈ ts, t.lexeme.Legible) :
    (SourceLexer.ofSource (canonicalText Flags.normal ts)).Recovers
      ((ts.map (·.lexeme)).filter Lexeme.isWritten) := by
  have hpieces : ∀ p ∈ pieces ts, p.Proper ∧ p.lexeme.Legible :=
    proper_and_legible_of_mem_piecesFrom none h
  have hrest : (SourceLexer.ofSource (canonicalText Flags.normal ts)).onText.rest =
      Spot.top.tail (pieces ts) := by
    rw [SourceLexer.onText_ofSource, Lexer.ofSource, canonicalText_eq_tail h, visible_tail hpieces]
    rfl
  have hsays := Lexer.Says.tail hpieces .top
  rw [← hrest, pieces, map_lexeme_piecesFrom] at hsays
  exact SourceLexer.recovers_of_says hsays

/-- The canonical text of any tokens `ts` that can be read keeps them, whatever the order of their marks.  A
lexer on the text that goes on after errors `Recovers` the content and the comments of `ts`: besides marks it
reports them in order and nothing else, all of them by the time it comes to its end, and the only error that
it can meet is a line that is too deep.  With comments dropped that holds of the content alone. -/
theorem canonicalText_recovers {ts : List Token} (h : ∀ t ∈ ts, t.lexeme.Legible) :
    (SourceLexer.ofSource (canonicalText Flags.normal ts)).Recovers
      ((ts.map (·.lexeme)).filter Lexeme.isWritten) ∧
    (SourceLexer.ofSource (canonicalText Flags.discardComments ts)).Recovers
      ((ts.map (·.lexeme)).filter Lexeme.isContent) := by
  refine ⟨recovers_canonicalText h, ?_⟩
  have hcontent : (Token.meaning ts).filter Lexeme.isWritten =
      (ts.map (·.lexeme)).filter Lexeme.isContent := by
    rw [Token.meaning_eq_withoutComments, Lexeme.filter_isWritten_withoutComments]
  rw [canonicalText_discardComments, ← hcontent]
  exact recovers_canonicalText fun t ht => h t (List.mem_filter.1 ht).1

/-- A scope that opens twice at once, a scope that closes too often, and a comment between two words. -/
theorem canonicalText_recovers_jump :
    let ts : List Token := [⟨.symbol "a", ⟨1, 1⟩⟩, ⟨.openScope, ⟨1, 2⟩⟩, ⟨.openScope, ⟨1, 2⟩⟩,
      ⟨.string "it's", ⟨7, 1⟩⟩, ⟨.comment "", ⟨2, 1⟩⟩, ⟨.closeScope, ⟨1, 1⟩⟩, ⟨.closeScope, ⟨1, 1⟩⟩,
      ⟨.closeScope, ⟨1, 1⟩⟩, ⟨.number (-1), ⟨1, 1⟩⟩, ⟨.symbol "b-", ⟨1, 1⟩⟩]
    canonicalText Flags.normal ts = "a\n    \x22it's\x22 #\n-1 b-" ∧
      (SourceLexer.ofSource (canonicalText Flags.normal ts)).answer 1 = .error ⟨.deepIndent 1 2, ⟨2, 5⟩⟩ ∧
      (SourceLexer.ofSource (canonicalText Flags.normal ts)).Recovers
        [.symbol "a", .string "it's", .comment "", .number (-1), .symbol "b-"] ∧
      (SourceLexer.ofSource (canonicalText Flags.discardComments ts)).Recovers
        [.symbol "a", .string "it's", .number (-1), .symbol "b-"] := by
  intro ts
  have h : ∀ t ∈ ts, t.lexeme.Legible := by decide +kernel
  exact ⟨by decide +kernel, by decide +kernel, canonicalText_recovers h⟩

end EntitySchema
