import EntitySchema.Canonical
/-!
  What a canonical text without comments does not show.

  A typesetter looks at more than lexemes: whether a token is a comment, what the flags say of comments, and
  whether a comment comes from a later line than the token before it.  The last of these only matters to
  comments, so it is gone when they are.  A page without comments is a fold over the lexemes that are left,

      (ts.foldl (write f) s).page = ((withoutComments ts).map (·.lexeme)).foldl Page.write s.page

  for flags `f` that drop comments (`page_foldl_of_drops`), and the same holds of a list that has none,
  whatever the flags say (`page_foldl_of_bare`).  Neither the places of tokens nor those of comments occur on
  the right, so neither leaves a trace.

  Main statement: `canonicalText_unseen`.
-/

namespace EntitySchema

namespace Typesetter

variable {f : Flags} {t : Token}

/-- A token that is no comment is written whatever the flags say, and wherever it stands. -/
theorem page_write_of_bare (f : Flags) (s : Typesetter) (ht : ¬ t.isComment) :
    (s.write f t).page = s.page.write t.lexeme := by
  simp only [write, Bool.not_eq_true _ ▸ ht, Bool.false_and, Bool.false_eq_true, if_false]

/-- A comment that is dropped leaves no trace, not even the line it stands on. -/
theorem write_of_drops (hf : f.dropsComments) (s : Typesetter) (ht : t.isComment) : s.write f t = s := by
  rw [write, ht, hf]
  rfl

/-- Where there are no comments the page is a matter of the lexemes. -/
theorem page_foldl_of_bare (f : Flags) (s : Typesetter) {ts : List Token} (h : ∀ t ∈ ts, ¬ t.isComment) :
    (ts.foldl (write f) s).page = (ts.map (·.lexeme)).foldl Page.write s.page := by
  induction ts generalizing s with
  | nil => rfl
  | cons t ts ih =>
    rw [List.foldl_cons, ih _ fun u hu => h u (List.mem_cons_of_mem t hu),
      page_write_of_bare f s (h t List.mem_cons_self)]
    rfl

/-- Where comments are dropped the page is a matter of the lexemes that are left. -/
theorem page_foldl_of_drops (hf : f.dropsComments) (s : Typesetter) (ts : List Token) :
    (ts.foldl (write f) s).page =
      ((Token.withoutComments ts).map (·.lexeme)).foldl Page.write s.page := by
  induction ts generalizing s with
  | nil => rfl
  | cons t ts ih =>
    rw [List.foldl_cons, ih]
    cases ht : t.isComment with
    | true =>
      have hleft : Token.withoutComments (t :: ts) = Token.withoutComments ts :=
        List.filter_cons_of_neg (by simp [ht])
      rw [write_of_drops hf s ht, hleft]
    | false =>
      have hleft : Token.withoutComments (t :: ts) = t :: Token.withoutComments ts :=
        List.filter_cons_of_pos (by simp [ht])
      rw [page_write_of_bare f s (by simp [ht]), hleft]
      rfl

end Typesetter

/-- A text without comments is the page of the lexemes that are left. -/
theorem canonicalText_of_drops {f : Flags} (hf : f.dropsComments) (ts : List Token) :
    canonicalText f ts =
      (((Token.withoutComments ts).map (·.lexeme)).foldl Page.write Page.empty).text := by
  rw [canonicalText, Typesetter.page_foldl_of_drops hf]

/-- To drop comments while writing is to write what is left without them, under any flags. -/
theorem canonicalText_withoutComments {f : Flags} (hf : f.dropsComments) (g : Flags) (ts : List Token) :
    canonicalText g (Token.withoutComments ts) = canonicalText f ts := by
  have hbare : ∀ t ∈ Token.withoutComments ts, ¬ t.isComment := by
    intro t ht
    simpa using (List.mem_filter.1 ht).2
  rw [canonicalText_of_drops hf, canonicalText, Typesetter.page_foldl_of_bare g _ hbare]

/-- Token lists that say the same have the same hash. -/
theorem contentHash_eq_of_lexemes_eq {ts us : List Token}
    (h : (Token.withoutComments ts).map (·.lexeme) = (Token.withoutComments us).map (·.lexeme)) :
    contentHash ts = contentHash us := by
  have hdrops : Flags.discardComments.dropsComments := by decide
  rw [contentHash, contentHash, canonicalText_of_drops hdrops, canonicalText_of_drops hdrops, h]

/-- A text without comments shows what the tokens are and nothing else.  Lists `ts` and `us` with the same
lexemes apart from comments have the same text under all flags `f` that drop comments, wherever their tokens
and their comments stand.  It is the text of either list without its comments, under any flags `g`; and so
their hashes are the same. -/
theorem canonicalText_unseen {f : Flags} (hf : f.dropsComments) (g : Flags) {ts us : List Token}
    (h : (Token.withoutComments ts).map (·.lexeme) = (Token.withoutComments us).map (·.lexeme)) :
    canonicalText f ts = canonicalText f us ∧
      canonicalText f ts = canonicalText g (Token.withoutComments ts) ∧
      canonicalText f us = canonicalText g (Token.withoutComments us) ∧
      contentHash ts = contentHash us := by
  refine ⟨?_, (canonicalText_withoutComments hf g ts).symm, (canonicalText_withoutComments hf g us).symm,
    contentHash_eq_of_lexemes_eq h⟩
  rw [canonicalText_of_drops hf, canonicalText_of_drops hf, h]

/-- A scope in front of everything, behind a comment in one list and not in the other, and tokens whose lines
run backwards.  With the comments the first list has another text. -/
theorem canonicalText_unseen_scope :
    let ts : List Token := [⟨.comment "c", ⟨1, 1⟩⟩, ⟨.openScope, ⟨9, 1⟩⟩, ⟨.symbol "a", ⟨3, 3⟩⟩,
      ⟨.comment "", ⟨4, 1⟩⟩, ⟨.symbol "b", ⟨2, 1⟩⟩]
    let us : List Token := [⟨.openScope, ⟨1, 1⟩⟩, ⟨.symbol "a", ⟨1, 1⟩⟩, ⟨.symbol "b", ⟨1, 1⟩⟩,
      ⟨.comment "d", ⟨1, 9⟩⟩]
    (Token.withoutComments ts).map (·.lexeme) = (Token.withoutComments us).map (·.lexeme) ∧
      canonicalText ⟨255⟩ us = "\n  a b" ∧
      canonicalText ⟨255⟩ ts = canonicalText ⟨255⟩ us ∧
      canonicalText ⟨255⟩ ts = canonicalText ⟨4⟩ (Token.withoutComments ts) ∧
      contentHash ts = contentHash us ∧
      canonicalText ⟨4⟩ ts ≠ canonicalText ⟨4⟩ us := by
  intro ts us
  have h : (Token.withoutComments ts).map (·.lexeme) = (Token.withoutComments us).map (·.lexeme) := by
    decide
  have hf : (⟨255⟩ : Flags).dropsComments := by decide
  obtain ⟨hsame, hbare, -, hhash⟩ := canonicalText_unseen hf ⟨4⟩ h
  exact ⟨h, by decide +kernel, hsame, hbare, hhash, by decide +kernel⟩

end EntitySchema
