import EntitySchema.Proofs.Content
/-!
  Carriage returns are invisible.

  They are met wherever a source is read, and left out there one by one.  It comes to the same to take them
  all out beforehand.  A reader denotes the text without them (`step_onText`), so all that is read of a source
  is a matter of its visible text, and that is the same for both sources: `visible` drops a byte-order mark
  and then the carriage returns, and to drop carriage returns twice is to drop them once.

  Only the byte-order mark has to be watched.  It is no mark unless it stands in front of everything, and with
  the carriage returns in front of it gone it would become one.  `HidesMark` is that case, and there the two
  sources do differ: the mark is a stray character in the one and nothing in the other.

  Main statement: `tokenize_and_parse_withoutReturns`.
-/

namespace EntitySchema

namespace SourceText

/-- The source without its carriage returns. -/
def cleaned (source : String) : String := String.ofList (withoutReturns source.toList)

/-- A byte-order mark stands first of all characters but carriage returns, and some of those stand before
it. -/
def HidesMark (cs : List Char) : Prop :=
  cs.head? = some '\r' ∧ (withoutReturns cs).head? = some byteOrderMark

instance (cs : List Char) : Decidable (HidesMark cs) := inferInstanceAs (Decidable (_ ∧ _))

/-- Without its carriage returns a text has the same visible part, unless that uncovers a byte-order mark. -/
theorem visible_withoutReturns {cs : List Char} (h : ¬ HidesMark cs) :
    visible (withoutReturns cs) = visible cs := by
  cases cs with
  | nil => rfl
  | cons c cs =>
    by_cases hreturn : c = '\r'
    · subst hreturn
      -- Here the source has no mark, and the exception is that one would appear.
      have hfirst : ∀ d ∈ (withoutReturns ('\r' :: cs)).head?, d ≠ byteOrderMark := by
        rintro d hd rfl
        exact h ⟨rfl, hd⟩
      have hplain : dropMark ('\r' :: cs) = '\r' :: cs := by
        rw [dropMark, if_neg (by decide)]
      rw [visible, visible, dropMark_eq_self hfirst, hplain, withoutReturns_idem]
    · rw [withoutReturns_cons_of_ne hreturn, visible, visible, dropMark, dropMark]
      by_cases hmark : c = byteOrderMark
      · rw [if_pos hmark, if_pos hmark, withoutReturns_idem]
      · rw [if_neg hmark, if_neg hmark, ← withoutReturns_cons_of_ne hreturn, withoutReturns_idem]

end SourceText

/-- Only the visible text of a source is read. -/
theorem lex_eq_of_visible_eq {source other : String}
    (h : SourceText.visible source.toList = SourceText.visible other.toList) : lex source = lex other := by
  rw [lex_eq_collect, lex_eq_collect, Lexer.ofSource, Lexer.ofSource, h]

/-- What is read is all that a source tells a parser. -/
theorem parse_eq_of_lex_eq {source other : String} (h : lex source = lex other) (host : HostTypes) :
    parse host source = parse host other := by
  rw [parse_eq_feedRead, parse_eq_feedRead, h]

/-- A `source` and the source without its carriage returns, `SourceText.cleaned source`, are read as the same
tokens at the same places, or have the same fault at the same place, and every `host` parses both as the same
protocol or with the same error.  The one exception is a source with a byte-order mark behind carriage returns
at its very front (`SourceText.HidesMark`): without them the mark would come first and be passed over. -/
theorem tokenize_and_parse_withoutReturns {source : String}
    (h : ¬ SourceText.HidesMark source.toList) :
    tokenize (SourceText.cleaned source) = tokenize source ∧
      ∀ host : HostTypes, parse host (SourceText.cleaned source) = parse host source := by
  have hvisible : SourceText.visible (SourceText.cleaned source).toList =
      SourceText.visible source.toList := by
    rw [SourceText.cleaned, String.toList_ofList, SourceText.visible_withoutReturns h]
  have hlex := lex_eq_of_visible_eq hvisible
  refine ⟨?_, fun host => parse_eq_of_lex_eq hlex host⟩
  rw [tokenize, tokenize, hlex]

/-- Carriage returns in front, in a word, a comment, a margin, a number, a string, and behind everything. -/
theorem tokenize_and_parse_withoutReturns_everywhere :
    ∃ ts r,
      tokenize "\ren\rum E # x\ry\r\n \r R -1\r2\r\nevent A [k 'x\r\ny']\r\n  x int\r" = .ok ts ∧
      tokenize "enum E # xy\n  R -12\nevent A [k 'x\ny']\n  x int" = .ok ts ∧
      parse HostTypes.empty "\ren\rum E # x\ry\r\n \r R -1\r2\r\nevent A [k 'x\r\ny']\r\n  x int\r" =
        .ok r ∧
      parse HostTypes.empty "enum E # xy\n  R -12\nevent A [k 'x\ny']\n  x int" = .ok r := by
  have hcleaned : SourceText.cleaned
      "\ren\rum E # x\ry\r\n \r R -1\r2\r\nevent A [k 'x\r\ny']\r\n  x int\r" =
        "enum E # xy\n  R -12\nevent A [k 'x\ny']\n  x int" := by
    decide +kernel
  have hts : tokenize "enum E # xy\n  R -12\nevent A [k 'x\ny']\n  x int" =
      .ok (lex "enum E # xy\n  R -12\nevent A [k 'x\ny']\n  x int").tokens := by
    decide +kernel
  obtain ⟨r, hr⟩ := exists_ok_of_isSome (show (parse HostTypes.empty
    "enum E # xy\n  R -12\nevent A [k 'x\ny']\n  x int").toOption.isSome by decide +kernel)
  obtain ⟨htokens, hparse⟩ := @tokenize_and_parse_withoutReturns
    "\ren\rum E # x\ry\r\n \r R -1\r2\r\nevent A [k 'x\r\ny']\r\n  x int\r" (by decide +kernel)
  rw [hcleaned] at htokens hparse
  exact ⟨_, r, htokens ▸ hts, hts, hparse HostTypes.empty ▸ hr, hr⟩

-- Behind a carriage return the mark is a character like any other.
example : SourceText.HidesMark "\r\ufeffa".toList ∧
    tokenize "\r\ufeffa" = .error ⟨.strayChar '\ufeff', ⟨1, 1⟩⟩ ∧
    tokenize (SourceText.cleaned "\r\ufeffa") = .ok [⟨.symbol "a", ⟨1, 1⟩⟩] := by
  decide +kernel

end EntitySchema
