import EntitySchema.Proofs.Canonical.Layout
import EntitySchema.Proofs.Lexer.Run
/-!
  How a lexer reads the lines of a page.

  A lexer is at rest where `depth` and `target` agree.  If it then stands before a newline and the margin of a
  line at `level`, it reports what the change of level calls for.  These marks are `Piece.marks depth level
  idle`, where `idle` says that no line is open:

      depth < level    one scope opens, and the line before does not end
      level ≤ depth    the line before ends, unless `idle`, and `depth - level` scopes close

  `reads_enterLine` says that they are what a run reports, and that the lexer is at rest on the new level
  behind them.  They are reported in different steps: `enterLine` itself reports the end of the line and sets
  `target`, and the scopes follow one by one (`reads_closes`).

  The other lemmas each name one step of a lexer at rest by what stands before it: a margin before a comment,
  which is passed over without a word (`step_remarkStart`), a space, a legible word, which is read back as its
  lexeme (`step_word`), a remark (`step_remark`), and the end of the text.
-/

namespace EntitySchema

/-- The marks between a line at `depth` and one at `level`; if nothing is open no line has to end. -/
def Piece.marks (depth level : Nat) (idle : Bool) : List Piece :=
  if depth < level then [.opens]
  else (if idle then [] else [.ends]) ++ List.replicate (depth - level) .closes

namespace Lexer

open Scan (StartsWord)

/-! ## Marks -/

/-- The tokens are the structural marks `ps`, and no comment is among them. -/
def Marks (ps : List Piece) (ts : List Token) : Prop :=
  ts.map (fun t => Piece.ofLexeme true t.lexeme) = ps ∧ ∀ t ∈ ts, ¬ t.isComment

/-- A lexer `n` levels above its target closes `n` scopes, all at one place, and is at rest. -/
theorem reads_closes (n : Nat) {l : Lexer} (h : l.depth = l.target + n) :
    Reads l (List.replicate n ⟨.closeScope, l.position⟩) { l with depth := l.target } := by
  induction n generalizing l with
  | zero =>
    have : { l with depth := l.target } = l := by cases l; simp_all
    rw [this]
    exact .here l
  | succ n ih =>
    have hstep : l.step = .token ⟨.closeScope, l.position⟩ { l with depth := l.depth - 1 } := by
      rw [step, if_neg (by omega), if_pos (by omega)]
    exact .token hstep (ih (l := { l with depth := l.depth - 1 }) (by simp only; omega))

/-- A lexer that enters a line reports the marks and is at rest on the level of the line. -/
theorem reads_enterLine {l here : Lexer} {level : Nat} (hstep : l.step = l.enterLine here level)
    (hdepth : here.depth = l.depth) (hended : here.ended = l.ended) (hlevel : level ≤ l.depth + 1) :
    ∃ ts ended, Reads l ts { here with depth := level, target := level, ended } ∧
      Marks (Piece.marks l.depth level l.ended) ts := by
  by_cases hdeeper : l.depth < level
  · -- The line before does not end: the scope opens in its place.
    have henter : l.enterLine here level = .silent { here with target := level } := by
      simp [enterLine, Nat.not_le.2 hdeeper]
    have hopen : step { here with target := level } = .token ⟨.openScope, here.position⟩
        { here with depth := level, target := level, ended := true } := by
      obtain rfl : level = l.depth + 1 := by omega
      rw [step, if_pos (by simp [hdepth])]
      simp [hdepth]
    refine ⟨_, true, .silent (hstep.trans henter) (.one hopen), ?_, by simp [Token.isComment,
      Lexeme.isComment]⟩
    simp [Piece.marks, hdeeper, Piece.ofLexeme]
  · have hcloses : ∀ ended, Reads { here with target := level, ended }
        (List.replicate (l.depth - level) ⟨.closeScope, here.position⟩)
        { here with depth := level, target := level, ended } := fun ended =>
      reads_closes (l.depth - level) (l := { here with target := level, ended })
        (by simp only; omega)
    -- Scopes close behind the end of the line before, which is reported if it is still open.
    cases hopen : l.ended with
    | true =>
      have henter : l.enterLine here level = .silent { here with target := level, ended := true } := by
        simp only [enterLine, hopen, not_true, and_false, if_false]
        cases here
        simp_all
      refine ⟨_, true, .silent (hstep.trans henter) (hcloses true), ?_, ?_⟩
      · simp [Piece.marks, hdeeper, Piece.ofLexeme]
      · simp [Token.isComment, Lexeme.isComment]
    | false =>
      have henter : l.enterLine here level =
          .token ⟨.endLine, l.position⟩ { here with target := level, ended := true } := by
        simp [enterLine, hopen, Nat.not_lt.1 hdeeper]
      refine ⟨_, true, .token (hstep.trans henter) (hcloses true), ?_, ?_⟩
      · simp [Piece.marks, hdeeper, Piece.ofLexeme]
      · simp [Token.isComment, Lexeme.isComment]

/-! ## Steps on a page -/

/-- A lexer at rest looks at one character: a newline, a separator, or the first of a lexeme. -/
theorem step_of_rest {l : Lexer} {c : Char} {cs : List Char} (hat : l.depth = l.target)
    (hrest : l.rest = c :: cs) :
    l.step = if c = '\n' then l.lineBreak cs
      else if Scan.isSeparator c then .silent (l.past [c] cs) else l.scan c cs := by
  rw [step, if_neg (by omega), if_neg (by omega), hrest]

/-- A margin before other text is the spaces that stand there. -/
theorem span_margin (margin : Nat) (cs : List Char) (h : ∀ c ∈ cs.head?, c ≠ ' ') :
    (List.replicate margin ' ' ++ cs).takeWhile (· = ' ') = List.replicate margin ' ' ∧
      (List.replicate margin ' ' ++ cs).dropWhile (· = ' ') = cs :=
  Scan.span_append (p := (· = ' ')) (fun c hc => by simp [List.eq_of_mem_replicate hc])
    fun c hc => by simpa using h c hc

/-- Behind a newline and a margin the text ends. -/
theorem step_lastMargin {l : Lexer} {margin : Nat} (hat : l.depth = l.target)
    (hrest : l.rest = '\n' :: (List.replicate margin ' ' ++ [])) :
    l.step = l.enterLine (l.past ('\n' :: List.replicate margin ' ') []) 0 := by
  obtain ⟨htake, hdrop⟩ := span_margin margin [] (by simp)
  rw [step_of_rest hat hrest, if_pos rfl, lineBreak]
  simp only [htake, hdrop]

/-- The last newline of a text ends everything. -/
theorem step_lastNewline {l : Lexer} (hat : l.depth = l.target) (hrest : l.rest = ['\n']) :
    l.step = l.enterLine (l.past ['\n'] []) 0 :=
  @step_lastMargin l 0 hat hrest

/-- Behind a newline and a margin there is another character. -/
theorem step_newline {l : Lexer} {margin : Nat} {c : Char} {cs : List Char} (hat : l.depth = l.target)
    (hrest : l.rest = '\n' :: (List.replicate margin ' ' ++ c :: cs)) (hc : c ≠ ' ') :
    l.step =
      let here := l.past ('\n' :: List.replicate margin ' ') (c :: cs)
      if c = '\t' then .fault ⟨.badIndent c, here.position⟩ (here.past [c] cs)
      else if c = '\n' ∨ c = '#' then .silent here
      else if margin % 2 ≠ 0 then .fault ⟨.oddIndent margin, l.position.nextLine⟩ here
      else if l.depth + 1 < margin / 2 then
        .fault ⟨.deepIndent (l.depth + 1) (margin / 2), here.position⟩ here
      else l.enterLine here (margin / 2) := by
  obtain ⟨htake, hdrop⟩ := span_margin margin (c :: cs) (by simpa using hc)
  rw [step_of_rest hat hrest, if_pos rfl, lineBreak]
  simp only [htake, hdrop, List.length_replicate]

/-- Before a line of words a lexer enters the line. -/
theorem step_lineStart {l : Lexer} {level : Nat} {c : Char} {cs : List Char}
    (hat : l.depth = l.target) (hrest : l.rest = Spot.lineStart level ++ c :: cs) (hc : StartsWord c)
    (hlevel : level ≤ l.depth + 1) :
    l.step = l.enterLine (l.past (Spot.lineStart level) (c :: cs)) level := by
  have hlevel' : ¬ l.depth + 1 < 2 * level / 2 := by omega
  simp only [step_newline hat hrest hc.1]
  rw [if_neg hc.2.1, if_neg (by simp [hc.2.2.2.1, hc.2.2.2.2]), if_neg (by simp), if_neg hlevel',
    Nat.mul_div_cancel_left _ (by decide)]
  rfl

/-- The newline before a comment is passed over. -/
theorem step_remarkStart {l : Lexer} {level : Nat} {cs : List Char} (hat : l.depth = l.target)
    (hrest : l.rest = Spot.lineStart level ++ '#' :: cs) :
    l.step = .silent (l.past (Spot.lineStart level) ('#' :: cs)) := by
  simp only [step_newline hat hrest (by decide)]
  rfl

/-- A space is passed over. -/
theorem step_space {l : Lexer} {cs : List Char} (hat : l.depth = l.target)
    (hrest : l.rest = ' ' :: cs) : l.step = .silent (l.past [' '] cs) := by
  rw [step_of_rest hat hrest, if_neg (by decide), if_pos (by decide)]

/-- A word is read back. -/
theorem step_word {l : Lexer} {x : Lexeme} {rest : List Char} (hat : l.depth = l.target)
    (hx : x.isContent) (hlegible : x.Legible) (hrest : l.rest = x.chars ++ rest)
    (hapart : Scan.Apart x rest) :
    l.step = .token ⟨x, l.position⟩ { l.past x.chars rest with ended := false } := by
  obtain ⟨c, cs, hchars, hc, hscan⟩ := Scan.ofChars_chars hx hlegible hapart
  have hcomment := Lexeme.isComment_eq_false hx
  rw [hchars, List.cons_append] at hrest
  rw [step_of_rest hat hrest, if_neg hc.2.2.2.1, if_neg (by simp [Scan.isSeparator, hc.1, hc.2.1,
    hc.2.2.1]), scan]
  simp [hscan, hchars, hcomment]

/-- A remark is read back, and leaves the layout as it is. -/
theorem step_remark {l : Lexer} {text : String} {rest : List Char} (hat : l.depth = l.target)
    (hlegible : (Lexeme.comment text).Legible) (hrest : l.rest = Lexeme.remark text ++ rest)
    (hline : ∀ c ∈ rest.head?, c = '\n') :
    l.step = .token ⟨.comment text, l.position⟩ (l.past (Lexeme.remark text) rest) := by
  obtain ⟨cs, hchars, hscan⟩ := Scan.ofChars_remark hlegible hline
  rw [hchars, List.cons_append] at hrest
  rw [step_of_rest hat hrest, if_neg (by decide), if_neg (by decide), scan]
  simp [hscan, hchars, Lexeme.isComment, past]

/-- Where no scope is open the end of the text is the end. -/
theorem step_finished {l : Lexer} (hdepth : l.depth = 0) (htarget : l.target = 0)
    (hrest : l.rest = []) : l.step = .finished := by
  rw [step, if_neg (by omega), if_neg (by omega), hrest]
  simp [textEnd, hdepth]

end Lexer

end EntitySchema
