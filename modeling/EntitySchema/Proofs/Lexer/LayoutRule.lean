import EntitySchema.Proofs.Canonical.Regular
import EntitySchema.Proofs.Lexer.Calls
import Mathlib.Data.List.Chain
/-!
  The layout rule, read off whole lines.

  A lexer finds the structural marks one by one, from two counters and a flag.  The rule they follow can be
  said without a lexer: cut the text into logical lines at every newline outside of strings, give each word
  the number of its line and the level of that line, half the margin, and set marks between neighbours `p` and
  `q`:

      p.line = q.line                       nothing
      p.line < q.line,  p.depth < q.depth   one scope opens
      p.line < q.line,  q.depth ≤ p.depth   the line ends and `p.depth - q.depth` scopes close

  The last line ends and closes all that is open, and a first word at level 1 opens a scope before it.
  `words` and `lexemes` are this rule.

  `Ruled l ts` says that `ts` is what the rule gives for the text in front of the lexer `l`.  There are two
  places where a lexer can stand, and it says something of each:

  * `OnLine l prev line depth`: on logical line `line`, at level `depth`, behind the word `prev` if there is
    one.  What comes is what stands behind `prev` (`Follows`).
  * `Entering l`: at the start of a line, with marks perhaps still to report.  What comes is these marks, the
    first word of the line and what stands behind it (`Starts`).

  It holds where a run has come to its end (`ruled_of_finished`), and one step carries it backwards
  (`TokenStep.ruled_onLine` and `ruled_entering`, `SilentStep.ruled_onLine`), so it holds at the start
  (`ruled_of_reads`).  The induction goes backwards because the marks between two words are known only when
  the second of them is.

  Main statement: `tokenize_layoutRule`.
-/

namespace EntitySchema

namespace LayoutRule

/-! ## The rule -/

/-- Content, the number of its logical line and the level of that line. -/
structure Word where
  /-- What the word is read as. -/
  lexeme : Lexeme
  /-- The logical line it stands on, counted from zero. -/
  line : Nat
  /-- The level of that line. -/
  depth : Nat
deriving DecidableEq

/-- The word that a scan found; comments are none. -/
def found (line depth : Nat) (s : Scan) : List Word :=
  match s.result with
  | .ok x => if x.isContent then [⟨x, line, depth⟩] else []
  | .error _ => []

/-- The words of a text that goes on in a logical line.  Every newline outside of strings starts the next
line, and half the margin behind it is the level of that line. -/
def words (line depth : Nat) : List Char → List Word
  | [] => []
  | c :: cs =>
    if c = '\n' then words (line + 1) ((cs.takeWhile (· = ' ')).length / 2) cs
    else if Scan.isSeparator c then words line depth cs
    else found line depth (Scan.ofChars c cs) ++ words line depth (Scan.ofChars c cs).rest
termination_by cs => cs.length
decreasing_by
  · exact Nat.lt_succ_self _
  · exact Nat.lt_succ_self _
  · exact Scan.length_rest_lt c cs

/-- The marks between two neighbours. -/
def marksBetween (p q : Word) : List Lexeme :=
  if p.line = q.line then []
  else if p.depth < q.depth then [.openScope]
  else .endLine :: List.replicate (p.depth - q.depth) .closeScope

/-- What stands behind the word `p` if the words `qs` are still to come. -/
def behind (p : Word) : List Word → List Lexeme
  | [] => .endLine :: List.replicate p.depth .closeScope
  | q :: qs => marksBetween p q ++ q.lexeme :: behind q qs

/-- All words and their marks.  A first word that is indented opens a scope. -/
def lexemes : List Word → List Lexeme
  | [] => []
  | q :: qs => (if q.depth = 1 then [.openScope] else []) ++ q.lexeme :: behind q qs

/-- No word is more than one level deeper than the one before it, or than the text around the first. -/
def Climbs (depth : Nat) (qs : List Word) : Prop :=
  (depth :: qs.map (·.depth)).IsChain fun a b => b ≤ a + 1

/-- What stands behind the last word that was read, or in front of everything. -/
def from? : Option Word → List Word → List Lexeme
  | none => lexemes
  | some p => behind p

/-! ## The words of a text -/

section Words

variable {line depth : Nat} {c : Char} {cs : List Char} {x : Lexeme}

/-- A newline starts the next line, at half the margin behind it. -/
theorem words_newline (line depth : Nat) (cs : List Char) : words line depth ('\n' :: cs) =
    words (line + 1) ((cs.takeWhile (· = ' ')).length / 2) cs := by
  rw [words, if_pos rfl]

/-- Separators are no words. -/
theorem words_separator (hc : Scan.isSeparator c) : words line depth (c :: cs) = words line depth cs := by
  have hline : c ≠ '\n' := by rintro rfl; exact absurd hc (by decide)
  rw [words, if_neg hline, if_pos hc]

/-- A margin has no words. -/
theorem words_margin (margin : Nat) (cs : List Char) :
    words line depth (List.replicate margin ' ' ++ cs) = words line depth cs := by
  induction margin with
  | zero => rfl
  | succ margin ih => rw [List.replicate_succ, List.cons_append, words_separator (by decide), ih]

/-- Behind a newline and a margin another line goes on. -/
theorem words_lineStart {margin : Nat} (h : ∀ d ∈ cs.head?, d ≠ ' ') :
    words line depth ('\n' :: (List.replicate margin ' ' ++ cs)) = words (line + 1) (margin / 2) cs := by
  have htake : (List.replicate margin ' ' ++ cs).takeWhile (· = ' ') = List.replicate margin ' ' :=
    (Scan.span_append (p := (· = ' ')) (fun c hc => by simp [List.eq_of_mem_replicate hc])
      fun d hd => by simpa using h d hd).1
  rw [words_newline, htake, List.length_replicate, words_margin]

/-- What a scan finds is a word if it is content, and then come the words of what is left. -/
theorem words_scan (hc : c ≠ '\n') (hx : (Scan.ofChars c cs).result = .ok x) :
    words line depth (c :: cs) =
      (if x.isContent then [⟨x, line, depth⟩] else []) ++ words line depth (Scan.ofChars c cs).rest := by
  rw [words, if_neg hc, if_neg (by simp [Scan.isSeparator_eq_false_of_ok hx]), found, hx]

/-- All words are content. -/
theorem isContent_of_mem_words {q : Word} (h : q ∈ words line depth cs) : q.lexeme.isContent := by
  induction line, depth, cs using words.induct with
  | case1 => simp [words] at h
  | case2 line depth cs ih => exact ih (words_newline line depth cs ▸ h)
  | case3 line depth c cs _ hsep ih => exact ih (words_separator hsep ▸ h)
  | case4 line depth c cs hc hsep ih =>
    rw [words, if_neg hc, if_neg hsep, List.mem_append] at h
    refine h.elim (fun hfound => ?_) ih
    unfold found at hfound
    split at hfound
    · split at hfound
      · next hcontent => rw [List.mem_singleton.1 hfound]; exact hcontent
      · cases hfound
    · cases hfound

end Words

/-! ## The content of what the rule gives -/

/-- Between neighbours there is no content. -/
theorem filter_marksBetween (p q : Word) : (marksBetween p q).filter Lexeme.isContent = [] := by
  unfold marksBetween
  split
  · rfl
  split
  · rfl
  · simp [Lexeme.isContent]

/-- The content behind a word is the words that follow. -/
theorem filter_behind {qs : List Word} (h : ∀ q ∈ qs, q.lexeme.isContent) (p : Word) :
    (behind p qs).filter Lexeme.isContent = qs.map (·.lexeme) := by
  induction qs generalizing p with
  | nil => simp [behind, Lexeme.isContent]
  | cons q qs ih =>
    have hfirst := h q List.mem_cons_self
    rw [behind, List.filter_append, filter_marksBetween, List.filter_cons, if_pos hfirst,
      ih (fun r hr => h r (List.mem_cons_of_mem q hr))]
    rfl

/-- The marks of the rule are no content. -/
theorem filter_lexemes {qs : List Word} (h : ∀ q ∈ qs, q.lexeme.isContent) :
    (lexemes qs).filter Lexeme.isContent = qs.map (·.lexeme) := by
  cases qs with
  | nil => rfl
  | cons q qs =>
    have hfirst := h q List.mem_cons_self
    have hopens : (if q.depth = 1 then [Lexeme.openScope] else []).filter Lexeme.isContent = [] := by
      split <;> rfl
    rw [lexemes, List.filter_append, hopens, List.filter_cons, if_pos hfirst,
      filter_behind fun r hr => h r (List.mem_cons_of_mem q hr)]
    rfl

end LayoutRule

namespace Scan

/-- No newline is the last character of a lexeme. -/
theorem getLast?_taken_ne {c : Char} {cs : List Char} {x : Lexeme} (hx : (ofChars c cs).result = .ok x) :
    (ofChars c cs).taken.getLast? ≠ some '\n' := by
  intro hlast
  -- Only a string has newlines in it, and it ends in a quote.
  obtain ⟨quote, text, hquote, -, -, htaken⟩ :=
    (spells_and_halts_of_ok hx).1.exists_string (Or.inl rfl) (List.mem_of_getLast? hlast)
  rw [htaken, ← List.cons_append, List.getLast?_concat] at hlast
  obtain rfl := Option.some.inj hlast
  exact absurd hquote (by decide)

end Scan

namespace Lexer

open LayoutRule

/-! ## A lexer and the rule -/

/-- Nothing more stands on the line but perhaps a comment. -/
def Quiet (rest : List Char) : Prop := ∀ c ∈ rest.head?, c = '\n' ∨ c = '#'

/-- The lexer reads a logical line at `depth`, and `prev` is the word before it. -/
structure OnLine (l : Lexer) (prev : Option Word) (line depth : Nat) : Prop where
  /-- The marks of the line were reported. -/
  at_rest : l.depth = l.target
  /-- The text ends in a newline. -/
  more : l.rest.getLast? = some '\n'
  /-- Before the first word nothing is open. -/
  fresh : prev = none → l.depth = 0 ∧ l.ended = true
  /-- Behind a word its line is open, at the level of the lexer. -/
  opened : ∀ p ∈ prev, p.depth = l.depth ∧ p.line ≤ line ∧ l.ended = false
  /-- Blank lines and lines with a comment are passed over whatever their margin. -/
  same_line : (depth = l.depth ∧ ∀ p ∈ prev, p.line = line) ∨ Quiet l.rest

/-- The lexer has come to a line that starts with a word, or to the end of the text. -/
structure Entering (l : Lexer) : Prop where
  /-- The line starts with a word, or there is none. -/
  rest : (l.rest = [] ∧ l.target = 0) ∨ ∃ c cs, l.rest = c :: cs ∧ Scan.StartsWord c
  /-- The text ends in a newline, if anything is left of it. -/
  more : l.rest ≠ [] → l.rest.getLast? = some '\n'
  /-- The line is at most one level deeper than the scopes that are open. -/
  near : l.target ≤ l.depth + 1

/-- The scopes that the line still opens or closes. -/
def pending (l : Lexer) : List Lexeme :=
  if l.depth < l.target then [.openScope] else List.replicate (l.depth - l.target) .closeScope

/-- What the rule says of lexemes `xs` behind `prev`, if the words `qs` are still to come: they are what it
puts there, and the words climb one level at a time. -/
structure Follows (prev : Option Word) (qs : List Word) (xs : List Lexeme) : Prop where
  /-- The lexemes are the words and the marks between them. -/
  eq : xs = from? prev qs
  /-- No word is more than one level deeper than the one before it. -/
  climbs : Climbs (prev.elim 0 (·.depth)) qs

/-- What the rule says of lexemes `xs` at the start of a line, if the words `qs` are still to come. -/
inductive Starts (l : Lexer) (line : Nat) (qs : List Word) (xs : List Lexeme) : Prop where
  /-- At the end of the text the scopes close. -/
  | finished (hrest : l.rest = []) (hqs : qs = []) (hxs : xs = List.replicate l.depth .closeScope)
  /-- The marks that are still to report, the first word of the line, and what stands behind it. -/
  | word {q : Word} {more : List Word} (hqs : qs = q :: more) (hline : q.line = line)
      (hdepth : q.depth = l.target) (hxs : xs = l.pending ++ q.lexeme :: behind q more)
      (hclimbs : Climbs q.depth more)

/-- The tokens are those that the rule gives for the text in front of the lexer. -/
structure Ruled (l : Lexer) (ts : List Token) : Prop where
  /-- On a line, whatever word came before. -/
  onLine : ∀ prev line depth, l.OnLine prev line depth →
    Follows prev (words line depth l.rest) (Lexeme.withoutComments (ts.map (·.lexeme)))
  /-- At the start of a line, whatever its number. -/
  entering : ∀ line, l.Entering →
    l.Starts line (words line l.target l.rest) (Lexeme.withoutComments (ts.map (·.lexeme)))

/-- A comment in front of tokens is dropped, and anything else stays in front of them. -/
theorem withoutComments_cons (t : Token) (ts : List Token) :
    Lexeme.withoutComments ((t :: ts).map (·.lexeme)) =
      (if t.lexeme.isComment then [] else [t.lexeme]) ++
        Lexeme.withoutComments (ts.map (·.lexeme)) := by
  cases h : t.lexeme.isComment <;> simp [Lexeme.withoutComments, h]

variable {l next : Lexer} {t : Token} {ts : List Token} {prev : Option Word} {line depth : Nat}

/-! ## Texts that end in a newline -/

/-- What is left of a text that ends in a newline ends in one. -/
theorem getLast?_of_suffix {cs ds : List Char} (h : ds <:+ cs) (hds : ds ≠ [])
    (hcs : cs.getLast? = some '\n') : ds.getLast? = some '\n' := by
  obtain ⟨front, rfl⟩ := h
  rwa [List.getLast?_append_of_ne_nil _ hds] at hcs

/-- Behind characters that end in no newline there is more. -/
theorem getLast?_of_append {cs ds : List Char} (hds : ds.getLast? ≠ some '\n')
    (h : (ds ++ cs).getLast? = some '\n') : cs.getLast? = some '\n' := by
  cases cs with
  | nil => rw [List.append_nil] at h; exact absurd h hds
  | cons c cs => rwa [List.getLast?_append_of_ne_nil _ (List.cons_ne_nil c cs)] at h

/-! ## Lines that are entered -/

/-- The words of a line that is entered are those of the next logical line. -/
theorem Lands.words_eq {margin level : Nat} {rest : List Char} (h : l.Lands margin rest level)
    (line depth : Nat) : words line depth l.rest = words (line + 1) level rest := by
  rw [h.1]
  rcases h.2 with ⟨rfl, -⟩ | ⟨hmargin, -, c, more, rfl, hc, -⟩
  · rw [words_lineStart (by simp), words, words]
  · rw [words_lineStart (by simpa using hc), hmargin, Nat.mul_div_cancel_left _ (by decide)]

/-- A line that can be entered is entered, if it starts with no comma. -/
theorem Lands.entering {margin level : Nat} {rest : List Char} (h : l.Lands margin rest level)
    (hcomma : NoCommaLine l.rest) (hmore : l.rest.getLast? = some '\n')
    (hnext : next.rest = rest ∧ next.target = level ∧ next.depth = l.depth) : next.Entering where
  rest := by rw [hnext.1, hnext.2.1]; exact h.rest_of_noCommaLine hcomma
  more hne := by
    rw [hnext.1] at hne ⊢
    exact getLast?_of_suffix h.rest_suffix hne hmore
  near := by rw [hnext.2.1, hnext.2.2]; exact h.level_le

/-- A line that is not deeper ends the one before it. -/
theorem Starts.behind_line {p : Word} {qs : List Word} {xs : List Lexeme}
    (h : next.Starts (line + 1) qs xs) (hdepth : p.depth = next.depth) (hline : p.line ≤ line)
    (hle : next.target ≤ next.depth) : Follows (some p) qs (.endLine :: xs) := by
  cases h with
  | finished hrest hqs hxs =>
    subst hqs hxs
    exact ⟨by simp [from?, behind, hdepth], .singleton _⟩
  | @word q more hqs hq hlevel hxs hclimbs =>
    subst hqs hxs
    have hbetween : marksBetween p q = .endLine :: next.pending := by
      rw [marksBetween, if_neg (by omega), if_neg (by omega), pending, if_neg (by omega), hdepth, hlevel]
    refine ⟨by simp [from?, behind, hbetween], .cons_cons ?_ hclimbs⟩
    show q.depth ≤ p.depth + 1
    omega

/-- A deeper line opens a scope. -/
theorem Starts.inside_line {p : Word} {qs : List Word} {xs : List Lexeme}
    (h : next.Starts (line + 1) qs xs) (hdepth : p.depth = next.depth) (hline : p.line ≤ line)
    (hlt : next.depth < next.target) (hl : next.Entering) : Follows (some p) qs xs := by
  have hnear := hl.near
  cases h with
  | finished hrest =>
    rcases hl.rest with ⟨-, hzero⟩ | ⟨c, cs, hcons, -⟩
    · omega
    · rw [hrest] at hcons; cases hcons
  | @word q more hqs hq hlevel hxs hclimbs =>
    subst hqs hxs
    have hbetween : marksBetween p q = next.pending := by
      rw [marksBetween, if_neg (by omega), if_pos (by omega), pending, if_pos hlt]
    refine ⟨by simp [from?, behind, hbetween], .cons_cons ?_ hclimbs⟩
    show q.depth ≤ p.depth + 1
    omega

/-- The first line with a word may be indented once. -/
theorem Starts.first_line {qs : List Word} {xs : List Lexeme} (h : next.Starts (line + 1) qs xs)
    (hdepth : next.depth = 0) (hl : next.Entering) : Follows none qs xs := by
  have hnear := hl.near
  cases h with
  | finished hrest hqs hxs =>
    subst hqs hxs
    exact ⟨by simp [from?, lexemes, hdepth], .singleton _⟩
  | @word q more hqs hq hlevel hxs hclimbs =>
    subst hqs hxs
    have hfirst : (if q.depth = 1 then [Lexeme.openScope] else []) = next.pending := by
      rw [pending, hlevel, hdepth]
      split
      · next hone => rw [if_pos (by omega)]
      · next hnot => rw [if_neg (by omega), show next.target = 0 by omega]; rfl
    refine ⟨by simp [from?, lexemes, hfirst], .cons_cons ?_ hclimbs⟩
    show q.depth ≤ 0 + 1
    omega

/-! ## One step -/

/-- On a line there is more to come, its newline at least. -/
theorem OnLine.rest_ne_nil (h : l.OnLine prev line depth) : l.rest ≠ [] := by
  intro hnil
  have := h.more
  rw [hnil] at this
  cases this

/-- On a line with more to come, a word or a separator stands where `depth` is that of the lexer. -/
theorem OnLine.of_rest {c : Char} {cs : List Char} (h : l.OnLine prev line depth)
    (hrest : l.rest = c :: cs) (hline : c ≠ '\n') (hsign : c ≠ '#') :
    depth = l.depth ∧ ∀ p ∈ prev, p.line = line := by
  refine h.same_line.resolve_right fun hquiet => ?_
  rcases hquiet c (by simp [hrest]) with hc | hc
  · exact hline hc
  · exact hsign hc

/-- On a line the rule is kept by what is passed over. -/
theorem SilentStep.ruled_onLine (h : l.SilentStep next) (hcomma : NoCommaLine l.rest)
    (ih : next.Ruled ts) (hl : l.OnLine prev line depth) :
    Follows prev (words line depth l.rest) (Lexeme.withoutComments (ts.map (·.lexeme))) := by
  cases h with
  | @separator c cs hat hrest hc =>
    have hplain : c ≠ '\n' ∧ c ≠ '#' := by
      constructor <;> rintro rfl <;> exact absurd hc (by decide)
    have hmore := hl.more
    rw [hrest] at hmore
    rw [hrest, words_separator hc]
    exact ih.onLine prev line depth ⟨hat,
      getLast?_of_append (by simpa using hplain.1) (List.singleton_append ▸ hmore), hl.fresh, hl.opened,
      Or.inl (hl.of_rest hrest hplain.1 hplain.2)⟩
  | @blank margin c more hat hrest hc =>
    have hspace : c ≠ ' ' := by rintro rfl; rcases hc with hc | hc <;> cases hc
    have hsuffix : c :: more <:+ l.rest := by
      rw [hrest, ← List.cons_append]
      exact List.suffix_append _ _
    rw [hrest, words_lineStart (by simpa using hspace)]
    refine ih.onLine prev (line + 1) (margin / 2) ⟨hat,
      getLast?_of_suffix hsuffix (List.cons_ne_nil c more) hl.more, hl.fresh, fun p hp => ?_, Or.inr ?_⟩
    · obtain ⟨hdepth, hle, hopen⟩ := hl.opened p hp
      exact ⟨hdepth, Nat.le_succ_of_le hle, hopen⟩
    · rintro d hd
      obtain rfl := Option.some.inj hd
      exact hc
  -- The next line is entered without a mark: it is deeper, or nothing is open.
  | @enters margin level rest hat hlands hopen =>
    have hnext : Entering { l.past ('\n' :: List.replicate margin ' ') rest with target := level } :=
      hlands.entering hcomma hl.more ⟨rfl, rfl, rfl⟩
    have hstarts := ih.entering (line + 1) hnext
    rw [hlands.words_eq]
    cases prev with
    | none => exact hstarts.first_line (hl.fresh rfl).1 hnext
    | some p =>
      obtain ⟨hdepth, hle, hended⟩ := hl.opened p rfl
      have hlt : l.depth < level := hopen.resolve_right (by simp [hended])
      exact hstarts.inside_line hdepth hle hlt hnext

/-- On a line the rule is kept by what is reported. -/
theorem TokenStep.ruled_onLine (h : l.TokenStep t next) (hcomma : NoCommaLine l.rest)
    (ih : next.Ruled ts) (hl : l.OnLine prev line depth) :
    Follows prev (words line depth l.rest) (Lexeme.withoutComments ((t :: ts).map (·.lexeme))) := by
  rw [withoutComments_cons]
  cases h with
  -- On a line the lexer is at rest, and there is more to come.
  | opens hlt => exact absurd hl.at_rest (Nat.ne_of_lt hlt)
  | closes hlt => exact absurd hl.at_rest.symm (Nat.ne_of_lt hlt)
  | endsLast hat hrest | closesLast hat hrest => exact absurd hrest hl.rest_ne_nil
  | @ends margin level rest hat hlands hlevel hopen =>
    have hnext : Entering { l.past ('\n' :: List.replicate margin ' ') rest with
        target := level, ended := true } :=
      hlands.entering hcomma hl.more ⟨rfl, rfl, rfl⟩
    have hstarts := ih.entering (line + 1) hnext
    rw [hlands.words_eq]
    cases prev with
    | none => cases hopen.symm.trans (hl.fresh rfl).2
    | some p =>
      obtain ⟨hdepth, hle, -⟩ := hl.opened p rfl
      exact hstarts.behind_line hdepth hle hlevel
  | @scans c cs x hat hrest hc hx =>
    have hmore : (Scan.ofChars c cs).rest.getLast? = some '\n' := by
      refine getLast?_of_append (Scan.getLast?_taken_ne hx) ?_
      rw [Scan.taken_append_rest, ← hrest, hl.more]
    rw [hrest, words_scan hc hx]
    -- A word becomes the one before the next; a comment leaves the rule as it is.
    rcases Scan.isContent_or_isComment_of_ok hx with hcontent | hcomment
    · have hword := Lexeme.isComment_eq_false hcontent
      have hsign : c ≠ '#' := by
        rintro rfl
        rw [Scan.ofChars, if_pos rfl] at hx
        cases hx
        cases hcontent
      obtain ⟨rfl, hline⟩ := hl.of_rest hrest hc hsign
      -- From here on the line goes on behind this word.
      obtain ⟨heq, hclimbs⟩ := ih.onLine (some ⟨x, line, l.depth⟩) line l.depth ⟨hat, hmore, by simp,
        by simp [past, hword], Or.inl ⟨rfl, by simp⟩⟩
      rw [if_pos hcontent, if_neg (by simp [hword]), heq]
      cases prev with
      | none =>
        have hzero := (hl.fresh rfl).1
        exact ⟨by simp [from?, lexemes, past, hzero], .cons_cons (by simp [hzero]) hclimbs⟩
      | some p =>
        obtain ⟨hdepth, -, -⟩ := hl.opened p rfl
        refine ⟨by simp [from?, behind, marksBetween, past, hline p rfl], .cons_cons ?_ hclimbs⟩
        show l.depth ≤ p.depth + 1
        omega
    · have hplain : ¬ x.isContent := fun hcontent => by
        have := Lexeme.isComment_eq_false hcontent
        rw [hcomment] at this
        cases this
      have hline : ∀ d ∈ (Scan.ofChars c cs).rest.head?, d = '\n' ∨ d = '#' := by
        cases x with
        | comment text => exact fun d hd => Or.inl (Scan.head?_rest_of_comment hx d hd)
        | symbol | number | string | operator | openScope | closeScope | endLine | openMeta
        | closeMeta => cases hcomment
      rw [if_neg hplain, if_pos hcomment]
      exact ih.onLine prev line depth ⟨hat, hmore, by simpa [hcomment, past] using hl.fresh,
        by simpa [hcomment, past] using hl.opened, Or.inr hline⟩

/-- Where a line is entered, nothing is passed over. -/
theorem SilentStep.not_entering (h : l.SilentStep next) : ¬ l.Entering := by
  intro hl
  have hword : ∀ c cs, l.rest = c :: cs → Scan.StartsWord c := fun _ _ => startsWord_of_rest hl.rest
  cases h with
  | separator _ hrest hc =>
    have := hword _ _ hrest
    simp [Scan.isSeparator, this.1, this.2.1, this.2.2.1] at hc
  | blank _ hrest => exact absurd rfl (hword _ _ hrest).2.2.2.1
  | enters _ hlands => exact absurd rfl (hword _ _ hlands.1).2.2.2.1

/-- Where a line is entered, its marks come first and then its first word. -/
theorem TokenStep.ruled_entering (h : l.TokenStep t next) (ih : next.Ruled ts) (hl : l.Entering) :
    l.Starts line (words line l.target l.rest)
      (Lexeme.withoutComments ((t :: ts).map (·.lexeme))) := by
  have hword : ∀ c cs, l.rest = c :: cs → Scan.StartsWord c := fun _ _ => startsWord_of_rest hl.rest
  have hlast : l.rest = [] → l.target = 0 := by
    intro hnil
    rcases hl.rest with ⟨-, hzero⟩ | ⟨c, cs, hcons, -⟩
    · exact hzero
    · rw [hnil] at hcons; cases hcons
  have hnear := hl.near
  rw [withoutComments_cons]
  cases h with
  | opens hlt =>
    have hnext : Entering { l with depth := l.depth + 1, ended := true } :=
      ⟨hl.rest, hl.more, Nat.le_succ_of_le hnear⟩
    -- A scope opens before a word only.
    cases ih.entering line hnext with
    | finished hrest =>
      have := hlast hrest
      omega
    | word hqs hline hdepth hxs hclimbs =>
      refine .word hqs hline hdepth ?_ hclimbs
      have hnone : pending { l with depth := l.depth + 1, ended := true } = [] := by
        have hat : l.target = l.depth + 1 := by omega
        simp [pending, hat]
      rw [hxs, hnone, pending, if_pos hlt]
      rfl
  | closes hlt =>
    -- One scope closes now, and the others are still pending.
    obtain ⟨n, hn⟩ : ∃ n, l.depth = n + 1 := ⟨l.depth - 1, by omega⟩
    have hnext : Entering { l with depth := l.depth - 1 } :=
      ⟨hl.rest, hl.more, show l.target ≤ l.depth - 1 + 1 by omega⟩
    cases ih.entering line hnext with
    | finished hrest hqs hxs =>
      refine .finished hrest hqs ?_
      rw [hxs, hn]
      simp [Lexeme.isComment, List.replicate_succ]
    | word hqs hline hdepth hxs hclimbs =>
      refine .word hqs hline hdepth ?_ hclimbs
      have hcloses : l.pending = .closeScope :: pending { l with depth := l.depth - 1 } := by
        rw [pending, if_neg (by omega), pending, if_neg (by simp only; omega),
          show l.depth - l.target = (l.depth - 1 - l.target) + 1 by omega, List.replicate_succ]
      rw [hxs, hcloses]
      rfl
  -- What is entered starts with a word, so no newline can come first.
  | ends _ hlands => exact absurd rfl (hword _ _ hlands.1).2.2.2.1
  | endsLast hat hrest hdepth | closesLast hat hrest hdepth =>
    have := hlast hrest
    omega
  | @scans c cs x hat hrest hc hx =>
    have hcontent := isContent_of_startsWord (hword c cs hrest) hx
    have hplain := Lexeme.isComment_eq_false hcontent
    have hmore : (Scan.ofChars c cs).rest.getLast? = some '\n' := by
      refine getLast?_of_append (Scan.getLast?_taken_ne hx) ?_
      rw [Scan.taken_append_rest, ← hrest]
      exact hl.more (by simp [hrest])
    obtain ⟨heq, hclimbs⟩ := ih.onLine (some ⟨x, line, l.target⟩) line l.target ⟨hat, hmore, by simp,
      by simp [past, hplain, hat], Or.inl ⟨hat.symm, by simp⟩⟩
    refine .word (q := ⟨x, line, l.target⟩) ?_ rfl rfl ?_ hclimbs
    · rw [hrest, words_scan hc hx, if_pos hcontent]
      rfl
    · have hnone : l.pending = [] := by simp [pending, hat]
      rw [if_neg (by simp [hplain]), hnone, heq]
      rfl

/-! ## Whole runs -/

/-- The rule holds where a run has come to its end. -/
theorem ruled_of_finished (h : l.step = .finished) : l.Ruled [] where
  onLine _ _ _ hl := absurd ((rest_and_depth_of_finished h).1) hl.rest_ne_nil
  entering line hl := by
    have hrest := (rest_and_depth_of_finished h).1
    refine .finished hrest ?_ ?_
    · rw [hrest, words]
    · rw [(rest_and_depth_of_finished h).2]
      rfl

/-- The tokens of every run that comes to its end are those that the rule gives. -/
theorem ruled_of_reads {last : Lexer} (h : Reads l ts last) (hend : last.step = .finished)
    (hcomma : NoCommaLine l.rest) : l.Ruled ts := by
  induction h with
  | here => exact ruled_of_finished hend
  | token hstep _ ih =>
    have ht := tokenStep_of_step hstep
    have hnext := ih hend (hcomma.suffix ht.rest_suffix)
    exact ⟨fun _ _ _ hl => ht.ruled_onLine hcomma hnext hl, fun _ hl => ht.ruled_entering hnext hl⟩
  | silent hstep _ ih =>
    have hs := silentStep_of_step hstep
    have hnext := ih hend (hcomma.suffix hs.rest_suffix)
    exact ⟨fun _ _ _ hl => hs.ruled_onLine hcomma hnext hl, fun _ hl => absurd hl hs.not_entering⟩

end Lexer

/-- A source that ends in a newline has a text that does. -/
theorem SourceText.getLast?_visible {cs : List Char} (h : (withoutReturns cs).getLast? = some '\n') :
    (visible cs).getLast? = some '\n' := by
  refine Lexer.getLast?_of_suffix (visible_suffix cs) (fun hnil => ?_) h
  cases cs with
  | nil => cases h
  | cons c cs =>
    rw [visible, dropMark] at hnil
    split at hnil
    -- Behind the mark there would be nothing but carriage returns.
    · next hmark =>
      have hplain : withoutReturns [c] = [c] := by rw [hmark]; rfl
      rw [← List.singleton_append, withoutReturns_append, hplain, hnil, hmark] at h
      cases h
    · rw [hnil] at h
      cases h

/-- The tokenizer implements the layout rule.  Carriage returns aside, take a `source` that has tokens `ts`,
ends in a newline and has no line that starts with a comma, and let `qs` be the words of its logical lines.
The content of `ts` is that of `qs`.  No word is more than one level deeper than the one before it, and the
first one is at level 0 or 1 (`Climbs 0 qs`).  All of `ts` but the comments are these words, with the marks
between them that the levels of their lines call for, `LayoutRule.lexemes qs`. -/
theorem tokenize_layoutRule {source : String} {ts : List Token} (h : tokenize source = .ok ts)
    (hlast : (SourceText.withoutReturns source.toList).getLast? = some '\n')
    (hcomma : Lexer.NoCommaLine (SourceText.withoutReturns source.toList)) :
    let qs := LayoutRule.words 0 0 (SourceText.visible source.toList)
    (ts.map (·.lexeme)).filter Lexeme.isContent = qs.map (·.lexeme) ∧ LayoutRule.Climbs 0 qs ∧
      Lexeme.withoutComments (ts.map (·.lexeme)) = LayoutRule.lexemes qs := by
  intro qs
  obtain ⟨last, hreads, hend⟩ := Lexer.tokenize_eq_ok_iff.1 h
  have hsuffix := SourceText.visible_suffix source.toList
  have hruled := Lexer.ruled_of_reads hreads hend (hcomma.suffix hsuffix)
  have hstart : (Lexer.ofSource source).OnLine none 0 0 :=
    ⟨rfl, SourceText.getLast?_visible hlast, fun _ => ⟨rfl, rfl⟩, by simp, Or.inl ⟨rfl, by simp⟩⟩
  -- At its start a lexer reads logical line 0, at level 0, behind no word.
  obtain ⟨heq, hclimbs⟩ := hruled.onLine none 0 0 hstart
  have hcontent : (ts.map (·.lexeme)).filter Lexeme.isContent =
      (Lexeme.withoutComments (ts.map (·.lexeme))).filter Lexeme.isContent := by
    rw [Lexeme.withoutComments, List.filter_filter]
    refine List.filter_congr fun x _ => ?_
    cases hx : x.isContent with
    | true => simp [Lexeme.isComment_eq_false hx]
    | false => rfl
  refine ⟨?_, hclimbs, heq⟩
  rw [hcontent, heq]
  exact LayoutRule.filter_lexemes fun q hq => LayoutRule.isContent_of_mem_words hq

/-- A first line that is indented, a comment in a margin of its own, a string that runs over a newline, and
a line that closes two scopes. -/
theorem tokenize_layoutRule_indented :
    ∃ ts, tokenize "\n  a\n   # c\n    'b\n' 1\n  \nd\n" = .ok ts ∧
      LayoutRule.words 0 0 (SourceText.visible "\n  a\n   # c\n    'b\n' 1\n  \nd\n".toList) =
        [⟨.symbol "a", 1, 1⟩, ⟨.string "b\n", 3, 2⟩, ⟨.number 1, 3, 2⟩, ⟨.symbol "d", 5, 0⟩] ∧
      Lexeme.withoutComments (ts.map (·.lexeme)) =
        [.openScope, .symbol "a", .openScope, .string "b\n", .number 1, .endLine, .closeScope,
          .closeScope, .symbol "d", .endLine] := by
  have h : tokenize "\n  a\n   # c\n    'b\n' 1\n  \nd\n" = .ok (lex
      "\n  a\n   # c\n    'b\n' 1\n  \nd\n").tokens := by
    decide +kernel
  have hwords : LayoutRule.words 0 0
      (SourceText.visible "\n  a\n   # c\n    'b\n' 1\n  \nd\n".toList) =
        [⟨.symbol "a", 1, 1⟩, ⟨.string "b\n", 3, 2⟩, ⟨.number 1, 3, 2⟩, ⟨.symbol "d", 5, 0⟩] := by
    decide +kernel
  obtain ⟨-, -, heq⟩ := tokenize_layoutRule h (by decide +kernel)
    (Lexer.noCommaLine_of_not_mem (by decide +kernel))
  refine ⟨_, h, hwords, ?_⟩
  rw [heq, hwords]
  decide +kernel

end EntitySchema
