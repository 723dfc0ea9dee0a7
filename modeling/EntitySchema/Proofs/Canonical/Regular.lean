import EntitySchema.Proofs.Canonical.Stable
/-!
  Regular token lists.

  A token list is `Regular` if scopes open in front of everything or behind content, scopes close behind the
  end of a line or behind another scope that closes, and comments stand behind content.  Comments themselves
  are passed over, so each test is one on two lexemes: `prev`, the last one that is no comment, and the next.

  **Regular lists are settled as they stand.**  Their pieces are founded, filled and steady
  (`Spot.of_regular`), so settling changes nothing but the end of a last line.  `Recalls prev s` is the
  invariant of the induction: it gives for each `prev` the spots at which a page can be behind it.  Behind the
  end of a line the next line is as deep as that one, behind the end of a scope it is less deep, and so on.

  **Texts without comma lines are read as regular lists.**  Only a line that starts with a comma makes a list
  that is not regular: such a line moves the layout without saying anything, so a scope can open behind a
  mark.  The invariant of this second induction is about a lexer (`Lexer.Phase`).  It is `onLine`, where
  comments and further content can come, or it is `entering` a line, where marks come first and then content.
  The word at the front of a line that is entered is no comment and, without commas, no separator
  (`Scan.StartsWord`), so nothing comes between the marks and the content.

  Main statement: `regular_of_noCommaLine`.
-/

namespace EntitySchema

/-- What was last read, comments being passed over, after one more lexeme. -/
def Lexeme.remember (prev : Option Lexeme) (x : Lexeme) : Option Lexeme :=
  if x.isComment then prev else some x

/-- The lexemes `x :: xs` can follow `prev` in a regular list: the start of a scope and a comment stand behind
content or in front of everything, the end of a scope behind the end of a line or of another scope, and `xs`
can follow what is remembered then. -/
def Lexeme.Regular (prev : Option Lexeme) : List Lexeme → Prop
  | [] => True
  | x :: xs => (x = .openScope ∨ x.isComment → ∀ y ∈ prev, y.isContent) ∧
      (x = .closeScope → prev = some .endLine ∨ prev = some .closeScope) ∧
      Regular (remember prev x) xs

/-- Content is remembered, whatever was before it. -/
theorem Lexeme.remember_of_isContent (prev : Option Lexeme) {x : Lexeme} (h : x.isContent) :
    remember prev x = some x :=
  if_neg (by simp [isComment_eq_false h])

namespace Spot

/-! ## Regular lists are settled as they stand -/

/-- The page is at the spot if the last lexeme was this one, comments being passed over, in a list whose
scopes are founded and filled. -/
inductive Recalls : Option Lexeme → Spot → Prop where
  | top : Recalls none top
  | first : Recalls none (fresh 0 0 true)
  | inLine {x : Lexeme} (hx : x.isContent) (depth : Nat) : Recalls (some x) (inLine depth)
  | remarked {x : Lexeme} (hx : x.isContent) (depth : Nat) : Recalls (some x) (remarked depth)
  | ended (depth : Nat) : Recalls (some .endLine) (fresh depth depth false)
  | closed {depth indent : Nat} (h : indent < depth) :
      Recalls (some .closeScope) (fresh depth indent false)
  | opened (depth : Nat) (idle : Bool) : Recalls (some .openScope) (fresh depth (depth + 1) idle)

namespace Recalls

/-- Behind content, and in front of everything, nothing is held back. -/
theorem held_eq_nil {prev : Option Lexeme} {s : Spot} (h : Recalls prev s)
    (hprev : ∀ y ∈ prev, y.isContent) : s.held = [] := by
  cases h with
  | top | first | inLine | remarked => rfl
  | ended | closed | opened => exact absurd (hprev _ rfl) (by decide)

/-- A remark is not remembered, and moves the page to a spot that recalls the same. -/
theorem after_remark {prev : Option Lexeme} {s : Spot} (h : Recalls prev s) (text : String)
    (own : Bool) : Recalls prev (s.after (.remark text own)) := by
  cases h with
  | top | first => exact .first
  | inLine hx depth | remarked hx depth => exact .remarked hx depth
  | ended depth => exact .ended depth
  | closed h => exact .closed h
  | opened depth idle => exact .opened depth idle

/-- Behind the start of a scope the next line is one level deeper. -/
theorem after_opens {prev : Option Lexeme} {s : Spot} (h : Recalls prev s) (hs : s.held = []) :
    Recalls (some .openScope) (s.after .opens) := by
  cases h with
  | top | first => exact .opened 0 true
  | inLine hx depth | remarked hx depth => exact .opened depth false
  | ended | closed => cases (eq_and_idle_of_marks_eq_nil hs).2
  | opened => exact absurd (eq_and_idle_of_marks_eq_nil hs).1 (Nat.succ_ne_self _)

/-- Behind the end of a line the next line is on its level. -/
theorem after_ends {prev : Option Lexeme} {s : Spot} (h : Recalls prev s) (hallows : s.Allows .ends) :
    Recalls (some .endLine) (s.after .ends) := by
  cases h with
  | inLine hx depth | remarked hx depth => exact .ended depth
  | top | first | ended | closed | opened => exact hallows.elim

/-- Behind the end of a scope the next line is less deep than the one before, if the scope has not just been
opened. -/
theorem after_closes {prev : Option Lexeme} {s : Spot} (h : Recalls prev s)
    (hallows : s.Allows .closes) (hprev : prev ≠ some .openScope) :
    Recalls (some .closeScope) (s.after .closes) ∧
      ∀ depth indent idle, s = fresh depth indent idle → indent ≤ depth := by
  cases h with
  | top | inLine | remarked => exact hallows.elim
  | first => exact absurd hallows (Nat.lt_irrefl 0)
  | ended depth =>
    have hpos : 0 < depth := hallows
    refine ⟨.closed (by omega), fun d i idle hs => ?_⟩
    cases hs
    exact Nat.le_refl _
  | closed h =>
    refine ⟨.closed (by omega), fun d i idle hs => ?_⟩
    cases hs
    exact Nat.le_of_lt h
  | opened => exact absurd rfl hprev

end Recalls

/-- The pieces of a regular list are founded, filled and steady.  By induction on the pieces, a case for each
kind; `prev` and `s` change with every piece and keep to `Recalls`. -/
theorem of_regular {prev : Option Lexeme} {s : Spot} {ps : List Piece}
    (h : Lexeme.Regular prev (ps.map Piece.lexeme)) (horderly : s.Orderly ps)
    (hps : ∀ p ∈ ps, p.Proper) (hs : Recalls prev s) : s.Founded ps ∧ s.Filled ps ∧ s.Steady ps := by
  induction ps generalizing prev s with
  | nil => exact ⟨trivial, trivial, trivial⟩
  | cons p ps ih =>
    obtain ⟨hbehind, hcloses, h⟩ := h
    obtain ⟨hallows, -, horderly⟩ := horderly
    have hproper := hps p List.mem_cons_self
    -- The hypothesis is used behind every sort of piece, with what is remembered there.
    replace ih := fun {prev' : Option Lexeme} hmore => @ih prev' _ hmore horderly
      fun q hq => hps q (List.mem_cons_of_mem p hq)
    cases p with
    | word x =>
      rw [Piece.lexeme, Lexeme.remember_of_isContent prev hproper] at h
      rw [after_word] at ih
      obtain ⟨hfounded, hfilled, hsteady⟩ := ih h (.inLine hproper s.indent)
      rw [Founded, Filled, Steady, after_word]
      exact ⟨⟨by simp, hfounded⟩, ⟨by simp, hfilled⟩, by simp [Piece.isRemark], hsteady⟩
    | remark text own =>
      obtain ⟨hfounded, hfilled, hsteady⟩ := ih h (hs.after_remark text own)
      exact ⟨⟨by simp, hfounded⟩, ⟨by simp, hfilled⟩, fun _ => hs.held_eq_nil (hbehind (Or.inr rfl)),
        hsteady⟩
    | opens =>
      -- Before a scope opens nothing is held back.
      have hnone := hs.held_eq_nil (hbehind (Or.inl rfl))
      obtain ⟨hfounded, hfilled, hsteady⟩ := ih h (hs.after_opens hnone)
      exact ⟨⟨fun _ => hnone, hfounded⟩, ⟨by simp, hfilled⟩, by simp [Piece.isRemark], hsteady⟩
    | closes =>
      -- A scope that has just opened does not close at once.
      have hprev : prev ≠ some .openScope := by
        rintro rfl
        rcases hcloses rfl with hc | hc <;> cases hc
      obtain ⟨hrecalls, hle⟩ := hs.after_closes hallows hprev
      obtain ⟨hfounded, hfilled, hsteady⟩ := ih h hrecalls
      exact ⟨⟨by simp, hfounded⟩, ⟨fun _ => hle, hfilled⟩, by simp [Piece.isRemark], hsteady⟩
    | ends =>
      obtain ⟨hfounded, hfilled, hsteady⟩ := ih h (hs.after_ends hallows)
      exact ⟨⟨by simp, hfounded⟩, ⟨by simp, hfilled⟩, by simp [Piece.isRemark], hsteady⟩

/-- Steady remarks are level. -/
theorem level_of_steady {s : Spot} {ps : List Piece} (h : s.Steady ps) : s.Level ps := by
  induction ps generalizing s with
  | nil => trivial
  | cons p ps ih =>
    refine ⟨fun hp depth indent idle hs => ?_, ih h.2⟩
    have hnone := h.1 hp
    rw [hs] at hnone
    exact (eq_and_idle_of_marks_eq_nil hnone).1

end Spot

/-- A regular list stays regular without its comments. -/
theorem Lexeme.regular_filter {prev : Option Lexeme} {xs : List Lexeme} (h : Regular prev xs) :
    Regular prev (xs.filter fun x => !x.isComment) := by
  induction xs generalizing prev with
  | nil => trivial
  | cons x xs ih =>
    obtain ⟨hbehind, hcloses, h⟩ := h
    cases hx : x.isComment with
    | true =>
      rw [remember, hx] at h
      rw [List.filter_cons, if_neg (by simp [hx])]
      exact ih h
    | false =>
      rw [List.filter_cons, if_pos (by simp [hx])]
      exact ⟨hbehind, hcloses, ih h⟩

namespace Lexer

/-! ## Texts without comma lines -/

/-- No line starts with a comma, blanks apart. -/
def NoCommaLine (cs : List Char) : Prop :=
  ∀ front margin back, cs ≠ front ++ '\n' :: (List.replicate margin ' ' ++ ',' :: back)

/-- Without commas there are no comma lines. -/
theorem noCommaLine_of_not_mem {cs : List Char} (h : ',' ∉ cs) : NoCommaLine cs := by
  rintro front margin back rfl
  simp at h

/-- What is left of a text without comma lines has none either. -/
theorem NoCommaLine.suffix {cs ds : List Char} (h : NoCommaLine cs) (hd : ds <:+ cs) :
    NoCommaLine ds := by
  obtain ⟨more, rfl⟩ := hd
  intro front margin back heq
  exact h (more ++ front) margin back (by rw [heq, List.append_assoc])

/-- Where a lexer can be in a text without comma lines, and what it read last. -/
inductive Phase (l : Lexer) (prev : Option Lexeme) : Prop where
  /-- Comments and content can come. -/
  | onLine (hat : l.depth = l.target)
      (hprev : (prev = none ∧ l.ended = true ∧ l.depth = 0) ∨
        ∃ x, prev = some x ∧ x.isContent ∧ l.ended = false)
  /-- Marks come first, and then content or nothing. -/
  | entering
      (hrest : (l.rest = [] ∧ l.target = 0) ∨ ∃ c cs, l.rest = c :: cs ∧ Scan.StartsWord c)
      (hnear : l.target ≤ l.depth + 1) (hdeeper : l.depth < l.target → ∀ y ∈ prev, y.isContent)
      (hshallower : l.target < l.depth → prev = some .endLine ∨ prev = some .closeScope)

/-- A line that a newline enters starts with a word, or is the end of the text. -/
theorem Lands.rest_of_noCommaLine {l : Lexer} {margin level : Nat} {rest : List Char}
    (h : l.Lands margin rest level) (hcomma : NoCommaLine l.rest) :
    (rest = [] ∧ level = 0) ∨ ∃ c cs, rest = c :: cs ∧ Scan.StartsWord c := by
  rcases h.2 with hnone | ⟨-, -, c, more, rfl, hspace, htab, hline, hsign⟩
  · exact Or.inl hnone
  · refine Or.inr ⟨c, more, rfl, hspace, htab, ?_, hline, hsign⟩
    rintro rfl
    exact hcomma [] margin more h.1

/-- It is at most one level deeper. -/
theorem Lands.level_le {l : Lexer} {margin level : Nat} {rest : List Char}
    (h : l.Lands margin rest level) : level ≤ l.depth + 1 := by
  rcases h.2 with ⟨-, rfl⟩ | ⟨-, hle, -⟩
  · exact Nat.zero_le _
  · exact hle

/-- Where a line is entered and there is a character left, that character starts a word. -/
theorem startsWord_of_rest {done : Prop} {rest : List Char}
    (h : (rest = [] ∧ done) ∨ ∃ c cs, rest = c :: cs ∧ Scan.StartsWord c) {c : Char} {cs : List Char}
    (hrest : rest = c :: cs) : Scan.StartsWord c := by
  rcases h with ⟨hnil, -⟩ | ⟨d, ds, hd, hstart⟩
  · rw [hnil] at hrest
    cases hrest
  · rw [hd] at hrest
    cases hrest
    exact hstart

/-- A silent step keeps the phase, or enters a line. -/
theorem SilentStep.phase {l next : Lexer} {prev : Option Lexeme} (h : l.SilentStep next)
    (hl : l.Phase prev) (hcomma : NoCommaLine l.rest) : next.Phase prev := by
  cases hl with
  | onLine hat hprev =>
    cases h with
    | separator | blank => exact .onLine hat hprev
    | @enters margin level rest _ hlands hopen =>
      refine .entering (hlands.rest_of_noCommaLine hcomma) hlands.level_le (fun _ => ?_) fun hlt => ?_
      · rcases hprev with ⟨rfl, -, -⟩ | ⟨x, rfl, hx, -⟩
        · simp
        · simpa using hx
      · have hlt : level < l.depth := hlt
        rcases hprev with ⟨-, -, hdepth⟩ | ⟨x, -, -, hended⟩
        · omega
        · rcases hopen with hdeeper | hclosed
          · omega
          · cases hended.symm.trans hclosed
  | entering hrest _ _ _ =>
    -- A line that is entered starts with content, so nothing is passed over on it.
    have hword : ∀ c cs, l.rest = c :: cs → Scan.StartsWord c := fun _ _ => startsWord_of_rest hrest
    cases h with
    | separator _ heq hc =>
      have := hword _ _ heq
      simp [Scan.isSeparator, this.1, this.2.1, this.2.2.1] at hc
    | blank _ heq => exact absurd rfl (hword _ _ heq).2.2.2.1
    | enters _ hlands => exact absurd rfl (hword _ _ hlands.1).2.2.2.1

/-- Behind content a lexer is on a line. -/
theorem Phase.of_content {l : Lexer} {prev : Option Lexeme} {x : Lexeme} (hx : x.isContent)
    (hat : l.depth = l.target) (hended : l.ended = false) : l.Phase (Lexeme.remember prev x) := by
  rw [Lexeme.remember_of_isContent prev hx]
  exact .onLine hat (Or.inr ⟨x, rfl, hx, hended⟩)

/-- A character that starts a word starts no comment. -/
theorem isContent_of_startsWord {c : Char} {cs : List Char} {x : Lexeme} (hc : Scan.StartsWord c)
    (hx : (Scan.ofChars c cs).result = .ok x) : x.isContent := by
  refine (Scan.isContent_or_isComment_of_ok hx).resolve_right fun hcomment => ?_
  cases x with
  | comment text => exact hc.2.2.2.2 (Scan.eq_of_comment hx)
  | symbol | number | string | operator | openScope | closeScope | endLine | openMeta | closeMeta =>
    cases hcomment

/-- What is reported can follow `prev` in a regular list, and the phase is that of the lexer after it.  The
two halves belong together: the tests on a token ask what the phase knows, and the token decides the next
phase. -/
theorem TokenStep.phase {l next : Lexer} {t : Token} {prev : Option Lexeme} (h : l.TokenStep t next)
    (hl : l.Phase prev) (hcomma : NoCommaLine l.rest) :
    (t.lexeme = .openScope ∨ t.lexeme.isComment → ∀ y ∈ prev, y.isContent) ∧
      (t.lexeme = .closeScope → prev = some .endLine ∨ prev = some .closeScope) ∧
      next.Phase (Lexeme.remember prev t.lexeme) := by
  cases hl with
  | onLine hat hprev =>
    have hbehind : ∀ y ∈ prev, y.isContent := by
      rcases hprev with ⟨rfl, -, -⟩ | ⟨x, rfl, hx, -⟩
      · simp
      · simpa using hx
    cases h with
    | opens hlt => exact absurd hat (Nat.ne_of_lt hlt)
    | closes hlt => exact absurd hat.symm (Nat.ne_of_lt hlt)
    | @ends margin level rest _ hlands hlevel hopen =>
      refine ⟨by simp [Lexeme.isComment], by simp, .entering (hlands.rest_of_noCommaLine hcomma)
        hlands.level_le (fun hlt => ?_) fun _ => Or.inl rfl⟩
      exact absurd hlevel (Nat.not_le_of_lt hlt)
    | endsLast _ hrest hdepth hopen =>
      exact ⟨by simp [Lexeme.isComment], by simp, .entering (Or.inl ⟨hrest, rfl⟩) (Nat.zero_le _)
        (fun hlt => absurd hlt (Nat.not_lt_zero _)) fun _ => Or.inl rfl⟩
    | closesLast _ hrest hdepth hclosed =>
      -- Before all content no scope is open, and behind content the line has not ended.
      rcases hprev with ⟨-, -, hzero⟩ | ⟨x, -, -, hended⟩
      · exact absurd hzero hdepth
      · cases hended.symm.trans hclosed
    | @scans c cs x _ hrest hc hx =>
      refine ⟨fun _ => hbehind, fun hclose => ?_, ?_⟩
      · rw [show x = .closeScope from hclose] at hx
        rcases Scan.isContent_or_isComment_of_ok hx with hs | hs <;> cases hs
      · rcases Scan.isContent_or_isComment_of_ok hx with hcontent | hcomment
        · have hword := Lexeme.isComment_eq_false hcontent
          exact .of_content hcontent hat (by simp [hword])
        · simp only [Lexeme.remember, hcomment, if_true]
          exact .onLine hat (by simpa [hcomment, past] using hprev)
  | entering hrest hnear hdeeper hshallower =>
    have hword : ∀ c cs, l.rest = c :: cs → Scan.StartsWord c := fun _ _ => startsWord_of_rest hrest
    have hlast : l.depth = l.target → l.rest = [] → l.depth = 0 := by
      intro hat hnil
      rcases hrest with ⟨-, hzero⟩ | ⟨d, ds, hd, -⟩
      · omega
      · rw [hnil] at hd; cases hd
    cases h with
    | opens hlt =>
      refine ⟨fun _ => hdeeper hlt, by simp, .entering hrest ?_ (fun hmore => ?_) fun hmore => ?_⟩
      · exact Nat.le_succ_of_le hnear
      · have hmore : l.depth + 1 < l.target := hmore
        omega
      · have hmore : l.target < l.depth + 1 := hmore
        omega
    | closes hlt =>
      refine ⟨by simp [Lexeme.isComment], fun _ => hshallower hlt, .entering hrest ?_ (fun hmore => ?_)
        fun _ => Or.inr rfl⟩
      · show l.target ≤ l.depth - 1 + 1
        omega
      · have hmore : l.depth - 1 < l.target := hmore
        omega
    | ends _ hlands => exact absurd rfl (hword _ _ hlands.1).2.2.2.1
    | endsLast hat hnil hdepth => exact absurd (hlast hat hnil) hdepth
    | closesLast hat hnil hdepth => exact absurd (hlast hat hnil) hdepth
    | @scans c cs x hat heq hc hx =>
      have hcontent := isContent_of_startsWord (hword c cs heq) hx
      have hcomment := Lexeme.isComment_eq_false hcontent
      refine ⟨fun hc => ?_, fun hc => ?_, .of_content hcontent hat (by simp [hcomment])⟩
      · rcases hc with rfl | hc
        · cases hcontent
        · cases hcomment.symm.trans hc
      · rw [show x = .closeScope from hc] at hcontent
        cases hcontent

/-- A text without comma lines is read as a regular list. -/
theorem regular_of_reads {l last : Lexer} {ts : List Token} (h : Reads l ts last)
    {prev : Option Lexeme} (hl : l.Phase prev) (hcomma : NoCommaLine l.rest) :
    Lexeme.Regular prev (ts.map (·.lexeme)) := by
  induction h generalizing prev with
  | here => trivial
  | token hstep _ ih =>
    have ht := tokenStep_of_step hstep
    obtain ⟨hbehind, hcloses, hnext⟩ := ht.phase hl hcomma
    exact ⟨hbehind, hcloses, ih hnext (hcomma.suffix ht.rest_suffix)⟩
  | silent hstep _ ih =>
    have hs := silentStep_of_step hstep
    exact ih (hs.phase hl hcomma) (hcomma.suffix hs.rest_suffix)

end Lexer

/-- A byte-order mark is all that the text of a source can be short of, carriage returns apart. -/
theorem SourceText.visible_suffix (cs : List Char) : visible cs <:+ withoutReturns cs := by
  have hmark : dropMark cs <:+ cs := by
    cases cs with
    | nil => exact List.suffix_refl _
    | cons c cs =>
      rw [dropMark]
      split
      · exact List.suffix_cons c cs
      · exact List.suffix_refl _
  exact hmark.filter _

/-- A source without comma lines, carriage returns apart, has a regular list of tokens. -/
theorem regular_of_noCommaLine {source : String} {ts : List Token} (h : tokenize source = .ok ts)
    (hcomma : Lexer.NoCommaLine (SourceText.withoutReturns source.toList)) :
    Lexeme.Regular none (ts.map (·.lexeme)) := by
  obtain ⟨last, hreads, -⟩ := Lexer.tokenize_eq_ok_iff.1 h
  exact Lexer.regular_of_reads hreads (.onLine rfl (Or.inl ⟨rfl, rfl, rfl⟩))
    (hcomma.suffix (SourceText.visible_suffix _))

end EntitySchema
