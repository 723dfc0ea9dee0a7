import EntitySchema.Proofs.Lexer.Tiling
/-!
  Code, comments and strings, told apart by quotes, number signs and newlines alone.

  A comment runs from a number sign outside a string to the end of its line, a string from a quote outside
  strings and comments to the next quote of its sort.  So the region in which a character stands is known from
  the characters in front of it, one after the other and without a lexer: `Region.code.after cs` is a fold of
  `Region.next` over `cs`. `withoutComments` deletes the comments of a text along the same fold.

  Both sides have to be cut where a text is cut,

      r.after (front ++ back) = (r.after front).after back
      withoutCommentsFrom r (front ++ back) = withoutCommentsFrom r front ++ withoutCommentsFrom (r.after front) back

  and then a text can be taken piece by piece: layout and content lead from code to code and stay
  (`isCode_of_isLayout`, `isCode_of_spells`), a comment leads into its region and is deleted (`comment_text`).
  This is all that has to be known of regions to compare them with what a lexer reads.

  Byte-order marks and carriage returns have no say (`Region.after_visible`, `visible_withoutComments`).  No
  string is closed by a carriage return, so regions are the same with and without them; that is the condition
  `r ≠ .string '\r'` below.
-/

namespace EntitySchema

namespace SourceText

/-- What a character of a source belongs to. -/
inductive Region where
  | code
  | comment
  | string (quote : Char)
deriving DecidableEq

namespace Region

/-- The region behind one more character. -/
def next : Region → Char → Region
  | code, c => if c = '#' then comment else if Scan.isQuote c then string c else code
  | comment, c => if c = '\n' then code else comment
  | string quote, c => if c = quote then code else string quote

/-- The region behind a text. -/
def after (r : Region) (cs : List Char) : Region := cs.foldl next r

end Region

/-- The text behind `r` without its comments: what leads into a comment or on in one is deleted. -/
def withoutCommentsFrom : Region → List Char → List Char
  | _, [] => []
  | r, c :: cs =>
    if r.next c = .comment then withoutCommentsFrom (r.next c) cs
    else c :: withoutCommentsFrom (r.next c) cs

/-- A source without its comments. -/
def withoutComments (cs : List Char) : List Char := withoutCommentsFrom .code cs

example : withoutComments "a '#' # b '\n# c\nd".toList = "a '#' \n\nd".toList := by decide +kernel

variable {r : Region} {cs front back : List Char} {c : Char}

namespace Region

/-- Nothing leads nowhere. -/
@[simp] theorem after_nil (r : Region) : r.after [] = r := rfl

@[simp] theorem after_cons (r : Region) (c : Char) (cs : List Char) :
    r.after (c :: cs) = (r.next c).after cs := rfl

/-- Two texts in a row lead where the second leads from where the first one ends. -/
theorem after_append (r : Region) (front back : List Char) :
    r.after (front ++ back) = (r.after front).after back := List.foldl_append

end Region

/-- Comments are deleted part by part, where the second part starts in the region that the first one leads to.
-/
theorem withoutCommentsFrom_append (r : Region) (front back : List Char) :
    withoutCommentsFrom r (front ++ back) =
      withoutCommentsFrom r front ++ withoutCommentsFrom (r.after front) back := by
  induction front generalizing r with
  | nil => rfl
  | cons c front ih =>
    simp only [List.cons_append, withoutCommentsFrom, Region.after_cons, ih]
    split
    · rfl
    · rfl

/-! ## Runs of code, comments and strings -/

/-- Neither a comment nor a string starts with the character. -/
def IsPlain (c : Char) : Prop := c ≠ '#' ∧ ¬ Scan.isQuote c

/-- A plain character leads nowhere from code. -/
theorem IsPlain.next_eq (h : IsPlain c) : Region.code.next c = .code := by
  rw [Region.next, if_neg h.1, if_neg h.2]

/-- Letters, digits and hyphens are plain. -/
theorem isPlain_of_isSymbolChar (h : Scan.isSymbolChar c) : IsPlain c := by
  refine ⟨?_, fun hq => ?_⟩
  · rintro rfl
    exact absurd h (by decide)
  · simp only [Scan.isQuote, Bool.or_eq_true, decide_eq_true_eq] at hq
    rcases hq with rfl | rfl <;> exact absurd h (by decide)

/-- So is layout. -/
theorem isPlain_of_isLayout (h : Scan.isLayout c) : IsPlain c := by
  simp only [Scan.isLayout, Scan.isSeparator, Bool.or_eq_true, decide_eq_true_eq] at h
  unfold IsPlain
  rcases h with ((rfl | rfl) | rfl) | rfl <;> decide

/-- The text is nothing but what belongs to `r` and does not lead out of it. -/
theorem run_of_next_eq (h : ∀ c ∈ cs, r.next c = r) :
    r.after cs = r ∧ withoutCommentsFrom r cs = if r = .comment then [] else cs := by
  induction cs with
  | nil => simp [withoutCommentsFrom]
  | cons c cs ih =>
    obtain ⟨hafter, hkept⟩ := ih fun d hd => h d (List.mem_cons_of_mem c hd)
    have hc := h c List.mem_cons_self
    rw [Region.after_cons, withoutCommentsFrom, hc, hafter, hkept]
    refine ⟨rfl, ?_⟩
    split
    · rfl
    · rfl

/-- In code the text leads back to code, and nothing of it is deleted. -/
def IsCode (cs : List Char) : Prop :=
  Region.code.after cs = .code ∧ withoutCommentsFrom .code cs = cs

/-- Plain characters are code. -/
theorem isCode_of_isPlain (h : ∀ c ∈ cs, IsPlain c) : IsCode cs :=
  run_of_next_eq (r := .code) fun c hc => (h c hc).next_eq

/-- Layout is code. -/
theorem isCode_of_isLayout (h : ∀ c ∈ cs, Scan.isLayout c) : IsCode cs :=
  isCode_of_isPlain fun c hc => isPlain_of_isLayout (h c hc)

/-- A comment goes as far as its line. -/
theorem comment_text (h : '\n' ∉ cs) :
    Region.code.after ('#' :: cs) = .comment ∧ withoutCommentsFrom .code ('#' :: cs) = [] := by
  have hin : ∀ c ∈ cs, Region.comment.next c = .comment := fun c hc => by
    rw [Region.next, if_neg]
    rintro rfl
    exact h hc
  obtain ⟨hafter, hkept⟩ := run_of_next_eq hin
  exact ⟨hafter, hkept⟩

/-- A string is open until its quote comes again. -/
theorem open_string_text (hquote : Scan.isQuote c) (h : c ∉ cs) :
    Region.code.after (c :: cs) = .string c ∧ withoutCommentsFrom .code (c :: cs) = c :: cs := by
  have hsign : c ≠ '#' := by rintro rfl; exact absurd hquote (by decide)
  have hnext : Region.code.next c = .string c := by rw [Region.next, if_neg hsign, if_pos hquote]
  have hin : ∀ d ∈ cs, (Region.string c).next d = .string c := fun d hd => by
    rw [Region.next, if_neg]
    rintro rfl
    exact h hd
  obtain ⟨hafter, hkept⟩ := run_of_next_eq hin
  rw [Region.after_cons, withoutCommentsFrom, hnext]
  exact ⟨hafter, congrArg (c :: ·) hkept⟩

/-- What content is spelled by is code. -/
theorem isCode_of_spells {x : Lexeme} {word : List Char} (hx : x.isContent) (h : x.Spells word) :
    IsCode word := by
  have isPlain_of_isDigit : ∀ {d : Char}, d.isDigit → IsPlain d := fun {d} hd =>
    isPlain_of_isSymbolChar (by simp [Scan.isSymbolChar, Char.isAlphanum, hd])
  cases h with
  | symbol hc hcs =>
    refine isCode_of_isPlain fun d hd => isPlain_of_isSymbolChar ?_
    rcases List.mem_cons.1 hd with rfl | hd
    · simp [Scan.isSymbolChar, Char.isAlphanum, hc]
    · exact hcs d hd
  | number hne hdigits hrange => exact isCode_of_isPlain fun d hd => isPlain_of_isDigit (hdigits d hd)
  | negative hne hdigits hrange =>
    refine isCode_of_isPlain fun d hd => ?_
    rcases List.mem_cons.1 hd with rfl | hd
    · unfold IsPlain
      decide
    · exact isPlain_of_isDigit (hdigits d hd)
  | @string quote text hquote hfree =>
    -- A string is left as it was entered, by its own quote.
    obtain ⟨hafter, hkept⟩ := open_string_text hquote hfree
    rw [IsCode, ← List.cons_append, Region.after_append, withoutCommentsFrom_append, hafter, hkept]
    simp [Region.next, withoutCommentsFrom]
  | comment => cases hx
  | dot | openMeta | closeMeta => exact ⟨rfl, rfl⟩

/-! ## Carriage returns and byte-order marks -/

/-- No string is closed by a carriage return. -/
theorem Region.next_return (hr : r ≠ .string '\r') : r.next '\r' = r := by
  cases r with
  | code | comment => rfl
  | string quote =>
    rw [next, if_neg]
    rintro rfl
    exact hr rfl

/-- Nor does one start a string. -/
theorem Region.next_ne_string_return (hr : r ≠ .string '\r') (c : Char) :
    r.next c ≠ .string '\r' := by
  cases r with
  | code =>
    simp only [next]
    split
    · nofun
    split
    · rintro ⟨⟩
      contradiction
    · nofun
  | comment =>
    simp only [next]
    split
    · nofun
    · nofun
  | string quote =>
    simp only [next]
    split
    · nofun
    · exact hr

/-- Without its carriage returns a text leads to the same region. -/
theorem Region.after_withoutReturns (hr : r ≠ .string '\r') (cs : List Char) :
    r.after (withoutReturns cs) = r.after cs := by
  induction cs generalizing r with
  | nil => rfl
  | cons c cs ih =>
    by_cases hc : c = '\r'
    · rw [hc, after_cons, next_return hr, ← ih hr]
      rfl
    · rw [after_cons, ← ih (next_ne_string_return hr c), ← after_cons]
      simp [withoutReturns, hc]

/-- Carriage returns and comments can be deleted in either order. -/
theorem withoutReturns_withoutCommentsFrom (hr : r ≠ .string '\r') (cs : List Char) :
    withoutReturns (withoutCommentsFrom r cs) = withoutCommentsFrom r (withoutReturns cs) := by
  induction cs generalizing r with
  | nil => rfl
  | cons c cs ih =>
    -- A carriage return changes no region, so it is left out before or after.
    by_cases hc : c = '\r'
    · have hreturns : withoutReturns (c :: cs) = withoutReturns cs := by simp [withoutReturns, hc]
      rw [hreturns, ← ih hr, withoutCommentsFrom, hc, Region.next_return hr]
      split
      · rfl
      · simp [withoutReturns]
    · have hreturns : ∀ ds, withoutReturns (c :: ds) = c :: withoutReturns ds := fun ds => by
        simp [withoutReturns, hc]
      have hmore := ih (Region.next_ne_string_return hr c)
      rw [hreturns, withoutCommentsFrom, withoutCommentsFrom, ← hmore]
      split
      · rfl
      · rw [hreturns]

/-- A byte-order mark is plain. -/
theorem byteOrderMark_isPlain : IsPlain byteOrderMark := by
  unfold IsPlain
  decide

/-- The region behind a source is the one behind its text. -/
theorem Region.after_visible (cs : List Char) : code.after (visible cs) = code.after cs := by
  rw [visible, after_withoutReturns (by simp)]
  cases cs with
  | nil => rfl
  | cons c cs =>
    rw [dropMark]
    split
    · next hmark => rw [hmark, after_cons, byteOrderMark_isPlain.next_eq]
    · rfl

/-- Deleting comments brings no byte-order mark to the front. -/
theorem dropMark_withoutComments (cs : List Char) :
    dropMark (withoutComments cs) = withoutComments (dropMark cs) := by
  -- What is left of a comment starts with the newline behind it.
  have hcomment : ∀ ds : List Char, dropMark (withoutCommentsFrom .comment ds) =
      withoutCommentsFrom .comment ds := by
    intro ds
    induction ds with
    | nil => rfl
    | cons d ds ih =>
      by_cases hd : d = '\n'
      · subst hd
        rfl
      · have hin : Region.comment.next d = .comment := by rw [Region.next, if_neg hd]
        rw [withoutCommentsFrom, hin]
        exact ih
  cases cs with
  | nil => rfl
  | cons c cs =>
    by_cases hmark : c = byteOrderMark
    · subst hmark
      rfl
    · have hdrop : ∀ ds, dropMark (c :: ds) = c :: ds := fun ds => by rw [dropMark, if_neg hmark]
      rw [hdrop, withoutComments, withoutCommentsFrom]
      split
      · next hin => rw [hin, hcomment]
      · rw [hdrop]

/-- The text of a source without comments is its text without comments. -/
theorem visible_withoutComments (cs : List Char) :
    visible (withoutComments cs) = withoutComments (visible cs) := by
  rw [visible, dropMark_withoutComments, visible]
  exact withoutReturns_withoutCommentsFrom (by simp) _

end SourceText

end EntitySchema
