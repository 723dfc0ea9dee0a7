import EntitySchema.Canonical.Page
import EntitySchema.Proofs.Lexer.Munch
/-!
  How a page spells lexemes.

  Of the ways to spell a lexeme a page takes one: without leading zeros, in single quotes unless the string
  has one, with a space before the text of a comment.  This is `chars` for content and `remark` for comments.

  A lexeme is `Legible` if a scan can find it in a text without carriage returns: its symbol has the form of a
  symbol, its number fits, its string leaves one of the quotes free, its comment is trimmed and stays on its
  line.

  1. **Nothing else is found.**  What is spelled without carriage returns is legible, so scans find nothing
     else (`legible_of_ok`).

  2. **It is found again.**  A page spells legible lexemes (`spells_chars`, `spells_remark`), so they are
     found again where something follows that does not go on with them: `ofChars_chars` for content and
     `ofChars_remark` for comments.  `Apart` is what content needs of the text behind it, and a blank, a
     newline or the end of the text is apart from everything (`Boundary.apart`).

  The last section is about characters that are not to be met in words: a newline or a carriage return stands
  in no word but a string, and a legible string has no carriage return.
-/

namespace EntitySchema

namespace Lexeme

/-- The characters that spell a lexeme; structural marks have none. -/
def chars (x : Lexeme) : List Char := (x.word?.getD "").toList

/-- The text of a comment after its number sign, as it is spelled. -/
def remark (text : String) : List Char := if text.isEmpty then ['#'] else '#' :: ' ' :: text.toList

/-- A lexeme that goes as far as its characters go, and so has to be kept apart from the next word. -/
def runsOn : Lexeme → Bool
  | symbol _ | number _ => true
  | _ => false

/-- Content is neither a comment nor a structural mark. -/
theorem isComment_eq_false {x : Lexeme} (h : x.isContent) : x.isComment = false := by
  cases x with
  | comment | openScope | closeScope | endLine => cases h
  | symbol | number | string | operator | openMeta | closeMeta => rfl

/-- A scan can find the lexeme in a text without carriage returns. -/
def Legible : Lexeme → Prop
  | symbol text => ∃ c cs, text.toList = c :: cs ∧ c.isAlpha ∧ ∀ d ∈ cs, Scan.isSymbolChar d
  | number value => Integer.InRange value
  | string text => (Text.singleQuote ∉ text.toList ∨ Text.doubleQuote ∉ text.toList) ∧
      '\r' ∉ text.toList
  | comment text => Text.trim text.toList = text.toList ∧ '\n' ∉ text.toList ∧ '\r' ∉ text.toList
  | operator mark => mark = '.'
  | openScope | closeScope | endLine | openMeta | closeMeta => True

instance : DecidablePred Legible
  | symbol text => match h : text.toList with
    | [] => isFalse fun ⟨_, _, hcons, _⟩ => by cases h.symm.trans hcons
    | c :: cs => decidable_of_iff (c.isAlpha ∧ cs.all Scan.isSymbolChar) <| by
      simp [Legible, h, and_assoc]
  | number value => inferInstanceAs (Decidable (Integer.InRange value))
  | string text => inferInstanceAs (Decidable ((Text.singleQuote ∉ text.toList ∨
      Text.doubleQuote ∉ text.toList) ∧ '\r' ∉ text.toList))
  | comment text => inferInstanceAs (Decidable (Text.trim text.toList = text.toList ∧
      '\n' ∉ text.toList ∧ '\r' ∉ text.toList))
  | operator mark => inferInstanceAs (Decidable (mark = '.'))
  | openScope | closeScope | endLine | openMeta | closeMeta => inferInstanceAs (Decidable True)

end Lexeme

namespace Text

/-- A text that starts with no blank has none in front to trim. -/
theorem trimFront_eq_self {cs : List Char} (h : ∀ c ∈ cs.head?, ¬ isBlank c) : trimFront cs = cs := by
  cases cs with
  | nil => rfl
  | cons c cs => simp_all [trimFront]

/-- Behind the blanks in front comes no blank. -/
theorem head?_trimFront (cs : List Char) : ∀ c ∈ (trimFront cs).head?, ¬ isBlank c := by
  intro c hc
  simpa using Scan.head?_dropWhile isBlank cs c hc

/-- What is trimmed in front is a suffix of the text. -/
theorem trimFront_suffix (cs : List Char) : trimFront cs <:+ cs := List.dropWhile_suffix _

/-- What is trimmed behind is a prefix of the text. -/
theorem trimBack_isPrefix (cs : List Char) : trimBack cs <+: cs := by
  simpa [trimBack] using List.reverse_prefix.2 (trimFront_suffix cs.reverse)

/-- A trimmed text has nothing left to trim. -/
theorem trim_trim (cs : List Char) : trim (trim cs) = trim cs := by
  -- What is trimmed starts as the text does that is trimmed in front only.
  have hfront : trimFront (trim cs) = trim cs := by
    refine trimFront_eq_self fun c hc => ?_
    obtain ⟨more, hm⟩ := trimBack_isPrefix (trimFront cs)
    refine head?_trimFront cs c ?_
    rw [← hm]
    cases hcs : trimBack (trimFront cs) with
    | nil => simp [trim, hcs] at hc
    | cons d ds => simpa [trim, hcs] using hc
  have hback : trimBack (trim cs) = trim cs := by
    unfold trim trimBack
    rw [List.reverse_reverse, trimFront_eq_self (head?_trimFront _)]
  rw [trim, hfront, hback]

/-- Trimming adds no character. -/
theorem mem_of_mem_trim {c : Char} {cs : List Char} (h : c ∈ trim cs) : c ∈ cs :=
  (trimFront_suffix cs).subset ((trimBack_isPrefix _).subset h)

/-- A blank in front is trimmed away. -/
theorem trim_space (cs : List Char) : trim (' ' :: cs) = trim cs := rfl

end Text

namespace Scan

/-- What can follow a word on a page: a blank, a newline, or nothing. -/
def Boundary (rest : List Char) : Prop := ∀ c ∈ rest.head?, c = ' ' ∨ c = '\n'

/-- The text does not go on with the lexeme before it.  Strings and marks have ends of their own. -/
def Apart (x : Lexeme) (rest : List Char) : Prop :=
  x.runsOn → ∀ c ∈ rest.head?, isSymbolChar c = false

/-! ## What scans find is legible -/

/-- What is spelled without carriage returns is legible. -/
theorem legible_of_spells {x : Lexeme} {word : List Char} (h : x.Spells word) (hr : '\r' ∉ word) :
    x.Legible := by
  cases h with
  | symbol hc hcs => exact ⟨_, _, String.toList_ofList, hc, hcs⟩
  | number _ _ hrange => exact hrange
  | negative _ _ hrange => exact hrange
  | @string quote text hquote hfree =>
    -- One of the quotes is free: the one that the string stands in.
    have hr' : '\r' ∉ text := fun hm => hr (by simp [hm])
    simp only [Lexeme.Legible, String.toList_ofList]
    simp only [isQuote, Bool.or_eq_true, decide_eq_true_eq] at hquote
    rcases hquote with rfl | rfl
    · exact ⟨Or.inl hfree, hr'⟩
    · exact ⟨Or.inr hfree, hr'⟩
  | comment hline =>
    simp only [Lexeme.Legible, String.toList_ofList]
    exact ⟨Text.trim_trim _, fun hm => hline (Text.mem_of_mem_trim hm),
      fun hm => hr (List.mem_cons_of_mem _ (Text.mem_of_mem_trim hm))⟩
  | dot => rfl
  | openMeta | closeMeta => trivial

/-- What a scan finds is legible. -/
theorem legible_of_ok {c : Char} {cs : List Char} {x : Lexeme} (hr : '\r' ∉ c :: cs)
    (h : (ofChars c cs).result = .ok x) : x.Legible :=
  legible_of_spells (spells_and_halts_of_ok h).1 fun hm => hr (taken_subset c cs hm)

/-! ## Words are found again -/

/-- A blank and a newline are in no symbol, so every lexeme is apart from them. -/
theorem Boundary.apart {rest : List Char} (h : Boundary rest) (x : Lexeme) : Apart x rest := by
  rintro - c hc
  rcases h c hc with rfl | rfl <;> rfl

/-- The words of a line start with none of the characters that a line is laid out with. -/
def StartsWord (c : Char) : Prop := c ≠ ' ' ∧ c ≠ '\t' ∧ c ≠ ',' ∧ c ≠ '\n' ∧ c ≠ '#'

/-- A letter or a digit can start a word. -/
theorem startsWord_of_isAlphanum {c : Char} (h : c.isAlphanum) : StartsWord c := by
  refine ⟨?_, ?_, ?_, ?_, ?_⟩ <;> rintro rfl <;> exact absurd h (by decide)

/-- Content starts like a word of a line. -/
theorem startsWord_of_spells {x : Lexeme} {c : Char} {cs : List Char} (hx : x.isContent)
    (h : x.Spells (c :: cs)) : StartsWord c := by
  cases h with
  | symbol hc => exact startsWord_of_isAlphanum (by simp [Char.isAlphanum, hc])
  | number _ hdigits =>
    exact startsWord_of_isAlphanum (by simp [Char.isAlphanum, hdigits c List.mem_cons_self])
  | string hquote =>
    simp only [isQuote, Bool.or_eq_true, decide_eq_true_eq] at hquote
    unfold StartsWord
    rcases hquote with rfl | rfl <;> decide
  | comment => cases hx
  | negative | dot | openMeta | closeMeta => unfold StartsWord; decide

/-- A number is spelled as it is written. -/
theorem spells_write {value : Int} (h : Integer.InRange value) :
    (Lexeme.number value).Spells (Integer.write value) := by
  have hne := Integer.digitsOf_ne_nil value.natAbs
  have hdigits := List.all_eq_true.1 (Integer.all_isDigit_digitsOf value.natAbs)
  have hvalue := Integer.digitsValue_digitsOf value.natAbs
  unfold Integer.write
  split
  · have heq : value = -(Integer.digitsValue (Integer.digitsOf value.natAbs) : Int) := by omega
    have hspells := Lexeme.Spells.negative hne hdigits (heq ▸ h)
    rwa [← heq] at hspells
  · have heq : value = Integer.digitsValue (Integer.digitsOf value.natAbs) := by omega
    have hspells := Lexeme.Spells.number hne hdigits (heq ▸ h)
    rwa [← heq] at hspells

/-- A string is spelled in a quote, and in one that it leaves free if it can. -/
theorem exists_quote (text : String) : ∃ quote, isQuote quote ∧
    ((Lexeme.string text).Legible → quote ∉ text.toList) ∧
      (Lexeme.string text).chars = quote :: (text.toList ++ [quote]) := by
  simp only [Lexeme.chars, Lexeme.word?, Lexeme.quoted, Option.getD_some]
  split
  · next hs =>
    refine ⟨Text.doubleQuote, by decide, fun h => ?_, by simp⟩
    simpa [List.contains_iff_mem.1 hs] using h.1
  · next hs =>
    refine ⟨Text.singleQuote, by decide, fun _ => ?_, by simp⟩
    exact fun hm => hs (List.contains_iff_mem.2 hm)

/-- Content is spelled on a page. -/
theorem spells_chars {x : Lexeme} (hx : x.isContent) (h : x.Legible) : x.Spells x.chars := by
  cases x with
  | symbol text =>
    obtain ⟨c, cs, htext, hc, hcs⟩ := h
    have hspells := Lexeme.Spells.symbol hc hcs
    rwa [← htext, String.ofList_toList] at hspells
  | number value =>
    rw [Lexeme.chars, Lexeme.word?, Option.getD_some, Integer.text, String.toList_ofList]
    exact spells_write h
  | string text =>
    obtain ⟨quote, hquote, hfree, hchars⟩ := exists_quote text
    have hspells := Lexeme.Spells.string hquote (hfree h)
    rwa [String.ofList_toList, ← hchars] at hspells
  | operator mark => cases h; exact .dot
  | openMeta => exact .openMeta
  | closeMeta => exact .closeMeta
  | comment | openScope | closeScope | endLine => cases hx

/-- A comment is spelled on a page. -/
theorem spells_remark {text : String} (h : (Lexeme.comment text).Legible) :
    (Lexeme.comment text).Spells (Lexeme.remark text) := by
  obtain ⟨htrim, hline, -⟩ := h
  unfold Lexeme.remark
  split
  · next hempty =>
    have hspells := @Lexeme.Spells.comment [] (by simp)
    rwa [show String.ofList (Text.trim []) = text from (String.isEmpty_iff.1 hempty).symm] at hspells
  · have hspells := @Lexeme.Spells.comment (' ' :: text.toList) (by simpa using hline)
    rwa [Text.trim_space, htrim, String.ofList_toList] at hspells

/-- Content halts before what is apart from it. -/
theorem Apart.halts {x : Lexeme} {rest : List Char} (h : Apart x rest) (hx : x.isContent) :
    x.Halts rest := by
  cases x with
  | symbol | number => exact Lexeme.halts_of_head hx (h rfl)
  | comment => cases hx
  | string | operator | openScope | closeScope | endLine | openMeta | closeMeta => trivial

/-- Content that is spelled on a page is found there again. -/
theorem ofChars_chars {x : Lexeme} {rest : List Char} (hx : x.isContent) (h : x.Legible)
    (hrest : Apart x rest) :
    ∃ c cs, x.chars = c :: cs ∧ StartsWord c ∧
      ofChars c (cs ++ rest) = ⟨.ok x, c :: cs, rest⟩ := by
  have hspells := spells_chars hx h
  obtain ⟨c, cs, hchars, hscan⟩ := ofChars_of_spells hspells (hrest.halts hx)
  rw [hchars] at hspells hscan
  exact ⟨c, cs, hchars, startsWord_of_spells hx hspells, hscan⟩

/-- A comment that is spelled on a page is found there again. -/
theorem ofChars_remark {text : String} {rest : List Char} (h : (Lexeme.comment text).Legible)
    (hrest : ∀ c ∈ rest.head?, c = '\n') :
    ∃ cs, Lexeme.remark text = '#' :: cs ∧
      ofChars '#' (cs ++ rest) = ⟨.ok (.comment text), '#' :: cs, rest⟩ := by
  obtain ⟨c, cs, hremark, hscan⟩ := ofChars_of_spells (spells_remark h) hrest
  rw [hremark] at hscan
  obtain rfl := eq_of_comment (congrArg Scan.result hscan)
  exact ⟨cs, hremark, hscan⟩

/-! ## Line ends in words -/

/-- Line ends stand in no word but strings. -/
theorem exists_string_of_mem_chars {x : Lexeme} (hx : x.isContent) (h : x.Legible) {d : Char}
    (hd : d = '\n' ∨ d = '\r') (hm : d ∈ x.chars) : ∃ text, x = .string text ∧ d ∈ text.toList := by
  obtain ⟨quote, text, hquote, -, rfl, hchars⟩ :=
    (spells_chars hx h).exists_string (hd.imp_right fun hd => ⟨hd, hx⟩) hm
  -- A line end is no quote, so it is inside.
  have hne : d ≠ quote := by
    rintro rfl
    rcases hd with rfl | rfl <;> exact absurd hquote (by decide)
  rw [hchars] at hm
  exact ⟨_, rfl, by simpa [hne] using hm⟩

/-- A legible word has no carriage return in it. -/
theorem return_not_mem_chars {x : Lexeme} (hx : x.isContent) (h : x.Legible) : '\r' ∉ x.chars := by
  intro hm
  obtain ⟨text, rfl, ht⟩ := exists_string_of_mem_chars hx h (Or.inr rfl) hm
  exact h.2 ht

/-- A word of several lines is found in a text of several lines. -/
theorem newline_mem_taken {c : Char} {cs : List Char} {x : Lexeme} (h : (ofChars c cs).result = .ok x)
    (hx : x.isContent) (hlegible : x.Legible) (hn : '\n' ∈ x.chars) : '\n' ∈ (ofChars c cs).taken := by
  obtain ⟨text, rfl, ht⟩ := exists_string_of_mem_chars hx hlegible (Or.inl rfl) hn
  obtain ⟨quote, close, htaken⟩ := exists_taken_of_string h
  rw [htaken]
  simp [ht]

/-- A legible remark has no carriage return in it. -/
theorem return_not_mem_remark {text : String} (h : (Lexeme.comment text).Legible) :
    '\r' ∉ Lexeme.remark text := by
  unfold Lexeme.remark
  split
  · decide
  · simpa using h.2.2

end Scan

end EntitySchema
