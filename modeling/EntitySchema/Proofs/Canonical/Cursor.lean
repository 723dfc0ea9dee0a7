import EntitySchema.Proofs.Canonical.Layout
import Mathlib.Data.List.Basic
import Mathlib.Data.List.Induction
/-!
  The cursor of a page and the text on it.

  A page counts lines and columns apart from its text, and it counts a newline within a string as a column.
  Where a line starts is read off the column, and a line is finished in three ways: by its end, by the start
  of a scope, and by a comment.  Here the cursor is compared with the text alone (`CursorAgrees`), for lexemes
  of any order whose words are `WellShaped`.

  All that was written but for a pending newline is solid: it does not end in a space or a newline.  So a
  newline is only ever written behind something solid, unless it comes with the text of a string.  This is the
  invariant `Inked xs front s`:
  * the page of the lexemes `xs` is at the spot `s`, and its text is `front` but for a pending newline,
  * `front` is solid, and not empty on an open line,
  * every newline in `front` that lies in no string has something solid in front of it.

  One more lexeme keeps it.  A mark writes nothing but pending newlines (`Inked.mark`); a word is solid
  itself, and in what stands between it and `front` a newline can only come first (`Inked.word`).  So it holds
  of every list of lexemes (`exists_inked`, by induction from the end), and the first three parts of the claim
  are read off it.

  The first thing on the page is found apart.  Nothing is ever taken off a page, so its first character is
  that of the first lexeme that left anything, and the lexemes in front of that one left the page as it was.

  Main statement: `Page.cursorAgrees_of_wellShaped`.
-/

namespace EntitySchema

/-! ## Solid texts -/

namespace Text

/-- The text does not end in a space or a newline. -/
def Solid (cs : List Char) : Prop := ∀ c ∈ cs.getLast?, c ≠ ' ' ∧ c ≠ '\n'

/-- A text without spaces and newlines is solid. -/
theorem solid_of_forall {cs : List Char} (h : ∀ c ∈ cs, c ≠ ' ' ∧ c ≠ '\n') : Solid cs :=
  fun c hc => h c (List.mem_of_getLast? hc)

/-- What ends in a solid word is solid. -/
theorem Solid.append {word : List Char} (h : Solid word) (hne : word ≠ []) (front : List Char) :
    Solid (front ++ word) := by
  intro c hc
  rw [List.getLast?_append_of_ne_nil front hne] at hc
  exact h c hc

/-- What is trimmed is solid. -/
theorem solid_of_trim {cs : List Char} (h : trim cs = cs) : Solid cs := by
  have hlast : ∀ c ∈ cs.getLast?, ¬ isBlank c := by
    rw [← h, trim, trimBack, List.getLast?_reverse]
    exact head?_trimFront _
  intro c hc
  constructor
  · rintro rfl
    exact hlast _ hc (by decide)
  · rintro rfl
    exact hlast _ hc (by decide)

end Text

/-- Where a character behind `a` stands in a text of two parts: in the first one, or behind some `d` in the
second. -/
theorem concat_isPrefix_append {α : Type} {a l r : List α} {c : α} (h : a ++ [c] <+: l ++ r) :
    a ++ [c] <+: l ∨ ∃ d, a = l ++ d ∧ d ++ [c] <+: r := by
  rcases List.prefix_or_prefix_of_prefix h (List.prefix_append l r) with hl | hl
  · exact Or.inl hl
  rcases List.prefix_concat_iff.1 hl with rfl | ⟨d, rfl⟩
  · exact Or.inl (List.prefix_refl _)
  · rw [List.append_assoc, List.prefix_append_right_inj] at h
    exact Or.inr ⟨d, rfl, h⟩

/-! ## Words -/

namespace Lexeme

/-- The payload of the lexeme has a shape that scans find: a symbol is a word, a comment is trimmed and stays on
its line, an operator is the one there is.  Strings and numbers are arbitrary. -/
def WellShaped : Lexeme → Prop
  | symbol text => text ≠ "" ∧ ' ' ∉ text.toList ∧ '\n' ∉ text.toList
  | comment text => '\n' ∉ text.toList ∧ Text.trim text.toList = text.toList
  | operator mark => mark = '.'
  | number _ | string _ | openScope | closeScope | endLine | openMeta | closeMeta => True

instance : DecidablePred WellShaped
  | symbol text => inferInstanceAs (Decidable (text ≠ "" ∧ ' ' ∉ text.toList ∧ '\n' ∉ text.toList))
  | comment text =>
    inferInstanceAs (Decidable ('\n' ∉ text.toList ∧ Text.trim text.toList = text.toList))
  | operator mark => inferInstanceAs (Decidable (mark = '.'))
  | number _ | string _ | openScope | closeScope | endLine | openMeta | closeMeta =>
    inferInstanceAs (Decidable True)

variable {x : Lexeme}

/-- A comment is written as its remark. -/
theorem chars_comment (text : String) : (comment text).chars = remark text := by
  simp only [chars, word?, remark, Option.getD_some]
  split <;> simp

/-- A number is written in digits. -/
theorem chars_number (value : Int) : (number value).chars = Integer.write value := by
  simp [chars, word?, Integer.text]

/-- A lexeme is a structural mark, which is not written, or it is written as a word. -/
theorem WellShaped.mark_or_word (h : x.WellShaped) :
    (x = openScope ∨ x = closeScope ∨ x = endLine) ∨
      x.chars ≠ [] ∧ ∀ s : Spot, s.written (.ofLexeme false x) = s.lead false ++ x.chars := by
  cases x with
  | openScope | closeScope | endLine => simp
  | symbol text => exact Or.inr ⟨by simpa [chars, word?] using h.1, fun _ => rfl⟩
  | number value =>
    refine Or.inr ⟨?_, fun _ => rfl⟩
    rw [chars_number, Integer.write]
    split <;> simp [Integer.digitsOf_ne_nil]
  | string text =>
    obtain ⟨quote, -, -, hchars⟩ := Scan.exists_quote text
    exact Or.inr ⟨by simp [hchars], fun _ => rfl⟩
  | comment text =>
    refine Or.inr ⟨?_, fun _ => by rw [chars_comment]; rfl⟩
    rw [chars_comment, remark]
    split <;> simp
  | operator | openMeta | closeMeta => exact Or.inr ⟨by simp [chars, word?], fun _ => rfl⟩

/-- No word ends in a space or a newline. -/
theorem WellShaped.solid_chars (h : x.WellShaped) : Text.Solid x.chars := by
  cases x with
  | symbol text =>
    refine Text.solid_of_forall fun c hc => ⟨?_, ?_⟩
    · rintro rfl
      exact h.2.1 hc
    · rintro rfl
      exact h.2.2 hc
  | number value =>
    rw [chars_number]
    refine Text.solid_of_forall fun c hc => ?_
    rcases Integer.isDigit_or_eq_of_mem_write hc with hdigit | rfl
    · constructor <;> rintro rfl <;> exact absurd hdigit (by decide)
    · decide
  | string text =>
    -- Only the last character matters, and a string ends in its quote.
    obtain ⟨quote, hquote, -, hchars⟩ := Scan.exists_quote text
    intro c hc
    rw [hchars, ← List.cons_append, List.getLast?_concat] at hc
    obtain rfl := Option.some.inj hc
    constructor <;> rintro rfl <;> exact absurd hquote (by decide)
  | comment text =>
    rw [chars_comment, remark]
    split
    · exact Text.solid_of_forall (by simp)
    · next hempty =>
      have hne : text.toList ≠ [] := by simpa using hempty
      exact (Text.solid_of_trim h.2).append hne ['#', ' ']
  | operator mark =>
    obtain rfl : mark = '.' := h
    exact Text.solid_of_forall (by simp [chars, word?])
  | openMeta | closeMeta | openScope | closeScope | endLine =>
    exact Text.solid_of_forall (by simp [chars, word?])

/-- Only strings have newlines in their words. -/
theorem WellShaped.exists_string (h : x.WellShaped) (hline : '\n' ∈ x.chars) : ∃ text, x = string text := by
  cases x with
  | string text => exact ⟨text, rfl⟩
  | symbol text => exact absurd hline h.2.2
  | number value =>
    rw [chars_number] at hline
    rcases Integer.isDigit_or_eq_of_mem_write hline with hdigit | heq
    · exact absurd hdigit (by decide)
    · cases heq
  | comment text =>
    rw [chars_comment, remark] at hline
    split at hline
    · exact absurd hline (by decide)
    · exact absurd (by simpa using hline) h.1
  | operator mark =>
    obtain rfl : mark = '.' := h
    exact absurd hline (by decide)
  | openMeta | closeMeta | openScope | closeScope | endLine => exact absurd hline (by decide)

/-- No word starts with a newline: those that hold one are strings, and they start with their quote. -/
theorem WellShaped.head?_chars (h : x.WellShaped) : x.chars.head? ≠ some '\n' := by
  intro hhead
  obtain ⟨text, rfl⟩ := h.exists_string (List.mem_of_mem_head? hhead)
  obtain ⟨quote, hquote, -, hchars⟩ := Scan.exists_quote text
  rw [hchars] at hhead
  obtain rfl := Option.some.inj hhead
  exact absurd hquote (by decide)

end Lexeme

/-- In what stands before a word a newline can only come first. -/
theorem Spot.eq_nil_of_newline_lead {s : Spot} {d : List Char} (h : d ++ ['\n'] <+: s.lead false) : d = [] := by
  have hstart : ∀ depth, d ++ ['\n'] <+: lineStart depth → d = [] := by
    intro depth h
    cases d with
    | nil => rfl
    | cons c d =>
      have hmem : '\n' ∈ List.replicate (2 * depth) ' ' :=
        (List.cons_prefix_cons.1 h).2.subset (List.mem_append_right d (List.mem_singleton_self _))
      exact absurd (List.eq_of_mem_replicate hmem) (by decide)
  cases s with
  | top | inLine =>
    have hmem := h.subset (List.mem_append_right d (List.mem_singleton_self _))
    simp at hmem
  | remarked depth => exact hstart depth h
  | fresh _ indent _ => exact hstart indent h

namespace Page

/-- The page after some lexemes. -/
def ofLexemes (xs : List Lexeme) : Page := xs.foldl write empty

/-- The place lies in the quoted text of a string that is one of the lexemes. -/
def InString (xs : List Lexeme) (place : Nat) : Prop :=
  ∃ before text front, before ++ [.string text] <+: xs ∧
    (ofLexemes (before ++ [.string text])).text.toList = front ++ (Lexeme.quoted text).toList ∧
    front.length ≤ place ∧ place < front.length + (Lexeme.quoted text).toList.length

/-- The lexeme is the first one that left anything on the page. -/
def FirstWritten (xs : List Lexeme) (x : Lexeme) : Prop :=
  ∃ before after, xs = before ++ x :: after ∧ (ofLexemes before).text = "" ∧
    (ofLexemes (before ++ [x])).text ≠ ""

/-- The cursor of the page after some lexemes says what the text on it shows. -/
structure CursorAgrees (xs : List Lexeme) : Prop where
  /-- A line starts where nothing is written, and behind a newline. -/
  atLineStart_iff : (ofLexemes xs).atLineStart ↔
    (ofLexemes xs).text = "" ∨ (ofLexemes xs).text.toList.getLast? = some '\n'
  /-- The start of the first line is where nothing is written. -/
  untouched_iff : (ofLexemes xs).line = 0 ∧ (ofLexemes xs).atLineStart ↔ (ofLexemes xs).text = ""
  /-- Outside of strings no newline stands behind a space or a newline. -/
  solid_of_newline : ∀ front, front ++ ['\n'] <+: (ofLexemes xs).text.toList →
    ¬ InString xs front.length → Text.Solid front
  /-- The text starts with a newline exactly if the first thing on it is the start of a scope. -/
  head?_eq_newline_iff : (ofLexemes xs).text.toList.head? = some '\n' ↔ FirstWritten xs .openScope

/-! ## One more lexeme -/

variable {xs : List Lexeme} {x : Lexeme} {p : Page} {front : List Char} {s : Spot}

/-- One more lexeme is written on the page of those before it. -/
theorem ofLexemes_concat (xs : List Lexeme) (x : Lexeme) :
    ofLexemes (xs ++ [x]) = (ofLexemes xs).write x := by
  simp [ofLexemes]

/-- A lexeme adds its piece to the page; a comment stands behind what was written before it. -/
theorem shows_write_of_wellShaped (h : p.Shows front s) (hx : x.WellShaped) :
    (p.write x).Shows (front ++ s.written (.ofLexeme false x)) (s.after (.ofLexeme false x)) := by
  have hchars : x.isContent → x.chars ≠ [] := by
    intro hcontent
    rcases hx.mark_or_word with (rfl | rfl | rfl) | ⟨hword, -⟩
    · cases hcontent
    · cases hcontent
    · cases hcontent
    · exact hword
  simpa using shows_write h hchars false

/-- A place in a string stays in it when more is written. -/
theorem InString.concat {place : Nat} (h : InString xs place) (x : Lexeme) : InString (xs ++ [x]) place := by
  obtain ⟨before, text, front, hbefore, h⟩ := h
  exact ⟨before, text, front, hbefore.trans (List.prefix_append xs [x]), h⟩

/-- All that was written but for a pending newline is `front`, and no newline in it is out of order. -/
structure Inked (xs : List Lexeme) (front : List Char) (s : Spot) : Prop where
  shows : (ofLexemes xs).Shows front s
  solid : Text.Solid front
  ne_nil : ∀ depth, s = .inLine depth → front ≠ []
  newline : ∀ a, a ++ ['\n'] <+: front → ¬ InString xs a.length → Text.Solid a

/-- Nothing is written on an empty page. -/
theorem inked_nil : Inked [] [] .top :=
  ⟨⟨rfl, rfl⟩, nofun, nofun, fun a ha => absurd (List.prefix_nil.1 ha) (by simp)⟩

/-- A mark leaves the ink as it is, and no line is open behind it that was not open before. -/
theorem Inked.mark (h : Inked xs front s) (hx : x = .openScope ∨ x = .closeScope ∨ x = .endLine) :
    Inked (xs ++ [x]) front (s.after (.ofLexeme false x)) := by
  have hshaped : x.WellShaped := by rcases hx with rfl | rfl | rfl <;> trivial
  have hwritten : s.written (.ofLexeme false x) = [] := by rcases hx with rfl | rfl | rfl <;> rfl
  have hshows := shows_write_of_wellShaped h.shows hshaped
  rw [hwritten, List.append_nil, ← ofLexemes_concat] at hshows
  refine ⟨hshows, h.solid, fun depth hafter => ?_, fun a ha hout => ?_⟩
  · have hopen : ∃ depth, s = .inLine depth := by
      rcases hx with rfl | rfl | rfl <;> cases s <;> simp_all [Piece.ofLexeme]
    obtain ⟨depth, hs⟩ := hopen
    exact h.ne_nil depth hs
  · exact h.newline a ha fun hin => hout (hin.concat x)

/-- A word is solid, and so is what stands before a newline in front of it. -/
theorem Inked.word (h : Inked xs front s) (hx : x.WellShaped) (hchars : x.chars ≠ [])
    (hwritten : s.written (.ofLexeme false x) = s.lead false ++ x.chars) :
    Inked (xs ++ [x]) (front ++ (s.lead false ++ x.chars)) (s.after (.ofLexeme false x)) := by
  have hshows := shows_write_of_wellShaped h.shows hx
  rw [hwritten, ← ofLexemes_concat] at hshows
  refine ⟨hshows, ?_, fun _ _ => by simp [hchars], fun a ha hout => ?_⟩
  · rw [← List.append_assoc]
    exact hx.solid_chars.append hchars _
  rcases concat_isPrefix_append ha with ha | ⟨d, rfl, hd⟩
  · exact h.newline a ha fun hin => hout (hin.concat x)
  rcases concat_isPrefix_append hd with hlead | ⟨e, rfl, he⟩
  · rw [Spot.eq_nil_of_newline_lead hlead, List.append_nil]
    exact h.solid
  -- The newline is one of the word, so the word is a string and the newline in it.
  obtain ⟨text, rfl⟩ := hx.exists_string (he.subset (List.mem_append_right e (List.mem_singleton_self _)))
  have hlt : e.length < (Lexeme.quoted text).toList.length := by
    have hle := he.length_le
    rw [List.length_append, List.length_singleton] at hle
    exact hle
  have htext : (ofLexemes (xs ++ [.string text])).text.toList =
      (front ++ s.lead false) ++ (Lexeme.quoted text).toList := by
    have hfinish : (s.after (.ofLexeme false (.string text))).finish = [] := by cases s <;> rfl
    rw [hshows.2, hfinish, List.append_nil, List.append_assoc]
    rfl
  refine absurd ⟨xs, text, front ++ s.lead false, List.prefix_refl _, htext, ?_, ?_⟩ hout
  · simp only [List.length_append]
    omega
  · simp only [List.length_append]
    omega

/-! ## All lexemes -/

/-- After any lexemes with shapes as scans find them the page is inked. -/
theorem exists_inked (h : ∀ x ∈ xs, x.WellShaped) : ∃ front s, Inked xs front s := by
  induction xs using List.reverseRecOn with
  | nil => exact ⟨[], .top, inked_nil⟩
  | append_singleton xs x ih =>
    obtain ⟨front, s, hinked⟩ := ih fun y hy => h y (List.mem_append_left [x] hy)
    have hx : x.WellShaped := h x (List.mem_append_right xs (List.mem_singleton_self x))
    rcases hx.mark_or_word with hmark | ⟨hchars, hwritten⟩
    · exact ⟨_, _, hinked.mark hmark⟩
    · exact ⟨_, _, hinked.word hx hchars (hwritten s)⟩

/-- Where a page is, by its cursor and by its text. -/
theorem Inked.place (h : Inked xs front s) :
    (s = .top ∧ ofLexemes xs = empty) ∨
      (0 < (ofLexemes xs).column ∧ (ofLexemes xs).text.toList = front ∧ front ≠ []) ∨
      ((ofLexemes xs).column = 0 ∧ 0 < (ofLexemes xs).line ∧
        (ofLexemes xs).text.toList = front ++ ['\n']) := by
  obtain ⟨⟨hat, htext⟩, -, hne, -⟩ := h
  cases s with
  | top => exact Or.inl ⟨rfl, hat⟩
  | inLine depth => exact Or.inr (Or.inl ⟨hat.1, by simpa using htext, hne depth rfl⟩)
  | remarked | fresh => exact Or.inr (Or.inr ⟨hat.1, hat.2.1, htext⟩)

/-- By the cursor a line starts where the column is zero; by the text, where there is none or a newline is
last. -/
theorem Inked.atLineStart_iff (h : Inked xs front s) : (ofLexemes xs).atLineStart ↔
    (ofLexemes xs).text = "" ∨ (ofLexemes xs).text.toList.getLast? = some '\n' := by
  rw [← String.toList_eq_nil_iff]
  rcases h.place with ⟨-, hempty⟩ | ⟨hcolumn, htext, hne⟩ | ⟨hcolumn, -, htext⟩
  · simp [hempty, empty, atLineStart]
  · have hlast : front.getLast? ≠ some '\n' := fun hlast => (h.solid _ hlast).2 rfl
    simp [atLineStart, htext, hne, hlast, Nat.ne_of_gt hcolumn]
  · simp [atLineStart, htext, hcolumn]

/-- The start of the first line is left with the first character, and never come back to. -/
theorem Inked.untouched_iff (h : Inked xs front s) :
    (ofLexemes xs).line = 0 ∧ (ofLexemes xs).atLineStart ↔ (ofLexemes xs).text = "" := by
  rw [← String.toList_eq_nil_iff]
  rcases h.place with ⟨-, hempty⟩ | ⟨hcolumn, htext, hne⟩ | ⟨hcolumn, hline, htext⟩
  · simp [hempty, empty, atLineStart]
  · simp [atLineStart, htext, hne, Nat.ne_of_gt hcolumn]
  · simp [htext, Nat.ne_of_gt hline]

/-- A newline outside of strings stands behind something solid, the pending one included. -/
theorem Inked.solid_of_newline (h : Inked xs front s) {a : List Char}
    (ha : a ++ ['\n'] <+: (ofLexemes xs).text.toList) (hout : ¬ InString xs a.length) : Text.Solid a := by
  rw [h.shows.2] at ha
  rcases concat_isPrefix_append ha with ha | ⟨d, rfl, hd⟩
  · exact h.newline a ha hout
  · -- The pending newline stands behind all the rest.
    have hnil : d = [] := by
      have hle := hd.length_le
      cases s <;> simp at hle ⊢ <;> omega
    rw [hnil, List.append_nil]
    exact h.solid

/-! ## The first thing on a page -/

/-- Nothing is taken off a page. -/
theorem text_write_isPrefix (p : Page) (x : Lexeme) : p.text.toList <+: (p.write x).text.toList := by
  have hnewline : ∀ p : Page, p.text.toList <+: p.newline.text.toList := fun p => ⟨['\n'], by simp [newline]⟩
  have hendLine : ∀ p : Page, p.text.toList <+: p.endLine.text.toList := by
    intro p
    unfold endLine
    split
    · exact List.prefix_refl _
    · exact hnewline p
  have hword : ∀ word, p.text.toList <+: (p.putWord word).text.toList :=
    fun word => ⟨_, (text_putWord p word).symm⟩
  cases x with
  | openScope =>
    simp only [write, deeper]
    split
    · exact hnewline p
    · exact hendLine p
  | closeScope => exact List.prefix_refl _
  | endLine => exact hendLine p
  | comment text => exact (hword _).trans (hnewline _)
  | symbol | number | string | operator | openMeta | closeMeta => exact hword _

/-- What some lexemes have left stays in front of all that is written later. -/
theorem text_ofLexemes_isPrefix {before : List Lexeme} (h : before <+: xs) :
    (ofLexemes before).text.toList <+: (ofLexemes xs).text.toList := by
  obtain ⟨after, rfl⟩ := h
  induction after using List.reverseRecOn with
  | nil => simp
  | append_singleton after x ih =>
    rw [← List.append_assoc, ofLexemes_concat]
    exact ih.trans (text_write_isPrefix _ x)

/-- If anything is on the page, one of the lexemes left the first of it. -/
theorem exists_firstWritten (h : (ofLexemes xs).text ≠ "") : ∃ x, FirstWritten xs x := by
  induction xs using List.reverseRecOn with
  | nil => exact absurd rfl h
  | append_singleton xs x ih =>
    by_cases hxs : (ofLexemes xs).text = ""
    · exact ⟨x, xs, [], rfl, hxs, h⟩
    · obtain ⟨y, before, after, hsplit, hbefore, hy⟩ := ih hxs
      exact ⟨y, before, after ++ [x], by simp [hsplit], hbefore, hy⟩

/-- Lexemes that leave nothing leave the page as it was. -/
theorem eq_empty_of_text_eq (h : ∀ x ∈ xs, x.WellShaped) (htext : (ofLexemes xs).text = "") :
    ofLexemes xs = empty := by
  obtain ⟨front, s, hinked⟩ := exists_inked h
  rw [← String.toList_eq_nil_iff] at htext
  rcases hinked.place with ⟨-, hempty⟩ | ⟨-, hfront, hne⟩ | ⟨-, -, hfront⟩
  · exact hempty
  · exact absurd (hfront.symm.trans htext) hne
  · exact absurd (hfront.symm.trans htext) (by simp)

/-- On a fresh page only the start of a scope starts with a newline. -/
theorem head?_write_empty_iff (hx : x.WellShaped) :
    (empty.write x).text.toList.head? = some '\n' ↔ x = .openScope := by
  have htop : empty.Shows [] .top := ⟨rfl, rfl⟩
  rcases hx.mark_or_word with (rfl | rfl | rfl) | ⟨hchars, hwritten⟩
  · exact iff_of_true rfl rfl
  · exact iff_of_false (by decide) nofun
  · exact iff_of_false (by decide) nofun
  · have htext := (shows_write_of_wellShaped htop hx).2
    rw [hwritten, List.nil_append, Spot.lead, List.nil_append] at htext
    refine iff_of_false ?_ ?_
    · rw [htext, List.head?_append_of_ne_nil _ hchars]
      exact hx.head?_chars
    · rintro rfl
      exact hchars rfl

/-- The text starts as the first lexeme that left anything does on a fresh page. -/
theorem FirstWritten.head?_eq (h : ∀ y ∈ xs, y.WellShaped) (hx : FirstWritten xs x) :
    (ofLexemes xs).text.toList.head? = (empty.write x).text.toList.head? := by
  obtain ⟨before, after, rfl, hbefore, hne⟩ := hx
  have hempty := eq_empty_of_text_eq (fun y hy => h y (List.mem_append_left _ hy)) hbefore
  rw [ofLexemes_concat, hempty] at hne
  have hbehind : before ++ [x] <+: before ++ x :: after := ⟨after, by simp⟩
  obtain ⟨more, hmore⟩ := text_ofLexemes_isPrefix hbehind
  rw [← hmore, ofLexemes_concat, hempty, List.head?_append_of_ne_nil _ (by simpa using hne)]

/-- The text starts with a newline exactly if the start of a scope left the first of it: every other lexeme
that leaves anything on an empty page leaves a word. -/
theorem head?_eq_newline_iff (h : ∀ x ∈ xs, x.WellShaped) :
    (ofLexemes xs).text.toList.head? = some '\n' ↔ FirstWritten xs .openScope := by
  constructor
  · intro hhead
    have hne : (ofLexemes xs).text ≠ "" := by
      intro htext
      rw [htext] at hhead
      cases hhead
    obtain ⟨x, hx⟩ := exists_firstWritten hne
    have hmem : x ∈ xs := by
      obtain ⟨before, after, rfl, -⟩ := hx
      simp
    rw [hx.head?_eq h, head?_write_empty_iff (h x hmem)] at hhead
    exact hhead ▸ hx
  · intro hx
    rw [hx.head?_eq h]
    rfl

/-- The cursor and the text of a page agree (`CursorAgrees`) after every list `xs` of lexemes that is written:
any marks in any order, and words with payloads as scans find them (`WellShaped`).  Since every list is meant,
they agree after each lexeme of a longer one as well. -/
theorem cursorAgrees_of_wellShaped (h : ∀ x ∈ xs, x.WellShaped) : CursorAgrees xs := by
  obtain ⟨front, s, hinked⟩ := exists_inked h
  exact ⟨hinked.atLineStart_iff, hinked.untouched_iff, fun _ => hinked.solid_of_newline, head?_eq_newline_iff h⟩

/-- A scope in front of everything, a line that is ended before a scope ends it, and one that a comment ends.
The cursor counts these four lines and none of those within the string. -/
theorem cursorAgrees_of_wellShaped_string :
    let xs : List Lexeme := [.closeScope, .openScope, .symbol "a", .string "x \n\n y", .endLine, .openScope,
      .operator '.', .endLine, .closeScope, .comment ""]
    (∀ x ∈ xs, x.WellShaped) ∧ (ofLexemes xs).text = "\n  a 'x \n\n y'\n    .\n  #\n" ∧
      (ofLexemes xs).line = 4 ∧ CursorAgrees xs :=
  ⟨by decide, by decide +kernel, by decide +kernel, cursorAgrees_of_wellShaped (by decide)⟩

end Page

end EntitySchema
