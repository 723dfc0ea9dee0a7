import EntitySchema.Lexer.Scan
import Mathlib.Data.List.TakeWhile
/-!
  How far a lexeme goes.

  `Spells x word` lists the ways in which the characters `word` can spell the lexeme `x`: with leading zeros,
  in either sort of quotes, with any blanks around a comment.  `Halts x rest` says that the text `rest` behind
  `x` does not go on with it. Only symbols, numbers and comments can be gone on with; strings, brackets and
  the dot have ends of their own.

  A scan finds just that, a spelled lexeme that halts, and whatever is spelled and halts is what a scan finds:

      (ofChars c cs).result = .ok x       → x.Spells taken ∧ x.Halts rest            (`spells_and_halts_of_ok`)
      x.Spells (c :: cs) ∧ x.Halts rest   → ofChars c (cs ++ rest) = ⟨.ok x, c :: cs, rest⟩  (`ofChars_of_spells`)

  So what scans find is known from the spellings alone, and a text can be changed behind a lexeme without the
  scan of the lexeme noticing, as long as it still halts there (`ofChars_change_rest`).  The last section
  draws from the spellings what later modules ask of a scan: a separator starts no lexeme, behind a comment
  its line ends, a string stands between its quotes.
-/

namespace EntitySchema

namespace Lexeme

/-- The characters spell the lexeme. -/
inductive Spells : Lexeme → List Char → Prop where
  /-- A letter and then characters of symbols. -/
  | symbol {c : Char} {cs : List Char} (hc : c.isAlpha) (hcs : ∀ d ∈ cs, Scan.isSymbolChar d) :
      Spells (.symbol (String.ofList (c :: cs))) (c :: cs)
  /-- Digits with a value that fits, leading zeros or not. -/
  | number {digits : List Char} (hne : digits ≠ []) (hdigits : ∀ d ∈ digits, d.isDigit)
      (hrange : Integer.InRange (Integer.digitsValue digits)) :
      Spells (.number (Integer.digitsValue digits)) digits
  /-- A minus sign and digits, with a value that fits. -/
  | negative {digits : List Char} (hne : digits ≠ []) (hdigits : ∀ d ∈ digits, d.isDigit)
      (hrange : Integer.InRange (-(Integer.digitsValue digits : Int))) :
      Spells (.number (-(Integer.digitsValue digits : Int))) ('-' :: digits)
  /-- A text in quotes of one sort, with no quote of that sort in it. -/
  | string {quote : Char} {text : List Char} (hquote : Scan.isQuote quote) (hfree : quote ∉ text) :
      Spells (.string (String.ofList text)) (quote :: (text ++ [quote]))
  /-- A number sign and the rest of the line; the blanks around its text are not part of it. -/
  | comment {line : List Char} (hline : '\n' ∉ line) :
      Spells (.comment (String.ofList (Text.trim line))) ('#' :: line)
  /-- A dot. -/
  | dot : Spells (.operator '.') ['.']
  /-- An opening bracket. -/
  | openMeta : Spells .openMeta ['[']
  /-- A closing bracket. -/
  | closeMeta : Spells .closeMeta [']']

/-- Every spelling has a character. -/
theorem Spells.ne_nil {x : Lexeme} {word : List Char} (h : x.Spells word) : word ≠ [] := by
  cases h with
  | number hne => exact hne
  | symbol | negative | string | comment | dot | openMeta | closeMeta => exact List.cons_ne_nil _ _

/-- Structural marks are not spelled. -/
theorem Spells.isContent_or_isComment {x : Lexeme} {word : List Char} (h : x.Spells word) :
    x.isContent ∨ x.isComment := by
  cases h with
  | comment => exact Or.inr rfl
  | symbol | number | negative | string | dot | openMeta | closeMeta => exact Or.inl rfl

/-- A newline stands in no word but a string in its quotes, and a carriage return besides only in a
comment. -/
theorem Spells.exists_string {x : Lexeme} {word : List Char} {d : Char} (h : x.Spells word)
    (hd : d = '\n' ∨ d = '\r' ∧ x.isContent) (hm : d ∈ word) :
    ∃ quote text, Scan.isQuote quote ∧ quote ∉ text ∧ x = .string (String.ofList text) ∧
      word = quote :: (text ++ [quote]) := by
  -- No other spelling has such a character in it.
  have hplain : ¬ Scan.isSymbolChar d ∧ ¬ d.isAlpha ∧ ¬ d.isDigit := by
    rcases hd with rfl | ⟨rfl, -⟩ <;> decide
  have hmark : d ≠ '#' ∧ d ≠ '-' ∧ d ≠ '.' ∧ d ≠ '[' ∧ d ≠ ']' := by
    rcases hd with rfl | ⟨rfl, -⟩ <;> decide
  cases h with
  | symbol hc hcs =>
    rcases List.mem_cons.1 hm with rfl | hm
    · exact absurd hc hplain.2.1
    · exact absurd (hcs d hm) hplain.1
  | number _ hdigits => exact absurd (hdigits d hm) hplain.2.2
  | negative _ hdigits =>
    exact absurd (hdigits d (List.mem_of_ne_of_mem hmark.2.1 hm)) hplain.2.2
  | @string quote text hquote hfree => exact ⟨quote, text, hquote, hfree, rfl, rfl⟩
  | comment hline =>
    rcases hd with rfl | ⟨-, hx⟩
    · exact absurd (List.mem_of_ne_of_mem hmark.1 hm) hline
    · cases hx
  | dot => exact absurd (List.mem_singleton.1 hm) hmark.2.2.1
  | openMeta => exact absurd (List.mem_singleton.1 hm) hmark.2.2.2.1
  | closeMeta => exact absurd (List.mem_singleton.1 hm) hmark.2.2.2.2

/-- The text behind the lexeme does not go on with it. -/
def Halts : Lexeme → List Char → Prop
  | symbol _, rest => ∀ c ∈ rest.head?, Scan.isSymbolChar c = false
  | number _, rest => ∀ c ∈ rest.head?, c.isDigit = false
  | comment _, rest => ∀ c ∈ rest.head?, c = '\n'
  | string _, _ | operator _, _ | openScope, _ | closeScope, _ | endLine, _ | openMeta, _
  | closeMeta, _ => True

/-- Only the next character matters. -/
theorem Halts.congr {x : Lexeme} {rest rest' : List Char} (h : x.Halts rest)
    (hhead : rest'.head? = rest.head?) : x.Halts rest' := by
  cases x with
  | symbol | number | comment =>
    intro c hc
    exact h c (hhead ▸ hc)
  | string | operator | openScope | closeScope | endLine | openMeta | closeMeta => trivial

/-- No content goes on with a character that is in no symbol. -/
theorem halts_of_head {x : Lexeme} {rest : List Char} (hx : x.isContent)
    (hhead : ∀ c ∈ rest.head?, Scan.isSymbolChar c = false) : x.Halts rest := by
  cases x with
  | symbol => exact hhead
  | number =>
    intro c hc
    have hsymbol := hhead c hc
    simp only [Scan.isSymbolChar, Char.isAlphanum, Bool.or_eq_false_iff] at hsymbol
    exact hsymbol.1.2
  | comment => cases hx
  | string | operator | openScope | closeScope | endLine | openMeta | closeMeta => trivial

end Lexeme

namespace Scan

open Lexeme (Spells Halts)

/-! ## Scans and spellings -/

/-- Where all of `w` passes a test and what comes behind it does not, `w` is what is taken off the front. -/
theorem span_append {p : Char → Bool} {w rest : List Char} (hw : ∀ c ∈ w, p c)
    (hrest : ∀ c ∈ rest.head?, p c = false) :
    (w ++ rest).takeWhile p = w ∧ (w ++ rest).dropWhile p = rest := by
  rw [List.takeWhile_append_of_pos hw, List.dropWhile_append_of_pos hw]
  cases rest with
  | nil => simp
  | cons c rest => simp [hrest c rfl]

/-- What is left behind the characters that pass a test starts with one that does not. -/
theorem head?_dropWhile (p : Char → Bool) (cs : List Char) : ∀ d ∈ (cs.dropWhile p).head?, p d = false := by
  intro d hd
  have hhead := List.head?_dropWhile_not p cs
  rw [hd] at hhead
  simpa using hhead

/-- Digits are no letters. -/
theorem not_isAlpha_of_isDigit {c : Char} (h : c.isDigit) : ¬ c.isAlpha := by
  have hletter : c.isAlpha = (decide ('A'.val ≤ c.val ∧ c.val ≤ 'Z'.val) ||
      ('a'.val ≤ c.val && c.val ≤ 'z'.val)) := rfl
  simp only [hletter, Char.isDigit, Bool.and_eq_true, ge_iff_le, decide_eq_true_eq, Bool.or_eq_true,
    UInt32.le_iff_toNat_le] at h ⊢
  have : '9'.val.toNat = 57 := rfl
  have : 'A'.val.toNat = 65 := rfl
  have : 'a'.val.toNat = 97 := rfl
  omega

/-- The numbers that are read from a text are spelled by it. -/
theorem spells_of_numberOf {c : Char} {digits : List Char} {x : Lexeme}
    (hc : c.isDigit ∨ c = '-') (hdigits : ∀ d ∈ digits, d.isDigit) (h : numberOf c digits = .ok x) :
    x.Spells (c :: digits) ∧ ∃ value, x = .number value := by
  unfold numberOf at h
  split at h
  · cases h
  next hsign =>
  split at h
  · next value hvalue =>
    cases h
    refine ⟨?_, value, rfl⟩
    -- Digits and a sign are read in their own ways, and both have to fit.
    rcases hc with hc | rfl
    · have hall : (c :: digits).all Char.isDigit = true := by
        simpa [hc] using hdigits
      rw [Integer.read?_of_digits (List.cons_ne_nil c digits) hall] at hvalue
      obtain ⟨hrange, ⟨⟩⟩ := Option.ite_none_right_eq_some.1 hvalue
      exact .number (by simp) (by simpa [hc] using hdigits) hrange
    · have hne : digits ≠ [] := fun hnil => hsign ⟨rfl, hnil⟩
      rw [Integer.read?_of_minus hne (by simpa using hdigits)] at hvalue
      obtain ⟨hrange, ⟨⟩⟩ := Option.ite_none_right_eq_some.1 hvalue
      exact .negative hne hdigits hrange
  · cases h

/-- A string that closes is spelled in its quotes. -/
theorem spells_of_string {quote : Char} {cs : List Char} {x : Lexeme} (hquote : isQuote quote)
    (h : (string quote cs).result = .ok x) :
    x.Spells (string quote cs).taken ∧ x.Halts (string quote cs).rest := by
  unfold string at h ⊢
  simp only at h ⊢
  split at h
  · cases h
  next close rest hdrop =>
  cases h
  have hclose : close = quote := by simpa using head?_dropWhile (· ≠ quote) cs close (by rw [hdrop]; rfl)
  rw [hclose]
  refine ⟨.string hquote fun hm => ?_, trivial⟩
  simpa using List.mem_takeWhile_imp hm

/-- Brackets and the dot stand for themselves. -/
theorem spells_of_single {c : Char} {cs : List Char} {x : Lexeme} (h : (single c cs).result = .ok x) :
    x.Spells [c] ∧ x.Halts cs := by
  simp only [single, singleOf] at h
  split at h
  · next hopen => subst hopen; cases h; exact ⟨.openMeta, trivial⟩
  split at h
  · next hclose => subst hclose; cases h; exact ⟨.closeMeta, trivial⟩
  split at h
  · next hdot => subst hdot; cases h; exact ⟨.dot, trivial⟩
  · cases h

/-- A scan finds a lexeme that is spelled by what it took and halts before what it left.  One case for each
sort of lexeme, in the order in which `ofChars` asks for its first character. -/
theorem spells_and_halts_of_ok {c : Char} {cs : List Char} {x : Lexeme}
    (h : (ofChars c cs).result = .ok x) :
    x.Spells (ofChars c cs).taken ∧ x.Halts (ofChars c cs).rest := by
  unfold ofChars at h ⊢
  split at h
  · next hsign =>
    rw [if_pos hsign]
    cases h
    refine ⟨.comment fun hm => ?_, fun d hd => ?_⟩
    · simpa using List.mem_takeWhile_imp hm
    · simpa using head?_dropWhile (· ≠ '\n') cs d hd
  next hsign =>
  rw [if_neg hsign]
  split at h
  · next halpha =>
    rw [if_pos halpha]
    cases h
    exact ⟨.symbol halpha fun d hd => List.mem_takeWhile_imp hd, head?_dropWhile isSymbolChar cs⟩
  -- What is taken are characters that pass a test, and what is left starts with one that does not.
  next halpha =>
  rw [if_neg halpha]
  split at h
  · next hnumber =>
    rw [if_pos hnumber]
    obtain ⟨hspells, value, rfl⟩ := spells_of_numberOf (by simpa using hnumber)
      (fun d hd => List.mem_takeWhile_imp hd) h
    exact ⟨hspells, head?_dropWhile Char.isDigit cs⟩
  next hnumber =>
  rw [if_neg hnumber]
  split at h
  · next hquote =>
    rw [if_pos hquote]
    exact spells_of_string hquote h
  · next hquote =>
    rw [if_neg hquote]
    exact spells_of_single h

/-- A lexeme that is spelled and halts is what a scan finds: it takes the word and leaves the rest. -/
theorem ofChars_of_spells {x : Lexeme} {word rest : List Char} (h : x.Spells word)
    (hrest : x.Halts rest) :
    ∃ c cs, word = c :: cs ∧ ofChars c (cs ++ rest) = ⟨.ok x, word, rest⟩ := by
  cases h with
  -- In each case the first character tells the sort, and the others are taken as far as they are spelled.
  | @symbol c cs hc hcs =>
    have hsign : c ≠ '#' := by rintro rfl; exact absurd hc (by decide)
    obtain ⟨htake, hdrop⟩ := span_append hcs hrest
    refine ⟨c, cs, rfl, ?_⟩
    rw [ofChars, if_neg hsign, if_pos hc, Scan.symbol, htake, hdrop]
  | @number digits hne hdigits hrange =>
    obtain ⟨c, cs, rfl⟩ := List.exists_cons_of_ne_nil hne
    have hc := hdigits c List.mem_cons_self
    have hcs : ∀ d ∈ cs, d.isDigit := fun d hd => hdigits d (List.mem_cons_of_mem c hd)
    have hsign : c ≠ '#' ∧ c ≠ '-' := by
      constructor <;> rintro rfl <;> exact absurd hc (by decide)
    obtain ⟨htake, hdrop⟩ := span_append hcs hrest
    have hall : (c :: cs).all Char.isDigit = true := by simpa using hdigits
    have hread := Integer.read?_of_digits (List.cons_ne_nil c cs) hall
    rw [if_pos hrange] at hread
    refine ⟨c, cs, rfl, ?_⟩
    rw [ofChars, if_neg hsign.1, if_neg (not_isAlpha_of_isDigit hc), if_pos (by simp [hc]), Scan.number, htake,
      hdrop, numberOf, if_neg (fun h => hsign.2 h.1), hread]
  | @negative digits hne hdigits hrange =>
    obtain ⟨htake, hdrop⟩ := span_append hdigits hrest
    have hall : digits.all Char.isDigit = true := by simpa using hdigits
    have hread := Integer.read?_of_minus hne hall
    rw [if_pos hrange] at hread
    refine ⟨'-', digits, rfl, ?_⟩
    rw [ofChars, if_neg (by decide), if_neg (by decide), if_pos (by decide), Scan.number, htake, hdrop,
      numberOf, if_neg (fun h => hne h.2), hread]
  | @string quote text hquote hfree =>
    -- A quote is no other first character.
    have hclass : quote ≠ '#' ∧ ¬ quote.isAlpha ∧ ¬ (quote.isDigit || quote = '-') := by
      simp only [isQuote, Bool.or_eq_true, decide_eq_true_eq] at hquote
      rcases hquote with rfl | rfl <;> decide
    obtain ⟨htake, hdrop⟩ := @span_append (· ≠ quote) text (quote :: rest)
      (fun d hd => by simpa using fun heq : d = quote => hfree (heq ▸ hd)) (by simp)
    refine ⟨quote, text ++ [quote], rfl, ?_⟩
    rw [ofChars, if_neg hclass.1, if_neg hclass.2.1, if_neg hclass.2.2, if_pos hquote, Scan.string,
      List.append_assoc, List.singleton_append, hdrop, htake]
  | @comment line hline =>
    obtain ⟨htake, hdrop⟩ := @span_append (· ≠ '\n') line rest
      (fun d hd => by simpa using fun heq : d = '\n' => hline (heq ▸ hd))
      (fun d hd => by simpa using hrest d hd)
    refine ⟨'#', line, rfl, ?_⟩
    rw [ofChars, if_pos rfl, Scan.comment, htake, hdrop]
  | dot => exact ⟨'.', [], rfl, rfl⟩
  | openMeta => exact ⟨'[', [], rfl, rfl⟩
  | closeMeta => exact ⟨']', [], rfl, rfl⟩

/-- What stands behind a lexeme can be changed if the lexeme still halts there. -/
theorem ofChars_change_rest {c : Char} {cs rest : List Char} {x : Lexeme}
    (h : (ofChars c cs).result = .ok x) (hrest : x.Halts rest) :
    ∃ more, (ofChars c cs).taken = c :: more ∧ cs = more ++ (ofChars c cs).rest ∧
      ofChars c (more ++ rest) = ⟨.ok x, c :: more, rest⟩ := by
  obtain ⟨more, hmore⟩ := exists_taken c cs
  have hsplit := taken_append_rest c cs
  rw [hmore, List.cons_append] at hsplit
  obtain ⟨d, ds, hword, hscan⟩ := ofChars_of_spells (spells_and_halts_of_ok h).1 hrest
  rw [hmore] at hword hscan
  obtain ⟨rfl, rfl⟩ := List.cons.inj hword
  exact ⟨more, hmore, (List.cons.inj hsplit).2.symm, hscan⟩

/-! ## What scans find -/

variable {c : Char} {cs : List Char} {x : Lexeme}

/-- A scan takes characters of its text. -/
theorem taken_subset (c : Char) (cs : List Char) : (ofChars c cs).taken ⊆ c :: cs := by
  rw [← taken_append_rest c cs]
  exact List.subset_append_left _ _

/-- A scan finds content or a comment, never a structural mark. -/
theorem isContent_or_isComment_of_ok (h : (ofChars c cs).result = .ok x) :
    x.isContent ∨ x.isComment :=
  (spells_and_halts_of_ok h).1.isContent_or_isComment

/-- No lexeme starts with a separator. -/
theorem isSeparator_eq_false_of_ok {c : Char} {cs : List Char} {x : Lexeme}
    (hx : (ofChars c cs).result = .ok x) : isSeparator c = false := by
  rw [← Bool.not_eq_true]
  intro hc
  simp only [isSeparator, Bool.or_eq_true, decide_eq_true_eq] at hc
  rcases hc with (rfl | rfl) | rfl <;> cases hx

/-- Comments start with a number sign. -/
theorem eq_of_comment {text : String} (h : (ofChars c cs).result = .ok (.comment text)) : c = '#' := by
  obtain ⟨more, hmore⟩ := exists_taken c cs
  have hspells := (spells_and_halts_of_ok h).1
  rw [hmore] at hspells
  cases hspells with
  | comment => rfl

/-- Behind a comment its line ends. -/
theorem head?_rest_of_comment {text : String} (h : (ofChars c cs).result = .ok (.comment text)) :
    ∀ d ∈ (ofChars c cs).rest.head?, d = '\n' :=
  (spells_and_halts_of_ok h).2

/-- A string is found between its quotes. -/
theorem exists_taken_of_string {text : String} (h : (ofChars c cs).result = .ok (.string text)) :
    ∃ quote close, (ofChars c cs).taken = quote :: (text.toList ++ [close]) := by
  have hspells := (spells_and_halts_of_ok h).1
  generalize (ofChars c cs).taken = word at hspells ⊢
  cases hspells with
  | @string quote text => exact ⟨quote, quote, by rw [String.toList_ofList]⟩

/-- A string that never closes has its quote nowhere. -/
theorem not_mem_of_string_error {quote : Char} {fault : LexFault}
    (h : (string quote cs).result = .error fault) : quote ∉ cs := by
  intro hm
  obtain ⟨front, back, rfl, hfront⟩ := List.eq_append_cons_of_mem hm
  have hdrop := (@span_append (· ≠ quote) front (quote :: back)
    (fun d hd => by simpa using fun heq : d = quote => hfront (heq ▸ hd)) (by simp)).2
  simp only [string, hdrop] at h
  cases h

end Scan

end EntitySchema
