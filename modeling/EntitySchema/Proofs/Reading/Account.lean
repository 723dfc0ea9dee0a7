import EntitySchema.Lexer.Scan
import EntitySchema.Proofs.Reading.Offsets
/-!
  A reader does not lose its place.

  Characters, lines and quoted texts are taken from a source in any order, and now and then the last character
  is put back.  Whoever writes down what was handed out keeps an `Account`: `said` is all that was handed out,
  and `kept` is the same less one character, as it would be if that were put back.

  1. **Calls** (`ReaderCall`, `ReaderAnswer`) are data, so that a run is a list of calls and what it answers
     is a list of answers.  The same calls go to a `Reader` and to a `ByteReader`.

  2. **The account** (`Account.enter`) is a fold over the answers alone.  A quote that was passed is written
     down behind its text, a character that was put back is crossed out, and a quoted text without an end
     accounts for all there was.

  3. **The invariant** (`Reader.Agrees start r a`): from `start` the reader `r` has passed `a.said`, and would
     have passed `a.kept` if its last character were put back.  One call keeps it (`Agrees.call`), by cases of
     the call, so a run of calls does (`Agrees.calls`), by induction on the calls.

  4. **The bridge** (`Tracks.exists_calls`): a `ByteReader` gives the same answers at the same places, so its
     offset splits the source into what the account says and what is still to come.

  5. **The extent of the bulk reads** (`Tracks.line_extent`, `Tracks.quoted_extent`): how far they go is said
     of the source behind the offset and not of the reader.

  Main statement: `keepsPlace_of_calls`.
-/

namespace EntitySchema

open SourceText (dropMark visible withoutReturns)

/-! ## Calls and answers -/

/-- What a reader can be called for; a text is taken up to one of the two quotes. -/
inductive ReaderCall where
  | read
  | unread
  | takeLine
  | takeUntil (quote : Char) (hquote : Scan.isQuote quote)

/-- What is handed out. -/
inductive ReaderAnswer where
  | char (c : Char)
  /-- There is no character left. -/
  | ended
  /-- A character is put back, or nothing is done. -/
  | silent
  | line (text : List Char)
  | quoted (text : List Char) (quote : Char)
  /-- There is no such quote, and nothing is left. -/
  | unclosed
deriving DecidableEq

namespace ReaderAnswer

/-- The answer to a read that found this character, or none. -/
def ofChar? : Option Char → ReaderAnswer
  | some c => char c
  | none => ended

/-- The answer to a text up to `quote` that was found, or not. -/
def ofQuoted? (quote : Char) : Option (List Char) → ReaderAnswer
  | some text => quoted text quote
  | none => unclosed

end ReaderAnswer

/-- The answer of a reader to a call, and the reader behind it. -/
def Reader.call (r : Reader) : ReaderCall → ReaderAnswer × Reader
  | .read => (.ofChar? r.next.1, r.next.2)
  | .unread => (.silent, r.putBack)
  | .takeLine => (.line r.restOfLine.1, r.restOfLine.2)
  | .takeUntil quote _ => (.ofQuoted? quote (r.upTo quote).1, (r.upTo quote).2)

/-- The answers to calls in a row, in order, and the reader behind the last one. -/
def Reader.calls (r : Reader) : List ReaderCall → List ReaderAnswer × Reader
  | [] => ([], r)
  | call :: calls =>
    let (answers, last) := (r.call call).2.calls calls
    ((r.call call).1 :: answers, last)

namespace ByteReader

/-- The same at a byte offset.  The character zero is one of the source unless the reader is at its end, so
the answer is told by `atEnd` and not by the character. -/
def call (b : ByteReader) : ReaderCall → Option (ReaderAnswer × ByteReader)
  | .read => b.read.map fun (c, after) => (.ofChar? (if after.atEnd then none else some c), after)
  | .unread => some (.silent, b.unread)
  | .takeLine => b.takeLine.map fun (text, after) => (.line text, after)
  | .takeUntil quote _ =>
    (b.takeUntil quote.toUInt8).map fun (text?, after) => (.ofQuoted? quote text?, after)

/-- The same for calls in a row; there is no answer at all if one of them has none. -/
def calls (b : ByteReader) : List ReaderCall → Option (List ReaderAnswer × ByteReader)
  | [] => some ([], b)
  | call :: calls => do
    let (answer, after) ← b.call call
    let (answers, last) ← after.calls calls
    return (answer :: answers, last)

end ByteReader

/-! ## Accounts -/

/-- What a reader has handed out so far: `said`, in the order in which it stands in the source.  Where a
character can still be put back, `kept` is `said` without it, and otherwise the two are the same. -/
structure Account where
  said : List Char
  /-- The same without the character that can still be put back, if there is one. -/
  kept : List Char

namespace Account

/-- The account of what was passed and cannot be put back. -/
def settled (said : List Char) : Account := ⟨said, said⟩

/-- The account `a` after an answer of a reader of `text`: a character `c` makes `said ++ [c]` and can be
crossed out; a line or a quoted text is written down behind `said`, the quote included, and settled; what is
put back leaves `kept`; and without a closing quote everything was taken, so all of `text` is said. -/
def enter (text : List Char) (a : Account) : ReaderAnswer → Account
  | .char c => ⟨a.said ++ [c], a.said⟩
  | .ended => settled a.said
  | .silent => settled a.kept
  | .line taken => settled (a.said ++ taken)
  | .quoted taken quote => settled (a.said ++ (taken ++ [quote]))
  | .unclosed => settled text

/-- The account of all answers from the start on: a fold of `enter` over them, in order. -/
def ofAnswers (text : List Char) (answers : List ReaderAnswer) : Account :=
  answers.foldl (enter text) (settled [])

end Account

/-! ## One call, and calls in a row -/

namespace Reader

variable {start r : Reader} {a : Account}

/-- From `start` the reader `r` has passed what the account `a` says, and would have passed `a.kept` if the
last character were put back. -/
structure Agrees (start r : Reader) (a : Account) : Prop where
  said : start.Passes r a.said
  kept : start.Passes r.putBack a.kept

namespace Agrees

/-- Where nothing can be put back, there is one text to account for. -/
theorem of_settled {said : List Char} (hbefore : r.before = none) (h : start.Passes r said) :
    start.Agrees r (.settled said) :=
  ⟨h, (putBack_of_before_none hbefore).symm ▸ h⟩

/-- A call hands out what it passes: by cases of the call, each of which is known by the text that it passes
(`Reader.exists_next_of_text_cons`, `exists_restOfLine`, `exists_upTo`). -/
theorem call (h : start.Agrees r a) (call : ReaderCall) :
    start.Agrees (r.call call).2 (a.enter start.text (r.call call).1) := by
  cases call with
  | read =>
    rw [Reader.call]
    cases htext : r.text with
    | nil =>
      obtain ⟨after, hnext, hpasses⟩ := exists_next_of_text_nil htext
      rw [hnext]
      exact of_settled (before_of_next_none hnext) (List.append_nil a.said ▸ h.said.trans hpasses)
    | cons c cs =>
      obtain ⟨after, hnext, hpasses, hback⟩ := exists_next_of_text_cons htext
      rw [hnext]
      -- Put back, the character is passed no more, but carriage returns in front of it are.
      have hkept : start.Passes after.putBack a.said := List.append_nil a.said ▸ h.said.trans hback
      exact ⟨h.said.trans hpasses, hkept⟩
  | unread => exact of_settled (before_putBack r) h.kept
  | takeLine =>
    obtain ⟨after, hline, hpasses⟩ := exists_restOfLine r
    have hbefore : r.restOfLine.2.before = none := rfl
    rw [Reader.call]
    rw [hline] at hbefore ⊢
    exact of_settled hbefore (h.said.trans hpasses)
  | takeUntil quote hquote =>
    have hreturn : quote ≠ '\r' := by
      rintro rfl
      exact absurd hquote (by decide)
    have hnewline : quote ≠ '\n' := by
      rintro rfl
      exact absurd hquote (by decide)
    have hbefore := before_upTo r quote
    rw [Reader.call]
    rcases exists_upTo hreturn hnewline r with ⟨-, after, hupTo, hpasses⟩ | ⟨after, -, hupTo, hpasses⟩
    · rw [hupTo] at hbefore ⊢
      exact of_settled hbefore (h.said.text_eq ▸ h.said.trans hpasses)
    · rw [hupTo] at hbefore ⊢
      exact of_settled hbefore (h.said.trans hpasses)

/-- Calls in a row keep the account, by induction on the calls with the reader and its account generalized. -/
theorem calls (h : start.Agrees r a) (calls : List ReaderCall) :
    start.Agrees (r.calls calls).2 ((r.calls calls).1.foldl (Account.enter start.text) a) := by
  induction calls generalizing r a with
  | nil => exact h
  | cons call calls ih => exact ih (h.call call)

end Agrees

end Reader

/-! ## At a byte offset -/

namespace Scan

/-- The two quotes are characters of one byte. -/
theorem toNat_lt_of_isQuote {quote : Char} (h : isQuote quote) : quote.toNat < 128 := by
  obtain rfl | rfl : quote = Text.singleQuote ∨ quote = Text.doubleQuote := by
    simpa [Scan.isQuote] using h
  · decide
  · decide

end Scan

namespace ByteReader

variable {source : List Char} {b : ByteReader} {r : Reader}

namespace Tracks

/-- A call has an answer at a byte offset, which is the answer of the `Reader`, and the two stay together. -/
theorem exists_call (h : Tracks source b r) (call : ReaderCall) :
    ∃ after, b.call call = some ((r.call call).1, after) ∧ Tracks source after (r.call call).2 := by
  cases call with
  | read =>
    obtain ⟨after, hread, hafter⟩ := h.exists_read
    have hend : after.atEnd = r.next.1.isNone := hafter.atEnd_eq.trans r.exhausted_next
    refine ⟨after, ?_, hafter⟩
    rw [ByteReader.call, hread]
    show some (ReaderAnswer.ofChar? (if after.atEnd then none else some (r.next.1.getD '\x00')), after) = _
    rw [hend, Reader.call]
    cases r.next.1 <;> rfl
  | unread => exact ⟨b.unread, rfl, h.unread⟩
  | takeLine =>
    obtain ⟨after, hline, hafter⟩ := h.exists_takeLine
    exact ⟨after, by rw [ByteReader.call, hline, Option.map_some, Reader.call], hafter⟩
  | takeUntil quote hquote =>
    obtain ⟨after, huntil, hafter⟩ := h.exists_takeUntil (Scan.toNat_lt_of_isQuote hquote)
    exact ⟨after, by rw [ByteReader.call, huntil, Option.map_some, Reader.call], hafter⟩

/-- Both readers give the same answers to calls in a row. -/
theorem exists_calls (h : Tracks source b r) (calls : List ReaderCall) :
    ∃ last, b.calls calls = some ((r.calls calls).1, last) ∧ Tracks source last (r.calls calls).2 := by
  induction calls generalizing b r with
  | nil => exact ⟨b, rfl, h⟩
  | cons call calls ih =>
    obtain ⟨after, hcall, hafter⟩ := h.exists_call call
    obtain ⟨last, hcalls, hlast⟩ := ih hafter
    refine ⟨last, ?_, hlast⟩
    rw [ByteReader.calls, hcall]
    show (after.calls calls).bind _ = _
    rw [hcalls]
    rfl

/-- Nothing can be put back here if nothing can be put back there. -/
theorem unread_eq (h : Tracks source b r) (hbefore : r.before = none) : b.unread = b := by
  have hrel := hbefore ▸ h.checkpoint_rel
  have hnone : b.checkpoint = none := by
    cases hcheckpoint : b.checkpoint with
    | none => rfl
    | some back =>
      rw [hcheckpoint] at hrel
      cases hrel
  rw [ByteReader.unread, hnone]

end Tracks

/-- The reader `b` of `source` stands where its account `a` says, and answers whatever is called next.  Every
field is about the next call: where the offset is (`between`), what a read and an unread behind it do
(`read_again`, `unread_ended`, `unread_unread`), and how far a line and a quoted text go (`line_extent`,
`quoted_extent`).  In `between` the source is `mark ++ front ++ rest`: the offset is the size of `mark ++
front`, the place is the start advanced over `front` without its carriage returns, and that is also what the
account says. -/
structure KeepsPlace (source : String) (a : Account) (b : ByteReader) : Prop where
  /-- The offset is between two characters.  The text in front of it has been handed out, and the next read is
  at the end if only carriage returns are behind it. -/
  between : ∃ mark front rest : String,
    source = mark ++ (front ++ rest) ∧ dropMark source.toList = (front ++ rest).toList ∧
    b.offset = mark.utf8ByteSize + front.utf8ByteSize ∧
    b.position = Position.start.advanceAll (withoutReturns front.toList) ∧
    a.said = withoutReturns front.toList ∧
    ∃ c after, b.read = some (c, after) ∧ (after.atEnd = true ↔ ∀ d ∈ rest.toList, d = '\r')
  /-- A character that was put back is read again, and the reader is the same as after the first time. -/
  read_again : ∀ c after, b.read = some (c, after) → after.atEnd = false → after.unread.read = some (c, after)
  /-- An unread behind a read that found the end changes nothing. -/
  unread_ended : ∀ c after, b.read = some (c, after) → after.atEnd = true → after.unread = after
  unread_unread : b.unread.unread = b.unread
  unread_line : ∃ text after, b.takeLine = some (text, after) ∧ after.unread = after
  /-- A line goes up to the next newline, which is left, or to the end where there is none. -/
  line_extent : ∀ text after, b.takeLine = some (text, after) → ∃ front line rest : String,
    source = front ++ (line ++ rest) ∧ b.offset = front.utf8ByteSize ∧
    after.offset = b.offset + line.utf8ByteSize ∧ text = withoutReturns line.toList ∧
    '\n' ∉ line.toList ∧ ∀ c ∈ rest.toList.head?, c = '\n'
  /-- Without a closing quote everything is passed. -/
  unread_quoted : ∀ quote, Scan.isQuote quote → ∃ text? after,
    b.takeUntil quote.toUInt8 = some (text?, after) ∧ after.unread = after ∧
      (text? = none → after.offset = source.utf8ByteSize)
  /-- A quoted text goes up to the next quote, whose one byte is passed too; nothing is handed out only where
  no quote follows. -/
  quoted_extent : ∀ quote, Scan.isQuote quote → ∀ text? after, b.takeUntil quote.toUInt8 = some (text?, after) →
    ∃ front rest : String, source = front ++ rest ∧ b.offset = front.utf8ByteSize ∧
      ((text? = none ∧ quote ∉ rest.toList) ∨ ∃ text more : String,
        text? = some (withoutReturns text.toList) ∧ quote ∉ text.toList ∧
        rest = text ++ (String.singleton quote ++ more) ∧ after.offset = b.offset + text.utf8ByteSize + 1)

/-- A line that is taken ends in front of the next newline, or with the source. -/
theorem Tracks.line_extent (h : Tracks source b r) {text : List Char} {after : ByteReader}
    (hline : b.takeLine = some (text, after)) : ∃ front line rest : List Char,
      source = front ++ (line ++ rest) ∧ b.offset = SourceText.size front ∧
      after.offset = b.offset + SourceText.size line ∧ text = withoutReturns line ∧
      '\n' ∉ line ∧ ∀ c ∈ rest.head?, c = '\n' := by
  have hsplit : r.rest = r.rest.takeWhile (· ≠ '\n') ++ r.rest.dropWhile (· ≠ '\n') :=
    List.takeWhile_append_dropWhile.symm
  obtain ⟨after', hline', hafter⟩ := h.exists_takeLine
  cases hline.symm.trans hline'
  obtain ⟨front, hsource, hoffset⟩ := h.at_rest.exists_front
  refine ⟨front, r.rest.takeWhile (· ≠ '\n'), r.rest.dropWhile (· ≠ '\n'), ?_, hoffset, ?_, rfl, ?_, ?_⟩
  · rw [← hsplit]
    exact hsource
  · have hat := h.at_rest
    rw [hsplit] at hat
    exact hat.eq_add_size hafter.at_rest
  · intro hmem
    simpa using List.mem_takeWhile_imp hmem
  · intro c hc
    have hnot := List.head?_dropWhile_not (· ≠ '\n') r.rest
    rw [hc] at hnot
    simpa using hnot

/-- A quoted text that is taken ends in front of the next quote, and the reader behind that; or there is no
quote in the rest of the source. -/
theorem Tracks.quoted_extent (h : Tracks source b r) {quote : Char} (hquote : Scan.isQuote quote)
    {text? : Option (List Char)} {after : ByteReader}
    (huntil : b.takeUntil quote.toUInt8 = some (text?, after)) : ∃ front rest : List Char,
      source = front ++ rest ∧ b.offset = SourceText.size front ∧
      ((text? = none ∧ quote ∉ rest) ∨ ∃ text more : List Char,
        text? = some (withoutReturns text) ∧ quote ∉ text ∧ rest = text ++ quote :: more ∧
        after.offset = b.offset + SourceText.size text + 1) := by
  have hone := Scan.toNat_lt_of_isQuote hquote
  obtain ⟨after', huntil', hafter⟩ := h.exists_takeUntil hone
  cases huntil.symm.trans huntil'
  obtain ⟨front, hsource, hoffset⟩ := h.at_rest.exists_front
  refine ⟨front, r.rest, hsource, hoffset, ?_⟩
  -- Without the quote everything is taken; with it the offset is behind it.
  rcases r.upTo_cases quote with ⟨hnone, hupTo⟩ | ⟨more, hsplit, hupTo⟩
  · rw [hupTo]
    exact Or.inl ⟨rfl, hnone⟩
  · have hat := h.at_rest
    rw [hsplit, ← List.singleton_append, ← List.append_assoc] at hat
    rw [hupTo] at hafter ⊢
    refine Or.inr ⟨_, more, rfl, fun hmem => ?_, hsplit, ?_⟩
    · simpa using List.mem_takeWhile_imp hmem
    · rw [hat.eq_add_size hafter.at_rest, SourceText.size_append, SourceText.size_cons, SourceText.size_nil,
        SourceText.utf8Size_of_lt hone, Nat.add_zero, Nat.add_assoc]

/-- Where the two readers stand together and the account agrees with the one, the other keeps its place.  What
is said of offsets comes from `h`, what is said of the account from `hagrees`. -/
theorem keepsPlace {source : String} {a : Account} (h : Tracks source.toList b r)
    (hagrees : (Reader.ofText source.toList).Agrees r a) : KeepsPlace source a b where
  between := by
    obtain ⟨mark, front, hsource, hdrop, hoffset⟩ := h.at_rest
    obtain ⟨after, hread, hafter⟩ := h.exists_read
    have hsaid : a.said = withoutReturns front := by
      -- The account and the offset leave the same text to come, so they have the same text behind them.
      have htext : visible source.toList = a.said ++ r.text := hagrees.said.text_eq
      rw [visible, hdrop, SourceText.withoutReturns_append] at htext
      exact (List.append_cancel_right htext).symm
    have hposition : b.position = Position.start.advanceAll a.said :=
      h.position_eq.trans hagrees.said.position_eq
    have hend : after.atEnd = true ↔ ∀ d ∈ r.rest, d = '\r' := by
      rw [hafter.atEnd_eq, Reader.exhausted_next, Option.isNone_iff_eq_none, Reader.next_eq_none_iff]
    refine ⟨String.ofList mark, String.ofList front, String.ofList r.rest, ?_⟩
    simp only [← String.toList_inj, String.toList_append, String.toList_ofList, SourceText.utf8ByteSize_ofList]
    exact ⟨hsource, hdrop, hoffset, hsaid ▸ hposition, hsaid, _, after, hread, hend⟩
  read_again c after hread hend := read_unread hread hend
  unread_ended c after hread hend := by
    obtain ⟨after', hread', hafter⟩ := h.exists_read
    cases hread.symm.trans hread'
    have hnone : r.next.1 = none := by
      rwa [hafter.atEnd_eq, Reader.exhausted_next, Option.isNone_iff_eq_none] at hend
    exact hafter.unread_eq (Reader.before_of_next_none (Prod.ext hnone rfl))
  unread_unread := h.unread.unread_eq (Reader.before_putBack r)
  unread_line := by
    obtain ⟨after, hline, hafter⟩ := h.exists_takeLine
    exact ⟨_, after, hline, hafter.unread_eq rfl⟩
  line_extent text after hline := by
    obtain ⟨front, line, rest, hsource, hoffset, hafter, htext, hfree, hrest⟩ := h.line_extent hline
    refine ⟨String.ofList front, String.ofList line, String.ofList rest, ?_⟩
    simp only [← String.toList_inj, String.toList_append, String.toList_ofList, SourceText.utf8ByteSize_ofList]
    exact ⟨hsource, hoffset, hafter, htext, hfree, hrest⟩
  unread_quoted quote hquote := by
    obtain ⟨after, huntil, hafter⟩ := h.exists_takeUntil (Scan.toNat_lt_of_isQuote hquote)
    refine ⟨_, after, huntil, hafter.unread_eq (Reader.before_upTo r quote), fun hnone => ?_⟩
    have hoffset := (Reader.rest_of_upTo_none hnone ▸ hafter.at_rest).add_size_eq
    rw [SourceText.size_nil, Nat.add_zero] at hoffset
    rw [hoffset, ← SourceText.utf8ByteSize_ofList, String.ofList_toList]
  quoted_extent quote hquote text? after huntil := by
    obtain ⟨front, rest, hsource, hoffset, hcases⟩ := h.quoted_extent hquote huntil
    refine ⟨String.ofList front, String.ofList rest, ?_⟩
    simp only [← String.toList_inj, String.toList_append, String.toList_ofList, String.toList_singleton,
      SourceText.utf8ByteSize_ofList]
    refine ⟨hsource, hoffset, hcases.imp_right ?_⟩
    rintro ⟨text, more, htext, hfree, hrest, hafter⟩
    refine ⟨String.ofList text, String.ofList more, ?_⟩
    simp only [String.toList_ofList, SourceText.utf8ByteSize_ofList]
    exact ⟨htext, hfree, hrest, hafter⟩

/-- After any `calls` on a fresh reader of `source` there are answers, so no offset was ever inside a
character, and the reader `b` that is left keeps its place (`KeepsPlace`) for the account of these answers: it
is between two characters, the text in front of it is what was handed out, and every next call is answered. -/
theorem keepsPlace_of_calls (source : String) (calls : List ReaderCall) :
    ∃ answers b, (ofText source.toList).calls calls = some (answers, b) ∧
      KeepsPlace source (.ofAnswers (visible source.toList) answers) b := by
  obtain ⟨b, hcalls, hb⟩ := (tracks_ofText source.toList).exists_calls calls
  have hstart : (Reader.ofText source.toList).Agrees (Reader.ofText source.toList) (.settled []) :=
    .of_settled rfl ⟨rfl, rfl⟩
  exact ⟨_, b, hcalls, keepsPlace hb (hstart.calls calls)⟩

example : ((ofText "\ufeff'é\r'\x00".toList).calls [.read, .takeUntil Text.singleQuote rfl, .read, .unread]).map
    (fun (answers, b) => (answers, b.offset)) =
    some ([.char Text.singleQuote, .quoted ['é'] Text.singleQuote, .char '\x00', .silent], 8) := by cbv

end ByteReader

end EntitySchema
