import EntitySchema.Reader
/-!
  Reading a source at a byte offset.

  A file is bytes, and a reader that keeps no copy of its rest keeps an offset into them.  Such an offset has to
  fall between two characters: a text cannot be cut inside one, and `cut?` says so.  Every operation of a
  `ByteReader` cuts the source at its offset first and has no answer if that is not possible.

  Offsets move by bytes and places by characters.  A delimiter is searched for among the bytes, so it must be a
  character of one byte, which occurs in the encoding of no other character.

  The end of the source is told as the character zero, which a source can also hold; `atEnd` tells the two
  apart.
-/

namespace EntitySchema

/-! ## Texts as bytes -/

namespace SourceText

/-- The bytes of a text in its usual encoding, one to four for each character. -/
def encode (cs : List Char) : List UInt8 := cs.flatMap String.utf8EncodeChar

/-- The number of bytes of a text. -/
def size : List Char → Nat
  | [] => 0
  | c :: cs => c.utf8Size + size cs

/-- A text cut at a byte offset, which cannot fall inside a character or behind the end. -/
def cut? : List Char → Nat → Option (List Char × List Char)
  | cs, 0 => some ([], cs)
  | [], _ + 1 => none
  | c :: cs, offset + 1 =>
    if c.utf8Size ≤ offset + 1 then
      (cut? cs (offset + 1 - c.utf8Size)).map fun (front, rest) => (c :: front, rest)
    else none

theorem size_nil : size [] = 0 := rfl

theorem size_cons (c : Char) (cs : List Char) : size (c :: cs) = c.utf8Size + size cs := rfl

/-- Sizes add up. -/
theorem size_append (front rest : List Char) : size (front ++ rest) = size front + size rest := by
  induction front with
  | nil => exact (Nat.zero_add (size rest)).symm
  | cons c front ih => rw [List.cons_append, size_cons, size_cons, ih, Nat.add_assoc]

/-- In front of a text it can always be cut. -/
theorem cut?_zero (cs : List Char) : cut? cs 0 = some ([], cs) := by cases cs <;> rfl

/-- A text can be cut behind any of its characters. -/
theorem cut?_append (front rest : List Char) : cut? (front ++ rest) (size front) = some (front, rest) := by
  induction front with
  | nil => exact cut?_zero rest
  | cons c front ih =>
    have hc := Char.utf8Size_pos c
    obtain ⟨offset, hoffset⟩ : ∃ offset, size (c :: front) = offset + 1 :=
      ⟨size (c :: front) - 1, by rw [size_cons]; omega⟩
    have hsize : offset + 1 - c.utf8Size = size front := by
      rw [← hoffset, size_cons]
      omega
    have hle : c.utf8Size ≤ offset + 1 := by
      rw [← hoffset, size_cons]
      omega
    rw [List.cons_append, hoffset, cut?, if_pos hle, hsize, ih]
    rfl

/-- It cannot be cut anywhere else: a cut at `offset` gives two parts of the text, and `offset` is the size of
the first. -/
theorem eq_of_cut? {cs front rest : List Char} {offset : Nat} (h : cut? cs offset = some (front, rest)) :
    cs = front ++ rest ∧ offset = size front := by
  fun_induction cut? cs offset generalizing front with
  | case1 cs =>
    cases h
    exact ⟨rfl, rfl⟩
  | case2 => cases h
  | case3 offset c cs hle ih =>
    obtain ⟨⟨front', rest'⟩, hcut, hpair⟩ := Option.map_eq_some_iff.1 h
    cases hpair
    obtain ⟨rfl, hsize⟩ := ih hcut
    rw [size_cons]
    exact ⟨rfl, by omega⟩
  | case4 => cases h

end SourceText

/-! ## The reader -/

/-- A reader at a byte offset. -/
structure ByteReader where
  source : List Char
  /-- The number of bytes in front of the next character. -/
  offset : Nat
  /-- The place of the next character. -/
  position : Position
  /-- The offset and the place before the character that can still be put back. -/
  checkpoint : Option (Nat × Position)
  /-- The last `read` found no character left. -/
  atEnd : Bool

namespace ByteReader

open SourceText (encode size cut? withoutReturns)

/-- A reader at the start of a source, behind a byte-order mark if there is one. -/
def ofText (source : List Char) : ByteReader :=
  let offset := if source.head? = some SourceText.byteOrderMark then SourceText.byteOrderMark.utf8Size else 0
  ⟨source, offset, Position.start, none, false⟩

/-- The next character that is no carriage return, or zero at the end of the source.  Nothing is read if the
offset falls inside a character. -/
def read (b : ByteReader) : Option (Char × ByteReader) :=
  match _h : cut? b.source b.offset with
  | none => none
  | some (_, []) => some ('\x00', { b with checkpoint := none, atEnd := true })
  | some (_, c :: _) =>
    if c = '\r' then read { b with offset := b.offset + 1 }
    else some (c, { b with
      offset := b.offset + c.utf8Size
      position := b.position.advance c
      checkpoint := some (b.offset, b.position)
      atEnd := false })
termination_by size b.source - b.offset
decreasing_by
  obtain ⟨hsource, hoffset⟩ := SourceText.eq_of_cut? _h
  have hc := Char.utf8Size_pos c
  rw [hsource, SourceText.size_append, SourceText.size_cons]
  omega

/-- At the end of the source a `read` hands out zero and says so with `atEnd`. -/
theorem read_of_cut?_nil {b : ByteReader} {front : List Char} (h : cut? b.source b.offset = some (front, [])) :
    b.read = some ('\x00', { b with checkpoint := none, atEnd := true }) := by
  rw [read]
  split
  · next hnone => cases h.symm.trans hnone
  · rfl
  · next hcons => cases h.symm.trans hcons

/-- A carriage return is passed over, and the place does not count it. -/
theorem read_of_cut?_return {b : ByteReader} {front cs : List Char}
    (h : cut? b.source b.offset = some (front, '\r' :: cs)) :
    b.read = { b with offset := b.offset + 1 }.read := by
  rw [read]
  split
  · next hnone => cases h.symm.trans hnone
  · next hnil => cases h.symm.trans hnil
  · next hcons =>
    cases h.symm.trans hcons
    rw [if_pos rfl]

/-- Any other character is handed out, and the place before it is kept. -/
theorem read_of_cut?_cons {b : ByteReader} {front cs : List Char} {c : Char}
    (h : cut? b.source b.offset = some (front, c :: cs)) (hc : c ≠ '\r') :
    b.read = some (c, { b with
      offset := b.offset + c.utf8Size
      position := b.position.advance c
      checkpoint := some (b.offset, b.position)
      atEnd := false }) := by
  rw [read]
  split
  · next hnone => cases h.symm.trans hnone
  · next hnil => cases h.symm.trans hnil
  · next hcons =>
    cases h.symm.trans hcons
    rw [if_neg hc]

/-- The reader before the character that was read last, if that can still be put back. -/
def unread (b : ByteReader) : ByteReader :=
  match b.checkpoint with
  | some (offset, position) => { b with offset, position, checkpoint := none }
  | none => b

/-- A read that finds a character can be made again: after `unread` it hands out the same character and leads
to the same reader, whatever carriage returns were passed over the first time. -/
theorem read_unread {b after : ByteReader} {c : Char} (h : b.read = some (c, after))
    (hend : after.atEnd = false) : after.unread.read = some (c, after) := by
  fun_induction read b with
  | case1 => cases h
  | case2 =>
    cases h
    cases hend
  | case3 b front cs hcut ih => exact ih h
  | case4 b front d cs hcut hd =>
    cases h
    exact read_of_cut?_cons hcut hd

/-- The reader behind `text`, which starts at its offset. -/
def consume (b : ByteReader) (text : List Char) : ByteReader :=
  { b with
    offset := b.offset + size text
    position := b.position.advanceAll (withoutReturns text)
    checkpoint := none }

/-- The text up to the next newline or the end. -/
def takeLine (b : ByteReader) : Option (List Char × ByteReader) := do
  let (_, remaining) ← cut? b.source b.offset
  let bytes := encode remaining
  let (text, _) ← cut? remaining ((bytes.idxOf? 0x0a).getD bytes.length)
  return (withoutReturns text, b.consume text)

/-- The text up to the next byte `delimiter`, which is taken too; without one all is taken and nothing handed
out. -/
def takeUntil (b : ByteReader) (delimiter : UInt8) : Option (Option (List Char) × ByteReader) := do
  let (_, remaining) ← cut? b.source b.offset
  match (encode remaining).idxOf? delimiter with
  | some length =>
    let (text, _) ← cut? remaining length
    let here := b.consume text
    return (some (withoutReturns text),
      { here with offset := here.offset + 1, position := here.position.nextColumn })
  | none => return (none, b.consume remaining)

example : (ofText "é".toList).read.map (·.2.offset) = some 2 := by cbv
example : ({ ofText "é".toList with offset := 1 } : ByteReader).read.isNone = true := by cbv

end ByteReader

end EntitySchema
