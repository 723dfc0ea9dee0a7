import EntitySchema.ByteReader
import Mathlib.Data.List.TakeWhile
/-!
  Offsets stay between characters.

  A `Reader` has the rest of its source in front of it, a `ByteReader` an offset into the source.  The two
  stand at the same place, `Tracks source b r`, if what is behind the offset of `b` is just the rest of `r`;
  then the offset is between two characters.  The relation is kept by each of the four operations, and both
  readers hand out the same:

  * `Tracks.exists_read`: one character, over any carriage returns in front of it;
  * `Tracks.unread`: the character that was read last is put back;
  * `Tracks.exists_takeLine`: the text up to the next newline;
  * `Tracks.exists_takeUntil`: the text up to a delimiter of one byte, and the delimiter.

  In each lemma the `ByteReader` side is an existential: an operation of it has no answer if it would have to
  cut the source inside a character, so that it has one is part of what is shown.

  The one argument about bytes is in `idxOf?_encode`.  A character of the first 128 is encoded as one byte
  below 128, and every byte of any other character has its highest bit set (`not_mem_utf8EncodeChar`).  So the
  byte of such a delimiter is found where its character stands and nowhere else, at the offset `size
  (cs.takeWhile (· ≠ d))`.
-/

namespace EntitySchema

namespace SourceText

variable {c d : Char} {cs : List Char}

/-! ## Delimiters of one byte -/

/-- The bytes of a text are those of its characters, one after the other. -/
theorem encode_cons (c : Char) (cs : List Char) : encode (c :: cs) = String.utf8EncodeChar c ++ encode cs :=
  List.flatMap_cons

/-- There are `size cs` bytes in the encoding of `cs`. -/
theorem length_encode (cs : List Char) : (encode cs).length = size cs := by
  induction cs with
  | nil => rfl
  | cons c cs ih => rw [encode_cons, List.length_append, String.length_utf8EncodeChar, ih, size_cons]

/-- The size of a list of characters is what the library counts for the string of them. -/
theorem utf8ByteSize_ofList (cs : List Char) : (String.ofList cs).utf8ByteSize = size cs := by
  rw [← length_encode, ← String.size_toByteArray, String.toByteArray_ofList]
  exact List.size_toByteArray

/-- A character of the first 128 is its own byte. -/
theorem utf8EncodeChar_of_lt (hd : d.toNat < 128) : String.utf8EncodeChar d = [d.toUInt8] := by
  have hle : d.val.toNat ≤ 127 := Nat.le_of_lt_succ hd
  rw [String.utf8EncodeChar]
  simp only [if_pos hle]
  rfl

/-- Such a character moves an offset by one. -/
theorem utf8Size_of_lt (hd : d.toNat < 128) : d.utf8Size = 1 := by
  rw [← String.length_utf8EncodeChar, utf8EncodeChar_of_lt hd]
  rfl

/-- The byte of `d` occurs in the encoding of no other character `c`: either `c` is one of the first 128 too,
and then its one byte is another, or all bytes of `c` are 128 or more. -/
theorem not_mem_utf8EncodeChar (hd : d.toNat < 128) (hne : c ≠ d) :
    d.toUInt8 ∉ String.utf8EncodeChar c := by
  have hbyte : d.toUInt8.toNat = d.toNat := by
    show d.val.toNat % 2 ^ 8 = d.val.toNat
    exact Nat.mod_eq_of_lt (Nat.lt_trans hd (by decide))
  intro hmem
  have hnat : d.toNat ∈ (String.utf8EncodeChar c).map UInt8.toNat := hbyte ▸ List.mem_map_of_mem hmem
  have hcd : c.toNat ≠ d.toNat := fun heq => hne (Char.ext (UInt32.toNat_inj.1 heq))
  have hval : c.val.toNat = c.toNat := rfl
  -- A character of several bytes has none below 128, and one of a single byte is that byte.
  rw [String.utf8EncodeChar] at hnat
  split at hnat
  · simp at hnat
    omega
  split at hnat
  · simp at hnat
    omega
  split at hnat
  · simp at hnat
    omega
  · simp at hnat
    omega

/-- The byte of a delimiter `d` is found behind the bytes of the text in front of the first `d`, and not at
all if there is none. -/
theorem idxOf?_encode (hd : d.toNat < 128) (cs : List Char) :
    (encode cs).idxOf? d.toUInt8 =
      if d ∈ cs then some (size (cs.takeWhile (· ≠ d))) else none := by
  induction cs with
  | nil => rfl
  | cons c cs ih =>
    by_cases hc : c = d
    · subst hc
      rw [encode_cons, utf8EncodeChar_of_lt hd]
      simp [List.idxOf?_cons, size]
    -- No byte of another character is taken for the delimiter.
    · have hnone : (String.utf8EncodeChar c).findIdx? (· == d.toUInt8) = none :=
        List.idxOf?_eq_none_iff.2 (not_mem_utf8EncodeChar hd hc)
      have hfind : (encode cs).findIdx? (· == d.toUInt8) = _ := ih
      rw [encode_cons, List.idxOf?, List.findIdx?_append, hnone, Option.none_or, hfind,
        String.length_utf8EncodeChar]
      by_cases hmem : d ∈ cs
      · rw [if_pos hmem, if_pos (List.mem_cons_of_mem c hmem)]
        simp [hc, size_cons, Nat.add_comm]
      · rw [if_neg hmem, if_neg (by simp [hmem, Ne.symm hc])]
        rfl

/-- The offset is between two characters of the source and not in front of its byte-order mark; `rest` is what
stands behind it.  So `source` is `mark ++ front ++ rest`, where `mark` is the mark, if there is one, and
`offset` is the size of the two parts in front. -/
def At (source : List Char) (offset : Nat) (rest : List Char) : Prop :=
  ∃ mark front, source = mark ++ (front ++ rest) ∧ dropMark source = front ++ rest ∧
    offset = size mark + size front

namespace At

variable {source rest taken : List Char} {offset : Nat}

/-- Such an offset can be cut at, and what is behind the cut is `rest`. -/
theorem exists_cut? (h : At source offset rest) : ∃ front, cut? source offset = some (front, rest) := by
  obtain ⟨mark, front, rfl, -, rfl⟩ := h
  rw [← List.append_assoc, ← size_append]
  exact ⟨mark ++ front, cut?_append (mark ++ front) rest⟩

/-- The bytes of what is passed lead to another such offset. -/
theorem add_size (h : At source offset (taken ++ rest)) : At source (offset + size taken) rest := by
  obtain ⟨mark, front, hsource, hdrop, rfl⟩ := h
  rw [← List.append_assoc front] at hsource hdrop
  exact ⟨mark, front ++ taken, hsource, hdrop, by rw [size_append, Nat.add_assoc]⟩

/-- The same for one character: its bytes lead behind it. -/
theorem add_utf8Size (h : At source offset (c :: rest)) : At source (offset + c.utf8Size) rest := by
  have hnext := @add_size source rest [c] offset h
  rwa [size_cons, size_nil, Nat.add_zero] at hnext

/-- What is in front of the offset and what is behind it are all bytes of the source. -/
theorem add_size_eq (h : At source offset rest) : offset + size rest = size source := by
  obtain ⟨mark, front, rfl, -, rfl⟩ := h
  rw [size_append, size_append, Nat.add_assoc]

/-- An offset further on is behind what lies between the two. -/
theorem eq_add_size {offset' : Nat} (h : At source offset (taken ++ rest)) (h' : At source offset' rest) :
    offset' = offset + size taken := by
  have hall := h.add_size_eq
  have hall' := h'.add_size_eq
  rw [size_append] at hall
  omega

/-- The offset splits the source into a front of just its length and the rest. -/
theorem exists_front (h : At source offset rest) : ∃ front, source = front ++ rest ∧ offset = size front := by
  obtain ⟨mark, front, rfl, -, rfl⟩ := h
  exact ⟨mark ++ front, (List.append_assoc _ _ _).symm, (size_append mark front).symm⟩

end At

end SourceText

/-! ## The same steps -/

/-- Without a delimiter `upTo` takes all there is; else it goes up to the first one and behind it. -/
theorem Reader.upTo_cases (r : Reader) (d : Char) :
    (d ∉ r.rest ∧ r.upTo d = (none, r.past r.rest [])) ∨
      ∃ more, r.rest = r.rest.takeWhile (· ≠ d) ++ d :: more ∧
        r.upTo d = (some (SourceText.withoutReturns (r.rest.takeWhile (· ≠ d))),
          { r.past (r.rest.takeWhile (· ≠ d)) more with
            position := (r.past (r.rest.takeWhile (· ≠ d)) more).position.nextColumn }) := by
  have hsplit : r.rest = r.rest.takeWhile (· ≠ d) ++ r.rest.dropWhile (· ≠ d) :=
    List.takeWhile_append_dropWhile.symm
  rw [Reader.upTo]
  cases hdrop : r.rest.dropWhile (· ≠ d) with
  | nil =>
    refine Or.inl ⟨fun hmem => ?_, rfl⟩
    simpa using List.dropWhile_eq_nil_iff.1 hdrop d hmem
  | cons c more =>
    obtain rfl : c = d := by
      have hnot := List.head?_dropWhile_not (· ≠ d) r.rest
      rw [hdrop] at hnot
      simpa using hnot
    rw [hdrop] at hsplit
    exact Or.inr ⟨more, hsplit, rfl⟩

namespace ByteReader

open SourceText (At cut? size encode withoutReturns idxOf?_encode)

/-- The `ByteReader` `b` and the `Reader` `r` stand at the same place of `source` and can go back to the same
place.  The last field speaks of the end: both remember whether the last read found a character. -/
structure Tracks (source : List Char) (b : ByteReader) (r : Reader) : Prop where
  source_eq : b.source = source
  at_rest : At source b.offset r.rest
  position_eq : b.position = r.position
  checkpoint_rel : Option.Rel (fun back before => At source back.1 before.1 ∧ back.2 = before.2)
    b.checkpoint r.before
  atEnd_eq : b.atEnd = r.exhausted

variable {source text rest : List Char} {b : ByteReader} {r : Reader}

/-- At the start the offset is behind the mark, if there is one, and so is the rest. -/
theorem tracks_ofText (source : List Char) : Tracks source (ofText source) (Reader.ofText source) := by
  refine ⟨rfl, ?_, rfl, .none, rfl⟩
  cases source with
  | nil => exact ⟨[], [], rfl, rfl, rfl⟩
  | cons c cs =>
    by_cases hc : c = SourceText.byteOrderMark
    · exact ⟨[c], [], by simp [Reader.ofText, SourceText.dropMark, hc],
        by simp [Reader.ofText], by simp [ofText, hc, size]⟩
    · exact ⟨[], [], by simp [Reader.ofText, SourceText.dropMark, hc],
        by simp [Reader.ofText], by simp [ofText, hc, size]⟩

namespace Tracks

/-- Carriage returns are passed over one by one here and in one go there, so the induction is on the rest of
the source: a carriage return in front leaves a shorter rest, anything else is handed out by both.  At the end
the `ByteReader` hands out the character zero. -/
theorem exists_read (h : Tracks source b r) :
    ∃ after, b.read = some (r.next.1.getD '\x00', after) ∧ Tracks source after r.next.2 := by
  induction hrest : r.rest generalizing b r with
  | nil =>
    have hat := hrest ▸ h.at_rest
    obtain ⟨front, hcut⟩ := (h.source_eq ▸ hat).exists_cut?
    rw [Reader.next, hrest, Reader.dropReturns, List.dropWhile_nil, read_of_cut?_nil hcut]
    exact ⟨_, rfl, h.source_eq, hat, h.position_eq, .none, rfl⟩
  | cons c cs ih =>
    have hat := hrest ▸ h.at_rest
    obtain ⟨front, hcut⟩ := (h.source_eq ▸ hat).exists_cut?
    -- A carriage return is skipped, and its place is counted as passed.
    by_cases hc : c = '\r'
    · subst hc
      have hnext : r.next = { r with rest := cs }.next := by
        rw [Reader.next, Reader.next, hrest]
        rfl
      rw [read_of_cut?_return hcut, hnext]
      exact ih ⟨h.source_eq, hat.add_utf8Size, h.position_eq, h.checkpoint_rel, h.atEnd_eq⟩ rfl
    · have hdrop : Reader.dropReturns (c :: cs) = c :: cs := by simp [Reader.dropReturns, hc]
      rw [read_of_cut?_cons hcut hc, Reader.next, hrest, hdrop]
      refine ⟨_, rfl, h.source_eq, hat.add_utf8Size, ?_, .some ⟨hat, h.position_eq⟩, rfl⟩
      exact congrArg (Position.advance · c) h.position_eq

/-- What is put back here is put back there: the two checkpoints are at the same place. -/
theorem unread (h : Tracks source b r) : Tracks source b.unread r.putBack := by
  obtain ⟨_, offset, position, checkpoint, atEnd⟩ := b
  obtain ⟨rest, place, before, exhausted⟩ := r
  obtain ⟨hsource, hat, hposition, hcheckpoint, hend⟩ := h
  cases hcheckpoint with
  | none => exact ⟨hsource, hat, hposition, .none, hend⟩
  | some hback => exact ⟨hsource, hback.1, hback.2, .none, hend⟩

/-- A text in front of both readers is passed by both. -/
theorem consume (h : Tracks source b r) (hrest : r.rest = text ++ rest) :
    Tracks source (b.consume text) (r.past text rest) where
  source_eq := h.source_eq
  at_rest := (hrest ▸ h.at_rest).add_size
  position_eq := congrArg (Position.advanceAll · (withoutReturns text)) h.position_eq
  checkpoint_rel := .none
  atEnd_eq := h.atEnd_eq

/-- The rest of a line ends in front of the first byte of a newline, or with the last byte.  The byte is
searched for in the encoding of the rest, and `idxOf?_encode` turns its index into the size of the line. -/
theorem exists_takeLine (h : Tracks source b r) :
    ∃ after, b.takeLine = some (r.restOfLine.1, after) ∧ Tracks source after r.restOfLine.2 := by
  obtain ⟨front, hcut⟩ := (h.source_eq ▸ h.at_rest).exists_cut?
  have hsplit : r.rest = r.rest.takeWhile (· ≠ '\n') ++ r.rest.dropWhile (· ≠ '\n') :=
    List.takeWhile_append_dropWhile.symm
  -- The first byte of a newline is found where its character stands, or at the end.
  have hlength : ((encode r.rest).idxOf? 0x0a).getD (encode r.rest).length =
      size (r.rest.takeWhile (· ≠ '\n')) := by
    rw [show (0x0a : UInt8) = '\n'.toUInt8 from rfl, idxOf?_encode (by decide)]
    split
    · rfl
    · next hnone =>
      have hall : r.rest.takeWhile (· ≠ '\n') = r.rest :=
        List.takeWhile_eq_self_iff.2 fun c hc => by simpa using fun heq : c = '\n' => hnone (heq ▸ hc)
      rw [hall, Option.getD_none, SourceText.length_encode]
  -- To cut there is to cut between characters.
  have hline : cut? r.rest (size (r.rest.takeWhile (· ≠ '\n'))) =
      some (r.rest.takeWhile (· ≠ '\n'), r.rest.dropWhile (· ≠ '\n')) :=
    (congrArg (cut? · _) hsplit).trans (SourceText.cut?_append _ _)
  refine ⟨b.consume (r.rest.takeWhile (· ≠ '\n')), ?_, h.consume hsplit⟩
  rw [takeLine, hcut]
  show (cut? r.rest _).bind _ = _
  rw [hlength, hline]
  rfl

/-- A delimiter of one byte is found by both readers, or both take all there is. -/
theorem exists_takeUntil {d : Char} (hd : d.toNat < 128) (h : Tracks source b r) :
    ∃ after, b.takeUntil d.toUInt8 = some ((r.upTo d).1, after) ∧ Tracks source after (r.upTo d).2 := by
  obtain ⟨front, hcut⟩ := (h.source_eq ▸ h.at_rest).exists_cut?
  rw [takeUntil, hcut]
  simp only [Option.bind_eq_bind, Option.bind_some, idxOf?_encode hd]
  rcases r.upTo_cases d with ⟨hnone, hupTo⟩ | ⟨more, hsplit, hupTo⟩
  · rw [if_neg hnone, hupTo]
    exact ⟨_, rfl, h.consume (List.append_nil _).symm⟩
  -- The delimiter is there, so the cut is before it and one byte is passed besides.
  · have hmem : d ∈ r.rest := by
      rw [hsplit]
      exact List.mem_append_right _ List.mem_cons_self
    have hline : cut? r.rest (size (r.rest.takeWhile (· ≠ d))) =
        some (r.rest.takeWhile (· ≠ d), d :: more) :=
      (congrArg (cut? · _) hsplit).trans (SourceText.cut?_append _ _)
    have hpast := h.consume hsplit
    rw [if_pos hmem, hupTo]
    simp only [hline, Option.bind_some]
    refine ⟨_, rfl, hpast.source_eq, ?_, congrArg Position.nextColumn hpast.position_eq, .none,
      hpast.atEnd_eq⟩
    have hat := hpast.at_rest.add_utf8Size
    rwa [SourceText.utf8Size_of_lt hd] at hat

end Tracks

end ByteReader

end EntitySchema
