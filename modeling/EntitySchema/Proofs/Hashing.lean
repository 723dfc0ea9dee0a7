import EntitySchema.Canonical
/-!
  Changes that a hash cannot miss.

  A step of the hash is `absorb h b = (h ^^^ b) * prime` modulo `2 ^ 32`, and it loses nothing.  The
  multiplier is odd, so it has an inverse, `prime * inverse = 1`, and

      restore h b = (h * inverse) ^^^ b     with     restore (absorb h b) b = h

  takes a step back (`restore_absorb`).  Two consequences:
  * the same byte leads from different words to different words (`absorb_word_inj`), and so does any run of
    bytes, by induction (`foldl_absorb_inj`);
  * different bytes lead from the same word to different words (`absorb_byte_inj`).

  Texts that differ in one byte are the same in front of it, so the word is the same there; the byte makes two
  words of it, and they stay different to the end.  A hash can therefore only collide where at least two bytes
  differ.

  Main statement: `contentHash_ne_of_differOnce`.
-/

namespace EntitySchema

namespace Fnv

/-! ## Steps can be undone -/

/-- The inverse of the multiplier. -/
def inverse : UInt32 := 0x359c449b

/-- The one fact about the multiplier that matters. -/
theorem prime_mul_inverse : prime * inverse = 1 := by decide

/-- The hash before `byte` was absorbed. -/
def restore (h : UInt32) (byte : UInt8) : UInt32 := (h * inverse) ^^^ byte.toUInt32

/-- Multiplying back leaves the word with the byte in it. -/
theorem absorb_mul_inverse (h : UInt32) (byte : UInt8) :
    absorb h byte * inverse = h ^^^ byte.toUInt32 := by
  rw [absorb, UInt32.mul_assoc, prime_mul_inverse, UInt32.mul_one]

/-- A step can be taken back by whoever knows the byte. -/
theorem restore_absorb (h : UInt32) (byte : UInt8) : restore (absorb h byte) byte = h := by
  rw [restore, absorb_mul_inverse, UInt32.xor_assoc, UInt32.xor_self, UInt32.xor_zero]

/-! ## What a hash tells apart -/

variable {h k : UInt32} {b c : UInt8}

/-- The same byte leads from different words to different words. -/
theorem absorb_word_inj : absorb h b = absorb k b ↔ h = k := by
  constructor
  · intro heq
    rw [← restore_absorb h b, heq, restore_absorb]
  · intro heq
    rw [heq]

/-- Different bytes lead from the same word to different words. -/
theorem absorb_byte_inj : absorb h b = absorb h c ↔ b = c := by
  constructor
  · intro heq
    have hxor : h ^^^ b.toUInt32 = h ^^^ c.toUInt32 := by
      rw [← absorb_mul_inverse, heq, absorb_mul_inverse]
    exact UInt8.toUInt32_inj.1 ((UInt32.xor_right_inj h).1 hxor)
  · intro heq
    rw [heq]

/-- A difference is carried through everything behind it. -/
theorem foldl_absorb_inj {bytes : List UInt8} : bytes.foldl absorb h = bytes.foldl absorb k ↔ h = k := by
  induction bytes generalizing h k with
  | nil => exact Iff.rfl
  | cons b bytes ih => rw [List.foldl_cons, List.foldl_cons, ih, absorb_word_inj]

/-- Whatever stands around a byte, the hash shows which one it is: `front` leads to one word, the byte to one
of 256, and `back` keeps them apart. -/
theorem hash_append_cons_inj {front back : List UInt8} :
    hash (front ++ b :: back) = hash (front ++ c :: back) ↔ b = c := by
  simp only [hash, List.foldl_append, List.foldl_cons]
  rw [foldl_absorb_inj, absorb_byte_inj]

/-! ## One byte -/

/-- The runs have the same length and differ at one place and no other. -/
def DifferOnce (xs ys : List UInt8) : Prop :=
  xs.length = ys.length ∧ ∃ i : Nat, ∀ j : Nat, xs[j]? ≠ ys[j]? ↔ j = i

/-- Two runs with the same bytes around one byte differ there alone. -/
theorem differOnce_append_cons (front back : List UInt8) (hne : b ≠ c) :
    DifferOnce (front ++ b :: back) (front ++ c :: back) := by
  refine ⟨by simp, front.length, fun j => ?_⟩
  rcases Nat.lt_trichotomy j front.length with hlt | rfl | hgt
  · simp [List.getElem?_append_left hlt, Nat.ne_of_lt hlt]
  · simpa using hne
  · obtain ⟨k, hk⟩ : ∃ k, j - front.length = k + 1 := ⟨j - front.length - 1, by omega⟩
    simp [List.getElem?_append_right (Nat.le_of_lt hgt), hk, Nat.ne_of_gt hgt]

/-- Around the one place where they differ two runs are the same: `xs = front ++ b :: back` and `ys = front ++
c :: back` with `b ≠ c`. -/
theorem DifferOnce.exists_append {xs ys : List UInt8} (h : DifferOnce xs ys) :
    ∃ front back b c, b ≠ c ∧ xs = front ++ b :: back ∧ ys = front ++ c :: back := by
  obtain ⟨hlength, i, hi⟩ := h
  have hsame : ∀ j, j ≠ i → xs[j]? = ys[j]? := by
    intro j hj
    exact Classical.not_not.1 fun hne => hj ((hi j).1 hne)
  have hdiffer : xs[i]? ≠ ys[i]? := (hi i).2 rfl
  have hx : i < xs.length := by
    -- Past the end of both runs there is nothing to differ.
    rcases Nat.lt_or_ge i xs.length with hlt | hge
    · exact hlt
    · rw [List.getElem?_eq_none hge, List.getElem?_eq_none (hlength ▸ hge)] at hdiffer
      exact absurd rfl hdiffer
  have hy : i < ys.length := hlength ▸ hx
  have hfront : xs.take i = ys.take i := by
    refine List.ext_getElem? fun j => ?_
    rw [List.getElem?_take, List.getElem?_take]
    split
    · next hlt => exact hsame j (Nat.ne_of_lt hlt)
    · rfl
  have hback : xs.drop (i + 1) = ys.drop (i + 1) := by
    refine List.ext_getElem? fun j => ?_
    rw [List.getElem?_drop, List.getElem?_drop]
    exact hsame _ (by omega)
  refine ⟨xs.take i, xs.drop (i + 1), xs[i], ys[i], fun heq => hdiffer ?_, ?_, ?_⟩
  · rw [List.getElem?_eq_getElem hx, List.getElem?_eq_getElem hy, heq]
  · rw [← List.drop_eq_getElem_cons hx, List.take_append_drop]
  · rw [hfront, hback, ← List.drop_eq_getElem_cons hy, List.take_append_drop]

/-- One byte makes all the difference. -/
theorem hash_ne_of_differOnce {xs ys : List UInt8} (h : DifferOnce xs ys) : hash xs ≠ hash ys := by
  obtain ⟨front, back, b, c, hne, rfl, rfl⟩ := h.exists_append
  exact fun heq => hne (hash_append_cons_inj.1 heq)

end Fnv

/-- No change of a single byte keeps a hash: with any bytes `front` and `back` around it, `b ≠ c` gives `hash
(front ++ [b] ++ back) ≠ hash (front ++ [c] ++ back)`.  So token lists `ts` and `us` whose texts without
comments are of the same length in bytes, and differ in just one of them (`DifferOnce`), have different
hashes. -/
theorem contentHash_ne_of_differOnce :
    (∀ (front back : List UInt8) (b c : UInt8), b ≠ c →
      Fnv.hash (front ++ [b] ++ back) ≠ Fnv.hash (front ++ [c] ++ back)) ∧
    ∀ ts us : List Token,
      Fnv.DifferOnce (Fnv.bytesOf (canonicalText Flags.discardComments ts))
        (Fnv.bytesOf (canonicalText Flags.discardComments us)) →
      contentHash ts ≠ contentHash us := by
  constructor
  · intro front back b c hne heq
    rw [List.append_assoc, List.append_assoc, List.singleton_append, List.singleton_append] at heq
    exact hne (Fnv.hash_append_cons_inj.1 heq)
  · intro ts us hdiffer
    exact Fnv.hash_ne_of_differOnce hdiffer

/-- Two strings that differ in the second byte of a character, with comments and other lines around them; and
a byte whose highest bit alone is changed. -/
theorem contentHash_ne_of_differOnce_accent :
    let ts : List Token := [⟨.symbol "name", ⟨1, 1⟩⟩, ⟨.string "é", ⟨1, 6⟩⟩, ⟨.comment "c", ⟨1, 10⟩⟩,
      ⟨.endLine, ⟨1, 12⟩⟩, ⟨.symbol "x", ⟨2, 1⟩⟩]
    let us : List Token := [⟨.symbol "name", ⟨1, 1⟩⟩, ⟨.string "è", ⟨1, 6⟩⟩, ⟨.endLine, ⟨1, 9⟩⟩,
      ⟨.symbol "x", ⟨2, 1⟩⟩]
    Fnv.DifferOnce (Fnv.bytesOf (canonicalText Flags.discardComments ts))
        (Fnv.bytesOf (canonicalText Flags.discardComments us)) ∧
      contentHash ts ≠ contentHash us ∧
      Fnv.hash ([1, 2] ++ [0] ++ [3]) ≠ Fnv.hash ([1, 2] ++ [128] ++ [3]) := by
  intro ts us
  have hdiffer : Fnv.DifferOnce (Fnv.bytesOf (canonicalText Flags.discardComments ts))
      (Fnv.bytesOf (canonicalText Flags.discardComments us)) := by
    have hts : Fnv.bytesOf (canonicalText Flags.discardComments ts) =
        [110, 97, 109, 101, 32, 39, 195, 169, 39, 10, 120] := by decide +kernel
    have hus : Fnv.bytesOf (canonicalText Flags.discardComments us) =
        [110, 97, 109, 101, 32, 39, 195, 168, 39, 10, 120] := by decide +kernel
    rw [hts, hus]
    exact Fnv.differOnce_append_cons [110, 97, 109, 101, 32, 39, 195] [39, 10, 120] (by decide)
  exact ⟨hdiffer, contentHash_ne_of_differOnce.2 ts us hdiffer,
    contentHash_ne_of_differOnce.1 [1, 2] [3] 0 128 (by decide)⟩

end EntitySchema
