import EntitySchema.Metadata
import EntitySchema.Proofs.Canonical.Settle
import EntitySchema.Proofs.Lexer.Steps
import Mathlib.Data.List.Induction
import Mathlib.Data.Nat.Digits.Defs
/-!
  Integers are read exactly.

  A `Numeral` is what the grammar calls a number: decimal digits, as many zeros in front as one likes, behind
  a minus sign or not.  Its value is that of its digits in their places,

      n.magnitude = Nat.ofDigits 10 (the values of the digits, last one first)
      n.value = ± n.magnitude

  whatever its length, and it is stated without the readers.  Two of them meet numerals, the lexer in a source
  and a tool in the value of a key, and both come to `Integer.read?`, which knows nothing but the value and
  the range:

      Integer.read? n.chars = if Integer.InRange n.value then some n.value else none

  (`read?_chars`).  So they agree on all numerals, up to the limits and beyond them (`tokenize_text`,
  `integer_of_find?`).  The minus sign counts before the range is looked at: the least integer can be read
  although its digits alone could not.

  A page writes numerals too, and what it writes for an integer `v` is the numeral `ofInt v`, which has `v` as
  its value (`value_ofInt`).  So a written integer is one more numeral to be read, and no second argument is
  needed for it.

  Main statement: `numerals_read_exactly`.
-/

namespace EntitySchema

/-! ## A word alone in its source -/

namespace Lexer

variable {source : String} {c : Char} {cs : List Char}

/-- A source that is one word is read as one token. -/
theorem tokenize_of_scan {x : Lexeme} (hvisible : SourceText.visible source.toList = c :: cs) (hc : c ≠ '\n')
    (hx : (Scan.ofChars c cs).result = .ok x) (hall : (Scan.ofChars c cs).rest = []) :
    tokenize source = .ok [⟨x, .start⟩] := by
  refine tokenize_eq_ok_iff.2 ⟨_, .one (TokenStep.scans rfl hvisible hc hx).step_eq, ?_⟩
  exact step_of_rest_nil rfl hall rfl

/-- A source that starts with a fault is not read. -/
theorem tokenize_of_scan_error {fault : LexFault} (hvisible : SourceText.visible source.toList = c :: cs)
    (hc : c ≠ '\n') (hsep : ¬ Scan.isSeparator c) (hx : (Scan.ofChars c cs).result = .error fault) :
    tokenize source = .error ⟨fault, .start⟩ :=
  tokenize_eq_error_iff.2 ⟨[], _, _, .here _, (FaultStep.scans rfl hvisible hc hsep hx).step_eq⟩

end Lexer

/-! ## Numerals -/

/-- One or more decimal digits, behind a minus sign or not. -/
structure Numeral where
  negative : Bool
  digits : List Char
  digits_ne_nil : digits ≠ []
  isDigit_of_mem : ∀ d ∈ digits, d.isDigit

namespace Numeral

/-- The characters of a numeral. -/
def chars (n : Numeral) : List Char := if n.negative then '-' :: n.digits else n.digits

/-- The text of a numeral. -/
def text (n : Numeral) : String := String.ofList n.chars

/-- The number that the digits denote in their places, the last one in the place of ones. -/
def magnitude (n : Numeral) : Nat := Nat.ofDigits 10 (n.digits.reverse.map Integer.digitValue)

/-- The number that a numeral denotes. -/
def value (n : Numeral) : Int := if n.negative then -(n.magnitude : Int) else n.magnitude

/-- Reading digits from the front leads to the number that they denote in their places.  By induction from the
end: the last digit is the one in the place of ones. -/
theorem digitsValue_eq_ofDigits (digits : List Char) :
    Integer.digitsValue digits = Nat.ofDigits 10 (digits.reverse.map Integer.digitValue) := by
  induction digits using List.reverseRecOn with
  | nil => rfl
  | append_singleton digits d ih =>
    rw [Integer.digitsValue_concat, ih, List.reverse_append, List.reverse_singleton, List.singleton_append,
      List.map_cons, Nat.ofDigits_cons]
    omega

variable (n : Numeral)

/-- All digits of a numeral are digits. -/
theorem all_isDigit : n.digits.all Char.isDigit = true := List.all_eq_true.2 n.isDigit_of_mem

/-- The value decides how a numeral is read, and nothing else does. -/
theorem read?_chars :
    Integer.read? n.chars = if Integer.InRange n.value then some n.value else none := by
  unfold chars value magnitude
  rw [← digitsValue_eq_ofDigits]
  split
  · exact Integer.read?_of_minus n.digits_ne_nil n.all_isDigit
  · exact Integer.read?_of_digits n.digits_ne_nil n.all_isDigit

/-- A numeral is written in digits and minus signs. -/
theorem isDigit_or_eq_of_mem {d : Char} (hd : d ∈ n.chars) : d.isDigit ∨ d = '-' := by
  unfold chars at hd
  split at hd
  · rcases List.mem_cons.1 hd with rfl | hd
    · exact Or.inr rfl
    · exact Or.inl (n.isDigit_of_mem d hd)
  · exact Or.inl (n.isDigit_of_mem d hd)

/-- A numeral is a digit or a minus sign with digits behind it, and no minus sign alone. -/
theorem exists_chars_eq_cons : ∃ c cs, n.chars = c :: cs ∧ (c.isDigit ∨ c = '-') ∧
    (∀ d ∈ cs, d.isDigit) ∧ ¬ (c = '-' ∧ cs = []) := by
  obtain ⟨d, ds, hdigits⟩ := List.exists_cons_of_ne_nil n.digits_ne_nil
  have hall := n.isDigit_of_mem
  cases hsign : n.negative with
  | true =>
    refine ⟨'-', n.digits, by simp [chars, hsign], Or.inr rfl, hall, fun h => n.digits_ne_nil h.2⟩
  | false =>
    rw [hdigits] at hall
    have hd : d.isDigit := hall d List.mem_cons_self
    refine ⟨d, ds, by simp [chars, hsign, hdigits], Or.inl hd,
      fun e he => hall e (List.mem_cons_of_mem d he), ?_⟩
    rintro ⟨rfl, -⟩
    exact absurd hd (by decide)

/-- A numeral is all text to a source that holds nothing else. -/
theorem visible_text : SourceText.visible n.text.toList = n.chars := by
  have hreturn : '\r' ∉ n.chars := by
    intro hm
    rcases n.isDigit_or_eq_of_mem hm with h | h <;> exact absurd h (by decide)
  have hmark : ∀ c ∈ n.chars.head?, c ≠ SourceText.byteOrderMark := by
    rintro c hc rfl
    rcases n.isDigit_or_eq_of_mem (List.mem_of_mem_head? hc) with h | h <;> exact absurd h (by decide)
  rw [text, String.toList_ofList, SourceText.visible, SourceText.dropMark_eq_self hmark,
    SourceText.withoutReturns_eq_self hreturn]

/-- A scan takes the whole numeral, and its value decides what becomes of it. -/
theorem exists_scan : ∃ c cs, n.chars = c :: cs ∧ c ≠ '\n' ∧ ¬ Scan.isSeparator c ∧
    Scan.ofChars c cs =
      ⟨if Integer.InRange n.value then .ok (.number n.value) else .error (.outOfRange n.text),
        n.chars, []⟩ := by
  obtain ⟨c, cs, hchars, hc, hcs, hsome⟩ := n.exists_chars_eq_cons
  -- The first character is a digit or a sign, and neither is layout.
  have hfirst : c ≠ '\n' ∧ ¬ Scan.isSeparator c ∧ c ≠ '#' ∧ ¬ c.isAlpha := by
    rcases hc with hc | rfl
    · refine ⟨?_, ?_, ?_, Scan.not_isAlpha_of_isDigit hc⟩
      · rintro rfl
        exact absurd hc (by decide)
      · simp only [Scan.isSeparator, Bool.or_eq_true, decide_eq_true_eq]
        rintro ((rfl | rfl) | rfl) <;> exact absurd hc (by decide)
      · rintro rfl
        exact absurd hc (by decide)
    · decide
  obtain ⟨htake, hdrop⟩ := @Scan.span_append Char.isDigit cs [] hcs (by simp)
  rw [List.append_nil] at htake hdrop
  have hread := n.read?_chars
  rw [hchars] at hread
  refine ⟨c, cs, hchars, hfirst.1, hfirst.2.1, ?_⟩
  rw [Scan.ofChars, if_neg hfirst.2.2.1, if_neg hfirst.2.2.2, if_pos (by simpa using hc), Scan.number, htake,
    hdrop, Scan.numberOf, if_neg hsome, hread, text, hchars]
  by_cases hrange : Integer.InRange n.value
  · simp only [if_pos hrange]
  · simp only [if_neg hrange]

/-! ## The two readers -/

/-- A source that is a numeral is read as its value, if that is in range. -/
theorem tokenize_text : tokenize n.text =
    if Integer.InRange n.value then .ok [⟨.number n.value, .start⟩]
    else .error ⟨.outOfRange n.text, .start⟩ := by
  obtain ⟨c, cs, hchars, hline, hsep, hscan⟩ := n.exists_scan
  have hvisible : SourceText.visible n.text.toList = c :: cs := n.visible_text.trans hchars
  split
  · next hrange =>
    rw [if_pos hrange] at hscan
    exact Lexer.tokenize_of_scan hvisible hline (congrArg Scan.result hscan) (congrArg Scan.rest hscan)
  · next hrange =>
    rw [if_neg hrange] at hscan
    exact Lexer.tokenize_of_scan_error hvisible hline hsep (congrArg Scan.result hscan)

/-- So is the value of a key that is a numeral. -/
theorem integer_of_find? {m : Metadata} {key : String} (h : m.find? key = some n.text) :
    m.integer key =
      if Integer.InRange n.value then .ok n.value else .error (.notAnInteger key n.text) := by
  have hread : Integer.read? n.text.toList = _ := (congrArg _ String.toList_ofList).trans n.read?_chars
  rw [Metadata.integer, h]
  by_cases hrange : Integer.InRange n.value
  · simp only [hread, if_pos hrange]
  · simp only [hread, if_neg hrange]

/-! ## Integers as they are written -/

/-- The numeral that is written for an integer. -/
def ofInt (v : Int) : Numeral where
  negative := v < 0
  digits := Integer.digitsOf v.natAbs
  digits_ne_nil := Integer.digitsOf_ne_nil _
  isDigit_of_mem := List.all_eq_true.1 (Integer.all_isDigit_digitsOf _)

/-- What is written for an integer is its numeral. -/
theorem text_ofInt (v : Int) : (ofInt v).text = Integer.text v := by
  simp [text, chars, ofInt, Integer.text, Integer.write]

/-- And that numeral has the integer as its value. -/
theorem value_ofInt (v : Int) : (ofInt v).value = v := by
  have hmagnitude : (ofInt v).magnitude = v.natAbs :=
    (digitsValue_eq_ofDigits _).symm.trans (Integer.digitsValue_digitsOf _)
  rw [value, hmagnitude]
  by_cases hsign : v < 0
  · rw [if_pos (by simpa [ofInt] using hsign)]
    omega
  · rw [if_neg (by simpa [ofInt] using hsign)]
    omega

end Numeral

/-- A number alone on its page is its text. -/
theorem canonicalText_number (f : Flags) (v : Int) (place : Position) :
    canonicalText f [⟨.number v, place⟩] = Integer.text v := by
  rw [canonicalText, Typesetter.page_foldl_of_bare f _ (by simp [Token.isComment, Lexeme.isComment])]
  rw [← String.toList_inj]
  exact Page.text_putWord Page.empty (Integer.text v)

/-- Integers are read exactly.  A numeral `n`, of any length, with any number of zeros in front and with or
without a minus sign, is read as what it denotes where 64 bits can hold that, as a source and as the value of
a `key` in any meta data `m`; where they cannot, both readers refuse it and show its text.  What is written
for an integer `v` of 64 bits, under any flags and from any place, is read as that integer. -/
theorem numerals_read_exactly :
    (∀ n : Numeral,
      (Integer.InRange n.value → tokenize n.text = .ok [⟨.number n.value, .start⟩] ∧
        ∀ (m : Metadata) (key : String), m.find? key = some n.text → m.integer key = .ok n.value) ∧
      (¬ Integer.InRange n.value → tokenize n.text = .error ⟨.outOfRange n.text, .start⟩ ∧
        ∀ (m : Metadata) (key : String), m.find? key = some n.text →
          m.integer key = .error (.notAnInteger key n.text))) ∧
    ∀ (f : Flags) (v : Int) (place : Position), Integer.InRange v →
      tokenize (canonicalText f [⟨.number v, place⟩]) = .ok [⟨.number v, .start⟩] := by
  refine ⟨fun n => ⟨fun hrange => ⟨?_, fun m key h => ?_⟩, fun hrange => ⟨?_, fun m key h => ?_⟩⟩, ?_⟩
  · rw [n.tokenize_text, if_pos hrange]
  · rw [n.integer_of_find? h, if_pos hrange]
  · rw [n.tokenize_text, if_neg hrange]
  · rw [n.integer_of_find? h, if_neg hrange]
  -- What is printed is a numeral of that value.
  · intro f v place hrange
    have hread := (Numeral.ofInt v).tokenize_text
    rw [Numeral.value_ofInt, Numeral.text_ofInt, if_pos hrange] at hread
    rw [canonicalText_number, hread]

/-- The least integer behind two zeros; the number after the greatest one, which the minus sign could have
saved; and the least integer as it is written. -/
theorem numerals_read_exactly_limits :
    let least : Numeral := ⟨true, "009223372036854775808".toList, by decide, List.all_eq_true.1 (by decide)⟩
    let beyond : Numeral := ⟨false, "9223372036854775808".toList, by decide, List.all_eq_true.1 (by decide)⟩
    (Integer.InRange least.value ∧ least.value = -2 ^ 63 ∧
      tokenize "-009223372036854775808" = .ok [⟨.number (-2 ^ 63), ⟨1, 1⟩⟩] ∧
      (Metadata.ofList [("at", "-009223372036854775808")]).integer "at" = .ok (-2 ^ 63)) ∧
    (¬ Integer.InRange beyond.value ∧ beyond.value = 2 ^ 63 ∧
      tokenize "9223372036854775808" = .error ⟨.outOfRange "9223372036854775808", ⟨1, 1⟩⟩ ∧
      (Metadata.ofList [("at", "9223372036854775808")]).integer "at" =
        .error (.notAnInteger "at" "9223372036854775808")) ∧
    tokenize (canonicalText Flags.normal [⟨.number (-2 ^ 63), ⟨7, 3⟩⟩]) =
      .ok [⟨.number (-2 ^ 63), ⟨1, 1⟩⟩] := by
  intro least beyond
  have hleast : least.value = -2 ^ 63 := by decide +kernel
  have hbeyond : beyond.value = 2 ^ 63 := by decide +kernel
  have hin : Integer.InRange least.value := by rw [hleast]; decide
  have hout : ¬ Integer.InRange beyond.value := by rw [hbeyond]; decide
  obtain ⟨htoken, hkey⟩ := (numerals_read_exactly.1 least).1 hin
  obtain ⟨hfault, hrefused⟩ := (numerals_read_exactly.1 beyond).2 hout
  rw [hleast] at htoken hkey
  exact ⟨⟨hin, hleast, htoken, hkey _ "at" rfl⟩, ⟨hout, hbeyond, hfault, hrefused _ "at" rfl⟩,
    numerals_read_exactly.2 Flags.normal _ ⟨7, 3⟩ (by decide)⟩

end EntitySchema
