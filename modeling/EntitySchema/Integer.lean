/-!
  Signed 64-bit integers as decimal text.

  `read?` takes an optional sign and one or more decimal digits, with any number of leading zeros, and refuses
  a value outside the 64-bit range; `write` prints the digits of a value without a leading zero, after a minus
  sign if it is negative.

  A run of digits is read from the left, `n ↦ 10 * n + d`, and split off from the right, `n / 10` and `n %
  10`.  The two recursions meet in `digitsValue_concat`, which says what one more digit at the end does to a
  value; with it `digitsValue (digitsOf n) = n` follows along the recursion of `digitsOf`.

  Main statements: `read?_of_digits` and `read?_of_minus`.  What digits spell, with or without a minus sign in
  front, is their value if that is in range, and nothing otherwise; no digit is too many as long as the value
  fits.
-/

namespace EntitySchema.Integer

/-- The value lies in the signed 64-bit range, from minus two to the 63rd to one less than two to the
63rd. -/
def InRange (v : Int) : Prop := -9223372036854775808 ≤ v ∧ v ≤ 9223372036854775807

instance (v : Int) : Decidable (InRange v) := by unfold InRange; infer_instance

/-! ## Digits -/

/-- The value of a decimal digit, its distance from the character `0`. -/
def digitValue (c : Char) : Nat := c.toNat - '0'.toNat

/-- The value of a run of digits, most significant first. -/
def digitsValue (digits : List Char) : Nat :=
  digits.foldl (fun n c => 10 * n + digitValue c) 0

/-- The digit of a value below ten. -/
def digitOf (n : Nat) : Char := Char.ofNat ('0'.toNat + n)

/-- The digits of a number, most significant first, without a leading zero.  Each call splits off the last
one, so it ends because `n / 10 < n`. -/
def digitsOf (n : Nat) : List Char :=
  if n < 10 then [digitOf n] else digitsOf (n / 10) ++ [digitOf (n % 10)]
termination_by n
decreasing_by omega

/-! ## Reading and writing -/

/-- The value of one or more digits. -/
def readDigits? (digits : List Char) : Option Nat :=
  if digits ≠ [] ∧ digits.all Char.isDigit then some (digitsValue digits) else none

/-- The signed value of a text before the range is looked at.  A sign alone has no digits behind it and so no
value, and neither has a second sign. -/
def readSigned? : List Char → Option Int
  | '-' :: digits => (readDigits? digits).map fun n : Nat => -(n : Int)
  | '+' :: digits => (readDigits? digits).map fun n : Nat => (n : Int)
  | digits => (readDigits? digits).map fun n : Nat => (n : Int)

/-- The integer that a text spells: an optional sign, then digits, within 64 bits. -/
def read? (text : List Char) : Option Int :=
  (readSigned? text).filter fun v => decide (InRange v)

/-- The decimal text of an integer. -/
def write (v : Int) : List Char :=
  if v < 0 then '-' :: digitsOf v.natAbs else digitsOf v.natAbs

/-- The decimal text of an integer, as a string. -/
def text (v : Int) : String := String.ofList (write v)

/-! ## What is written reads back -/

/-- One more digit at the end makes ten times the value, plus the digit. -/
theorem digitsValue_concat (digits : List Char) (c : Char) :
    digitsValue (digits ++ [c]) = 10 * digitsValue digits + digitValue c := by
  simp [digitsValue, List.foldl_append]

/-- The digit of `n` has the value `n`.  Ten cases, so they are looked at one by one. -/
theorem digitValue_digitOf {n : Nat} (h : n < 10) : digitValue (digitOf n) = n := by
  have : ∀ k : Fin 10, digitValue (digitOf k) = k := by decide
  exact this ⟨n, h⟩

/-- What is printed for a value below ten is a decimal digit. -/
theorem isDigit_digitOf {n : Nat} (h : n < 10) : (digitOf n).isDigit = true := by
  have : ∀ k : Fin 10, (digitOf k).isDigit = true := by decide
  exact this ⟨n, h⟩

/-- Every number has a digit, zero included. -/
theorem digitsOf_ne_nil (n : Nat) : digitsOf n ≠ [] := by
  unfold digitsOf
  split <;> simp

/-- Nothing but digits is printed, by the recursion of `digitsOf`. -/
theorem all_isDigit_digitsOf (n : Nat) : (digitsOf n).all Char.isDigit = true := by
  induction n using digitsOf.induct with
  | case1 n h => unfold digitsOf; simp [h, isDigit_digitOf]
  | case2 n h ih =>
    unfold digitsOf
    rw [if_neg h, List.all_append, ih]
    simp [isDigit_digitOf (Nat.mod_lt n (by omega : 0 < 10))]

/-- The digits of a number have its value: `n` is `10 * (n / 10) + n % 10`, and the digits of `n / 10` have
the value `n / 10` by the recursion. -/
theorem digitsValue_digitsOf (n : Nat) : digitsValue (digitsOf n) = n := by
  induction n using digitsOf.induct with
  | case1 n h =>
    unfold digitsOf
    simp [h, digitsValue, digitValue_digitOf]
  | case2 n h ih =>
    unfold digitsOf
    rw [if_neg h, digitsValue_concat, ih, digitValue_digitOf (Nat.mod_lt n (by omega))]
    omega

/-- Digits are no sign, so a text of digits is read as it stands. -/
theorem readSigned?_of_all_isDigit {digits : List Char} (h : digits.all Char.isDigit = true) :
    readSigned? digits = (readDigits? digits).map fun n : Nat => (n : Int) := by
  match digits with
  | [] => rfl
  | c :: cs =>
    have hc : c.isDigit = true := by simp at h; exact h.1
    unfold readSigned?
    split
    · next heq => cases heq; exact absurd hc (by decide)
    · next heq => cases heq; exact absurd hc (by decide)
    · rfl

/-- Digits spell their value, within 64 bits. -/
theorem read?_of_digits {digits : List Char} (hne : digits ≠ []) (h : digits.all Char.isDigit = true) :
    read? digits = if InRange (digitsValue digits) then some (digitsValue digits : Int) else none := by
  rw [read?, readSigned?_of_all_isDigit h, readDigits?, if_pos ⟨hne, h⟩, Option.map_some, Option.filter]
  simp only [decide_eq_true_eq]

/-- Digits behind a minus sign spell the negative of their value, within 64 bits. -/
theorem read?_of_minus {digits : List Char} (hne : digits ≠ []) (h : digits.all Char.isDigit = true) :
    read? ('-' :: digits) =
      if InRange (-(digitsValue digits : Int)) then some (-(digitsValue digits : Int)) else none := by
  rw [read?, readSigned?, readDigits?, if_pos ⟨hne, h⟩, Option.map_some, Option.filter]
  simp only [decide_eq_true_eq]

/-- An integer is written in digits and minus signs.  So what is written holds no quote, no bracket and no
white space. -/
theorem isDigit_or_eq_of_mem_write {v : Int} {c : Char} (h : c ∈ write v) : c.isDigit = true ∨ c = '-' := by
  have hdigits := List.all_eq_true.1 (all_isDigit_digitsOf v.natAbs)
  unfold write at h
  split at h
  · exact (List.mem_cons.1 h).symm.imp (hdigits c) id
  · exact Or.inl (hdigits c h)

example : read? "+007".toList = some 7 ∧ read? "-0".toList = some 0 := by decide
example : read? "".toList = none ∧ read? "-".toList = none ∧ read? "+-1".toList = none := by decide
example : read? "9223372036854775807".toList = some 9223372036854775807 := by decide
example : read? "9223372036854775808".toList = none := by decide

end EntitySchema.Integer
