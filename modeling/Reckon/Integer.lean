/-!
  The values of the language: the integers from -2147483648 to 2147483647. They are kept as exact
  integers together with a test of their range, so that arithmetic is ordinary arithmetic and a
  result outside the range is seen and never wrapped. A literal may have any number of leading
  zeros; only its value counts.
-/

namespace Reckon

namespace Integer

/-- The least value. -/
def least : Int := -2147483648

/-- The greatest value. -/
def greatest : Int := 2147483647

/-- A value is an integer between the least and the greatest. -/
def Representable (n : Int) : Prop := least ≤ n ∧ n ≤ greatest

instance (n : Int) : Decidable (Representable n) := by unfold Representable; infer_instance

/-- An exact result as a value, unless it lies outside the range. -/
def ofInt? (n : Int) : Option Int := if Representable n then some n else none

/-- The number that a row of decimal digits writes. -/
def ofDigits (digits : List Char) : Nat := Nat.ofDigitChars 10 digits 0

/-- The value of a literal, unless it is greater than every value. -/
def ofLiteral? (literal : String) : Option Int :=
  if ofDigits literal.toList ≤ greatest then some (ofDigits literal.toList) else none

theorem ofInt?_eq_some_iff {m n : Int} : ofInt? m = some n ↔ m = n ∧ Representable n := by
  unfold ofInt?
  split
  · next h => simp only [Option.some.injEq]; exact ⟨fun e => ⟨e, e ▸ h⟩, And.left⟩
  · next h =>
    simp only [reduceCtorEq, false_iff]
    rintro ⟨rfl, hn⟩
    exact h hn

theorem ofLiteral?_eq_some_iff {literal : String} {n : Int} :
    ofLiteral? literal = some n ↔ n = ofDigits literal.toList ∧ n ≤ greatest := by
  unfold ofLiteral?
  split
  · simp only [Option.some.injEq]; omega
  · simp only [reduceCtorEq, false_iff]; omega

theorem ofLiteral?_eq_none_iff {literal : String} :
    ofLiteral? literal = none ↔ greatest < ofDigits literal.toList := by
  unfold ofLiteral?
  split
  · simp only [reduceCtorEq, false_iff]; omega
  · simp only [true_iff]; omega

/-- Reading what a number is written as gives the number. -/
theorem ofDigits_repr (n : Nat) : ofDigits n.repr.toList = n := by
  rw [Nat.repr_eq_ofList_toDigits, String.toList_ofList, ofDigits, Nat.ofDigitChars_ten_toDigits]

end Integer

end Reckon
