/-!
# Numbers

The numbers of the language are signed 64-bit words. Arithmetic on them is exact: a result is
computed as a mathematical integer and then has to fit a word (`Number.ofInt?`), so nothing ever
wraps around. Division goes toward zero, and the remainder takes the sign of the dividend.

* `toInt_of_ofInt?`, `ofInt?_toInt`: a word and its value determine each other;
* `ofInt?_eq_none_iff`: only what does not fit is refused.
-/

namespace Tern

/-- A number of the language. -/
abbrev Number := Int64

namespace Number

/-- Whether the integer `i` fits a signed 64-bit word, that is, -2⁶³ ≤ i < 2⁶³. -/
def Fits (i : Int) : Prop := -0x8000000000000000 ≤ i ∧ i < 0x8000000000000000

instance (i : Int) : Decidable (Fits i) :=
  inferInstanceAs (Decidable (_ ∧ _))

/-- The word with the value `i`, if there is one. -/
def ofInt? (i : Int) : Option Number :=
  if Fits i then some (Int64.ofInt i) else none

/-- Every word fits. -/
theorem fits_toInt (n : Number) : Fits n.toInt :=
  ⟨n.le_toInt, n.toInt_lt⟩

/-- A word found for an integer has that value. -/
theorem toInt_of_ofInt? {i : Int} {n : Number} (h : ofInt? i = some n) : n.toInt = i := by
  unfold ofInt? at h
  split at h
  · rename_i fits
    cases h
    exact Int64.toInt_ofInt_of_le fits.1 fits.2
  · cases h

/-- The word with the value of a word is that word. -/
@[simp] theorem ofInt?_toInt (n : Number) : ofInt? n.toInt = some n := by
  simp [ofInt?, fits_toInt]

/-- Only an integer that does not fit has no word. -/
theorem ofInt?_eq_none_iff {i : Int} : ofInt? i = none ↔ ¬Fits i := by
  simp [ofInt?]

/-- Decimal text: a minus sign if negative, then the digits without leading zeros. -/
def text (n : Number) : String := toString n.toInt

/-- Sum, if it fits. -/
def add? (a b : Number) : Option Number := ofInt? (a.toInt + b.toInt)

/-- Difference, if it fits. -/
def sub? (a b : Number) : Option Number := ofInt? (a.toInt - b.toInt)

/-- Product, if it fits. -/
def mul? (a b : Number) : Option Number := ofInt? (a.toInt * b.toInt)

/-- Quotient toward zero, if it fits. The divisor is not zero. -/
def div? (a b : Number) : Option Number := ofInt? (a.toInt.tdiv b.toInt)

/-- Remainder of the division toward zero. It exists where the quotient fits; the divisor is not
zero. -/
def rem? (a b : Number) : Option Number :=
  (div? a b).bind fun _ => ofInt? (a.toInt.tmod b.toInt)

/-- Opposite, if it fits. -/
def neg? (a : Number) : Option Number := ofInt? (-a.toInt)

end Number

end Tern
