import Pristine.Lib.ByteMemory

/-!
# Numerals in text

Characters are bytes.  A numeral is a sequence of digits, most significant first,
in a base up to 16.  A reader that takes a leading zero for base 8 reads a decimal
numeral as a smaller number, except for numbers below eight
(`numeral_octal_eq_iff`).
-/

namespace Pristine.Lib

/-- White space: blank, tab, line feed, vertical tab, form feed, carriage return. -/
def isSpace (b : UInt8) : Bool := b.toNat = 0x20 ∨ (0x09 ≤ b.toNat ∧ b.toNat ≤ 0x0D)

/-- The value of a digit; what is not a digit in any base has a large one. -/
def digitValue (b : UInt8) : Nat :=
  if 0x30 ≤ b.toNat ∧ b.toNat ≤ 0x39 then b.toNat - 0x30
  else if 0x61 ≤ b.toNat ∧ b.toNat ≤ 0x66 then b.toNat - 0x61 + 10
  else if 0x41 ≤ b.toNat ∧ b.toNat ≤ 0x46 then b.toNat - 0x41 + 10
  else 256

def isDigit (base : Nat) (b : UInt8) : Bool := digitValue b < base

/-- The number that `n` becomes when the digits are appended to it. -/
def numeralFrom (base n : Nat) (digits : List UInt8) : Nat :=
  digits.foldl (fun n b => n * base + digitValue b) n

/-- The number that the digits denote. -/
def numeral (base : Nat) (digits : List UInt8) : Nat := numeralFrom base 0 digits

@[simp] theorem numeralFrom_nil (base n : Nat) : numeralFrom base n [] = n :=
  rfl

@[simp] theorem numeralFrom_cons (base n : Nat) (b : UInt8) (digits : List UInt8) :
    numeralFrom base n (b :: digits) = numeralFrom base (n * base + digitValue b) digits :=
  rfl

/-- White space is not a digit. -/
theorem digitValue_of_isSpace {b : UInt8} (hspace : isSpace b = true) : digitValue b = 256 := by
  unfold isSpace at hspace
  rw [decide_eq_true_eq] at hspace
  unfold digitValue
  rw [if_neg (by omega), if_neg (by omega), if_neg (by omega)]

theorem isDigit_of_isSpace {base : Nat} (hbase : base ≤ 16) {b : UInt8} (hspace : isSpace b = true) :
    isDigit base b = false := by
  unfold isDigit
  rw [digitValue_of_isSpace hspace]
  exact decide_eq_false (by omega)

theorem not_isSpace_of_isDigit {base : Nat} (hbase : base ≤ 16) {b : UInt8}
    (hdigit : isDigit base b = true) : isSpace b = false := by
  rw [← Bool.not_eq_true]
  intro hspace
  rw [isDigit_of_isSpace hbase hspace] at hdigit
  cases hdigit

section Decimal

variable {digits : List UInt8}

theorem le_numeralFrom {base : Nat} (hbase : 0 < base) (n : Nat) (digits : List UInt8) :
    n ≤ numeralFrom base n digits := by
  induction digits generalizing n with
  | nil => exact le_refl n
  | cons b digits ih =>
    rw [numeralFrom_cons]
    have hstep := ih (n * base + digitValue b)
    have hmul : n ≤ n * base := Nat.le_mul_of_pos_right n hbase
    omega

/-- No digit is larger than the number. -/
theorem digitValue_le_numeralFrom {base : Nat} (hbase : 0 < base) {b : UInt8} (hb : b ∈ digits)
    (n : Nat) : digitValue b ≤ numeralFrom base n digits := by
  induction digits generalizing n with
  | nil => cases hb
  | cons d digits ih =>
    rw [numeralFrom_cons]
    rcases List.mem_cons.mp hb with rfl | hmem
    · have hle := le_numeralFrom hbase (n * base + digitValue b) digits
      omega
    · exact ih hmem _

/-- What a reader makes of the digits when it takes them for base 8, up to the first digit that is
not one of that base. -/
def octalFrom (n : Nat) (digits : List UInt8) : Nat := numeralFrom 8 n (digits.takeWhile (isDigit 8))

theorem octalFrom_cons (n : Nat) (b : UInt8) (digits : List UInt8) :
    octalFrom n (b :: digits) =
      if digitValue b < 8 then octalFrom (n * 8 + digitValue b) digits else n := by
  unfold octalFrom isDigit
  rw [List.takeWhile_cons]
  by_cases hb : digitValue b < 8 <;> simp [hb]

theorem octalFrom_lt {n m : Nat} (hlt : n < m) (digits : List UInt8) :
    octalFrom n digits < numeralFrom 10 m digits := by
  induction digits generalizing n m with
  | nil => exact hlt
  | cons b digits ih =>
    rw [octalFrom_cons, numeralFrom_cons]
    split
    · exact ih (by omega)
    · have hle := le_numeralFrom (show 0 < 10 by omega) (m * 10 + digitValue b) digits
      omega

theorem octalFrom_zero_le : octalFrom 0 digits ≤ numeral 10 digits := by
  unfold numeral
  induction digits with
  | nil => exact le_refl 0
  | cons b digits ih =>
    simp only [octalFrom_cons, numeralFrom_cons, Nat.zero_mul, Nat.zero_add]
    split
    · by_cases hzero : digitValue b = 0
      · rw [hzero]
        exact ih
      · cases digits with
        | nil => exact le_refl _
        | cons d digits =>
          rw [octalFrom_cons, numeralFrom_cons]
          split
          · exact Nat.le_of_lt (octalFrom_lt (by omega) digits)
          · have hle := le_numeralFrom (show 0 < 10 by omega)
              (digitValue b * 10 + digitValue d) digits
            omega
    · exact Nat.zero_le _

/-- A decimal numeral keeps its value in base 8 if it denotes a number below eight, and only
then. -/
theorem numeral_octal_eq_iff : octalFrom 0 digits = numeral 10 digits ↔ numeral 10 digits < 8 := by
  unfold numeral
  induction digits with
  | nil => simp [octalFrom]
  | cons b digits ih =>
    simp only [octalFrom_cons, numeralFrom_cons, Nat.zero_mul, Nat.zero_add]
    by_cases hzero : digitValue b = 0
    · rw [hzero, if_pos (by omega)]
      exact ih
    · have hge := le_numeralFrom (show 0 < 10 by omega) (digitValue b) digits
      cases digits with
      | nil =>
        rw [numeralFrom_nil]
        split
        · rename_i hb
          exact ⟨fun _ => hb, fun _ => rfl⟩
        · rename_i hb
          exact ⟨fun h => absurd h.symm hzero, fun h => absurd h hb⟩
      | cons d digits =>
        -- a second digit makes the decimal number larger, and at least ten
        rw [numeralFrom_cons] at hge ⊢
        have hten := le_numeralFrom (show 0 < 10 by omega)
          (digitValue b * 10 + digitValue d) digits
        refine ⟨fun heq => ?_, fun hlt => by omega⟩
        rw [octalFrom_cons] at heq
        split at heq
        · split at heq
          · have hlt := octalFrom_lt
              (show digitValue b * 8 + digitValue d < digitValue b * 10 + digitValue d by omega)
              digits
            omega
          · omega
        · omega

end Decimal

end Pristine.Lib
