import Mathlib.Data.Nat.Digits.Lemmas
import Pristine.Lib.Numeral

/-!
# Numerals written into a buffer

A number is written by repeated division: the digits come out with the least
significant one first, as many as the buffer has room for, and the buffer is then
reversed in place.  With enough room (`divideDigits_spec`) the result is the
canonical numeral of the number (`isNumeral_digitText`).
-/

namespace Pristine.Lib

open Function

/-! ## Canonical numerals -/

/-- `digits` is the numeral of `n` without leading zeros. -/
structure IsNumeral (base n : Nat) (digits : List UInt8) : Prop where
  nonempty : digits ≠ []
  isDigit : ∀ b ∈ digits, isDigit base b = true
  leading : ∀ b rest, digits = b :: rest → digitValue b = 0 → rest = []
  value : numeral base digits = n

theorem numeralFrom_append (base n : Nat) (xs ys : List UInt8) :
    numeralFrom base n (xs ++ ys) = numeralFrom base (numeralFrom base n xs) ys := by
  simp [numeralFrom]

/-- Leading zeros do not count. -/
theorem numeral_zeros (base k : Nat) (digits : List UInt8) :
    numeral base (List.replicate k 0x30 ++ digits) = numeral base digits := by
  unfold numeral
  induction k with
  | zero => rfl
  | succ k ih =>
    have hzero : digitValue 0x30 = 0 := by decide
    rw [List.replicate_succ, List.cons_append, numeralFrom_cons, hzero]
    simpa using ih

theorem mul_pow_le_numeralFrom (base n : Nat) (digits : List UInt8) :
    n * base ^ digits.length ≤ numeralFrom base n digits := by
  induction digits generalizing n with
  | nil => simp
  | cons b digits ih =>
    have hstep := ih (n * base + digitValue b)
    calc n * base ^ (b :: digits).length = n * base * base ^ digits.length := by
          rw [List.length_cons, pow_succ']
          ring
      _ ≤ (n * base + digitValue b) * base ^ digits.length :=
          Nat.mul_le_mul_right _ (Nat.le_add_right _ _)
      _ ≤ numeralFrom base n (b :: digits) := hstep

theorem numeralFrom_lt {base : Nat} (n : Nat) {digits : List UInt8}
    (hdigits : ∀ b ∈ digits, isDigit base b = true) :
    numeralFrom base n digits < (n + 1) * base ^ digits.length := by
  induction digits generalizing n with
  | nil => simp
  | cons b digits ih =>
    have hb : digitValue b < base := of_decide_eq_true (hdigits b List.mem_cons_self)
    have hstep := ih (n * base + digitValue b) fun b' hb' => hdigits b' (List.mem_cons_of_mem b hb')
    calc numeralFrom base n (b :: digits)
        < (n * base + digitValue b + 1) * base ^ digits.length := hstep
      _ ≤ (n * base + base) * base ^ digits.length := Nat.mul_le_mul_right _ (by omega)
      _ = (n + 1) * base ^ (b :: digits).length := by
          rw [List.length_cons, pow_succ']
          ring

/-- The number of digits is a matter of the number alone. -/
theorem IsNumeral.length_le_iff {base n k : Nat} {digits : List UInt8} (h : IsNumeral base n digits)
    (hbase : 0 < base) : digits.length ≤ k ↔ 0 < k ∧ n < base ^ k := by
  have hpos := List.length_pos_of_ne_nil h.nonempty
  constructor
  · intro hle
    have hlt := numeralFrom_lt 0 h.isDigit
    rw [Nat.zero_add, Nat.one_mul] at hlt
    refine ⟨by omega, ?_⟩
    calc n = numeralFrom base 0 digits := h.value.symm
      _ < base ^ digits.length := hlt
      _ ≤ base ^ k := Nat.pow_le_pow_right hbase hle
  · rintro ⟨hk, hlt⟩
    by_contra hgt
    obtain ⟨b, rest, rfl⟩ := List.exists_cons_of_ne_nil h.nonempty
    rw [List.length_cons] at hgt
    -- a second digit follows, so the first one is not zero
    have hleading : digitValue b ≠ 0 := by
      intro hzero
      rw [h.leading b rest rfl hzero] at hgt
      simp at hgt
      omega
    have hlow := mul_pow_le_numeralFrom base (digitValue b) rest
    have hvalue : numeralFrom base (digitValue b) rest = n := by
      rw [← h.value]
      simp [numeral]
    have hpow : base ^ k ≤ base ^ rest.length := Nat.pow_le_pow_right hbase (by omega)
    have hone : base ^ rest.length ≤ digitValue b * base ^ rest.length :=
      Nat.le_mul_of_pos_left _ (Nat.pos_of_ne_zero hleading)
    omega

/-- A number other than zero has a digit other than zero. -/
theorem IsNumeral.exists_nonzero {base n : Nat} {digits : List UInt8} (h : IsNumeral base n digits)
    (hn : n ≠ 0) : ∃ b ∈ digits, digitValue b ≠ 0 := by
  by_contra hnone
  have hzero : ∀ b ∈ digits, digitValue b = 0 := by
    intro b hb
    by_contra hne
    exact hnone ⟨b, hb, hne⟩
  have hvalue : ∀ xs : List UInt8, (∀ b ∈ xs, digitValue b = 0) → numeralFrom base 0 xs = 0 := by
    intro xs hxs
    induction xs with
    | nil => rfl
    | cons b xs ih =>
      rw [numeralFrom_cons, hxs b List.mem_cons_self, Nat.zero_mul]
      exact ih fun b' hb' => hxs b' (List.mem_cons_of_mem b hb')
  exact hn (h.value.symm.trans (hvalue digits hzero))

section DigitText

variable {digit : Nat → UInt8} {base : Nat}

/-- The digits of `n`, the most significant one first; a zero has one digit. -/
def digitText (digit : Nat → UInt8) (base n : Nat) : List UInt8 :=
  if n = 0 then [digit 0] else ((Nat.digits base n).map digit).reverse

theorem mem_digitText (hbase : 1 < base) {n : Nat} {b : UInt8} (hb : b ∈ digitText digit base n) :
    ∃ d < base, b = digit d := by
  unfold digitText at hb
  split at hb
  · exact ⟨0, by omega, List.mem_singleton.mp hb⟩
  · obtain ⟨d, hd, rfl⟩ := List.mem_map.mp (List.mem_reverse.mp hb)
    exact ⟨d, Nat.digits_lt_base hbase hd, rfl⟩

variable (hdigit : ∀ d < base, digitValue (digit d) = d)

include hdigit in
/-- Reading the digits back, from the least significant one on. -/
theorem numeral_reverse_map (ds : List Nat) (hds : ∀ d ∈ ds, d < base) :
    numeral base (ds.map digit).reverse = Nat.ofDigits base ds := by
  induction ds with
  | nil => rfl
  | cons d ds ih =>
    have htail := ih fun d' hd' => hds d' (List.mem_cons_of_mem d hd')
    unfold numeral at htail ⊢
    rw [List.map_cons, List.reverse_cons, numeralFrom_append, htail, numeralFrom_cons,
      numeralFrom_nil, hdigit d (hds d List.mem_cons_self), Nat.ofDigits_cons]
    ring

include hdigit in
theorem isNumeral_digitText (hbase : 1 < base) (n : Nat) :
    IsNumeral base n (digitText digit base n) := by
  have hisDigit : ∀ b ∈ digitText digit base n, isDigit base b = true := by
    intro b hb
    obtain ⟨d, hd, rfl⟩ := mem_digitText hbase hb
    simp [isDigit, hdigit d hd, hd]
  by_cases hn : n = 0
  · have htext : digitText digit base n = [digit 0] := by simp [digitText, hn]
    rw [htext] at hisDigit ⊢
    constructor
    case nonempty => simp
    case isDigit => exact hisDigit
    case leading => simp
    case value => simp [numeral, hdigit 0 (by omega), hn]
  · have htext : digitText digit base n = ((Nat.digits base n).map digit).reverse := by
      simp [digitText, hn]
    have hnil : Nat.digits base n ≠ [] := Nat.digits_ne_nil_iff_ne_zero.mpr hn
    rw [htext] at hisDigit ⊢
    constructor
    case nonempty => simpa using hnil
    case isDigit => exact hisDigit
    case leading =>
      -- the first digit of the text is the last one of the division
      intro b rest heq hzero
      exfalso
      have hlast : ((Nat.digits base n).map digit).getLast (by simpa using hnil) = b := by
        rw [← List.head_reverse (by simpa using hnil)]
        simp [heq]
      rw [List.getLast_map] at hlast
      have hlt := Nat.digits_lt_base hbase (List.getLast_mem hnil)
      rw [← hlast, hdigit _ hlt] at hzero
      exact Nat.getLast_digit_ne_zero base hn hzero
    case value =>
      rw [numeral_reverse_map hdigit _ fun d hd => Nat.digits_lt_base hbase hd]
      exact Nat.ofDigits_digits base n

end DigitText

/-! ## Digits by division -/

/-- Digits of `num` from the least significant one on, with room for `left` more. -/
def divideDigits (digit : Nat → UInt8) (base : Nat) : Nat → Nat → Nat → ByteMem → ByteMem × Nat
  | 0, _, len, buf => (buf, len)
  | left + 1, num, len, buf =>
    if 0 < num then
      divideDigits digit base left (num / base) (len + 1)
        (update buf len (digit (num % base)))
    else (buf, len)

theorem bytesAt_succ (mem : ByteMem) (addr count : Nat) :
    bytesAt mem addr (count + 1) = bytesAt mem addr count ++ [mem (addr + count)] := by
  simp [bytesAt, List.range_succ]

theorem bytesAt_update_end (buf : ByteMem) (len : Nat) (b : UInt8) :
    bytesAt (update buf len b) 0 len = bytesAt buf 0 len := by
  refine List.map_congr_left fun i hi => ?_
  have hlt : i < len := List.mem_range.mp hi
  exact update_of_ne (by omega) _ _

theorem divideDigits_spec (digit : Nat → UInt8) {base : Nat} (hbase : 1 < base) {left num : Nat}
    (hroom : (Nat.digits base num).length ≤ left) (len : Nat) (buf : ByteMem) :
    (divideDigits digit base left num len buf).2 = len + (Nat.digits base num).length ∧
      bytesAt (divideDigits digit base left num len buf).1 0 (len + (Nat.digits base num).length) =
          bytesAt buf 0 len ++ (Nat.digits base num).map digit := by
  induction left generalizing num len buf with
  | zero =>
    have hnil : Nat.digits base num = [] := List.length_eq_zero_iff.mp (Nat.le_zero.mp hroom)
    simp [divideDigits, hnil]
  | succ left ih =>
    rcases Nat.eq_zero_or_pos num with rfl | hpos
    · simp [divideDigits]
    · have hcons := Nat.digits_def' hbase hpos
      rw [hcons, List.length_cons] at hroom
      have hrest := ih (Nat.le_of_succ_le_succ hroom) (len + 1)
        (update buf len (digit (num % base)))
      have hlen : len + ((Nat.digits base (num / base)).length + 1) =
          len + 1 + (Nat.digits base (num / base)).length := by omega
      rw [divideDigits, if_pos hpos, hcons, List.length_cons, hlen]
      refine ⟨hrest.1, ?_⟩
      rw [hrest.2, bytesAt_succ, bytesAt_update_end, Nat.zero_add, update_self]
      simp

/-! ## Reversal in place -/

/-- Exchange the bytes at both ends and go on inside, for at most `left` exchanges. -/
def reverseLoop : Nat → Nat → Nat → ByteMem → ByteMem
  | 0, _, _, buf => buf
  | left + 1, first, last, buf =>
    if first < last then
      reverseLoop left (first + 1) (last - 1)
        (update (update buf last (buf first)) first (buf last))
    else buf

theorem reverseLoop_outside {left first last i : Nat} (hout : i < first ∨ last < i) (buf : ByteMem) :
    reverseLoop left first last buf i = buf i := by
  induction left generalizing first last buf with
  | zero => rfl
  | succ left ih =>
    rw [reverseLoop]
    split
    · rw [ih (by omega), update_of_ne (by omega), update_of_ne (by omega)]
    · rfl

theorem reverseLoop_inside {left first last i : Nat} (hleft : last ≤ first + left)
    (hfirst : first ≤ i) (hlast : i ≤ last) (buf : ByteMem) :
    reverseLoop left first last buf i = buf (first + last - i) := by
  induction left generalizing first last buf with
  | zero =>
    have hi : first + last - i = i := by omega
    rw [hi]
    rfl
  | succ left ih =>
    rw [reverseLoop]
    by_cases hlt : first < last
    · rw [if_pos hlt]
      -- the two ends are final; what lies between them is left to the rest of the loop
      rcases Nat.lt_trichotomy i first with hbelow | rfl | habove
      · omega
      · rw [reverseLoop_outside (by omega), update_self]
        congr 1
        omega
      · rcases Nat.lt_or_eq_of_le hlast with hin | rfl
        · rw [ih (by omega) (by omega) (by omega), update_of_ne (by omega),
            update_of_ne (by omega)]
          congr 1
          omega
        · rw [reverseLoop_outside (by omega), update_of_ne (by omega),
            update_self]
          congr 1
          omega
    · rw [if_neg hlt]
      congr 1
      omega

theorem bytesAt_reverseLoop {len : Nat} (hlen : 0 < len) (buf : ByteMem) :
    bytesAt (reverseLoop len 0 (len - 1) buf) 0 len = (bytesAt buf 0 len).reverse := by
  refine List.ext_getElem (by simp [bytesAt]) fun i hi hi' => ?_
  have hlt : i < len := by rwa [length_bytesAt] at hi
  simp only [bytesAt, List.getElem_map, List.getElem_range, List.getElem_reverse, List.length_map,
    List.length_range, Nat.zero_add]
  rw [reverseLoop_inside (by omega) (by omega) (by omega)]
  congr 1
  omega

end Pristine.Lib
