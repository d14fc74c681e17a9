import Pristine.Lib.DigitBuffer

/-!
# Formatting in the kernel's printf

`vprintf_str`, `vprintf_signed` and `vprintf_unsigned` pad what they print to an
8-bit width.  The text goes out one character at a time through `putchar_`; here
it is the list of those characters.
-/

namespace Pristine.Kernel

open Function Lib

/-! ## Strings in memory -/

/-- A NUL-terminated string, from the address of its first character on. -/
structure CString where
  mem : ByteMem
  length : Nat
  terminated : mem length = 0
  nonzero : ∀ i < length, mem i ≠ 0
  -- it lies in memory
  fits : length < 2 ^ 64

/-- The characters before the NUL. -/
def CString.text (str : CString) : List UInt8 := bytesAt str.mem 0 str.length

@[simp] theorem CString.length_text (str : CString) : str.text.length = str.length :=
  length_bytesAt _ _ _

/-- `strlen` from position `len` on, for at most `left` further characters. -/
def strlenLoop (str : ByteMem) : Nat → Nat → Nat
  | 0, len => len
  | left + 1, len => if str len ≠ 0 then strlenLoop str left (len + 1) else len

/-- `vprintf_puts` from position `i` on, for at most `left` further characters. -/
def vprintfPuts (str : ByteMem) : Nat → Nat → List UInt8
  | 0, _ => []
  | left + 1, i => if str i ≠ 0 then str i :: vprintfPuts str left (i + 1) else []

/-- `nprintf_puts`. -/
def nprintfPuts (str : ByteMem) (len : Nat) : List UInt8 := bytesAt str 0 len

/-- `for (size_t i = 0; i < count; i++) putchar_(pad)`. -/
def putPadding (count : Nat) (pad : UInt8) : List UInt8 := List.replicate count pad

/-- `a - b` where a `size_t` is compared with it. -/
@[irreducible] def sizeSub (a b : Nat) : Nat := (a + 2 ^ 64 - b) % 2 ^ 64

theorem sizeSub_of_le {a b : Nat} (hle : b ≤ a) (ha : a < 2 ^ 64) : sizeSub a b = a - b := by
  unfold sizeSub
  omega

/-- What `width` and a text of length `len` leave for padding, after `if (width < len) width = len`
in the 8-bit `width`. -/
def paddingTo (width : UInt8) (len : Nat) : Nat :=
  sizeSub (if width.toNat < len then UInt8.ofNat len else width).toNat len

/-- Up to 255 characters the width is then at least the length. -/
theorem paddingTo_of_le (width : UInt8) {len : Nat} (hshort : len ≤ 255) :
    paddingTo width len = width.toNat - len := by
  have hwidth : width.toNat < 256 := UInt8.toNat_lt width
  unfold paddingTo
  split
  · have hmod : (UInt8.ofNat len).toNat = len := by
      rw [UInt8.toNat_ofNat']
      exact Nat.mod_eq_of_lt (by omega)
    rw [hmod, sizeSub_of_le (Nat.le_refl _) (by omega)]
    omega
  · exact sizeSub_of_le (by omega) (by omega)

/-- From 256 characters on it is the length modulo 256, and the difference wraps. -/
theorem paddingTo_of_gt (width : UInt8) {len : Nat} (hlong : 255 < len) (hlen : len < 2 ^ 64) :
    paddingTo width len = 2 ^ 64 - len / 256 * 256 := by
  have hwidth : width.toNat < 256 := UInt8.toNat_lt width
  unfold paddingTo sizeSub
  rw [if_pos (by omega), UInt8.toNat_ofNat']
  omega

/-- `strrev`, of a string in a buffer of `size` bytes. -/
def strrev (size : Nat) (str : ByteMem) : ByteMem :=
  if str 0 = 0 then str
  else
    let len := strlenLoop str size 0
    reverseLoop len 0 (len - 1) str

section Strings

variable {str : ByteMem} {len : Nat}

theorem strlenLoop_eq (hend : str len = 0) {left i : Nat} (hnonzero : ∀ j, i ≤ j → j < len → str j ≠ 0)
    (hi : i ≤ len) (hleft : len ≤ i + left) : strlenLoop str left i = len := by
  induction left generalizing i with
  | zero =>
    have heq : i = len := by omega
    exact heq
  | succ left ih =>
    rw [strlenLoop]
    rcases Nat.lt_or_eq_of_le hi with hlt | rfl
    · rw [if_pos (hnonzero i (Nat.le_refl i) hlt)]
      exact ih (fun j hij hj => hnonzero j (by omega) hj) (by omega) (by omega)
    · rw [if_neg (not_not.mpr hend)]

theorem vprintfPuts_eq (hend : str len = 0) {left i : Nat}
    (hnonzero : ∀ j, i ≤ j → j < len → str j ≠ 0) (hi : i ≤ len) (hleft : len < i + left) :
    vprintfPuts str left i = bytesAt str i (len - i) := by
  induction left generalizing i with
  | zero => omega
  | succ left ih =>
    rw [vprintfPuts]
    rcases Nat.lt_or_eq_of_le hi with hlt | rfl
    · rw [if_pos (hnonzero i (Nat.le_refl i) hlt),
        ih (fun j hij hj => hnonzero j (by omega) hj) (by omega) (by omega)]
      obtain ⟨rest, hrest⟩ : ∃ rest, len = i + rest + 1 := ⟨len - i - 1, by omega⟩
      have hsub : len - (i + 1) = rest := by omega
      have hsub' : len - i = rest + 1 := by omega
      simp [hsub, hsub', bytesAt, List.range_succ_eq_map, Nat.add_assoc, Nat.add_comm 1]
    · rw [if_neg (not_not.mpr hend), Nat.sub_self]
      rfl

/-- Reversing a string in place. -/
theorem bytesAt_strrev {size : Nat} (hend : str len = 0) (hnonzero : ∀ j < len, str j ≠ 0)
    (hlen : len ≤ size) : bytesAt (strrev size str) 0 len = (bytesAt str 0 len).reverse := by
  have hstrlen : strlenLoop str size 0 = len :=
    strlenLoop_eq hend (fun j _ hj => hnonzero j hj) (Nat.zero_le len) (by omega)
  unfold strrev
  rcases Nat.eq_zero_or_pos len with rfl | hpos
  · rfl
  · rw [if_neg (hnonzero 0 hpos)]
    simp only [hstrlen]
    exact bytesAt_reverseLoop hpos str

end Strings

/-! ## Strings -/

/-- `vprintf_str`. -/
def vprintfStr (str : CString) (width : UInt8) (fLeftalign : Bool) : List UInt8 :=
  -- both loops stop at the NUL
  let len := strlenLoop str.mem (str.length + 1) 0
  let text := vprintfPuts str.mem (str.length + 1) 0
  let width := if width.toNat < len then UInt8.ofNat len else width
  let padding := putPadding (sizeSub width.toNat len) 0x20
  if !fLeftalign then padding ++ text else text ++ padding

/-- The whole string, padded with blanks to the width on the side that the alignment says. -/
def PadsString (str : CString) (width : UInt8) (fLeftalign : Bool) (out : List UInt8) : Prop :=
  let padding := List.replicate (width.toNat - str.length) 0x20
  out.length = max width.toNat str.length ∧
    out = if fLeftalign then str.text ++ padding else padding ++ str.text

section Str

variable (str : CString) (width : UInt8) (fLeftalign : Bool)

theorem vprintfStr_eq :
    vprintfStr str width fLeftalign =
      if fLeftalign then str.text ++ List.replicate (paddingTo width str.length) 0x20
      else List.replicate (paddingTo width str.length) 0x20 ++ str.text := by
  have hlen : strlenLoop str.mem (str.length + 1) 0 = str.length :=
    strlenLoop_eq str.terminated (fun j _ hj => str.nonzero j hj) (Nat.zero_le _) (by omega)
  have htext : vprintfPuts str.mem (str.length + 1) 0 = str.text :=
    vprintfPuts_eq str.terminated (fun j _ hj => str.nonzero j hj) (Nat.zero_le _) (by omega)
  unfold vprintfStr paddingTo putPadding
  simp only [hlen, htext]
  cases fLeftalign <;> simp only [Bool.not_false, Bool.not_true, Bool.false_eq_true, if_true, if_false]

theorem length_vprintfStr :
    (vprintfStr str width fLeftalign).length = paddingTo width str.length + str.length := by
  rw [vprintfStr_eq]
  cases fLeftalign <;> simp [Nat.add_comm]

/-- `vprintf_str` pads a string as it should if the string has at most 255 characters, and only
then. -/
theorem vprintfStr_pads_iff :
    PadsString str width fLeftalign (vprintfStr str width fLeftalign) ↔ str.length ≤ 255 := by
  have hwidth : width.toNat < 256 := UInt8.toNat_lt width
  have hout := vprintfStr_eq str width fLeftalign
  unfold PadsString
  rw [length_vprintfStr]
  constructor
  · rintro ⟨hlength, -⟩
    by_contra hlong
    have hpadding := paddingTo_of_gt width (show 255 < str.length by omega) str.fits
    have hfits := str.fits
    omega
  · intro hshort
    have hpadding := paddingTo_of_le width hshort
    rw [hpadding] at hout ⊢
    exact ⟨by omega, hout⟩

end Str

/-- A string of 256 characters. -/
def longString : CString where
  mem := fun a => if a < 256 then 0x61 else 0
  length := 256
  terminated := by decide
  nonzero := fun i hi => by simp [hi]
  fits := by decide

/-- With 256 characters and no width it prints almost 2^64 blanks first. -/
theorem vprintfStr_longString :
    (vprintfStr longString 0 false).length = 2 ^ 64 ∧
      ¬ PadsString longString 0 false (vprintfStr longString 0 false) := by
  have hlen : longString.length = 256 := rfl
  have hlength : (vprintfStr longString 0 false).length = 2 ^ 64 := by
    rw [length_vprintfStr, paddingTo_of_gt 0 (by omega) longString.fits, hlen]
    norm_num
  refine ⟨hlength, fun hpads => ?_⟩
  have hmax : (vprintfStr longString 0 false).length = max 0 256 := hpads.1
  rw [hlength] at hmax
  omega

/-! ## Numbers -/

/-- `PrintBase`. -/
inductive PrintBase where
  | oct
  | dec
  | hex
  deriving DecidableEq, Repr

def PrintBase.value : PrintBase → Nat
  | .oct => 8
  | .dec => 10
  | .hex => 16

/-- `PRINTF_MAX_FORMAT_STACK`. -/
def printfMaxFormatStack : Nat := 32

/-- `radix16`: the digits with small letters, then those with capitals. -/
def radix16 : List UInt8 :=
  [0x30, 0x31, 0x32, 0x33, 0x34, 0x35, 0x36, 0x37, 0x38, 0x39, 0x61, 0x62, 0x63, 0x64, 0x65, 0x66,
   0x30, 0x31, 0x32, 0x33, 0x34, 0x35, 0x36, 0x37, 0x38, 0x39, 0x41, 0x42, 0x43, 0x44, 0x45, 0x46]

/-- `radix10`. -/
def radix10 : List UInt8 := [0x30, 0x31, 0x32, 0x33, 0x34, 0x35, 0x36, 0x37, 0x38, 0x39]

/-- `radix8`. -/
def radix8 : List UInt8 := [0x30, 0x31, 0x32, 0x33, 0x34, 0x35, 0x36, 0x37]

/-- The character of a digit. -/
def radixDigit (uppercase : Bool) : PrintBase → Nat → UInt8
  | .oct, d => radix8.getD d 0
  | .dec, d => radix10.getD d 0
  | .hex, d => radix16.getD (d + uppercase.toNat * 16) 0

/-- The flags of a conversion. -/
structure Flags where
  leftalign : Bool
  space : Bool
  sign : Bool
  zeropad : Bool
  alternate : Bool
  deriving DecidableEq, Repr

/-- `f_zeropad`, after `if (f_leftalign && f_zeropad) f_zeropad = false`. -/
def Flags.fZeropad (f : Flags) : Bool := if f.leftalign && f.zeropad then false else f.zeropad

/-- `pad`. -/
def Flags.pad (f : Flags) : UInt8 := if f.fZeropad then 0x30 else 0x20

/-- Left alignment switches zeros off. -/
theorem Flags.fZeropad_left {f : Flags} (hleft : f.leftalign = true) : f.fZeropad = false := by
  simp [Flags.fZeropad, hleft]

theorem Flags.fZeropad_right {f : Flags} (hright : f.leftalign = false) : f.fZeropad = f.zeropad := by
  simp [Flags.fZeropad, hright]

/-- `buf` and `buflen` for zero. -/
def zeroNumeral (buf : ByteMem) : ByteMem × Nat :=
  (update (update buf 0 0x30) 1 0, 1)

/-- `buf` and `buflen` for another number: the division loop, the NUL and `strrev`. -/
def digitNumeral (uppercase : Bool) (base : PrintBase) (num : Nat) (buf : ByteMem) :
    ByteMem × Nat :=
  let filled := divideDigits (radixDigit uppercase base) base.value (printfMaxFormatStack - 1) num 0 buf
  (strrev printfMaxFormatStack (update filled.1 filled.2 0), filled.2)

/-- `vprintf_unsigned`, with what the stack holds in `buf`. -/
def vprintfUnsigned (buf : ByteMem) (num : UInt64) (width : UInt8) (f : Flags) (uppercase : Bool)
    (base : PrintBase) : List UInt8 :=
  let text := if num = 0 then zeroNumeral buf else digitNumeral uppercase base num.toNat buf
  let width := if width.toNat < text.2 then UInt8.ofNat text.2 else width
  let padding := putPadding (sizeSub width.toNat text.2) f.pad
  if !f.leftalign then padding ++ nprintfPuts text.1 text.2
  else nprintfPuts text.1 text.2 ++ padding

/-- The end of `vprintf_signed`: sign, padding and digits, in the order that the flags ask for. -/
def putSigned (f : Flags) (negative : Bool) (width : UInt8) (text : ByteMem × Nat) : List UInt8 :=
  let len := text.2 + negative.toNat
  let width := if width.toNat < len then UInt8.ofNat len else width
  let padding := putPadding (sizeSub width.toNat len) f.pad
  let sign := [if negative then 0x2D else 0x2B]
  if !f.leftalign then
    (if (negative || f.sign) && f.fZeropad then sign else []) ++ padding ++
      (if (negative || f.sign) && !f.fZeropad then sign else []) ++ nprintfPuts text.1 text.2
  else (if negative || f.sign then sign else []) ++ nprintfPuts text.1 text.2 ++ padding

/-- `num`, after `if (num < 0) num = -num`; the smallest number is its own negative. -/
def magnitude (num : Int64) : Int64 := if num < 0 then -num else num

/-- `vprintf_signed`, with what the stack holds in `buf`. -/
def vprintfSigned (buf : ByteMem) (num : Int64) (width : UInt8) (f : Flags) (uppercase : Bool)
    (base : PrintBase) : List UInt8 :=
  let text :=
    if magnitude num = 0 then zeroNumeral buf
    -- the loop runs while `num` is positive
    else if base = .dec then digitNumeral uppercase .dec (magnitude num).toInt.toNat buf
    else (buf, 0)
  putSigned f (decide (num < 0)) width text

section Numerals

variable (uppercase : Bool) (base : PrintBase)

theorem PrintBase.one_lt_value : 1 < base.value := by
  cases base <;> decide

theorem PrintBase.value_pos : 0 < base.value :=
  Nat.zero_lt_of_lt base.one_lt_value

theorem digitValue_radixDigit : ∀ d < base.value, digitValue (radixDigit uppercase base d) = d := by
  cases uppercase <;> cases base <;> decide

theorem radixDigit_ne_zero : ∀ d < base.value, radixDigit uppercase base d ≠ 0 := by
  cases uppercase <;> cases base <;> decide

/-- A letter is small or a capital, as asked for. -/
def LetterCase (b : UInt8) : Prop := 10 ≤ digitValue b → (uppercase = true ↔ b.toNat ≤ 0x46)

theorem letterCase_radixDigit : ∀ d < base.value, LetterCase uppercase (radixDigit uppercase base d) := by
  unfold LetterCase
  cases uppercase <;> cases base <;> decide

/-- The numeral of a number. -/
def numeralText (num : Nat) : List UInt8 := digitText (radixDigit uppercase base) base.value num

theorem isNumeral_numeralText (num : Nat) :
    IsNumeral base.value num (numeralText uppercase base num) :=
  isNumeral_digitText (digitValue_radixDigit uppercase base) base.one_lt_value num

/-- The longest numeral has 22 digits. -/
theorem length_numeralText_le {num : Nat} (hnum : num < 2 ^ 64) :
    (numeralText uppercase base num).length ≤ 22 := by
  refine ((isNumeral_numeralText uppercase base num).length_le_iff base.value_pos).mpr ⟨by decide, ?_⟩
  have hpow : 2 ^ 64 ≤ base.value ^ 22 := by cases base <;> decide
  exact Nat.lt_of_lt_of_le hnum hpow

/-- `text` is `digits` in the buffer. -/
def Holds (text : ByteMem × Nat) (digits : List UInt8) : Prop :=
  text.2 = digits.length ∧ nprintfPuts text.1 text.2 = digits

theorem holds_zeroNumeral (buf : ByteMem) : Holds (zeroNumeral buf) (numeralText uppercase base 0) := by
  have htext : numeralText uppercase base 0 = [0x30] := by
    cases uppercase <;> cases base <;> rfl
  rw [htext]
  refine ⟨rfl, ?_⟩
  simp [zeroNumeral, nprintfPuts, bytesAt]

/-- The buffer has room for every digit. -/
theorem holds_digitNumeral {num : Nat} (hnum : num < 2 ^ 64) (hpos : num ≠ 0) (buf : ByteMem) :
    Holds (digitNumeral uppercase base num buf) (numeralText uppercase base num) := by
  have htext : numeralText uppercase base num =
      ((Nat.digits base.value num).map (radixDigit uppercase base)).reverse := by
    simp [numeralText, digitText, hpos]
  have hlength := length_numeralText_le uppercase base hnum
  rw [htext, List.length_reverse, List.length_map] at hlength
  have hroom : (Nat.digits base.value num).length ≤ printfMaxFormatStack - 1 :=
    Nat.le_trans hlength (by decide)
  obtain ⟨hlen, hbytes⟩ :=
    divideDigits_spec (radixDigit uppercase base) base.one_lt_value hroom 0 buf
  simp only [Nat.zero_add, bytesAt, List.range_zero, List.map_nil, List.nil_append] at hlen hbytes
  unfold digitNumeral Holds nprintfPuts
  simp only [hlen, htext]
  refine ⟨by simp, ?_⟩
  -- the digits end at the NUL that is written behind them
  have hkeep := bytesAt_update_end
    (divideDigits (radixDigit uppercase base) base.value (printfMaxFormatStack - 1) num 0 buf).1
    (Nat.digits base.value num).length 0
  rw [bytesAt_strrev (update_self _ _ _) ?_ (by omega), hkeep]
  · unfold bytesAt
    simp only [Nat.zero_add]
    rw [hbytes]
  · intro j hj
    rw [update_of_ne (by omega)]
    have hget := congrArg (fun xs => xs[j]?) hbytes
    simp only [List.getElem?_map, List.getElem?_range hj, Option.map_some,
      List.getElem?_eq_getElem hj, Option.some.injEq] at hget
    rw [hget]
    exact radixDigit_ne_zero uppercase base _
      (Nat.digits_lt_base base.one_lt_value (List.getElem_mem hj))

end Numerals

/-! ## Unsigned numbers -/

/-- `out` is the canonical numeral of the number, in the asked base and letter case, padded to the
width on the side that the alignment says. -/
def UnsignedText (num : UInt64) (width : UInt8) (f : Flags) (uppercase : Bool) (base : PrintBase)
    (out : List UInt8) : Prop :=
  ∃ digits, IsNumeral base.value num.toNat digits ∧ (∀ b ∈ digits, LetterCase uppercase b) ∧
    out.length = max width.toNat digits.length ∧
    out =
      if f.leftalign then digits ++ List.replicate (width.toNat - digits.length) 0x20
      else if f.zeropad then List.replicate (width.toNat - digits.length) 0x30 ++ digits
      else List.replicate (width.toNat - digits.length) 0x20 ++ digits

/-- The number that a text denotes without its blanks. -/
def readText (base : PrintBase) (out : List UInt8) : Nat :=
  numeral base.value (out.filter fun b => b != 0x20)

section Unsigned

variable {num : UInt64} {width : UInt8} {f : Flags} {uppercase : Bool} {base : PrintBase}
  {out : List UInt8}

theorem filter_digits {n : Nat} {digits : List UInt8} (h : IsNumeral base.value n digits) :
    digits.filter (fun b => b != 0x20) = digits := by
  refine List.filter_eq_self.mpr fun b hb => ?_
  have hdigit := h.isDigit b hb
  rw [bne_iff_ne]
  rintro rfl
  cases base <;> exact absurd hdigit (by decide)

/-- Padding does not change the number. -/
theorem UnsignedText.readText_eq (h : UnsignedText num width f uppercase base out) :
    readText base out = num.toNat := by
  obtain ⟨digits, hnumeral, -, -, rfl⟩ := h
  have hdigits := filter_digits hnumeral
  have hblanks (k : Nat) : (List.replicate k (0x20 : UInt8)).filter (fun b => b != 0x20) = [] := by
    simp
  have hzeros (k : Nat) : (List.replicate k (0x30 : UInt8)).filter (fun b => b != 0x20) =
      List.replicate k 0x30 := by
    simp
  unfold readText
  split
  · rw [List.filter_append, hdigits, hblanks, List.append_nil, hnumeral.value]
  · split
    · rw [List.filter_append, hdigits, hzeros, numeral_zeros, hnumeral.value]
    · rw [List.filter_append, hdigits, hblanks, List.nil_append, hnumeral.value]

/-- `buf` and `buflen` hold the numeral. -/
theorem holds_unsigned (buf : ByteMem) (num : UInt64) (uppercase : Bool) (base : PrintBase) :
    Holds (if num = 0 then zeroNumeral buf else digitNumeral uppercase base num.toNat buf)
      (numeralText uppercase base num.toNat) := by
  by_cases hzero : num = 0
  · rw [if_pos hzero, hzero]
    exact holds_zeroNumeral uppercase base buf
  · rw [if_neg hzero]
    refine holds_digitNumeral uppercase base num.toNat_lt ?_ buf
    intro hnat
    exact hzero (UInt64.toNat_inj.mp hnat)

theorem vprintfUnsigned_eq (buf : ByteMem) (num : UInt64) (width : UInt8) (f : Flags)
    (uppercase : Bool) (base : PrintBase) :
    vprintfUnsigned buf num width f uppercase base =
      let digits := numeralText uppercase base num.toNat
      let padding := List.replicate (width.toNat - digits.length) f.pad
      if f.leftalign then digits ++ padding else padding ++ digits := by
  have hholds := holds_unsigned buf num uppercase base
  have hlength := length_numeralText_le uppercase base num.toNat_lt
  have hpadding := paddingTo_of_le width (Nat.le_trans hlength (by decide : 22 ≤ 255))
  unfold paddingTo at hpadding
  unfold vprintfUnsigned
  generalize (if num = 0 then zeroNumeral buf else digitNumeral uppercase base num.toNat buf) = text
    at hholds ⊢
  obtain ⟨hlen, hputs⟩ := hholds
  simp only [hputs]
  simp only [hlen, hpadding, putPadding]
  cases f.leftalign <;> simp only [Bool.not_false, Bool.not_true, Bool.false_eq_true, if_true, if_false]

theorem unsignedText_vprintfUnsigned (buf : ByteMem) (num : UInt64) (width : UInt8) (f : Flags)
    (uppercase : Bool) (base : PrintBase) :
    UnsignedText num width f uppercase base (vprintfUnsigned buf num width f uppercase base) := by
  rw [vprintfUnsigned_eq]
  refine ⟨numeralText uppercase base num.toNat, isNumeral_numeralText uppercase base num.toNat,
    ?_, ?_, ?_⟩
  · intro b hb
    obtain ⟨d, hd, rfl⟩ := mem_digitText base.one_lt_value hb
    exact letterCase_radixDigit uppercase base d hd
  · cases f.leftalign <;> simp <;> omega
  · cases hleft : f.leftalign with
    | false => cases hzero : f.zeropad <;> simp [Flags.pad, Flags.fZeropad_right hleft, hzero]
    | true => simp [Flags.pad, Flags.fZeropad_left hleft]

end Unsigned

/-- `vprintf_unsigned` prints the canonical numeral of every number, padded to the width; the number
can be read back, so different numbers have different texts. -/
theorem vprintfUnsigned_faithful (buf : ByteMem) (num : UInt64) (width : UInt8) (f : Flags)
    (uppercase : Bool) (base : PrintBase) :
    UnsignedText num width f uppercase base (vprintfUnsigned buf num width f uppercase base) ∧
      readText base (vprintfUnsigned buf num width f uppercase base) = num.toNat ∧
      ∀ buf' num', vprintfUnsigned buf' num' width f uppercase base =
        vprintfUnsigned buf num width f uppercase base → num' = num := by
  have htext := unsignedText_vprintfUnsigned buf num width f uppercase base
  refine ⟨htext, htext.readText_eq, ?_⟩
  intro buf' num' hsame
  have htext' := unsignedText_vprintfUnsigned buf' num' width f uppercase base
  rw [hsame] at htext'
  exact UInt64.toNat_inj.mp (htext'.readText_eq.symm.trans htext.readText_eq)

/-! ## Signed numbers -/

/-- The sign that a number needs. -/
def signText (num : Int64) (f : Flags) : List UInt8 :=
  if num < 0 then [0x2D] else if f.sign then [0x2B] else []

/-- Sign, digits and `k` characters of padding; zeros come after the sign. -/
def signedLayout (f : Flags) (sign digits : List UInt8) (k : Nat) : List UInt8 :=
  if f.leftalign then sign ++ digits ++ List.replicate k 0x20
  else if f.zeropad then sign ++ List.replicate k 0x30 ++ digits
  else List.replicate k 0x20 ++ sign ++ digits

/-- A sign if there is to be one, the decimal digits of the number, and padding to the width. -/
def SignedText (num : Int64) (width : UInt8) (f : Flags) (out : List UInt8) : Prop :=
  ∃ digits k, IsNumeral 10 num.toInt.natAbs digits ∧
    out.length = max width.toNat ((signText num f).length + digits.length) ∧
    out = signedLayout f (signText num f) digits k

section Signed

variable {f : Flags} {num : Int64}

@[simp] theorem length_signedLayout (f : Flags) (sign digits : List UInt8) (k : Nat) :
    (signedLayout f sign digits k).length = sign.length + digits.length + k := by
  unfold signedLayout
  cases f.leftalign <;> cases f.zeropad <;> simp <;> omega

theorem mem_signedLayout {sign digits : List UInt8} {k : Nat} {b : UInt8} (hb : b ∈ digits) :
    b ∈ signedLayout f sign digits k := by
  unfold signedLayout
  cases f.leftalign <;> cases f.zeropad <;> simp [hb]

/-- The sign that is printed. -/
def printedSign (f : Flags) (negative : Bool) : List UInt8 :=
  if negative || f.sign then [if negative then 0x2D else 0x2B] else []

theorem putSigned_eq (f : Flags) (negative : Bool) (width : UInt8) {text : ByteMem × Nat}
    {digits : List UInt8} (hholds : Holds text digits) :
    putSigned f negative width text =
      signedLayout f (printedSign f negative) digits
        (paddingTo width (digits.length + negative.toNat)) := by
  obtain ⟨hlen, hputs⟩ := hholds
  unfold putSigned paddingTo putPadding signedLayout printedSign Flags.pad
  simp only [hputs]
  simp only [hlen]
  generalize sizeSub _ _ = k
  cases hleft : f.leftalign with
  | true =>
    rw [Flags.fZeropad_left hleft]
    cases negative <;> cases f.sign <;> simp
  | false =>
    rw [Flags.fZeropad_right hleft]
    cases negative <;> cases f.sign <;> cases f.zeropad <;> grind

theorem signText_eq (num : Int64) (f : Flags) : signText num f = printedSign f (decide (num < 0)) := by
  unfold signText printedSign
  by_cases hneg : num < 0
  · rw [if_pos hneg, decide_eq_true hneg]
    rfl
  · rw [if_neg hneg, decide_eq_false hneg]
    rfl

theorem lt_zero_iff_toInt : num < 0 ↔ num.toInt < 0 := by
  rw [Int64.lt_iff_toInt_lt, Int64.toInt_zero]

theorem eq_zero_iff_toInt : num = 0 ↔ num.toInt = 0 := by
  rw [← Int64.toInt_inj, Int64.toInt_zero]

theorem eq_minValue_iff_toInt : num = Int64.minValue ↔ num.toInt = -2 ^ 63 := by
  rw [← Int64.toInt_inj, Int64.toInt_minValue]

/-- The absolute value, if the number has one. -/
theorem toInt_magnitude (hmin : num ≠ Int64.minValue) :
    (magnitude num).toInt = num.toInt.natAbs := by
  have hlow := Int64.le_toInt num
  rw [ne_eq, eq_minValue_iff_toInt] at hmin
  unfold magnitude
  by_cases hneg : num < 0
  · have hlt := lt_zero_iff_toInt.mp hneg
    rw [if_pos hneg, Int64.toInt_neg, Int.bmod_eq_of_le (by omega) (by omega)]
    omega
  · rw [if_neg hneg]
    rw [lt_zero_iff_toInt] at hneg
    omega

/-- The smallest number stays negative. -/
theorem toInt_magnitude_minValue : (magnitude Int64.minValue).toInt = -2 ^ 63 := by
  decide

theorem holds_signed (hmin : num ≠ Int64.minValue) (buf : ByteMem) (uppercase : Bool) :
    Holds (if magnitude num = 0 then zeroNumeral buf
        else digitNumeral uppercase .dec (magnitude num).toInt.toNat buf)
      (numeralText uppercase .dec num.toInt.natAbs) := by
  have hmagnitude := toInt_magnitude hmin
  have hlow := Int64.le_toInt num
  have hhigh := Int64.toInt_lt num
  by_cases hzero : magnitude num = 0
  · rw [if_pos hzero]
    rw [eq_zero_iff_toInt] at hzero
    have habs : num.toInt.natAbs = 0 := by omega
    rw [habs]
    exact holds_zeroNumeral uppercase .dec buf
  · rw [if_neg hzero]
    rw [eq_zero_iff_toInt] at hzero
    have hne : num.toInt.natAbs ≠ 0 := by omega
    have hnat : (magnitude num).toInt.toNat = num.toInt.natAbs := by omega
    rw [hnat]
    exact holds_digitNumeral uppercase .dec (by omega) hne buf

/-- The smallest number has no digit in the buffer. -/
theorem holds_signed_minValue (buf : ByteMem) (uppercase : Bool) :
    Holds (if magnitude Int64.minValue = 0 then zeroNumeral buf
        else digitNumeral uppercase .dec (magnitude Int64.minValue).toInt.toNat buf) [] := by
  have hne : magnitude Int64.minValue ≠ 0 := by
    rw [ne_eq, eq_zero_iff_toInt, toInt_magnitude_minValue]
    decide
  rw [if_neg hne, toInt_magnitude_minValue]
  exact ⟨rfl, rfl⟩

theorem vprintfSigned_eq {digits : List UInt8} {buf : ByteMem} {uppercase : Bool} (width : UInt8)
    (f : Flags)
    (hholds : Holds (if magnitude num = 0 then zeroNumeral buf
      else digitNumeral uppercase .dec (magnitude num).toInt.toNat buf) digits)
    (hlen : digits.length ≤ 22) :
    vprintfSigned buf num width f uppercase .dec =
      signedLayout f (signText num f) digits
        (width.toNat - (digits.length + (decide (num < 0)).toNat)) := by
  have hneg : (decide (num < 0)).toNat ≤ 1 := Bool.toNat_le _
  unfold vprintfSigned
  simp only [if_true]
  rw [putSigned_eq f _ width hholds, signText_eq, paddingTo_of_le width (by omega)]

/-- Without digits only a sign and padding are printed. -/
theorem mem_signedLayout_nil {sign : List UInt8} {k : Nat} {b : UInt8}
    (hb : b ∈ signedLayout f sign [] k) : b ∈ sign ∨ b = 0x20 ∨ b = 0x30 := by
  unfold signedLayout at hb
  split at hb
  · simp at hb
    tauto
  · split at hb
    · simp at hb
      tauto
    · simp at hb
      tauto

theorem mem_signText {b : UInt8} (hb : b ∈ signText num f) : b = 0x2D ∨ b = 0x2B := by
  unfold signText at hb
  split at hb
  · exact Or.inl (List.mem_singleton.mp hb)
  · split at hb
    · exact Or.inr (List.mem_singleton.mp hb)
    · cases hb

/-- The digits of the smallest number are not printed. -/
theorem not_signedText_minValue (buf : ByteMem) (width : UInt8) (f : Flags) (uppercase : Bool) :
    ¬ SignedText Int64.minValue width f
      (vprintfSigned buf Int64.minValue width f uppercase .dec) := by
  rintro ⟨digits, k, hnumeral, -, hout⟩
  have habs : Int64.minValue.toInt.natAbs ≠ 0 := by
    rw [Int64.toInt_minValue]
    decide
  obtain ⟨b, hb, hne⟩ := hnumeral.exists_nonzero habs
  have hdigit := hnumeral.isDigit b hb
  have hmem : b ∈ vprintfSigned buf Int64.minValue width f uppercase .dec := by
    rw [hout]
    exact mem_signedLayout hb
  rw [vprintfSigned_eq width f (holds_signed_minValue buf uppercase) (by decide)] at hmem
  -- none of the characters that are printed is a digit other than zero
  rcases mem_signedLayout_nil hmem with hsign | rfl | rfl
  · rcases mem_signText hsign with rfl | rfl
    · exact absurd hdigit (by decide)
    · exact absurd hdigit (by decide)
  · exact absurd hdigit (by decide)
  · exact hne (by decide)

theorem length_signText (num : Int64) (f : Flags) :
    (signText num f).length = if num < 0 ∨ f.sign = true then 1 else 0 := by
  unfold signText
  by_cases hneg : num < 0
  · rw [if_pos hneg, if_pos (Or.inl hneg)]
    rfl
  · rw [if_neg hneg]
    cases hsign : f.sign with
    | true => rw [if_pos rfl, if_pos (Or.inr rfl)]; rfl
    | false => rw [if_neg Bool.false_ne_true, if_neg (by simpa using hneg)]; rfl

/-- A plus sign is not counted in the width. -/
theorem length_vprintfSigned_iff (hmin : num ≠ Int64.minValue) (buf : ByteMem) (width : UInt8)
    (f : Flags) (uppercase : Bool) :
    (vprintfSigned buf num width f uppercase .dec).length =
        max width.toNat ((signText num f).length +
          (numeralText uppercase .dec num.toInt.natAbs).length) ↔
      ¬ (f.sign = true ∧ 0 ≤ num.toInt ∧
        (numeralText uppercase .dec num.toInt.natAbs).length < width.toNat) := by
  have hlow := Int64.le_toInt num
  have hhigh := Int64.toInt_lt num
  have hlen := length_numeralText_le uppercase .dec (show num.toInt.natAbs < 2 ^ 64 by omega)
  rw [vprintfSigned_eq width f (holds_signed hmin buf uppercase) hlen, length_signedLayout,
    length_signText]
  by_cases hneg : num < 0
  · have hlt := lt_zero_iff_toInt.mp hneg
    rw [if_pos (Or.inl hneg), decide_eq_true hneg, Bool.toNat_true]
    exact ⟨fun _ h => by omega, fun _ => by omega⟩
  · have hge : 0 ≤ num.toInt := by
      rw [lt_zero_iff_toInt] at hneg
      omega
    rw [decide_eq_false hneg, Bool.toNat_false]
    cases hsign : f.sign with
    | true =>
      rw [if_pos (Or.inr rfl)]
      exact ⟨fun heq h => by omega, fun h => by
        have hnot : ¬ (numeralText uppercase .dec num.toInt.natAbs).length < width.toNat :=
          fun hlt => h ⟨rfl, hge, hlt⟩
        omega⟩
    | false =>
      rw [if_neg (by simpa using hneg)]
      exact ⟨fun _ h => Bool.false_ne_true h.1, fun _ => by omega⟩

end Signed

/-- `vprintf_signed` prints a number as it should, except the smallest one, and except with the plus
flag where the width is larger than the number of digits. -/
theorem signedText_iff (buf : ByteMem) (num : Int64) (width : UInt8) (f : Flags) (uppercase : Bool) :
    SignedText num width f (vprintfSigned buf num width f uppercase .dec) ↔
      num ≠ Int64.minValue ∧
        ¬ (f.sign = true ∧ 0 ≤ num.toInt ∧ 2 ≤ width.toNat ∧ num.toInt < 10 ^ (width.toNat - 1)) := by
  by_cases hmin : num = Int64.minValue
  · subst hmin
    exact ⟨fun h => absurd h (not_signedText_minValue buf width f uppercase), fun h => absurd rfl h.1⟩
  · have hnumeral := isNumeral_numeralText uppercase .dec num.toInt.natAbs
    have hlength := length_vprintfSigned_iff hmin buf width f uppercase
    -- fewer digits than the width, in terms of the number
    have hdigits : 0 ≤ num.toInt →
        ((numeralText uppercase .dec num.toInt.natAbs).length < width.toNat ↔
          2 ≤ width.toNat ∧ num.toInt < 10 ^ (width.toNat - 1)) := by
      intro hge
      have hle := hnumeral.length_le_iff (k := width.toNat - 1) (by decide)
      have hpos := List.length_pos_of_ne_nil hnumeral.nonempty
      have hcast : num.toInt.natAbs < 10 ^ (width.toNat - 1) ↔
          num.toInt < 10 ^ (width.toNat - 1) := by
        zify
        rw [abs_of_nonneg hge]
      change _ ≤ _ ↔ 0 < width.toNat - 1 ∧ num.toInt.natAbs < 10 ^ (width.toNat - 1) at hle
      rw [hcast] at hle
      constructor
      · intro hlt
        have hboth := hle.mp (by omega)
        exact ⟨by omega, hboth.2⟩
      · rintro ⟨htwo, hlt⟩
        have hshort := hle.mpr ⟨by omega, hlt⟩
        omega
    have hcondition : ¬ (f.sign = true ∧ 0 ≤ num.toInt ∧
        (numeralText uppercase .dec num.toInt.natAbs).length < width.toNat) ↔
        ¬ (f.sign = true ∧ 0 ≤ num.toInt ∧ 2 ≤ width.toNat ∧
          num.toInt < 10 ^ (width.toNat - 1)) := by
      refine not_congr (and_congr_right fun _ => ?_)
      exact and_congr_right hdigits
    rw [← hcondition, ← hlength]
    constructor
    · rintro ⟨digits, k, hdigits', hlen', -⟩
      -- the length does not depend on the choice of the digits
      have hsame : digits.length = (numeralText uppercase .dec num.toInt.natAbs).length := by
        apply Nat.le_antisymm
        · exact (hdigits'.length_le_iff (by decide)).mpr
            ((hnumeral.length_le_iff (by decide)).mp (Nat.le_refl _))
        · exact (hnumeral.length_le_iff (by decide)).mpr
            ((hdigits'.length_le_iff (by decide)).mp (Nat.le_refl _))
      rw [hsame] at hlen'
      exact ⟨hmin, hlen'⟩
    · rintro ⟨-, hlen'⟩
      have hlow := Int64.le_toInt num
      have hhigh := Int64.toInt_lt num
      have hshort := length_numeralText_le uppercase .dec (show num.toInt.natAbs < 2 ^ 64 by omega)
      exact ⟨_, _, hnumeral, hlen',
        vprintfSigned_eq width f (holds_signed hmin buf uppercase) hshort⟩

/-- The smallest number is printed as a lone minus sign, and `%+5d` prints 42 in six characters. -/
theorem vprintfSigned_unfaithful :
    (vprintfSigned (fun _ => 0) Int64.minValue 0 ⟨false, false, false, false, false⟩ false .dec = [0x2D] ∧
      ¬ SignedText Int64.minValue 0 ⟨false, false, false, false, false⟩ [0x2D]) ∧
    vprintfSigned (fun _ => 0) 42 5 ⟨false, false, true, false, false⟩ false .dec =
      [0x20, 0x20, 0x20, 0x2B, 0x34, 0x32] ∧
    ¬ SignedText 42 5 ⟨false, false, true, false, false⟩ [0x20, 0x20, 0x20, 0x2B, 0x34, 0x32] := by
  have hminus : vprintfSigned (fun _ => 0) Int64.minValue 0 ⟨false, false, false, false, false⟩ false
      .dec = [0x2D] := by
    decide +kernel
  have hplus : vprintfSigned (fun _ => 0) 42 5 ⟨false, false, true, false, false⟩ false .dec =
      [0x20, 0x20, 0x20, 0x2B, 0x34, 0x32] := by
    decide +kernel
  refine ⟨⟨hminus, ?_⟩, hplus, ?_⟩
  · rw [← hminus]
    exact not_signedText_minValue _ _ _ _
  · rintro ⟨digits, k, hnumeral, hlen, -⟩
    have habs : (42 : Int64).toInt.natAbs = 42 := by decide
    have hsign : (signText 42 ⟨false, false, true, false, false⟩).length = 1 := by decide
    have htwo : digits.length ≤ 2 := by
      refine (hnumeral.length_le_iff (by decide)).mpr ?_
      rw [habs]
      decide
    rw [hsign] at hlen
    have hfive : (5 : UInt8).toNat = 5 := by decide
    simp only [List.length_cons, List.length_nil, hfive] at hlen
    omega

end Pristine.Kernel
