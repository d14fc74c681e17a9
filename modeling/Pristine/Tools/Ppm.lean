import Pristine.Lib.Numeral

/-!
# The two image converters

`ppmtoimg.c` and `ppmtobin.py` turn a binary PPM into width, height and pixels.
The C program reads header and pixels in one loop over bytes: a `#` skips to the
end of a line wherever it stands, and the white space after `maxval` is skipped
by `fscanf`, however much there is.  Its numbers are read with `%li`, which takes
a leading zero for base 8.
-/

namespace Pristine.Tools

open Lib

/-- The low four bytes of a number, little-endian. -/
def le32 (value : Int) : List UInt8 := (List.range 4).map (byteOf (value % 2 ^ 32).toNat)

/-! ## `fscanf` -/

/-- The digits at the start of the input, if there are any, and what follows them. -/
def scanDigits (base : Nat) (input : List UInt8) : Option (Nat × List UInt8) :=
  if (input.takeWhile (isDigit base)).isEmpty then none
  else some (numeral base (input.takeWhile (isDigit base)), input.dropWhile (isDigit base))

/-- A number without sign, in the base its first characters say. -/
def scanUnsigned (input : List UInt8) : Option (Nat × List UInt8) :=
  if input.head? = some 0x30 then
    if input[1]? = some 0x78 ∨ input[1]? = some 0x58 then scanDigits 16 (input.drop 2)
    else scanDigits 8 input
  else scanDigits 10 input

/-- A number with an optional sign, brought into the range of a `long`. -/
def scanSigned (input : List UInt8) : Option (Int × List UInt8) :=
  if input.head? = some 0x2D then
    (scanUnsigned (input.drop 1)).map fun (value, rest) => (max (-2 ^ 63) (-(value : Int)), rest)
  else
    (scanUnsigned (if input.head? = some 0x2B then input.drop 1 else input)).map
      fun (value, rest) => (min (2 ^ 63 - 1) (value : Int), rest)

/-- `fscanf(ppmfile, "%li ", &target)`, and the same with a line feed for the blank: the target
afterwards and the unread input.  There is no result if `fscanf` returns 0; at the end of the file
it returns `EOF`, and the target keeps its value. -/
def fscanfLi (target : Int) (input : List UInt8) : Option (Int × List UInt8) :=
  let input := input.dropWhile isSpace
  if input.isEmpty then some (target, [])
  else (scanSigned input).map fun (value, rest) => (value, rest.dropWhile isSpace)

/-! ## `ppmtoimg.c` -/

/-- The variables of `main`, with the unread input and what was written. -/
structure PpmState where
  unread : List UInt8
  w : Int
  h : Int
  c : Int
  out : List UInt8

/-- The inner loop: `data0` afterwards, and the unread input. -/
def skipLine : UInt8 → List UInt8 → UInt8 × List UInt8
  | data0, [] => (data0, [])
  | _, b :: unread => if b = 0x0A then (b, unread) else skipLine b unread

/-- The next byte, behind a comment. -/
def nextByte : List UInt8 → Option (UInt8 × List UInt8)
  | [] => none
  | data0 :: unread => some (if data0 = 0x23 then skipLine data0 unread else (data0, unread))

/-- The body of the loop for one byte; `fseek` puts it back where a number is read.  There is no
result if `main` returns 1. -/
def handleByte (data0 : UInt8) (s : PpmState) : Option PpmState :=
  if s.w = 0 then
    (fscanfLi s.w (data0 :: s.unread)).map fun (w, unread) =>
      { s with unread := unread, w := w, out := s.out ++ le32 w }
  else if s.h = 0 then
    (fscanfLi s.h (data0 :: s.unread)).map fun (h, unread) =>
      { s with unread := unread, h := h, out := s.out ++ le32 h }
  else if s.c = 0 then
    (fscanfLi s.c (data0 :: s.unread)).map fun (c, unread) => { s with unread := unread, c := c }
  else
    some { s with out := s.out ++ [data0] }

/-- The loop: exit status and output. -/
def ppmLoop : Nat → PpmState → Option (Nat × List UInt8)
  | 0, _ => none
  | fuel + 1, s =>
    match nextByte s.unread with
    | none => some (0, s.out)
    | some (data0, unread) =>
      match handleByte data0 { s with unread := unread } with
      | none => some (1, s.out)
      | some s => ppmLoop fuel s

/-- The loop from a state on.  Every round reads a byte. -/
def runLoop (s : PpmState) : Option (Nat × List UInt8) := ppmLoop (s.unread.length + 1) s

/-- The state in which the loop begins. -/
def startState (input : List UInt8) : PpmState := { unread := input, w := 0, h := 0, c := 0, out := [] }

/-- `main`: exit status and what is written to the output file. -/
def ppmtoimg (input : List UInt8) : Option (Nat × List UInt8) :=
  if input.length < 3 then some (1, [])
  else if input[0]? ≠ some 0x50 ∧ input[1]? ≠ some 0x36 ∧ input[1]? ≠ some 0x0A then some (1, [])
  else runLoop (startState (input.drop 3))

/-! ## `ppmtobin.py` -/

/-- `f.readline()`: the line with its line feed, and the rest of the file. -/
def readline (input : List UInt8) : List UInt8 × List UInt8 :=
  (input.takeWhile (· ≠ 0x0A) ++ (input.dropWhile (· ≠ 0x0A)).take 1,
    (input.dropWhile (· ≠ 0x0A)).drop 1)

/-- `strip()`. -/
def strip (line : List UInt8) : List UInt8 :=
  ((line.dropWhile isSpace).reverse.dropWhile isSpace).reverse

/-- `split()`. -/
def split (line : List UInt8) : List (List UInt8) :=
  (line.splitOnP isSpace).filter fun word => !word.isEmpty

/-- Decimal digits, with single underscores between them. -/
def pyDigits (word : List UInt8) : Option Nat :=
  if (word.splitOnP (· = 0x5F)).all fun part => !part.isEmpty && part.all (isDigit 10) then
    some (numeral 10 (word.filter (· ≠ 0x5F)))
  else none

/-- `int(word)`. -/
def pyInt (word : List UInt8) : Option Int :=
  if word.head? = some 0x2D then (pyDigits (word.drop 1)).map fun value => -(value : Int)
  else (pyDigits (if word.head? = some 0x2B then word.drop 1 else word)).map Int.ofNat

/-- The first line that is not a comment, and the rest of the file. -/
def skipComments : Nat → List UInt8 → Option (List UInt8 × List UInt8)
  | 0, _ => none
  | fuel + 1, input =>
    let (line, rest) := readline input
    if line.head? = some 0x23 then skipComments fuel rest else some (line, rest)

/-- `struct.pack('<II', w, h)`. -/
def packII (w h : Int) : Option (List UInt8) :=
  if 0 ≤ w ∧ w < 2 ^ 32 ∧ 0 ≤ h ∧ h < 2 ^ 32 then some (le32 w ++ le32 h) else none

/-- `w, h = map(int, line.split())`. -/
def twoInts (line : List UInt8) : Option (Int × Int) :=
  match split line with
  | [w, h] => do some (← pyInt w, ← pyInt h)
  | _ => none

/-- `ppm_to_pristine`: what is written; there is no result if it raises an exception. -/
def ppmToPristine (input : List UInt8) : Option (List UInt8) := do
  let (signature, input) := readline input
  guard (strip signature = [0x50, 0x36])
  let (line, input) ← skipComments (input.length + 1) input
  let (w, h) ← twoInts line
  let (maxval, pixels) := readline input
  guard (strip maxval = [0x32, 0x35, 0x35])
  let header ← packII w h
  some (header ++ pixels)

/-! ## Well-formed files -/

/-- A decimal number that fits in 32 bits, not zero. -/
structure Dimension where
  digits : List UInt8
  isDigits : ∀ b ∈ digits, isDigit 10 b = true
  pos : 0 < numeral 10 digits
  fits : numeral 10 digits < 2 ^ 32

def Dimension.value (n : Dimension) : Nat := numeral 10 n.digits

/-- A blank inside a line. -/
def isBlank (b : UInt8) : Prop := isSpace b = true ∧ b ≠ 0x0A

/-- A binary PPM with maximal value 255. -/
structure Ppm where
  comments : List (List UInt8)
  isComment : ∀ text ∈ comments, 0x0A ∉ text
  lead : List UInt8
  isLead : ∀ b ∈ lead, isBlank b
  width : Dimension
  gap : List UInt8
  isGap : ∀ b ∈ gap, isBlank b
  gap_ne_nil : gap ≠ []
  height : Dimension
  trail : List UInt8
  isTrail : ∀ b ∈ trail, isBlank b
  pixels : List UInt8

namespace Ppm

variable (p : Ppm)

/-- The line with width and height, without its line feed. -/
def sizeLine : List UInt8 := p.lead ++ p.width.digits ++ p.gap ++ p.height.digits ++ p.trail

/-- What follows the comments. -/
def body : List UInt8 := p.sizeLine ++ 0x0A :: 0x32 :: 0x35 :: 0x35 :: 0x0A :: p.pixels

/-- The file. -/
def bytes : List UInt8 :=
  0x50 :: 0x36 :: 0x0A :: (p.comments.flatMap (fun text => 0x23 :: text ++ [0x0A]) ++ p.body)

/-- What a converter should write. -/
def image : List UInt8 := le32 p.width.value ++ le32 p.height.value ++ p.pixels

end Ppm

/-! ## What the Python program writes -/

section Python

theorem readline_line {line : List UInt8} (hline : 0x0A ∉ line) (rest : List UInt8) :
    readline (line ++ 0x0A :: rest) = (line ++ [0x0A], rest) := by
  have hall : ∀ b ∈ line, decide (b ≠ 0x0A) = true := by
    intro b hb
    refine decide_eq_true ?_
    rintro rfl
    exact hline hb
  unfold readline
  rw [List.takeWhile_append_of_pos hall, List.dropWhile_append_of_pos hall]
  simp

theorem skipComments_bytes {comments : List (List UInt8)} (hcomments : ∀ text ∈ comments, 0x0A ∉ text)
    {line : List UInt8} (hline : 0x0A ∉ line) (hhead : line.head? ≠ some 0x23) (rest : List UInt8)
    {fuel : Nat} (hfuel : comments.length < fuel) :
    skipComments fuel (comments.flatMap (fun text => 0x23 :: text ++ [0x0A]) ++ (line ++ 0x0A :: rest)) =
      some (line ++ [0x0A], rest) := by
  induction comments generalizing fuel with
  | nil =>
    obtain ⟨fuel, rfl⟩ : ∃ n, fuel = n + 1 := ⟨fuel - 1, by simp at hfuel; omega⟩
    rw [List.flatMap_nil, List.nil_append, skipComments, readline_line hline]
    have hhead' : (line ++ [0x0A]).head? ≠ some 0x23 := by
      cases line with
      | nil => simp
      | cons b line => exact hhead
    exact if_neg hhead'
  | cons text comments ih =>
    obtain ⟨fuel, rfl⟩ : ∃ n, fuel = n + 1 := ⟨fuel - 1, by simp at hfuel; omega⟩
    have htext : 0x0A ∉ 0x23 :: text := by
      simpa using hcomments text (by simp)
    have hinput : (text :: comments).flatMap (fun text => 0x23 :: text ++ [0x0A]) ++
          (line ++ 0x0A :: rest) =
        (0x23 :: text) ++ 0x0A :: (comments.flatMap (fun text => 0x23 :: text ++ [0x0A]) ++
          (line ++ 0x0A :: rest)) := by
      simp
    rw [hinput, skipComments, readline_line htext]
    refine (if_pos (by simp)).trans (ih (fun t ht => hcomments t (by simp [ht])) ?_)
    simp at hfuel
    omega

theorem split_spaces {blanks : List UInt8} (hblanks : ∀ b ∈ blanks, isSpace b = true)
    (line : List UInt8) : split (blanks ++ line) = split line := by
  induction blanks with
  | nil => rfl
  | cons b blanks ih =>
    have hb : isSpace b = true := hblanks b (by simp)
    rw [← ih fun b hb => hblanks b (by simp [hb])]
    unfold split
    rw [List.cons_append, List.splitOnP_cons_eq_if_modifyHead, if_pos hb]
    simp

theorem split_word {word : List UInt8} (hword : ∀ b ∈ word, isSpace b = false) (hne : word ≠ [])
    {sep : UInt8} (hsep : isSpace sep = true) (line : List UInt8) :
    split (word ++ sep :: line) = word :: split line := by
  unfold split
  rw [List.splitOnP_append_cons word line hsep, List.splitOnP_eq_singleton hword]
  simp [hne]

theorem Dimension.digits_ne_nil (n : Dimension) : n.digits ≠ [] := by
  intro hnil
  have hpos := n.pos
  rw [hnil] at hpos
  simp [numeral] at hpos

theorem Dimension.not_isSpace (n : Dimension) : ∀ b ∈ n.digits, isSpace b = false :=
  fun b hb => not_isSpace_of_isDigit (by omega) (n.isDigits b hb)

/-- No sign and no underscore is a digit. -/
theorem Dimension.not_mem (n : Dimension) {b : UInt8} (hb : isDigit 10 b = false) : b ∉ n.digits := by
  intro hmem
  rw [n.isDigits b hmem] at hb
  cases hb

theorem Dimension.head?_ne (n : Dimension) {b : UInt8} (hb : isDigit 10 b = false) :
    n.digits.head? ≠ some b :=
  fun hhead => n.not_mem hb (List.mem_of_mem_head? hhead)

theorem pyInt_digits (n : Dimension) : pyInt n.digits = some (n.value : Int) := by
  have hunderscore : ∀ b ∈ n.digits, decide (b = 0x5F) = false := by
    intro b hb
    refine decide_eq_false ?_
    rintro rfl
    exact n.not_mem (by decide) hb
  have hdigits : pyDigits n.digits = some n.value := by
    have hall : n.digits.all (isDigit 10) = true := List.all_eq_true.mpr n.isDigits
    have hfilter : n.digits.filter (· ≠ 0x5F) = n.digits := by
      refine List.filter_eq_self.mpr fun b hb => ?_
      simpa using hunderscore b hb
    unfold pyDigits
    rw [List.splitOnP_eq_singleton hunderscore, hfilter]
    simp [hall, n.digits_ne_nil, Dimension.value]
  unfold pyInt
  rw [if_neg (n.head?_ne (by decide)), if_neg (n.head?_ne (by decide)), hdigits]
  rfl

theorem packII_values (w h : Dimension) :
    packII w.value h.value = some (le32 w.value ++ le32 h.value) := by
  have hw := w.fits
  have hh := h.fits
  unfold packII Dimension.value
  rw [if_pos (by omega)]

theorem twoInts_sizeLine (p : Ppm) :
    twoInts (p.sizeLine ++ [0x0A]) = some ((p.width.value : Int), (p.height.value : Int)) := by
  have hend : ∀ b ∈ p.trail ++ [0x0A], isSpace b = true := by
    intro b hb
    rcases List.mem_append.mp hb with hb | hb
    · exact (p.isTrail b hb).1
    · rw [List.mem_singleton.mp hb]
      rfl
  have hlast : split (p.trail ++ [0x0A]) = [] := by
    have hsplit := split_spaces hend []
    rwa [List.append_nil] at hsplit
  obtain ⟨sep, tail, htail⟩ : ∃ sep tail, p.trail ++ [0x0A] = sep :: tail := by
    cases htrail : p.trail ++ [0x0A] with
    | nil => simp at htrail
    | cons sep tail => exact ⟨sep, tail, rfl⟩
  obtain ⟨gap, gaps, hgap⟩ : ∃ gap gaps, p.gap = gap :: gaps := List.exists_cons_of_ne_nil p.gap_ne_nil
  have hline : p.sizeLine ++ [0x0A] =
      p.lead ++ (p.width.digits ++ gap :: (gaps ++ (p.height.digits ++ sep :: tail))) := by
    rw [← htail]
    simp [Ppm.sizeLine, hgap]
  have hgaps : ∀ b ∈ gap :: gaps, isSpace b = true := fun b hb => (p.isGap b (hgap ▸ hb)).1
  have hempty : split tail = [] := by
    rw [htail] at hend hlast
    have hsep : ∀ b ∈ [sep], isSpace b = true := by
      intro b hb
      rw [List.mem_singleton.mp hb]
      exact hend sep (by simp)
    rw [← split_spaces hsep tail]
    exact hlast
  have hwords : split (p.sizeLine ++ [0x0A]) = [p.width.digits, p.height.digits] := by
    rw [hline, split_spaces fun b hb => (p.isLead b hb).1,
      split_word p.width.not_isSpace p.width.digits_ne_nil (hgaps gap (by simp)),
      split_spaces fun b hb => hgaps b (by simp [hb]),
      split_word p.height.not_isSpace p.height.digits_ne_nil (hend sep (by simp [htail])), hempty]
  unfold twoInts
  rw [hwords]
  simp [pyInt_digits]

theorem Ppm.newline_not_mem_sizeLine (p : Ppm) : 0x0A ∉ p.sizeLine := by
  have hwidth := p.width.not_mem (b := 0x0A) (by decide)
  have hheight := p.height.not_mem (b := 0x0A) (by decide)
  have hlead : 0x0A ∉ p.lead := fun h => (p.isLead _ h).2 rfl
  have hgap : 0x0A ∉ p.gap := fun h => (p.isGap _ h).2 rfl
  have htrail : 0x0A ∉ p.trail := fun h => (p.isTrail _ h).2 rfl
  simp [Ppm.sizeLine, hwidth, hheight, hlead, hgap, htrail]

theorem Ppm.sizeLine_head?_ne (p : Ppm) : p.sizeLine.head? ≠ some 0x23 := by
  intro hhead
  have hmem := List.mem_of_mem_head? hhead
  have hwidth := p.width.not_mem (b := 0x23) (by decide)
  have hheight := p.height.not_mem (b := 0x23) (by decide)
  have hlead : 0x23 ∉ p.lead := fun h => absurd (p.isLead _ h).1 (by decide)
  have hgap : 0x23 ∉ p.gap := fun h => absurd (p.isGap _ h).1 (by decide)
  have htrail : 0x23 ∉ p.trail := fun h => absurd (p.isTrail _ h).1 (by decide)
  simp [Ppm.sizeLine, hwidth, hheight, hlead, hgap, htrail] at hmem

theorem ppmToPristine_of {input signature rest line rest' maxval pixels header : List UInt8} {w h : Int}
    (hsignature : readline input = (signature, rest)) (hP6 : strip signature = [0x50, 0x36])
    (hline : skipComments (rest.length + 1) rest = some (line, rest'))
    (hsize : twoInts line = some (w, h)) (hmaxval : readline rest' = (maxval, pixels))
    (h255 : strip maxval = [0x32, 0x35, 0x35]) (hheader : packII w h = some header) :
    ppmToPristine input = some (header ++ pixels) := by
  unfold ppmToPristine
  simp [hsignature, hP6, hline, hsize, hmaxval, h255, hheader]

/-- The Python program writes what it should. -/
theorem ppmToPristine_bytes (p : Ppm) : ppmToPristine p.bytes = some p.image := by
  have hsignature : readline p.bytes = ([0x50, 0x36] ++ [0x0A],
      p.comments.flatMap (fun text => 0x23 :: text ++ [0x0A]) ++ p.body) := by
    have hbytes : p.bytes = [0x50, 0x36] ++
        0x0A :: (p.comments.flatMap (fun text => 0x23 :: text ++ [0x0A]) ++ p.body) := rfl
    rw [hbytes, readline_line (show 0x0A ∉ [0x50, 0x36] by decide)]
  have hlines : ∀ fuel, p.comments.length < fuel →
      skipComments fuel (p.comments.flatMap (fun text => 0x23 :: text ++ [0x0A]) ++ p.body) =
        some (p.sizeLine ++ [0x0A], 0x32 :: 0x35 :: 0x35 :: 0x0A :: p.pixels) := fun fuel hfuel =>
    skipComments_bytes p.isComment p.newline_not_mem_sizeLine p.sizeLine_head?_ne _ hfuel
  have hmaxval : readline (0x32 :: 0x35 :: 0x35 :: 0x0A :: p.pixels) =
      ([0x32, 0x35, 0x35] ++ [0x0A], p.pixels) := by
    have hbytes : 0x32 :: 0x35 :: 0x35 :: 0x0A :: p.pixels =
        [0x32, 0x35, 0x35] ++ 0x0A :: p.pixels := rfl
    rw [hbytes, readline_line (show 0x0A ∉ [0x32, 0x35, 0x35] by decide)]
  have hfuel : p.comments.length <
      (p.comments.flatMap (fun text => 0x23 :: text ++ [0x0A]) ++ p.body).length + 1 := by
    have hle : p.comments.length ≤
        (p.comments.flatMap (fun text => 0x23 :: text ++ [0x0A])).length := by
      generalize p.comments = comments
      induction comments with
      | nil => simp
      | cons text comments ih => simp at ih ⊢; omega
    rw [List.length_append]
    omega
  exact ppmToPristine_of hsignature (by decide) (hlines _ hfuel) (twoInts_sizeLine p) hmaxval
    (by decide) (packII_values p.width p.height)

end Python

end Pristine.Tools
