import Pristine.Lib.PackedRecord
import Pristine.Tools.Ppm

/-!
# When the two converters agree

`sameOutput_iff` says for which well-formed files the C program writes what the
Python program writes: at most one comment, no number with a leading zero that is
eight or more, no white space at the start of the pixels, and no `#` among them
except as the last byte.
-/

namespace Pristine.Tools

open Lib

/-! ## Rounds of the loop -/

section Rounds

theorem scanDigits_length {base value : Nat} {input rest : List UInt8}
    (hscan : scanDigits base input = some (value, rest)) : rest.length < input.length := by
  unfold scanDigits at hscan
  split at hscan
  · cases hscan
  · rename_i hne
    cases hscan
    have happend := congrArg List.length (List.takeWhile_append_dropWhile (p := isDigit base) (l := input))
    rw [List.length_append] at happend
    have hpos : 0 < (input.takeWhile (isDigit base)).length := by
      rw [List.length_pos_iff]
      simpa using hne
    omega

theorem scanUnsigned_length {value : Nat} {input rest : List UInt8}
    (hscan : scanUnsigned input = some (value, rest)) : rest.length < input.length := by
  unfold scanUnsigned at hscan
  split at hscan
  · split at hscan
    · have hlength := scanDigits_length hscan
      rw [List.length_drop] at hlength
      omega
    · exact scanDigits_length hscan
  · exact scanDigits_length hscan

theorem scanSigned_length {value : Int} {input rest : List UInt8}
    (hscan : scanSigned input = some (value, rest)) : rest.length < input.length := by
  unfold scanSigned at hscan
  split at hscan
  · obtain ⟨⟨n, rest'⟩, hn, heq⟩ := Option.map_eq_some_iff.mp hscan
    cases heq
    have hlength := scanUnsigned_length hn
    rw [List.length_drop] at hlength
    omega
  · obtain ⟨⟨n, rest'⟩, hn, heq⟩ := Option.map_eq_some_iff.mp hscan
    cases heq
    have hlength := scanUnsigned_length hn
    split at hlength
    · rw [List.length_drop] at hlength
      omega
    · exact hlength

/-- A number that is read takes up a byte at least. -/
theorem fscanfLi_length {target value : Int} {data0 : UInt8} {unread rest : List UInt8}
    (hscan : fscanfLi target (data0 :: unread) = some (value, rest)) :
    rest.length ≤ unread.length := by
  have hdrop := (List.dropWhile_sublist isSpace (l := data0 :: unread)).length_le
  rw [List.length_cons] at hdrop
  unfold fscanfLi at hscan
  dsimp only at hscan
  split at hscan
  · cases hscan
    simp
  · obtain ⟨⟨n, rest'⟩, hn, heq⟩ := Option.map_eq_some_iff.mp hscan
    cases heq
    have hlength := scanSigned_length hn
    have hdrop' := (List.dropWhile_sublist isSpace (l := rest')).length_le
    dsimp only
    omega

theorem skipLine_length (data0 : UInt8) (unread : List UInt8) :
    (skipLine data0 unread).2.length ≤ unread.length := by
  induction unread generalizing data0 with
  | nil => exact le_refl _
  | cons b unread ih =>
    rw [skipLine]
    split
    · simp
    · have hrest := ih b
      rw [List.length_cons]
      omega

theorem nextByte_length {data0 : UInt8} {input unread : List UInt8}
    (hnext : nextByte input = some (data0, unread)) : unread.length < input.length := by
  cases input with
  | nil => cases hnext
  | cons b input =>
    rw [nextByte, Option.some.injEq] at hnext
    rw [List.length_cons]
    split at hnext
    · have hskip := skipLine_length b input
      rw [hnext] at hskip
      exact Nat.lt_succ_of_le hskip
    · cases hnext
      omega

/-- What one round does: the unread input does not grow, and the output is appended to. -/
theorem handleByte_spec {data0 : UInt8} {s s' : PpmState} (hstep : handleByte data0 s = some s') :
    s'.unread.length ≤ s.unread.length ∧ ∃ written, s'.out = s.out ++ written := by
  unfold handleByte at hstep
  split at hstep
  · obtain ⟨⟨w, unread⟩, hscan, rfl⟩ := Option.map_eq_some_iff.mp hstep
    exact ⟨fscanfLi_length hscan, _, rfl⟩
  · split at hstep
    · obtain ⟨⟨h, unread⟩, hscan, rfl⟩ := Option.map_eq_some_iff.mp hstep
      exact ⟨fscanfLi_length hscan, _, rfl⟩
    · split at hstep
      · obtain ⟨⟨c, unread⟩, hscan, rfl⟩ := Option.map_eq_some_iff.mp hstep
        exact ⟨fscanfLi_length hscan, [], (List.append_nil _).symm⟩
      · cases hstep
        exact ⟨le_refl _, _, rfl⟩

/-- More fuel than there are bytes changes nothing. -/
theorem ppmLoop_fuel {fuel fuel' : Nat} {s : PpmState} (hfuel : s.unread.length < fuel)
    (hfuel' : s.unread.length < fuel') : ppmLoop fuel s = ppmLoop fuel' s := by
  induction fuel generalizing fuel' s with
  | zero => exact absurd hfuel (Nat.not_lt_zero _)
  | succ fuel ih =>
    obtain ⟨fuel', rfl⟩ : ∃ n, fuel' = n + 1 := ⟨fuel' - 1, by omega⟩
    rw [ppmLoop, ppmLoop]
    cases hnext : nextByte s.unread with
    | none => rfl
    | some next =>
      obtain ⟨data0, unread⟩ := next
      have hlength := nextByte_length hnext
      dsimp only
      cases hstep : handleByte data0 { s with unread := unread } with
      | none => rfl
      | some s' =>
        have hle := (handleByte_spec hstep).1
        dsimp only at hle ⊢
        exact ih (by omega) (by omega)

theorem runLoop_end {s : PpmState} (hend : s.unread = []) : runLoop s = some (0, s.out) := by
  unfold runLoop
  rw [ppmLoop, hend]
  rfl

theorem runLoop_stop {s : PpmState} {data0 : UInt8} {unread : List UInt8}
    (hnext : nextByte s.unread = some (data0, unread))
    (hstop : handleByte data0 { s with unread := unread } = none) : runLoop s = some (1, s.out) := by
  unfold runLoop
  rw [ppmLoop, hnext]
  dsimp only
  rw [hstop]

theorem runLoop_next {s s' : PpmState} {data0 : UInt8} {unread : List UInt8}
    (hnext : nextByte s.unread = some (data0, unread))
    (hstep : handleByte data0 { s with unread := unread } = some s') : runLoop s = runLoop s' := by
  have hlength := nextByte_length hnext
  have hle := (handleByte_spec hstep).1
  dsimp only at hle
  unfold runLoop
  rw [ppmLoop, hnext]
  dsimp only
  rw [hstep]
  exact ppmLoop_fuel (by omega) (by omega)

/-- The program ends, and what was written stays. -/
theorem runLoop_returns (s : PpmState) : ∃ code written, runLoop s = some (code, s.out ++ written) := by
  obtain ⟨n, hn⟩ : ∃ n, s.unread.length = n := ⟨_, rfl⟩
  induction n using Nat.strong_induction_on generalizing s with
  | _ n ih =>
    cases hunread : s.unread with
    | nil => exact ⟨0, [], by rw [runLoop_end hunread, List.append_nil]⟩
    | cons b input =>
      obtain ⟨⟨data0, unread⟩, hnext⟩ : ∃ next, nextByte s.unread = some next := by
        rw [hunread]
        exact ⟨_, rfl⟩
      have hlength := nextByte_length hnext
      cases hstep : handleByte data0 { s with unread := unread } with
      | none => exact ⟨1, [], by rw [runLoop_stop hnext hstep, List.append_nil]⟩
      | some s' =>
        obtain ⟨hle, written, hout⟩ := handleByte_spec hstep
        dsimp only at hle hout
        obtain ⟨code, more, hrun⟩ := ih _ (by omega) s' rfl
        refine ⟨code, written ++ more, ?_⟩
        rw [runLoop_next hnext hstep, hrun, hout, List.append_assoc]

end Rounds

/-! ## Pixels -/

/-- When all three numbers are read, the rest is copied; a `#` that is not the last byte loses
some of it. -/
theorem runLoop_pixels (s : PpmState) (hw : s.w ≠ 0) (hh : s.h ≠ 0) (hc : s.c ≠ 0) :
    ∃ written, runLoop s = some (0, s.out ++ written) ∧
      if 0x23 ∈ s.unread.dropLast then written.length < s.unread.length else written = s.unread := by
  obtain ⟨n, hn⟩ : ∃ n, s.unread.length = n := ⟨_, rfl⟩
  induction n using Nat.strong_induction_on generalizing s with
  | _ n ih =>
    cases hunread : s.unread with
    | nil => exact ⟨[], by rw [runLoop_end hunread, List.append_nil], by simp⟩
    | cons b input =>
      rw [hunread, List.length_cons] at hn
      -- the state after this round, whatever byte it writes
      have hround : ∀ data0 unread, nextByte s.unread = some (data0, unread) →
          unread.length ≤ input.length →
          ∃ written, runLoop s = some (0, s.out ++ (data0 :: written)) ∧
            if 0x23 ∈ unread.dropLast then written.length < unread.length
            else written = unread := by
        intro data0 unread hnext hlength
        have hstep : handleByte data0 { s with unread := unread } =
            some { s with unread := unread, out := s.out ++ [data0] } := by
          unfold handleByte
          rw [if_neg hw, if_neg hh, if_neg hc]
        obtain ⟨written, hrun, hwritten⟩ :=
          ih unread.length (by omega) { s with unread := unread, out := s.out ++ [data0] } hw hh hc rfl
        refine ⟨written, ?_, hwritten⟩
        rw [runLoop_next hnext hstep, hrun, List.append_assoc]
        rfl
      by_cases hhash : b = 0x23
      · subst hhash
        cases input with
        | nil =>
          obtain ⟨written, hrun, hwritten⟩ :=
            hround 0x23 [] (by rw [hunread]; rfl) (le_refl _)
          have hnil : written = [] := by simpa using hwritten
          exact ⟨_, hrun, by simp [hnil]⟩
        | cons d input =>
          -- at least two bytes are read for the one that is written
          have hskip : (skipLine 0x23 (d :: input)).2.length ≤ input.length := by
            rw [skipLine]
            split
            · exact le_refl _
            · exact skipLine_length d input
          obtain ⟨⟨data0, unread⟩, hline⟩ : ∃ next, skipLine 0x23 (d :: input) = next := ⟨_, rfl⟩
          rw [hline] at hskip
          dsimp only at hskip
          obtain ⟨written, hrun, hwritten⟩ :=
            hround data0 unread (by rw [hunread, nextByte, if_pos rfl, hline])
              (by rw [List.length_cons]; omega)
          refine ⟨_, hrun, ?_⟩
          rw [if_pos (by simp)]
          have hle : written.length ≤ unread.length := by
            split at hwritten
            · exact Nat.le_of_lt hwritten
            · rw [hwritten]
          simp only [List.length_cons]
          omega
      · obtain ⟨written, hrun, hwritten⟩ :=
          hround b input (by rw [hunread, nextByte, if_neg hhash]) (le_refl _)
        refine ⟨_, hrun, ?_⟩
        have hmem : 0x23 ∈ (b :: input).dropLast ↔ 0x23 ∈ input.dropLast := by
          cases input <;> simp [Ne.symm hhash]
        rw [if_congr hmem rfl rfl]
        split at hwritten
        · rename_i hin
          rw [if_pos hin, List.length_cons, List.length_cons]
          omega
        · rename_i hin
          rw [if_neg hin, hwritten]

/-! ## Numbers -/

namespace Dimension

variable (n : Dimension)

/-- What `%li` makes of the number. -/
def scanned : Nat :=
  if n.digits.head? = some 0x30 then octalFrom 0 n.digits else numeral 10 n.digits

/-- A number with a leading zero is below eight. -/
def Unambiguous : Prop := n.digits.head? = some 0x30 → n.value < 8

theorem value_ne_zero : ((n.value : Nat) : Int) ≠ 0 := by
  have hpos : 0 < n.value := n.pos
  omega

theorem dropWhile_isSpace (rest : List UInt8) :
    (n.digits ++ rest).dropWhile isSpace = n.digits ++ rest := by
  obtain ⟨first, digits, hdigits⟩ := List.exists_cons_of_ne_nil n.digits_ne_nil
  have hfirst : isSpace first = false := n.not_isSpace first (by rw [hdigits]; simp)
  rw [hdigits, List.cons_append, List.dropWhile_cons_of_neg (by rw [hfirst]; simp)]

theorem scanned_le : n.scanned ≤ n.value := by
  unfold scanned value
  split
  · exact octalFrom_zero_le
  · exact le_refl _

theorem scanned_eq_iff : n.scanned = n.value ↔ n.Unambiguous := by
  unfold scanned Unambiguous value
  split
  · rename_i hzero
    rw [numeral_octal_eq_iff]
    exact ⟨fun h _ => h, fun h => h hzero⟩
  · rename_i hzero
    exact ⟨fun _ h => absurd h hzero, fun _ => rfl⟩

end Dimension

/-- All digits of a base are taken up to white space. -/
theorem takeWhile_isDigit {base : Nat} (hbase : base ≤ 16) (digits : List UInt8) {sep : UInt8}
    (hsep : isSpace sep = true) (rest : List UInt8) :
    (digits ++ sep :: rest).takeWhile (isDigit base) = digits.takeWhile (isDigit base) := by
  rw [List.takeWhile_append]
  split
  · rename_i hall
    rw [List.takeWhile_cons, isDigit_of_isSpace hbase hsep]
    have htake : digits.takeWhile (isDigit base) = digits :=
      (List.takeWhile_prefix _).eq_of_length hall
    rw [htake]
    simp
  · rfl

theorem dropWhile_isDigit {base : Nat} (hbase : base ≤ 16) {digits : List UInt8}
    (hdigits : ∀ b ∈ digits, isDigit base b = true) {sep : UInt8} (hsep : isSpace sep = true)
    (rest : List UInt8) : (digits ++ sep :: rest).dropWhile (isDigit base) = sep :: rest := by
  rw [List.dropWhile_append_of_pos hdigits, List.dropWhile_cons, isDigit_of_isSpace hbase hsep]
  rfl

theorem scanDigits_ok {base value : Nat} {input rest : List UInt8}
    (htake : numeral base (input.takeWhile (isDigit base)) = value)
    (hne : input.takeWhile (isDigit base) ≠ [])
    (hrest : input.dropWhile (isDigit base) = rest) : scanDigits base input = some (value, rest) := by
  unfold scanDigits
  rw [if_neg (by simpa using hne), htake, hrest]

theorem scanUnsigned_dimension (n : Dimension) {sep : UInt8} (hsep : isSpace sep = true)
    (rest : List UInt8) :
    ∃ unread, scanUnsigned (n.digits ++ sep :: rest) = some (n.scanned, unread) ∧
      (n.Unambiguous → unread = sep :: rest) := by
  obtain ⟨first, digits, hdigits⟩ : ∃ first digits, n.digits = first :: digits :=
    List.exists_cons_of_ne_nil n.digits_ne_nil
  unfold scanUnsigned Dimension.scanned
  rw [List.head?_append_of_ne_nil _ n.digits_ne_nil]
  by_cases hzero : n.digits.head? = some 0x30
  · -- the character after the zero is a digit or white space
    have hsecond : ∀ b, isDigit 10 b = false → isSpace b = false →
        (n.digits ++ sep :: rest)[1]? ≠ some b := by
      intro b hdigit hspace
      rw [hdigits]
      cases digits with
      | nil =>
        simp only [List.cons_append, List.nil_append, List.getElem?_cons_succ,
          List.getElem?_cons_zero, ne_eq, Option.some.injEq]
        rintro rfl
        rw [hsep] at hspace
        cases hspace
      | cons d digits =>
        simp only [List.cons_append, List.getElem?_cons_succ, List.getElem?_cons_zero, ne_eq,
          Option.some.injEq]
        rintro rfl
        exact n.not_mem hdigit (by rw [hdigits]; simp)
    rw [if_pos hzero, if_pos hzero, if_neg (not_or.mpr
      ⟨hsecond 0x78 (by decide) (by decide), hsecond 0x58 (by decide) (by decide)⟩)]
    have htake := takeWhile_isDigit (show 8 ≤ 16 by omega) n.digits hsep rest
    refine ⟨_, scanDigits_ok ?_ ?_ rfl, fun hunambiguous => ?_⟩
    · rw [htake]
      rfl
    · have hfirst : first = 0x30 := by
        rw [hdigits] at hzero
        exact Option.some.inj hzero
      rw [htake, hdigits, hfirst, List.takeWhile_cons_of_pos (by decide)]
      simp
    · refine dropWhile_isDigit (by omega) (fun b hb => ?_) hsep rest
      have hle := digitValue_le_numeralFrom (show 0 < 10 by omega) hb 0
      have hlt := hunambiguous hzero
      unfold Dimension.value numeral at hlt
      exact decide_eq_true (by omega)
  · rw [if_neg hzero, if_neg hzero]
    have htake : (n.digits ++ sep :: rest).takeWhile (isDigit 10) = n.digits := by
      rw [List.takeWhile_append_of_pos n.isDigits, List.takeWhile_cons,
        isDigit_of_isSpace (by omega) hsep]
      simp
    refine ⟨_, scanDigits_ok ?_ ?_ rfl, fun _ => ?_⟩
    · rw [htake]
    · rw [htake]
      exact n.digits_ne_nil
    · exact dropWhile_isDigit (by omega) n.isDigits hsep rest

/-- What `fscanf` makes of a number with white space around it. -/
theorem fscanfLi_dimension (target : Int) {blanks : List UInt8}
    (hblanks : ∀ b ∈ blanks, isSpace b = true) (n : Dimension) {sep : UInt8}
    (hsep : isSpace sep = true) (rest : List UInt8) :
    ∃ unread, fscanfLi target (blanks ++ (n.digits ++ sep :: rest)) = some ((n.scanned : Int), unread) ∧
      (n.Unambiguous → unread = rest.dropWhile isSpace) := by
  obtain ⟨unread, hscan, hunread⟩ := scanUnsigned_dimension n hsep rest
  have hsigned : scanSigned (n.digits ++ sep :: rest) = some ((n.scanned : Int), unread) := by
    have hfits := n.fits
    have hle := n.scanned_le
    have hrange : min (2 ^ 63 - 1) ((n.scanned : Nat) : Int) = (n.scanned : Int) := by
      unfold Dimension.value at hle
      omega
    unfold scanSigned
    rw [List.head?_append_of_ne_nil _ n.digits_ne_nil, if_neg (n.head?_ne (by decide)),
      if_neg (n.head?_ne (by decide)), hscan, Option.map_some]
    dsimp only
    rw [hrange]
  refine ⟨unread.dropWhile isSpace, ?_, fun hunambiguous => ?_⟩
  · unfold fscanfLi
    rw [List.dropWhile_append_of_pos hblanks, n.dropWhile_isSpace, if_neg (by simp), hsigned]
    rfl
  · rw [hunread hunambiguous, List.dropWhile_cons_of_pos hsep]

/-! ## The header -/

theorem le32_length (value : Int) : (le32 value).length = 4 := by
  simp [le32]

theorem le32_injective {a b : Nat} (ha : a < 2 ^ 32) (hb : b < 2 ^ 32) (heq : le32 a = le32 b) :
    a = b := by
  have hmod : ∀ {n : Nat}, n < 2 ^ 32 → (((n : Nat) : Int) % 2 ^ 32).toNat = n := by
    intro n hn
    omega
  unfold le32 at heq
  rw [hmod ha, hmod hb] at heq
  have hbytes : ∀ k, k < 4 → byteOf a k = byteOf b k := fun k hk =>
    List.map_inj_left.mp heq k (List.mem_range.mpr hk)
  have hloadA : loadLE (byteOf b) 0 4 = a :=
    loadLE_of_bytes (by omega) fun k hk => by rw [Nat.zero_add, hbytes k hk]
  have hloadB : loadLE (byteOf b) 0 4 = b :=
    loadLE_of_bytes (by omega) fun k _ => by rw [Nat.zero_add]
  rw [← hloadA, hloadB]

theorem Dimension.le32_scanned_eq_iff (n : Dimension) :
    le32 n.scanned = le32 n.value ↔ n.Unambiguous := by
  have hfits : n.value < 2 ^ 32 := n.fits
  have hle := n.scanned_le
  rw [← n.scanned_eq_iff]
  exact ⟨le32_injective (by omega) hfits, fun heq => by rw [heq]⟩

/-- A byte that is not `#` is put back as it was read. -/
theorem nextByte_plain {input : List UInt8} (hne : input ≠ []) (hhead : input.head? ≠ some 0x23) :
    ∃ data0 unread, nextByte input = some (data0, unread) ∧ data0 :: unread = input := by
  obtain ⟨b, rest, rfl⟩ := List.exists_cons_of_ne_nil hne
  refine ⟨b, rest, ?_, rfl⟩
  rw [nextByte, if_neg fun h => hhead (by rw [h]; rfl)]

theorem skipLine_text {text : List UInt8} (htext : 0x0A ∉ text) (data0 : UInt8)
    (rest : List UInt8) : skipLine data0 (text ++ 0x0A :: rest) = (0x0A, rest) := by
  induction text generalizing data0 with
  | nil => rw [List.nil_append, skipLine, if_pos rfl]
  | cons b text ih =>
    rw [List.mem_cons, not_or] at htext
    rw [List.cons_append, skipLine, if_neg (Ne.symm htext.1)]
    exact ih htext.2 b

theorem nextByte_comment {text : List UInt8} (htext : 0x0A ∉ text) (rest : List UInt8) :
    nextByte (0x23 :: text ++ [0x0A] ++ rest) = some (0x0A, rest) := by
  rw [List.append_assoc, List.cons_append, nextByte, if_pos rfl, List.singleton_append,
    skipLine_text htext]

namespace Ppm

variable (p : Ppm)

/-- What follows the line with width and height. -/
def tail : List UInt8 := 0x32 :: 0x35 :: 0x35 :: 0x0A :: p.pixels

/-- The comments and what follows them. -/
def afterSignature : List UInt8 := p.comments.flatMap (fun text => 0x23 :: text ++ [0x0A]) ++ p.body

theorem ppmtoimg_bytes : ppmtoimg p.bytes = runLoop (startState p.afterSignature) := by
  unfold ppmtoimg bytes
  rw [if_neg (by simp), if_neg (by simp)]
  rfl

/-- The number 255. -/
def maxval : Dimension where
  digits := [0x32, 0x35, 0x35]
  isDigits := by decide +kernel
  pos := by decide
  fits := by decide

theorem body_eq : p.body = p.lead ++ (p.width.digits ++
    (p.gap ++ (p.height.digits ++ (p.trail ++ 0x0A :: p.tail)))) := by
  simp [body, sizeLine, tail]

/-- The first number, with the white space before it, as `fscanf` finds it. -/
theorem nextByte_width (hcomments : p.comments.length ≤ 1) :
    ∃ data0 unread blanks, (∀ b ∈ blanks, isSpace b = true) ∧
      nextByte p.afterSignature = some (data0, unread) ∧
      data0 :: unread = blanks ++ (p.width.digits ++
        (p.gap ++ (p.height.digits ++ (p.trail ++ 0x0A :: p.tail)))) := by
  have hlead : ∀ b ∈ p.lead, isSpace b = true := fun b hb => (p.isLead b hb).1
  unfold afterSignature
  rcases hlist : p.comments with _ | ⟨text, _ | ⟨text', comments⟩⟩
  · have hsize : p.sizeLine ≠ [] := by
      simp [sizeLine, p.width.digits_ne_nil]
    have hhead : p.body.head? = p.sizeLine.head? := by
      simp [body, List.head?_append_of_ne_nil _ hsize]
    have hne : p.body ≠ [] := by simp [body]
    obtain ⟨data0, unread, hnext, heq⟩ := nextByte_plain hne (hhead ▸ p.sizeLine_head?_ne)
    exact ⟨data0, unread, p.lead, hlead, hnext, heq.trans p.body_eq⟩
  · have htext : 0x0A ∉ text := p.isComment text (by rw [hlist]; simp)
    refine ⟨0x0A, p.body, 0x0A :: p.lead, ?_, ?_, ?_⟩
    · intro b hb
      rcases List.mem_cons.mp hb with rfl | hb
      · rfl
      · exact hlead b hb
    · rw [List.flatMap_singleton]
      exact nextByte_comment htext p.body
    · rw [p.body_eq]
      rfl
  · rw [hlist] at hcomments
    simp at hcomments

/-- A second comment stops the program. -/
theorem runLoop_comments (hcomments : 1 < p.comments.length) :
    runLoop (startState p.afterSignature) = some (1, []) := by
  rcases hlist : p.comments with _ | ⟨text, _ | ⟨text', comments⟩⟩
  · rw [hlist] at hcomments
    simp at hcomments
  · rw [hlist] at hcomments
    simp at hcomments
  · have htext : 0x0A ∉ text := p.isComment text (by rw [hlist]; simp)
    obtain ⟨rest, hrest⟩ : ∃ rest, p.afterSignature = 0x23 :: text ++ [0x0A] ++ 0x23 :: rest := by
      refine ⟨text' ++ 0x0A :: (comments.flatMap (fun text => 0x23 :: text ++ [0x0A]) ++ p.body), ?_⟩
      simp [afterSignature, hlist]
    have hnext : nextByte (startState p.afterSignature).unread = some (0x0A, 0x23 :: rest) := by
      rw [hrest]
      exact nextByte_comment htext _
    refine runLoop_stop hnext ?_
    have hscan : fscanfLi 0 (0x0A :: 0x23 :: rest) = none := by
      have hspace : isSpace 0x0A = true := by decide
      have hhash : isSpace 0x23 = false := by decide
      have hdigit : isDigit 10 0x23 = false := by decide
      simp [fscanfLi, hspace, hhash, scanSigned, scanUnsigned, scanDigits, hdigit]
    unfold handleByte startState
    rw [if_pos rfl, hscan]
    rfl

/-- The loop after the first number. -/
theorem runLoop_afterWidth (hcomments : p.comments.length ≤ 1) :
    ∃ unread, runLoop (startState p.afterSignature) =
        runLoop ⟨unread, p.width.scanned, 0, 0, le32 p.width.scanned⟩ ∧
      (p.width.Unambiguous → unread = p.height.digits ++ (p.trail ++ 0x0A :: p.tail)) := by
  obtain ⟨data0, unread, blanks, hblanks, hnext, hinput⟩ := p.nextByte_width hcomments
  obtain ⟨gap, gaps, hgap⟩ := List.exists_cons_of_ne_nil p.gap_ne_nil
  have hspace : ∀ b ∈ gap :: gaps, isSpace b = true := fun b hb => (p.isGap b (hgap ▸ hb)).1
  obtain ⟨rest, hscan, hrest⟩ := fscanfLi_dimension 0 hblanks p.width (hspace gap (by simp))
    (gaps ++ (p.height.digits ++ (p.trail ++ 0x0A :: p.tail)))
  rw [hgap, List.cons_append] at hinput
  rw [← hinput] at hscan
  refine ⟨rest, runLoop_next hnext (by simp [handleByte, startState, hscan]), fun hunambiguous => ?_⟩
  rw [hrest hunambiguous, List.dropWhile_append_of_pos fun b hb => hspace b (by simp [hb]),
    p.height.dropWhile_isSpace]

/-- The loop after the second number. -/
theorem runLoop_afterHeight (hcomments : p.comments.length ≤ 1) (hwidth : p.width.Unambiguous) :
    ∃ unread, runLoop (startState p.afterSignature) =
        runLoop ⟨unread, p.width.value, p.height.scanned, 0,
          le32 p.width.value ++ le32 p.height.scanned⟩ ∧
      (p.height.Unambiguous → unread = p.tail) := by
  obtain ⟨unread, hrun, hunread⟩ := p.runLoop_afterWidth hcomments
  rw [hunread hwidth, p.width.scanned_eq_iff.mpr hwidth] at hrun
  obtain ⟨data0, unread', hnext, hinput⟩ :=
    nextByte_plain (show p.height.digits ++ (p.trail ++ 0x0A :: p.tail) ≠ [] by simp) (by
      rw [List.head?_append_of_ne_nil _ p.height.digits_ne_nil]
      exact p.height.head?_ne (by decide))
  -- the white space after the number: the blanks of the line and its line feed
  obtain ⟨sep, blanks, hsep⟩ : ∃ sep blanks, p.trail ++ [0x0A] = sep :: blanks := by
    cases htrail : p.trail ++ [0x0A] with
    | nil => simp at htrail
    | cons sep blanks => exact ⟨sep, blanks, rfl⟩
  have hspace : ∀ b ∈ sep :: blanks, isSpace b = true := by
    intro b hb
    rw [← hsep] at hb
    rcases List.mem_append.mp hb with hb | hb
    · exact (p.isTrail b hb).1
    · rw [List.mem_singleton.mp hb]
      rfl
  have hafter : p.trail ++ 0x0A :: p.tail = sep :: (blanks ++ p.tail) := by
    rw [← List.cons_append, ← hsep]
    simp
  obtain ⟨rest, hscan, hrest⟩ := fscanfLi_dimension 0 (show ∀ b ∈ [], isSpace b = true by simp)
    p.height (hspace sep (by simp)) (blanks ++ p.tail)
  rw [List.nil_append, ← hafter, ← hinput] at hscan
  refine ⟨rest, hrun.trans (runLoop_next hnext ?_), fun hunambiguous => ?_⟩
  · rw [handleByte, if_neg p.width.value_ne_zero, if_pos rfl]
    exact congrArg (Option.map _) hscan
  rw [hrest hunambiguous, List.dropWhile_append_of_pos fun b hb => hspace b (by simp [hb])]
  unfold tail
  rw [List.dropWhile_cons_of_neg (by decide)]

/-- The loop after the header: white space at the start of the pixels is gone. -/
theorem runLoop_afterHeader (hcomments : p.comments.length ≤ 1) (hwidth : p.width.Unambiguous)
    (hheight : p.height.Unambiguous) :
    runLoop (startState p.afterSignature) =
      runLoop ⟨p.pixels.dropWhile isSpace, p.width.value, p.height.value, 255,
        le32 p.width.value ++ le32 p.height.value⟩ := by
  obtain ⟨unread, hrun, hunread⟩ := p.runLoop_afterHeight hcomments hwidth
  rw [hunread hheight, p.height.scanned_eq_iff.mpr hheight] at hrun
  have hplain : maxval.Unambiguous := fun h => absurd h (by decide)
  have hscanned : maxval.scanned = 255 := by decide
  obtain ⟨rest, hscan, hrest⟩ := fscanfLi_dimension 0 (show ∀ b ∈ [], isSpace b = true by simp)
    maxval (show isSpace 0x0A = true by decide) p.pixels
  rw [hrest hplain, hscanned] at hscan
  refine hrun.trans (runLoop_next rfl ?_)
  rw [handleByte, if_neg p.width.value_ne_zero, if_neg p.height.value_ne_zero, if_pos rfl]
  exact congrArg (Option.map _) hscan

/-! ## Agreement -/

/-- The files on which the programs agree. -/
structure Plain : Prop where
  comments : p.comments.length ≤ 1
  width : p.width.Unambiguous
  height : p.height.Unambiguous
  first : ∀ b, p.pixels.head? = some b → isSpace b = false
  hash : 0x23 ∉ p.pixels.dropLast

theorem ppmtoimg_of_plain (hplain : p.Plain) : ppmtoimg p.bytes = some (0, p.image) := by
  have hpixels : p.pixels.dropWhile isSpace = p.pixels := by
    cases hlist : p.pixels with
    | nil => rfl
    | cons b pixels =>
      have hfirst := hplain.first b (by rw [hlist]; rfl)
      rw [List.dropWhile_cons_of_neg (by rw [hfirst]; simp)]
  rw [p.ppmtoimg_bytes, p.runLoop_afterHeader hplain.comments hplain.width hplain.height, hpixels]
  obtain ⟨written, hrun, hwritten⟩ := runLoop_pixels
    ⟨p.pixels, p.width.value, p.height.value, 255, le32 p.width.value ++ le32 p.height.value⟩
    p.width.value_ne_zero p.height.value_ne_zero (show (255 : Int) ≠ 0 by decide)
  rw [if_neg hplain.hash] at hwritten
  rw [hrun, hwritten]
  rfl

theorem plain_of_ppmtoimg {code : Nat} (hrun : ppmtoimg p.bytes = some (code, p.image)) :
    p.Plain := by
  rw [p.ppmtoimg_bytes] at hrun
  have hcomments : p.comments.length ≤ 1 := by
    by_contra hmany
    rw [p.runLoop_comments (by omega)] at hrun
    have hnil : [] = p.image := (Prod.mk.inj (Option.some.inj hrun)).2
    have hlength := congrArg List.length hnil
    simp [image, le32_length] at hlength
    omega
  -- every number that is written stays at its place in the output
  have hwidth : p.width.Unambiguous := by
    obtain ⟨unread, hrun', -⟩ := p.runLoop_afterWidth hcomments
    obtain ⟨code', written, hreturn⟩ := runLoop_returns
      ⟨unread, p.width.scanned, 0, 0, le32 p.width.scanned⟩
    rw [hrun', hreturn] at hrun
    have hout := (Prod.mk.inj (Option.some.inj hrun)).2
    unfold image at hout
    rw [List.append_assoc] at hout
    exact p.width.le32_scanned_eq_iff.mp (List.append_inj hout (by simp [le32_length])).1
  have hheight : p.height.Unambiguous := by
    obtain ⟨unread, hrun', -⟩ := p.runLoop_afterHeight hcomments hwidth
    obtain ⟨code', written, hreturn⟩ := runLoop_returns
      ⟨unread, p.width.value, p.height.scanned, 0, le32 p.width.value ++ le32 p.height.scanned⟩
    rw [hrun', hreturn] at hrun
    have hout := (Prod.mk.inj (Option.some.inj hrun)).2
    have hheader := (List.append_inj hout (by simp [le32_length])).1
    exact p.height.le32_scanned_eq_iff.mp (List.append_cancel_left hheader)
  obtain ⟨written, hpixels, hwritten⟩ := runLoop_pixels
    ⟨p.pixels.dropWhile isSpace, p.width.value, p.height.value, 255,
      le32 p.width.value ++ le32 p.height.value⟩
    p.width.value_ne_zero p.height.value_ne_zero (show (255 : Int) ≠ 0 by decide)
  dsimp only at hwritten
  rw [p.runLoop_afterHeader hcomments hwidth hheight, hpixels] at hrun
  have hall : written = p.pixels :=
    List.append_cancel_left (Prod.mk.inj (Option.some.inj hrun)).2
  -- nothing was dropped: neither white space at the start nor a byte after a `#`
  have hdrop := (List.dropWhile_sublist isSpace (l := p.pixels)).length_le
  have hlength : p.pixels.length ≤ (p.pixels.dropWhile isSpace).length := by
    rw [hall] at hwritten
    split at hwritten
    · exact Nat.le_of_lt hwritten
    · rw [← hwritten]
  have hkept : p.pixels.dropWhile isSpace = p.pixels :=
    (List.dropWhile_sublist isSpace).eq_of_length (by omega)
  refine ⟨hcomments, hwidth, hheight, fun b hb => ?_, ?_⟩
  · have hhead := List.head?_dropWhile_not isSpace p.pixels
    rwa [hkept, hb] at hhead
  · intro hmem
    rw [hkept, if_pos hmem, hall] at hwritten
    exact absurd hwritten (Nat.lt_irrefl _)

end Ppm

/-- The C program writes what the Python program writes. -/
def SameOutput (input : List UInt8) : Prop :=
  ∃ code out, ppmtoimg input = some (code, out) ∧ ppmToPristine input = some out

/-- The converters agree on the plain files and on no other. -/
theorem sameOutput_iff (p : Ppm) : SameOutput p.bytes ↔ p.Plain := by
  constructor
  · rintro ⟨code, out, hc, hpython⟩
    rw [ppmToPristine_bytes] at hpython
    obtain rfl := Option.some.inj hpython
    exact p.plain_of_ppmtoimg hc
  · intro hplain
    exact ⟨0, p.image, p.ppmtoimg_of_plain hplain, ppmToPristine_bytes p⟩

/-- The number 1. -/
def one : Dimension where
  digits := [0x31]
  isDigits := by decide +kernel
  pos := by decide
  fits := by decide

/-- One pixel with the bytes `#`, line feed and 0. -/
def hashPixel : Ppm where
  comments := []
  isComment := by simp
  lead := []
  isLead := by simp
  width := one
  gap := [0x20]
  isGap := by
    intro b hb
    rw [List.mem_singleton.mp hb]
    exact ⟨rfl, by decide⟩
  gap_ne_nil := by simp
  height := one
  trail := []
  isTrail := by simp
  pixels := [0x23, 0x0A, 0x00]

/-- The C program loses a byte of that pixel. -/
theorem ppmtoimg_loses_byte :
    ppmToPristine hashPixel.bytes = some [1, 0, 0, 0, 1, 0, 0, 0, 0x23, 0x0A, 0x00] ∧
      ppmtoimg hashPixel.bytes = some (0, [1, 0, 0, 0, 1, 0, 0, 0, 0x0A, 0x00]) ∧
      ¬ SameOutput hashPixel.bytes := by
  have hpython : ppmToPristine hashPixel.bytes =
      some [1, 0, 0, 0, 1, 0, 0, 0, 0x23, 0x0A, 0x00] := by decide +kernel
  have hc : ppmtoimg hashPixel.bytes = some (0, [1, 0, 0, 0, 1, 0, 0, 0, 0x0A, 0x00]) := by
    decide +kernel
  refine ⟨hpython, hc, ?_⟩
  rintro ⟨code, out, hc', hpython'⟩
  rw [hpython] at hpython'
  rw [hc, ← Option.some.inj hpython'] at hc'
  cases hc'

end Pristine.Tools
