import Pristine.Lib.ShiftRegister

/-!
# CRC-32

`bsfs-populate`, the kernel and stage 2 each define `crc32`, `crc32_update` and
`crc32_finalize`.  All of them run the same two loops; the polynomial stands in
each function again, and in `crc32` of `bsfs-populate` two of its digits are
exchanged.

The loops are a shift register of 32 bits that takes the data bit by bit, the
least significant bit of each byte first (`crcLoop_eq_serial`), so a checksum is
the remainder of the data by a polynomial.  `crc32Agree_iff` says for which data
the two polynomials give one remainder.
-/

namespace Pristine.Bsfs

open Function Lib Polynomial

/-! ## The loops -/

/-- One bit of the inner loop. -/
def crcRound (polynomial crc : UInt32) : UInt32 :=
  (crc >>> 1) ^^^ (polynomial &&& (0 - (crc &&& 1)))

/-- One byte. -/
def crcByte (polynomial crc : UInt32) (byte : UInt8) : UInt32 :=
  (crcRound polynomial)^[8] (crc ^^^ byte.toUInt32)

/-- The loop over the data. -/
def crcLoop (polynomial crc : UInt32) (data : List UInt8) : UInt32 :=
  data.foldl (crcByte polynomial) crc

theorem crcLoop_append (polynomial crc : UInt32) (data rest : List UInt8) :
    crcLoop polynomial crc (data ++ rest) = crcLoop polynomial (crcLoop polynomial crc data) rest :=
  List.foldl_append ..

/-- Going through the data in pieces is going through all of it. -/
theorem crcLoop_flatten (polynomial crc : UInt32) (chunks : List (List UInt8)) :
    chunks.foldl (crcLoop polynomial) crc = crcLoop polynomial crc chunks.flatten := by
  induction chunks generalizing crc with
  | nil => rfl
  | cons chunk rest ih => rw [List.foldl_cons, ih, List.flatten_cons, crcLoop_append]

/-! ## The loops as a shift register -/

/-- Bit `i` of a string: bytes in order, least significant bit first. -/
def dataBit (data : List UInt8) (i : Nat) : Bool := (data.getD (i / 8) 0).toNat.testBit (i % 8)

theorem crcRound_toBitVec (polynomial crc : UInt32) :
    (crcRound polynomial crc).toBitVec = shiftStep polynomial.toBitVec crc.toBitVec := by
  have hlow : (crc &&& 1).toBitVec = BitVec.setWidth 32 (BitVec.ofBool (crc.toBitVec.getLsbD 0)) := by
    rw [UInt32.toBitVec_and]
    exact BitVec.and_one_eq_setWidth_ofBool_getLsbD
  have hshift : (crc >>> 1).toBitVec = crc.toBitVec >>> 1 := by simp
  unfold crcRound shiftStep
  rw [UInt32.toBitVec_xor, UInt32.toBitVec_and, UInt32.toBitVec_sub, hlow, hshift]
  -- the mask is all ones or zero
  cases crc.toBitVec.getLsbD 0 with
  | true =>
    have hmask : (0 : UInt32).toBitVec - BitVec.setWidth 32 (BitVec.ofBool true) =
        BitVec.allOnes 32 := by decide
    rw [hmask, BitVec.and_allOnes]
    rfl
  | false =>
    have hmask : (0 : UInt32).toBitVec - BitVec.setWidth 32 (BitVec.ofBool false) = 0#32 := by
      decide
    rw [hmask, BitVec.and_zero, BitVec.xor_zero]
    rfl

theorem iterate_crcRound_toBitVec (polynomial crc : UInt32) (n : Nat) :
    ((crcRound polynomial)^[n] crc).toBitVec = (shiftStep polynomial.toBitVec)^[n] crc.toBitVec := by
  induction n with
  | zero => rfl
  | succ n ih => rw [iterate_succ_apply', iterate_succ_apply', crcRound_toBitVec, ih]

/-- The first eight bits of a string are its first byte. -/
theorem inputWord_dataBit (byte : UInt8) (data : List UInt8) :
    inputWord 32 (dataBit (byte :: data)) 8 = byte.toUInt32.toBitVec := by
  ext i hi
  rw [← BitVec.getLsbD_eq_getElem, ← BitVec.getLsbD_eq_getElem, getLsbD_inputWord]
  by_cases hlow : i < 8
  · have hdiv : i / 8 = 0 := by omega
    have hmod : i % 8 = i := by omega
    simp [hlow, hi, dataBit, hdiv, hmod, BitVec.getLsbD]
  · have hzero : byte.toBitVec.getLsbD i = false := BitVec.getLsbD_of_ge _ _ (by omega)
    simp [hlow, hzero]

theorem crcByte_toBitVec (polynomial crc : UInt32) (byte : UInt8) (data : List UInt8) :
    (crcByte polynomial crc byte).toBitVec =
      serial polynomial.toBitVec crc.toBitVec (dataBit (byte :: data)) 8 := by
  unfold crcByte
  rw [iterate_crcRound_toBitVec, UInt32.toBitVec_xor, serial_eq _ _ _ (by decide), inputWord_dataBit]

/-- The bytes are taken bit by bit. -/
theorem crcLoop_eq_serial (polynomial crc : UInt32) (data : List UInt8) :
    (crcLoop polynomial crc data).toBitVec =
      serial polynomial.toBitVec crc.toBitVec (dataBit data) (8 * data.length) := by
  induction data generalizing crc with
  | nil => rfl
  | cons byte data ih =>
    have htail : (fun i => dataBit (byte :: data) (8 + i)) = dataBit data := by
      funext i
      have hdiv : (8 + i) / 8 = i / 8 + 1 := by omega
      have hmod : (8 + i) % 8 = i % 8 := by omega
      simp [dataBit, hdiv, hmod]
    have hlength : 8 * (byte :: data).length = 8 + 8 * data.length := by
      rw [List.length_cons]
      omega
    rw [hlength, serial_add, htail, ← crcByte_toBitVec, ← ih]
    rfl

/-! ## The functions -/

/-- `crc32_update`, which is the same text in the three programs. -/
def crc32Update (crc : UInt32) (data : List UInt8) : UInt32 := crcLoop 0xEDB88320 crc data

/-- `crc32_finalize`. -/
def crc32Finalize (crc : UInt32) : UInt32 := ~~~crc

/-- The start value of every checksum. -/
def crc32Start : UInt32 := 0xFFFFFFFF

theorem crc32Update_append (crc : UInt32) (data rest : List UInt8) :
    crc32Update crc (data ++ rest) = crc32Update (crc32Update crc data) rest :=
  crcLoop_append ..

/-- The checksum of `"123456789"`. -/
example : crc32Finalize (crc32Update crc32Start [49, 50, 51, 52, 53, 54, 55, 56, 57]) =
    0xCBF43926 := by
  decide +kernel

/-- The CRC-32 functions of a program. -/
structure Crc32Functions where
  crc32 : List UInt8 → UInt32
  crc32Update : UInt32 → List UInt8 → UInt32
  crc32Finalize : UInt32 → UInt32

/-- `tools/bsfs/bsfs-populate.c`. -/
def populateCrc32 : Crc32Functions where
  crc32 := fun data => ~~~crcLoop 0xEBD88320 0xFFFFFFFF data
  crc32Update := crcLoop 0xEDB88320
  crc32Finalize := fun crc => ~~~crc

/-- `kernel/common/crc32.c`. -/
def kernelCrc32 : Crc32Functions where
  crc32 := fun data => ~~~crcLoop 0xEDB88320 0xFFFFFFFF data
  crc32Update := crcLoop 0xEDB88320
  crc32Finalize := fun crc => ~~~crc

/-- `boot/stage2/stage2_crc32.c`. -/
def stage2Crc32 : Crc32Functions where
  crc32 := fun data => ~~~crcLoop 0xEDB88320 0xFFFFFFFF data
  crc32Update := crcLoop 0xEDB88320
  crc32Finalize := fun crc => ~~~crc

/-- The programs with a CRC-32 of their own. -/
def crc32Programs : List Crc32Functions := [populateCrc32, kernelCrc32, stage2Crc32]

/-- The checksum of data that come in chunks. -/
def Crc32Functions.ofChunks (f : Crc32Functions) (chunks : List (List UInt8)) : UInt32 :=
  f.crc32Finalize (chunks.foldl f.crc32Update 0xFFFFFFFF)

/-- Every program, on the chunks and at once, computes one value. -/
def Crc32Agree (chunks : List (List UInt8)) : Prop :=
  ∃ checksum, ∀ f ∈ crc32Programs, f.ofChunks chunks = checksum ∧ f.crc32 chunks.flatten = checksum

theorem ofChunks_eq {f : Crc32Functions} (hf : f ∈ crc32Programs) (chunks : List (List UInt8)) :
    f.ofChunks chunks = ~~~crcLoop 0xEDB88320 0xFFFFFFFF chunks.flatten := by
  rw [← crcLoop_flatten]
  simp only [crc32Programs, List.mem_cons, List.not_mem_nil, or_false] at hf
  rcases hf with rfl | rfl | rfl <;> rfl

/-- `bsfs-populate` alone gives the same value in both forms only for such data. -/
theorem Crc32Agree.rest_eq {chunks : List (List UInt8)} (hagree : Crc32Agree chunks) :
    crcLoop 0xEBD88320 0xFFFFFFFF chunks.flatten = crcLoop 0xEDB88320 0xFFFFFFFF chunks.flatten := by
  obtain ⟨checksum, hall⟩ := hagree
  have hpopulate : populateCrc32 ∈ crc32Programs := List.mem_cons_self ..
  obtain ⟨hchunks, honce⟩ := hall _ hpopulate
  rw [ofChunks_eq hpopulate, ← honce] at hchunks
  exact (UInt32.not_inj.mp hchunks).symm

/-- The polynomial of the data behind the start value. -/
noncomputable def dataPoly (data : List UInt8) : (ZMod 2)[X] :=
  streamPoly 0xFFFFFFFF#32 (dataBit data) (8 * data.length)

/-- The polynomial of the data leaves one remainder by the two generators. -/
def SameRemainder (data : List UInt8) : Prop :=
  dataPoly data %ₘ generator 0xEBD88320#32 = dataPoly data %ₘ generator 0xEDB88320#32

theorem crcLoop_eq_iff (data : List UInt8) :
    crcLoop 0xEBD88320 0xFFFFFFFF data = crcLoop 0xEDB88320 0xFFFFFFFF data ↔
      SameRemainder data := by
  unfold SameRemainder dataPoly
  rw [← UInt32.toBitVec_inj, crcLoop_eq_serial, crcLoop_eq_serial, ← registerPoly_injective.eq_iff,
    registerPoly_serial (by decide), registerPoly_serial (by decide)]
  simp only [UInt32.toBitVec_ofNat]

/-- The data are the beginning of `FF FF FF FF 00 00 ..`, which shift the start value out. -/
def ShiftsOut (data : List UInt8) : Prop :=
  ∃ n, data <+: List.replicate 4 0xFF ++ List.replicate n 0

theorem crcLoop_zeros (polynomial : UInt32) (n : Nat) :
    crcLoop polynomial 0 (List.replicate n 0) = 0 := by
  have hround : crcRound polynomial 0 = 0 := by simp [crcRound]
  have hbyte : crcByte polynomial 0 0 = 0 := iterate_fixed hround 8
  induction n with
  | zero => rfl
  | succ n ih => rwa [List.replicate_succ, crcLoop, List.foldl_cons, hbyte]

/-- No polynomial is ever added. -/
theorem ShiftsOut.crcLoop_eq {data : List UInt8} (hdata : ShiftsOut data) :
    crcLoop 0xEBD88320 0xFFFFFFFF data = crcLoop 0xEDB88320 0xFFFFFFFF data := by
  obtain ⟨n, hprefix⟩ := hdata
  have htake := List.prefix_iff_eq_take.mp hprefix
  rw [List.take_append, List.length_replicate, List.take_replicate, List.take_replicate] at htake
  rw [htake, crcLoop_append, crcLoop_append]
  by_cases hlong : 4 ≤ data.length
  · have hones (polynomial : UInt32) (h : polynomial = 0xEBD88320 ∨ polynomial = 0xEDB88320) :
        crcLoop polynomial 0xFFFFFFFF (List.replicate 4 0xFF) = 0 := by
      rcases h with rfl | rfl <;> decide +kernel
    rw [Nat.min_eq_right hlong, hones _ (.inl rfl), hones _ (.inr rfl), crcLoop_zeros, crcLoop_zeros]
  · rw [Nat.sub_eq_zero_of_le (by omega), Nat.zero_min, Nat.min_eq_left (by omega)]
    have hall : ∀ k < 4, crcLoop 0xEBD88320 0xFFFFFFFF (List.replicate k 0xFF) =
        crcLoop 0xEDB88320 0xFFFFFFFF (List.replicate k 0xFF) := by
      decide +kernel
    exact hall _ (by omega)

/-- The checksums agree exactly for data whose polynomial leaves one remainder by the two
generators, in particular for those that shift the start value out. -/
theorem crc32Agree_iff (chunks : List (List UInt8)) :
    (Crc32Agree chunks ↔ SameRemainder chunks.flatten) ∧
      (ShiftsOut chunks.flatten → Crc32Agree chunks) := by
  have hiff : Crc32Agree chunks ↔ SameRemainder chunks.flatten := by
    rw [← crcLoop_eq_iff]
    refine ⟨Crc32Agree.rest_eq, fun hrest => ?_⟩
    refine ⟨~~~crcLoop 0xEDB88320 0xFFFFFFFF chunks.flatten, fun f hf => ⟨ofChunks_eq hf chunks, ?_⟩⟩
    simp only [crc32Programs, List.mem_cons, List.not_mem_nil, or_false] at hf
    rcases hf with rfl | rfl | rfl
    · exact congrArg (~~~ ·) hrest
    · rfl
    · rfl
  exact ⟨hiff, fun hdata => hiff.mpr ((crcLoop_eq_iff _).mp hdata.crcLoop_eq)⟩

/-- The remainders can agree for other data too. -/
example : crcLoop 0xEBD88320 0xFFFFFFFF [0x9C, 0xCF, 0x05, 0x95, 0x01] =
    crcLoop 0xEDB88320 0xFFFFFFFF [0x9C, 0xCF, 0x05, 0x95, 0x01] := by
  decide +kernel

/-- Of the strings of one byte only `0xFF` is such. -/
theorem crcLoop_byte_eq_iff (byte : UInt8) :
    crcLoop 0xEBD88320 0xFFFFFFFF [byte] = crcLoop 0xEDB88320 0xFFFFFFFF [byte] ↔ byte = 0xFF := by
  revert byte
  have hall : ∀ n : Fin 256, crcLoop 0xEBD88320 0xFFFFFFFF [UInt8.ofFin n] =
      crcLoop 0xEDB88320 0xFFFFFFFF [UInt8.ofFin n] ↔ n = 255 := by
    decide +kernel
  intro byte
  have hbyte := hall byte.toFin
  rw [UInt8.ofFin_toFin] at hbyte
  rw [hbyte]
  constructor
  · intro h
    rw [← UInt8.ofFin_toFin byte, h]
    rfl
  · rintro rfl
    rfl

/-- A zero byte is not. -/
theorem crc32_disagree : ¬ Crc32Agree [[0]] := fun hagree =>
  absurd ((crcLoop_byte_eq_iff 0).mp hagree.rest_eq) (by decide)

end Pristine.Bsfs
