import Pristine.Bsfs.Crc32
import Pristine.Bsfs.Fread

/-!
# The checksum and burst errors

The polynomial of CRC-32 has the highest bit set, so two strings of one length
whose difference lies within 32 consecutive bits have different checksums, and
`bsfs_verify_checksum` rejects one that is read in place of the other.
-/

namespace Pristine.Bsfs

open Lib

/-! ## Burst errors -/

/-- Two different strings of one length, whose bits differ only within 32 consecutive ones. -/
structure BurstError (data data' : List UInt8) : Prop where
  length : data'.length = data.length
  differ : data' ≠ data
  window : ∃ start, ∀ i, dataBit data i ≠ dataBit data' i → start ≤ i ∧ i < start + 32

/-- Different strings of one length have a bit that differs. -/
theorem exists_dataBit_ne {data data' : List UInt8} (hlength : data'.length = data.length)
    (hdiffer : data' ≠ data) : ∃ i < 8 * data.length, dataBit data i ≠ dataBit data' i := by
  by_contra hnone
  have hsame : ∀ i < 8 * data.length, dataBit data i = dataBit data' i := by
    intro i hi
    by_contra hne
    exact hnone ⟨i, hi, hne⟩
  refine hdiffer (List.ext_getElem hlength fun k hk hk' => ?_)
  apply UInt8.toNat_inj.mp
  refine Nat.eq_of_testBit_eq fun j => ?_
  by_cases hj : j < 8
  · have hbit := hsame (8 * k + j) (by omega)
    have hdiv : (8 * k + j) / 8 = k := by omega
    have hmod : (8 * k + j) % 8 = j := by omega
    simpa [dataBit, hdiv, hmod, List.getD_eq_getElem?_getD, hk, hk'] using hbit.symm
  · have hpow : 2 ^ 8 ≤ 2 ^ j := Nat.pow_le_pow_right (by decide) (by omega)
    have hbyte (b : UInt8) : b.toNat.testBit j = false :=
      Nat.testBit_lt_two_pow (Nat.lt_of_lt_of_le b.toNat_lt hpow)
    rw [hbyte, hbyte]

/-- A polynomial with the highest bit tells the two strings apart, from every register. -/
theorem crcLoop_burst {polynomial : UInt32} (htop : polynomial.toBitVec.getLsbD 31 = true)
    {data data' : List UInt8} (hburst : BurstError data data') (crc : UInt32) :
    crcLoop polynomial crc data ≠ crcLoop polynomial crc data' := by
  intro heq
  obtain ⟨start, hwindow⟩ := hburst.window
  obtain ⟨i, hi, hne⟩ := exists_dataBit_ne hburst.length hburst.differ
  have hxor : ∀ j, (dataBit data j ^^ dataBit data' j) = true ↔ dataBit data j ≠ dataBit data' j := by
    intro j
    cases dataBit data j <;> cases dataBit data' j <;> simp
  -- the register of the difference ends at zero
  have hzero : serial polynomial.toBitVec 0#32 (fun j => dataBit data j ^^ dataBit data' j)
      (8 * data.length) = 0#32 := by
    have hdiff := serial_xor polynomial.toBitVec crc.toBitVec crc.toBitVec (dataBit data)
      (dataBit data') (8 * data.length)
    rw [BitVec.xor_self, ← crcLoop_eq_serial, ← hburst.length, ← crcLoop_eq_serial, heq,
      BitVec.xor_self] at hdiff
    rw [← hburst.length]
    exact hdiff.symm
  exact serial_burst htop (fun j _ hj => hwindow j ((hxor j).mp hj)) ⟨i, hi, (hxor i).mpr hne⟩ hzero

/-! ## Checking a file -/

def bsfsChecksumFailed : Int := -10

section Verify

variable (ctx : BsfsContext) (disk : DiskRead) (bufsize : Nat)

/-- The loop of `bsfs_verify_checksum`, for at most `fuel` tests of `eof`. -/
def verifyLoop : Nat → UInt32 → BsfsFile → Option (Except Int UInt32)
  | 0, _, _ => none
  | fuel + 1, checksum, file =>
    if file.eof then some (.ok checksum)
    else
      let read := bsfsFread ctx disk 1 bufsize file
      if read.1 < 0 then some (.error read.1)
      else verifyLoop fuel (crc32Update checksum read.2.1) read.2.2

/-- `bsfs_verify_checksum`. -/
def bsfsVerifyChecksum (fuel : Nat) (file : BsfsFile) : Option Int :=
  match verifyLoop ctx disk bufsize fuel crc32Start file with
  | none => none
  | some (.error code) => some code
  | some (.ok checksum) =>
    some (if (crc32Finalize checksum).toNat ≠ file.inode.checksum then bsfsChecksumFailed else 1)

/-- What is read until the end of the file, if no read fails. -/
def readToEnd : Nat → BsfsFile → Option (List UInt8)
  | 0, _ => none
  | fuel + 1, file =>
    if file.eof then some []
    else
      let read := bsfsFread ctx disk 1 bufsize file
      if read.1 < 0 then none
      else (readToEnd fuel read.2.2).map (read.2.1 ++ ·)

variable {ctx disk bufsize}

/-- The loop computes the checksum of what it reads. -/
theorem verifyLoop_eq {fuel : Nat} {file : BsfsFile} {data : List UInt8}
    (hread : readToEnd ctx disk bufsize fuel file = some data) (checksum : UInt32) :
    verifyLoop ctx disk bufsize fuel checksum file = some (.ok (crc32Update checksum data)) := by
  induction fuel generalizing checksum file data with
  | zero => cases hread
  | succ fuel ih =>
    rw [readToEnd] at hread
    rw [verifyLoop]
    by_cases heof : file.eof = true
    · rw [if_pos heof] at hread ⊢
      cases hread
      rfl
    · rw [if_neg heof] at hread ⊢
      by_cases herror : (bsfsFread ctx disk 1 bufsize file).1 < 0
      · simp [herror] at hread
      · simp only [herror, if_false, Option.map_eq_some_iff] at hread ⊢
        obtain ⟨rest, hrest, rfl⟩ := hread
        rw [ih hrest, crc32Update_append]

/-- A file is accepted if the checksum of what is read is that of its inode. -/
theorem bsfsVerifyChecksum_eq {fuel : Nat} {file : BsfsFile} {data : List UInt8}
    (hread : readToEnd ctx disk bufsize fuel file = some data) :
    bsfsVerifyChecksum ctx disk bufsize fuel file =
      some (if (crc32Finalize (crc32Update crc32Start data)).toNat ≠ file.inode.checksum
        then bsfsChecksumFailed else 1) := by
  unfold bsfsVerifyChecksum
  rw [verifyLoop_eq hread]

end Verify

/-- Every program's checksum tells two strings apart that differ by a burst, and a file whose inode
has the checksum of the one and that reads as the other is rejected. -/
theorem crc32_detects_burst {data data' : List UInt8} (hburst : BurstError data data') :
    (∀ f ∈ crc32Programs, f.crc32Finalize (f.crc32Update 0xFFFFFFFF data) ≠
      f.crc32Finalize (f.crc32Update 0xFFFFFFFF data')) ∧
    ∀ ctx disk bufsize fuel file,
      file.inode.checksum = (crc32Finalize (crc32Update crc32Start data)).toNat →
      readToEnd ctx disk bufsize fuel file = some data' →
      bsfsVerifyChecksum ctx disk bufsize fuel file = some bsfsChecksumFailed := by
  have hne : crcLoop 0xEDB88320 0xFFFFFFFF data ≠ crcLoop 0xEDB88320 0xFFFFFFFF data' :=
    crcLoop_burst (by decide) hburst 0xFFFFFFFF
  have hfinal : crc32Finalize (crc32Update crc32Start data) ≠
      crc32Finalize (crc32Update crc32Start data') := fun h => hne (UInt32.not_inj.mp h)
  refine ⟨?_, ?_⟩
  · intro f hf
    simp only [crc32Programs, List.mem_cons, List.not_mem_nil, or_false] at hf
    rcases hf with rfl | rfl | rfl <;> exact hfinal
  · intro ctx disk bufsize fuel file hchecksum hread
    rw [bsfsVerifyChecksum_eq hread, hchecksum, if_pos]
    exact fun h => hfinal (UInt32.toNat_inj.mp h).symm

/-- A file of two bytes that were written as 0. -/
def twoByteFile : BsfsFile :=
  bsfsFopen { BsfsInode.zero with size := 2, checksum := 0x41D912FF } (fun _ => 0) (fun _ => 0) 4096

/-- The highest bit of the first byte and the lowest of the second are read as 1. -/
theorem crc32_detects_burst_two_bytes :
    readToEnd ⟨4096, 512⟩ (fun _ _ => (true, [0x80, 1])) 4096 2 twoByteFile = some [0x80, 1] ∧
      bsfsVerifyChecksum ⟨4096, 512⟩ (fun _ _ => (true, [0x80, 1])) 4096 2 twoByteFile =
        some bsfsChecksumFailed := by
  have hburst : BurstError [0, 0] [0x80, 1] := by
    refine ⟨rfl, by decide, 7, ?_⟩
    have hall : ∀ i < 16, dataBit [0, 0] i ≠ dataBit [0x80, 1] i → 7 ≤ i ∧ i < 7 + 32 := by decide
    intro i hne
    by_cases hi : i < 16
    · exact hall i hi hne
    · have hdiv : i / 8 = i / 8 - 2 + 2 := by omega
      exact absurd (by rw [dataBit, dataBit, hdiv]; rfl) hne
  have hread : readToEnd ⟨4096, 512⟩ (fun _ _ => (true, [0x80, 1])) 4096 2 twoByteFile =
      some [0x80, 1] := by
    decide +kernel
  exact ⟨hread, (crc32_detects_burst hburst).2 _ _ _ _ _ (by decide +kernel) hread⟩

end Pristine.Bsfs
