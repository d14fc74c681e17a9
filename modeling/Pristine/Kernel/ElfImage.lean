import Pristine.Kernel.UserImage

/-!
# The image the ELF loader builds

`elf64_load_executable` with a reader that returns what is asked for, what is left of
the file, or one block of 4096 bytes, whichever is less.

The reads of a segment do not depend on memory, so the bytes that go to each page can
be computed first (`pageCopies`).  A load that keeps to its pages leaves the lower half
as the segments place it one after the other (`loadSegments_builtFrom`).  With an offset
in the first page and fewer than 4096 bytes in the file, the loop subtracts the offset
from the count and reads the rest into the second page (`Elf64Phdr.copiesByte_eq`).

* `loadsImage_of_aligned`: a load of segments with pages of their own that begin with a
  page, or have no bytes in the file or at least a page of them, builds the image that
  the program headers ask for; and what every load that builds it has in common.
* `oddElf_not_loaded`: two bytes that begin one byte behind the start of a page.

No condition on the headers alone is both necessary and sufficient, since a byte in the
wrong place may be the right one.
-/

namespace Pristine.Kernel

open Lib

section Definitions

variable (content : List UInt8)

/-! ## The headers of a file -/

/-- The file header as the loader sees it: what is not in the file is what the caller's buffer held. -/
def fileHeader (outHeader : List UInt8) (position : Nat) : Elf64Ehdr :=
  decodeElf64Ehdr (overlay outHeader ((content.drop position).take sizeofElf64Ehdr))

/-- Program header `ph` as the loop sees it: what is not in the file is what the stack held. -/
def programHeader (header : Elf64Ehdr) (stack : Nat → List UInt8) (ph : Nat) : Elf64Phdr :=
  decodeElf64Phdr (overlay (stack ph)
    ((content.drop ((header.ePhoff + ph * header.ePhentsize) % 2 ^ 64)).take sizeofElf64Phdr))

/-- The `PT_LOAD` headers among the `left` headers from `ph` on. -/
def segmentsFrom (header : Elf64Ehdr) (stack : Nat → List UInt8) (ph left : Nat) : List Elf64Phdr :=
  ((List.range' ph left).map (programHeader content header stack)).filter fun phdr =>
    phdr.pType = ptLoad

/-- The segments of a file. -/
def fileSegments (outHeader : List UInt8) (position : Nat) (stack : Nat → List UInt8) :
    List Elf64Phdr :=
  let header := fileHeader content outHeader position
  segmentsFrom content header stack 0 header.ePhnum

/-! ## What is to be loaded -/

/-- The byte that belongs at offset `i` of a segment, if the file has it. -/
def Elf64Phdr.wantedByte (phdr : Elf64Phdr) (i : Nat) : Option UInt8 :=
  if i < phdr.pFilesz then content[phdr.pOffset + i]? else some 0

/-- What the page loop reads into each of its pages: the offset in the page, and the bytes. -/
def pageCopies (offset : Nat) (remaining : Int) (position : Nat) : Nat → List (Nat × List UInt8)
  | 0 => []
  | left + 1 =>
    if 0 < remaining then
      let copied := (content.drop position).take (min (loadCount remaining offset) 4096)
      (offset, copied) :: pageCopies 0 (remaining - copied.length) (position + copied.length) left
    else
      (offset, []) :: pageCopies 0 remaining position left

/-- What the loader reads into the pages of a segment. -/
def Elf64Phdr.copies (phdr : Elf64Phdr) : List (Nat × List UInt8) :=
  pageCopies content (phdr.pVaddr % pageSize) (toInt64 phdr.pFilesz)
    (min phdr.pOffset content.length) (pagesBetween phdr.virtStart phdr.virtEnd)

/-- The end of the last segment. -/
def segmentsEnd (segments : List Elf64Phdr) : Nat :=
  (segments.map fun phdr => phdr.pVaddr + phdr.pMemsz).foldr max 0

/-- The load from `s` to `s'` has put every byte of every segment in its place, has written to no
memory but the pages it took and the lower half of the root table, and has returned the end of the
last page. -/
structure LoadsImage (root : Nat) (segments : List Elf64Phdr) (s s' : Machine) (top : Nat) : Prop where
  bytes : ∀ phdr ∈ segments, ∀ i < phdr.pMemsz,
    readVirt s'.mem root (phdr.pVaddr + i) = phdr.wantedByte content i
  /-- a read into a page ends in the page -/
  inPage : ∀ phdr ∈ segments, ∀ copy ∈ phdr.copies content, copy.1 + copy.2.length ≤ pageSize
  written : ∀ a, s'.mem a ≠ s.mem a →
    TakenSince s s' (a / pageSize) ∨ a / pageSize = root / pageSize
  upper : ∀ i, ¬ LowerHalf i → tableEntry s'.mem root i = tableEntry s.mem root i
  top_eq : top = alignUp (segmentsEnd segments) pageSize

/-! ## When it holds -/

/-- The address is in one of the pages of the segment. -/
def Elf64Phdr.covers (phdr : Elf64Phdr) (virt : Nat) : Bool :=
  phdr.virtStart ≤ virt ∧ virt < phdr.virtEnd

/-- Two segments have no page in common. -/
def Elf64Phdr.Apart (phdr phdr' : Elf64Phdr) : Prop :=
  phdr.virtEnd ≤ phdr'.virtStart ∨ phdr'.virtEnd ≤ phdr.virtStart

/-- The bytes of every segment are in the file, every segment has its pages for itself, and one with
less than a page of bytes begins with a page. -/
structure SegmentsAligned (segments : List Elf64Phdr) : Prop where
  inFile : ∀ phdr ∈ segments, phdr.pFilesz = 0 ∨ phdr.pOffset + phdr.pFilesz ≤ content.length
  apart : segments.Pairwise Elf64Phdr.Apart
  aligned : ∀ phdr ∈ segments,
    phdr.pVaddr % pageSize = 0 ∨ phdr.pFilesz = 0 ∨ pageSize ≤ phdr.pFilesz

end Definitions

/-! ## What the copies of a segment are -/

/-- Pages placed one after the other. -/
def placePages (image : Nat → Option UInt8) (addr : Nat) :
    List (Nat × List UInt8) → Nat → Option UInt8
  | [] => image
  | copy :: rest => placePages (placePage image addr copy.1 copy.2) (addr + pageSize) rest

/-- The byte at distance `x` from the first of the pages. -/
def copiesByte : List (Nat × List UInt8) → Nat → UInt8
  | [], _ => 0
  | copy :: rest, x => if x < pageSize then pageByte copy.1 copy.2 x else copiesByte rest (x - pageSize)

theorem copiesByte_cons (copy : Nat × List UInt8) (rest : List (Nat × List UInt8)) (x : Nat) :
    copiesByte (copy :: rest) x =
      if x < pageSize then pageByte copy.1 copy.2 x else copiesByte rest (x - pageSize) := rfl

/-- The pages are where they were put, and the rest is as before. -/
theorem placePages_apply {addr : Nat} (copies : List (Nat × List UInt8)) (image : Nat → Option UInt8)
    (haddr : addr % pageSize = 0) (virt : Nat) :
    placePages image addr copies virt =
      if addr ≤ virt ∧ virt < addr + copies.length * pageSize then
        some (copiesByte copies (virt - addr))
      else image virt := by
  induction copies generalizing addr image with
  | nil =>
    rw [if_neg (by rw [List.length_nil]; omega)]
    rfl
  | cons copy rest ih =>
    rw [placePages, ih _ (by unfold pageSize at *; omega), List.length_cons, Nat.add_mul, Nat.one_mul,
      copiesByte_cons]
    unfold placePage
    by_cases hfirst : virt / pageSize = addr / pageSize
    · -- the first page
      have hin : addr ≤ virt ∧ virt < addr + pageSize := by
        unfold pageSize at *
        omega
      have hmod : virt % pageSize = virt - addr := by
        unfold pageSize at *
        omega
      rw [if_neg (by omega), if_pos hfirst, if_pos (by omega), if_pos (by omega), hmod]
    · have hout : virt < addr ∨ addr + pageSize ≤ virt := by
        unfold pageSize at *
        omega
      rw [if_neg hfirst]
      by_cases hrest : addr + pageSize ≤ virt ∧ virt < addr + pageSize + rest.length * pageSize
      · rw [if_pos hrest, if_pos (by omega), if_neg (by omega), Nat.sub_sub]
      · rw [if_neg hrest, if_neg (by omega)]

section Copies

variable {content : List UInt8} {offset position left x : Nat}

@[simp] theorem length_pageCopies (offset : Nat) (remaining : Int) (position left : Nat) :
    (pageCopies content offset remaining position left).length = left := by
  induction left generalizing offset remaining position with
  | zero => rfl
  | succ left ih =>
    unfold pageCopies
    split
    · simp [ih]
    · simp [ih]

theorem pageByte_nil (offset j : Nat) : pageByte offset [] j = 0 := by
  unfold pageByte
  split <;> rfl

/-- With nothing left to read the pages stay zero. -/
theorem copiesByte_of_le_zero {remaining : Int} (hremaining : remaining ≤ 0) :
    copiesByte (pageCopies content offset remaining position left) x = 0 := by
  induction left generalizing offset x with
  | zero => rfl
  | succ left ih =>
    unfold pageCopies
    rw [if_neg (by omega), copiesByte_cons]
    split
    · exact pageByte_nil _ _
    · exact ih

theorem getD_chunk {n j : Nat} (hj : j < n) :
    ((content.drop position).take n).getD j 0 = content.getD (position + j) 0 := by
  rw [List.getD_eq_getElem?_getD, List.getElem?_take_of_lt hj, List.getElem?_drop,
    List.getD_eq_getElem?_getD]

/-- A page into which `n` bytes of the file are read. -/
theorem pageByte_chunk (offset n j : Nat) (hfile : position + n ≤ content.length) :
    pageByte offset ((content.drop position).take n) j =
      if offset ≤ j ∧ j < offset + n then content.getD (position + (j - offset)) 0 else 0 := by
  have hlen : ((content.drop position).take n).length = n := by
    rw [List.length_take, List.length_drop]
    omega
  unfold pageByte
  rw [hlen]
  split
  · rw [getD_chunk (by omega)]
  · rfl

/-- One pass of the page loop while there is something to read: `n` bytes are read. -/
theorem pageCopies_succ {remaining : Int} {n : Nat} (hremaining : 0 < remaining)
    (hcount : min (min (loadCount remaining offset) 4096) (content.length - position) = n) :
    pageCopies content offset remaining position (left + 1) =
      (offset, (content.drop position).take n) ::
        pageCopies content 0 (remaining - n) (position + n) left := by
  have hlen : ((content.drop position).take (min (loadCount remaining offset) 4096)).length = n := by
    rw [List.length_take, List.length_drop, hcount]
  have htake : (content.drop position).take (min (loadCount remaining offset) 4096) =
      (content.drop position).take n := by
    rw [List.take_eq_take_min, List.length_drop, hcount]
  rw [pageCopies, if_pos hremaining]
  dsimp only
  rw [hlen, htake]

/-- A read without an offset ends in its page, and so does one for the rest of the first page. -/
theorem pageCopies_inPage {remaining : Int} {copy : Nat × List UInt8}
    (hoffset : offset = 0 ∨ (remaining ≤ 0 ∨ pageSize ≤ remaining) ∧ offset ≤ pageSize)
    (hcopy : copy ∈ pageCopies content offset remaining position left) :
    copy.1 + copy.2.length ≤ pageSize := by
  induction left generalizing offset remaining position with
  | zero => cases hcopy
  | succ left ih =>
    unfold pageCopies at hcopy
    split at hcopy
    · rcases List.mem_cons.mp hcopy with rfl | hrest
      · dsimp only
        rw [List.length_take]
        unfold loadCount
        split <;> omega
      · exact ih (Or.inl rfl) hrest
    · rcases List.mem_cons.mp hcopy with rfl | hrest
      · dsimp only
        rw [List.length_nil]
        omega
      · exact ih (Or.inl rfl) hrest

/-- Without an offset the file's bytes follow each other. -/
theorem copiesByte_aligned {n : Nat} (hfile : position + n ≤ content.length)
    (hx : x < left * pageSize) :
    copiesByte (pageCopies content 0 n position left) x =
      if x < n then content.getD (position + x) 0 else 0 := by
  induction left generalizing n position x with
  | zero => exact absurd hx (by rw [Nat.zero_mul]; exact Nat.not_lt_zero x)
  | succ left ih =>
    rw [Nat.add_mul, Nat.one_mul] at hx
    rcases Nat.eq_zero_or_pos n with rfl | hpos
    · rw [copiesByte_of_le_zero (by simp), if_neg (Nat.not_lt_zero x)]
    · have hcount : min (loadCount n 0) 4096 = min n 4096 := by
        unfold loadCount pageSize
        split
        · rw [Int.emod_eq_of_lt (by omega) (by omega)]
          omega
        · omega
      have hrest : (n : Int) - (min n 4096 : Nat) = ((n - min n 4096 : Nat) : Int) := by omega
      rw [pageCopies_succ (by omega) (show _ = min n 4096 by omega), hrest, copiesByte_cons,
        pageByte_chunk _ _ _ (by omega)]
      unfold pageSize at *
      by_cases hfirst : x < 4096
      · rw [if_pos hfirst, Nat.sub_zero]
        split_ifs <;> first | omega | rfl
      · rw [if_neg hfirst, ih (by omega) (by omega)]
        by_cases hmore : x < n
        · rw [if_pos hmore, if_pos (by omega),
            show position + min n 4096 + (x - 4096) = position + x by omega]
        · rw [if_neg hmore, if_neg (by omega)]

end Copies

section Segment

variable {content : List UInt8} {phdr : Elf64Phdr} {x : Nat}

/-- The number of pages of a segment. -/
def Elf64Phdr.pages (phdr : Elf64Phdr) : Nat := pagesBetween phdr.virtStart phdr.virtEnd

/-- How many bytes are read into the first page of a segment that has as many as the offset. -/
def Elf64Phdr.firstCount (phdr : Elf64Phdr) : Nat :=
  min phdr.pFilesz pageSize - phdr.pVaddr % pageSize

variable (hlower : phdr.pVaddr + phdr.pMemsz ≤ 2 ^ 47)

include hlower

theorem Elf64Phdr.virtStart_eq : phdr.virtStart = phdr.pVaddr / pageSize * pageSize := by
  exact and_pageMask (by omega)

theorem Elf64Phdr.virtEnd_eq : phdr.virtEnd = (phdr.pVaddr + phdr.pMemsz + 4095) / 4096 * 4096 := by
  unfold Elf64Phdr.virtEnd
  rw [alignUp_pageSize]
  unfold pageSize
  omega

theorem Elf64Phdr.virtEnd_eq_add : phdr.virtEnd = phdr.virtStart + phdr.pages * pageSize := by
  unfold Elf64Phdr.pages pagesBetween
  rw [Elf64Phdr.virtStart_eq hlower, Elf64Phdr.virtEnd_eq hlower]
  unfold pageSize
  omega

theorem Elf64Phdr.offset_lt {i : Nat} (hi : i < phdr.pMemsz) :
    phdr.pVaddr % pageSize + i < phdr.pages * pageSize := by
  have hend := Elf64Phdr.virtEnd_eq_add hlower
  rw [Elf64Phdr.virtStart_eq hlower, Elf64Phdr.virtEnd_eq hlower] at hend
  unfold pageSize at *
  omega

variable (hsize : phdr.pFilesz ≤ phdr.pMemsz)

include hsize

theorem Elf64Phdr.toInt64_pFilesz : toInt64 phdr.pFilesz = phdr.pFilesz := by
  unfold toInt64
  rw [if_neg (by omega)]

/-- The reads of an aligned segment keep to their pages. -/
theorem Elf64Phdr.copies_inPage
    (haligned : phdr.pVaddr % pageSize = 0 ∨ phdr.pFilesz = 0 ∨ pageSize ≤ phdr.pFilesz) :
    ∀ copy ∈ phdr.copies content, copy.1 + copy.2.length ≤ pageSize := by
  intro copy hcopy
  have hoffset : phdr.pVaddr % pageSize < pageSize := Nat.mod_lt _ (by decide)
  refine pageCopies_inPage ?_ hcopy
  rw [Elf64Phdr.toInt64_pFilesz hlower hsize]
  omega

variable (hpos : 0 < phdr.pFilesz) (hoffset : phdr.pVaddr % pageSize ≤ phdr.pFilesz)
variable (hfile : phdr.pOffset + phdr.pFilesz ≤ content.length)

include hpos hoffset hfile

/-- The first read of a segment, and the rest. -/
theorem Elf64Phdr.copies_eq :
    phdr.copies content =
      (phdr.pVaddr % pageSize, (content.drop phdr.pOffset).take phdr.firstCount) ::
        pageCopies content 0 ((phdr.pFilesz - phdr.firstCount : Nat) : Int)
          (phdr.pOffset + phdr.firstCount) (phdr.pages - 1) := by
  have hpages : phdr.pages = phdr.pages - 1 + 1 := by
    have hfirst := Elf64Phdr.offset_lt hlower (i := 0) (by omega)
    cases hzero : phdr.pages with
    | zero =>
      rw [hzero, Nat.zero_mul] at hfirst
      omega
    | succ n => rfl
  have hcount : min (min (loadCount phdr.pFilesz (phdr.pVaddr % pageSize)) 4096)
      (content.length - phdr.pOffset) = phdr.firstCount := by
    unfold loadCount Elf64Phdr.firstCount
    generalize phdr.pVaddr % pageSize = offset at *
    unfold pageSize at *
    split_ifs <;> omega
  have hrest : (phdr.pFilesz : Int) - phdr.firstCount = (phdr.pFilesz - phdr.firstCount : Nat) := by
    unfold Elf64Phdr.firstCount
    omega
  unfold Elf64Phdr.copies
  rw [Elf64Phdr.toInt64_pFilesz hlower hsize,
    Nat.min_eq_left (by omega : phdr.pOffset ≤ content.length)]
  change pageCopies content _ _ _ phdr.pages = _
  rw [hpages, pageCopies_succ (by omega) hcount, Nat.add_sub_cancel, hrest]

/-- What a segment places: the first page, and the pages behind it. -/
theorem Elf64Phdr.copiesByte_eq (hx : x < phdr.pages * pageSize) :
    copiesByte (phdr.copies content) x =
      if x < pageSize then
        if phdr.pVaddr % pageSize ≤ x ∧ x < phdr.pVaddr % pageSize + phdr.firstCount then
          content.getD (phdr.pOffset + (x - phdr.pVaddr % pageSize)) 0
        else 0
      else if x - pageSize < phdr.pFilesz - phdr.firstCount then
        content.getD (phdr.pOffset + phdr.firstCount + (x - pageSize)) 0
      else 0 := by
  have hcount : phdr.firstCount ≤ phdr.pFilesz := by
    unfold Elf64Phdr.firstCount
    omega
  rw [Elf64Phdr.copies_eq hlower hsize hpos hoffset hfile, copiesByte_cons,
    pageByte_chunk _ _ _ (by omega)]
  by_cases hfirst : x < pageSize
  · rw [if_pos hfirst, if_pos hfirst]
  · rw [if_neg hfirst, if_neg hfirst, copiesByte_aligned (by omega)]
    rw [Nat.sub_mul, Nat.one_mul]
    omega

end Segment

/-! ## Runs of the loader -/

/-- The segments placed one after the other. -/
def placeSegments (content : List UInt8) (image : Nat → Option UInt8) (segments : List Elf64Phdr) :
    Nat → Option UInt8 :=
  segments.foldl (fun image phdr => placePages image phdr.virtStart (phdr.copies content)) image

section Run

variable {content : List UInt8} {debug : Bool} {root : Nat} {s0 s s' : Machine}
variable {image : Nat → Option UInt8} {header : Elf64Ehdr} {stack : Nat → List UInt8}

/-- The page loop places the pages of a segment. -/
theorem loadPages_builtFrom {left offset addr position : Nat} {remaining : Int}
    {result : Except ElfLoadError Nat} (hbuilt : BuiltFrom s0 root image s)
    (hend : addr + left * pageSize ≤ 2 ^ 47)
    (hin : ∀ copy ∈ pageCopies content offset remaining position left,
      copy.1 + copy.2.length ≤ pageSize)
    (hcall : loadPages debug (idealReader content) root offset addr remaining position left s =
      .ok (result, s')) :
    BuiltFrom s0 root (placePages image addr (pageCopies content offset remaining position left))
      s' := by
  induction left generalizing offset addr remaining position image s with
  | zero =>
    obtain ⟨-, rfl⟩ := pure_ok_iff.mp hcall
    exact hbuilt
  | succ left ih =>
    rw [Nat.add_mul, Nat.one_mul] at hend
    have haddr : addr < 2 ^ 47 := by
      unfold pageSize at hend
      omega
    have hnext : (addr + pageSize) % 2 ^ 64 = addr + pageSize := Nat.mod_eq_of_lt (by omega)
    obtain ⟨frame, t, hpage, hcall⟩ := bind_ok_iff.mp hcall
    obtain ⟨_, u, hzero, hcall⟩ := bind_ok_iff.mp hcall
    obtain rfl := zeroPage_ok_iff.mp hzero
    unfold pageCopies at hin ⊢
    split at hcall
    · rename_i hmore
      rw [if_pos hmore] at hin ⊢
      obtain ⟨hfirst, hrest⟩ := List.forall_mem_cons.mp hin
      have hread : (idealReader content).fread position 1 (loadCount remaining offset) =
          ((((content.drop position).take (min (loadCount remaining offset) 4096)).length : Int),
            (content.drop position).take (min (loadCount remaining offset) 4096), position +
            ((content.drop position).take (min (loadCount remaining offset) 4096)).length) := by
        show (_, (content.drop position).take (min (1 * _) 4096), _) = _
        rw [Nat.one_mul]
      rw [hread] at hcall
      dsimp only at hcall
      rw [if_neg (by omega), hnext] at hcall
      obtain ⟨_, v, hwrite, hcall⟩ := bind_ok_iff.mp hcall
      cases hwrite
      exact ih (hbuilt.page haddr userCode_linkFlags hpage hfirst _) (by omega) hrest hcall
    · rename_i hmore
      rw [if_neg hmore] at hin ⊢
      obtain ⟨hfirst, hrest⟩ := List.forall_mem_cons.mp hin
      rw [hnext] at hcall
      have hempty := hbuilt.page haddr userCode_linkFlags hpage hfirst (.zero frame :: t.log)
      unfold Machine.fillFrame at hempty
      rw [storeBytes_nil] at hempty
      exact ih hempty (by omega) hrest hcall

theorem loadSegment_builtFrom {phdr : Elf64Phdr} {file : Nat} {result : Except ElfLoadError Nat}
    (hbuilt : BuiltFrom s0 root image s) (hlower : phdr.pVaddr + phdr.pMemsz ≤ 2 ^ 47)
    (hin : ∀ copy ∈ phdr.copies content, copy.1 + copy.2.length ≤ pageSize)
    (hcall : loadSegment debug (idealReader content) root phdr file s = .ok (result, s')) :
    BuiltFrom s0 root (placePages image phdr.virtStart (phdr.copies content)) s' :=
  loadPages_builtFrom hbuilt (Elf64Phdr.pages_le hlower) hin hcall

/-- The program header that the loop reads from the file. -/
theorem read_programHeader (position ph : Nat) :
    decodeElf64Phdr (overlay (stack ph) ((idealReader content).fread
      ((idealReader content).fseeko position ((header.ePhoff + ph * header.ePhentsize) % 2 ^ 64)).2
        sizeofElf64Phdr 1).2.1) = programHeader content header stack ph := by
  unfold programHeader
  rw [← drop_min_length content]
  rfl

theorem segmentsFrom_succ (ph left : Nat) :
    segmentsFrom content header stack ph (left + 1) =
      if (programHeader content header stack ph).pType = ptLoad then
        programHeader content header stack ph :: segmentsFrom content header stack (ph + 1) left
      else segmentsFrom content header stack (ph + 1) left := by
  unfold segmentsFrom
  rw [List.range'_succ, List.map_cons, List.filter_cons]
  simp only [decide_eq_true_eq]

/-- The loop checks the size of each segment and keeps the highest end.  If every read keeps to its
page, the lower half is what the segments place. -/
theorem loadSegments_builtFrom {ph left : Nat} {state state' : LoadState Nat}
    (hcall : loadSegments debug (idealReader content) root header stack ph state left s =
      .ok (.ok state', s')) :
    (∀ phdr ∈ segmentsFrom content header stack ph left, phdr.pFilesz ≤ phdr.pMemsz) ∧
      state'.top = (segmentsFrom content header stack ph left).foldl
        (fun top phdr => max top phdr.virtEnd) state.top ∧
      ∀ image, BuiltFrom s0 root image s →
        (∀ phdr ∈ segmentsFrom content header stack ph left, phdr.pVaddr + phdr.pMemsz ≤ 2 ^ 47) →
        (∀ phdr ∈ segmentsFrom content header stack ph left, ∀ copy ∈ phdr.copies content,
          copy.1 + copy.2.length ≤ pageSize) →
        BuiltFrom s0 root (placeSegments content image (segmentsFrom content header stack ph left))
          s' := by
  induction left generalizing ph state s with
  | zero =>
    obtain ⟨hstate, rfl⟩ := pure_ok_iff.mp hcall
    cases hstate
    exact ⟨fun _ hphdr => absurd hphdr (List.not_mem_nil), rfl, fun _ hbuilt _ _ => hbuilt⟩
  | succ left ih =>
    rw [segmentsFrom_succ]
    obtain ⟨phdr, hphdr, hsize, hcases⟩ := loadSegments_succ_ok hcall
    obtain rfl := hphdr.symm.trans (read_programHeader _ _)
    rcases hcases with ⟨htype, file, hrest⟩ | ⟨htype, file, file', t, hload, hrest⟩
    · rw [if_neg htype]
      obtain ⟨hsizes, htop, hplaces⟩ := ih hrest
      exact ⟨hsizes, htop, hplaces⟩
    · rw [if_pos htype]
      obtain ⟨hsizes, htop, hplaces⟩ := ih hrest
      refine ⟨List.forall_mem_cons.mpr ⟨hsize, hsizes⟩, htop, fun image hbuilt hlower hin => ?_⟩
      obtain ⟨hlower, hlowers⟩ := List.forall_mem_cons.mp hlower
      obtain ⟨hfirst, hins⟩ := List.forall_mem_cons.mp hin
      exact hplaces _ (loadSegment_builtFrom hbuilt hlower hfirst hload) hlowers hins

end Run

/-! ## The image -/

section Image

variable {content : List UInt8} {segments : List Elf64Phdr} {phdr : Elf64Phdr} {virt : Nat}

/-- The last segment with a page decides what the page holds. -/
theorem placeSegments_apply (hlower : ∀ phdr ∈ segments, phdr.pVaddr + phdr.pMemsz ≤ 2 ^ 47) :
    placeSegments content (fun _ => none) segments virt =
      (segments.reverse.find? fun phdr => phdr.covers virt).map fun phdr =>
        copiesByte (phdr.copies content) (virt - phdr.virtStart) := by
  induction segments using List.reverseRecOn with
  | nil => rfl
  | append_singleton segments last ih =>
    obtain ⟨hlowers, hlast⟩ := List.forall_mem_append.mp hlower
    have hlast := hlast last (List.mem_singleton_self last)
    have haligned : last.virtStart % pageSize = 0 := by
      rw [Elf64Phdr.virtStart_eq hlast]
      exact Nat.mul_mod_left _ _
    have hlen : (last.copies content).length = last.pages := length_pageCopies _ _ _ _
    have hcovers : last.covers virt = true ↔
        last.virtStart ≤ virt ∧ virt < last.virtStart + (last.copies content).length * pageSize := by
      unfold Elf64Phdr.covers
      rw [decide_eq_true_eq, hlen, Elf64Phdr.virtEnd_eq_add hlast]
    unfold placeSegments at ih ⊢
    rw [List.foldl_append, List.foldl_cons, List.foldl_nil, placePages_apply _ _ haligned,
      List.reverse_append, List.reverse_singleton, List.singleton_append, List.find?_cons]
    by_cases hin : last.covers virt
    · rw [if_pos (hcovers.mp hin), hin]
      rfl
    · rw [if_neg fun h => hin (hcovers.mpr h), ih hlowers, Bool.eq_false_of_not_eq_true hin]

/-- The address of every byte of a segment is in its pages. -/
theorem Elf64Phdr.covers_byte (hlower : phdr.pVaddr + phdr.pMemsz ≤ 2 ^ 47) {i : Nat}
    (hi : i < phdr.pMemsz) : phdr.covers (phdr.pVaddr + i) = true := by
  unfold Elf64Phdr.covers
  rw [decide_eq_true_eq, Elf64Phdr.virtStart_eq hlower, Elf64Phdr.virtEnd_eq hlower]
  unfold pageSize
  omega

/-- At an address of a segment something is placed. -/
theorem exists_find_covers (hphdr : phdr ∈ segments) (hcovers : phdr.covers virt = true) :
    ∃ last ∈ segments, last.covers virt = true ∧
      (segments.reverse.find? fun phdr => phdr.covers virt) = some last := by
  cases hfind : segments.reverse.find? fun phdr => phdr.covers virt with
  | none =>
    rw [List.find?_eq_none] at hfind
    exact absurd hcovers (hfind phdr (List.mem_reverse.mpr hphdr))
  | some last =>
    have hcovers := List.find?_some hfind
    exact ⟨last, List.mem_reverse.mp (List.mem_of_find?_eq_some hfind), hcovers, rfl⟩

/-- A segment that has its pages for itself decides what they hold. -/
theorem placeSegments_eq (hlower : ∀ phdr ∈ segments, phdr.pVaddr + phdr.pMemsz ≤ 2 ^ 47)
    (hapart : segments.Pairwise Elf64Phdr.Apart) (hphdr : phdr ∈ segments) {i : Nat}
    (hi : i < phdr.pMemsz) :
    placeSegments content (fun _ => none) segments (phdr.pVaddr + i) =
      some (copiesByte (phdr.copies content) (phdr.pVaddr % pageSize + i)) := by
  have hcovers := Elf64Phdr.covers_byte (hlower phdr hphdr) hi
  obtain ⟨last, hlast, hcovers', hfind⟩ := exists_find_covers hphdr hcovers
  have : Std.Symm Elf64Phdr.Apart := ⟨fun _ _ => Or.symm⟩
  obtain rfl : last = phdr := by
    by_contra hne
    have hdisjoint := hapart.forall hlast hphdr hne
    unfold Elf64Phdr.covers at hcovers hcovers'
    rw [decide_eq_true_eq] at hcovers hcovers'
    unfold Elf64Phdr.Apart at hdisjoint
    omega
  rw [placeSegments_apply hlower, hfind, Option.map_some, Elf64Phdr.virtStart_eq (hlower _ hphdr)]
  congr 2
  unfold pageSize
  omega

/-- What is placed is what is wanted if the segment begins with a page or has a page of bytes. -/
theorem Elf64Phdr.copiesByte_eq_wanted (hlower : phdr.pVaddr + phdr.pMemsz ≤ 2 ^ 47)
    (hsize : phdr.pFilesz ≤ phdr.pMemsz)
    (hfile : phdr.pFilesz = 0 ∨ phdr.pOffset + phdr.pFilesz ≤ content.length)
    (haligned : phdr.pVaddr % pageSize = 0 ∨ phdr.pFilesz = 0 ∨ pageSize ≤ phdr.pFilesz) {i : Nat}
    (hi : i < phdr.pMemsz) :
    some (copiesByte (phdr.copies content) (phdr.pVaddr % pageSize + i)) =
      phdr.wantedByte content i := by
  have hmod : phdr.pVaddr % pageSize < pageSize := Nat.mod_lt _ (by decide)
  unfold Elf64Phdr.wantedByte
  rcases Nat.eq_zero_or_pos phdr.pFilesz with hzero | hpos
  · unfold Elf64Phdr.copies
    rw [hzero, copiesByte_of_le_zero (by decide), if_neg (Nat.not_lt_zero i)]
  · have hfile := hfile.resolve_left (by omega)
    rw [Elf64Phdr.copiesByte_eq hlower hsize hpos (by omega) hfile (Elf64Phdr.offset_lt hlower hi)]
    unfold Elf64Phdr.firstCount
    generalize phdr.pVaddr % pageSize = offset at *
    by_cases hin : i < phdr.pFilesz
    · have hbyte : content[phdr.pOffset + i]? = some (content.getD (phdr.pOffset + i) 0) := by
        rw [List.getD_eq_getElem?_getD, List.getElem?_eq_getElem (by omega), Option.getD_some]
      rw [if_pos hin, hbyte]
      split_ifs <;> first | omega | exact congrArg (fun a => some (content.getD a 0)) (by omega)
    · rw [if_neg hin]
      split_ifs <;> first | omega | rfl

theorem segmentsEnd_le (hlower : ∀ phdr ∈ segments, phdr.pVaddr + phdr.pMemsz ≤ 2 ^ 47) :
    segmentsEnd segments ≤ 2 ^ 47 := by
  induction segments with
  | nil => exact Nat.zero_le _
  | cons phdr rest ih =>
    obtain ⟨hfirst, hrest⟩ := List.forall_mem_cons.mp hlower
    exact Nat.max_le.mpr ⟨hfirst, ih hrest⟩

theorem alignUp_max {a b : Nat} (ha : a ≤ 2 ^ 47) (hb : b ≤ 2 ^ 47) :
    alignUp (max a b) pageSize = max (alignUp a pageSize) (alignUp b pageSize) := by
  rw [alignUp_pageSize, alignUp_pageSize, alignUp_pageSize]
  unfold pageSize
  omega

/-- The highest page end is the end of the last page. -/
theorem foldl_virtEnd (hlower : ∀ phdr ∈ segments, phdr.pVaddr + phdr.pMemsz ≤ 2 ^ 47) (top : Nat) :
    segments.foldl (fun top phdr => max top phdr.virtEnd) top =
      max top (alignUp (segmentsEnd segments) pageSize) := by
  induction segments generalizing top with
  | nil => exact (Nat.max_zero top).symm
  | cons phdr rest ih =>
    obtain ⟨hfirst, hrest⟩ := List.forall_mem_cons.mp hlower
    have hend : phdr.virtEnd = alignUp (phdr.pVaddr + phdr.pMemsz) pageSize := by
      unfold Elf64Phdr.virtEnd
      rw [Nat.mod_eq_of_lt (by omega)]
    have hcons : segmentsEnd (phdr :: rest) =
        max (phdr.pVaddr + phdr.pMemsz) (segmentsEnd rest) := rfl
    rw [List.foldl_cons, ih hrest, hcons, alignUp_max hfirst (segmentsEnd_le hrest), hend,
      Nat.max_assoc]

end Image

/-! ## The theorem -/

section Loads

variable {content : List UInt8} {debug : Bool} {root position : Nat} {s s' : Machine}
variable {outHeader : List UInt8} {stack : Nat → List UInt8} {loaded : LoadedElf}

/-- For every file and every load that succeeds with segments in the lower half.  Segments that have
their pages for themselves, and begin with a page unless they have no bytes in the file or at least a
page of them, are in place.  If segments are in place then their bytes are in the file, and a segment
that has its pages for itself and is not aligned in this sense, but has as many bytes as its offset, has
a zero where the first page was cut off. -/
theorem loadsImage_of_aligned (hempty : EmptyLower s root)
    (hcall : elf64LoadExecutable debug (idealReader content) root outHeader stack position s =
      .ok (.ok loaded, s'))
    (hlower : ∀ phdr ∈ fileSegments content outHeader position stack,
      phdr.pVaddr + phdr.pMemsz ≤ 2 ^ 47) :
    (SegmentsAligned content (fileSegments content outHeader position stack) →
      LoadsImage content root (fileSegments content outHeader position stack) s s' loaded.top) ∧
    (LoadsImage content root (fileSegments content outHeader position stack) s s' loaded.top →
      ∀ phdr ∈ fileSegments content outHeader position stack, 0 < phdr.pFilesz →
        phdr.pOffset + phdr.pFilesz ≤ content.length ∧
        ((fileSegments content outHeader position stack).Pairwise Elf64Phdr.Apart →
          0 < phdr.pVaddr % pageSize → phdr.pVaddr % pageSize ≤ phdr.pFilesz →
          phdr.pFilesz < pageSize →
            content[phdr.pOffset + (phdr.pFilesz - phdr.pVaddr % pageSize)]? = some 0)) := by
  obtain ⟨file, state, hload, htop, -⟩ := elf64LoadExecutable_ok rfl hcall
  obtain ⟨hsizes, hstate, hplaces⟩ := loadSegments_builtFrom hload
  have htop_eq : loaded.top =
      alignUp (segmentsEnd (fileSegments content outHeader position stack)) pageSize := by
    rw [htop, hstate]
    exact (foldl_virtEnd hlower 0).trans (Nat.zero_max _)
  have hbuilt (hin : ∀ phdr ∈ fileSegments content outHeader position stack,
      ∀ copy ∈ phdr.copies content, copy.1 + copy.2.length ≤ pageSize) :
      BuiltFrom s root (placeSegments content (fun _ => none)
        (fileSegments content outHeader position stack)) s' :=
    hplaces _ hempty.builtFrom hlower hin
  change ∀ phdr ∈ fileSegments content outHeader position stack, _ at hsizes
  generalize fileSegments content outHeader position stack = segments at *
  have hvirt {phdr : Elf64Phdr} {i : Nat} (hphdr : phdr ∈ segments) (hi : i < phdr.pMemsz) :
      phdr.pVaddr + i < 2 ^ 47 := by
    have := hlower phdr hphdr
    omega
  constructor
  · intro hfit
    have hbuilt := hbuilt fun phdr hphdr => Elf64Phdr.copies_inPage (hlower phdr hphdr)
      (hsizes phdr hphdr) (hfit.aligned phdr hphdr)
    refine ⟨fun phdr hphdr i hi => ?_, fun phdr hphdr =>
      Elf64Phdr.copies_inPage (hlower phdr hphdr) (hsizes phdr hphdr) (hfit.aligned phdr hphdr),
      hbuilt.written, hbuilt.upper, htop_eq⟩
    rw [hbuilt.image _ (hvirt hphdr hi), placeSegments_eq hlower hfit.apart hphdr hi]
    exact Elf64Phdr.copiesByte_eq_wanted (hlower phdr hphdr) (hsizes phdr hphdr)
      (hfit.inFile phdr hphdr) (hfit.aligned phdr hphdr) hi
  · intro himage phdr hphdr hpos
    have hbuilt := hbuilt himage.inPage
    have hsize := hsizes phdr hphdr
    have hfile : phdr.pOffset + phdr.pFilesz ≤ content.length := by
      by_contra hnot
      -- the last byte of the segment that should come from the file is not there
      have hlast : phdr.pFilesz - 1 < phdr.pMemsz := by omega
      have hbyte := himage.bytes phdr hphdr _ hlast
      obtain ⟨last, -, -, hfind⟩ := exists_find_covers hphdr
        (Elf64Phdr.covers_byte (hlower phdr hphdr) hlast)
      rw [hbuilt.image _ (hvirt hphdr hlast), placeSegments_apply hlower, hfind] at hbyte
      unfold Elf64Phdr.wantedByte at hbyte
      rw [if_pos (by omega), List.getElem?_eq_none (by omega)] at hbyte
      cases hbyte
    refine ⟨hfile, fun hapart hoffset hle hlt => ?_⟩
    -- the first byte that the loop leaves for the second page
    have hi : phdr.pFilesz - phdr.pVaddr % pageSize < phdr.pMemsz := by omega
    have hbyte := himage.bytes phdr hphdr _ hi
    rw [hbuilt.image _ (hvirt hphdr hi), placeSegments_eq hlower hapart hphdr hi,
      Elf64Phdr.copiesByte_eq (hlower phdr hphdr) hsize hpos hle hfile
        (Elf64Phdr.offset_lt (hlower phdr hphdr) hi)] at hbyte
    unfold Elf64Phdr.wantedByte Elf64Phdr.firstCount at hbyte
    rw [if_pos (by omega), if_neg (by omega), if_pos (by omega)] at hbyte
    exact hbyte.symm

end Loads

/-! ## Two files -/

/-- A file is loaded into a new address space and a byte is read there. -/
def loadThenRead (content : List UInt8) (virt : Nat) : KernelM (Option (Option UInt8)) := do
  let root ← vmmInit true
  match ← elf64LoadExecutable true (idealReader content) root [] (fun _ => []) 0 with
  | .error _ => return none
  | .ok _ => fun s => .ok (some (readVirt s.mem root virt), s)

theorem exists_load (content : List UInt8) (virt : Nat) (byte : Option UInt8)
    (hread : (loadThenRead content virt (Machine.allFree 1)).toOption.map Prod.fst = some (some byte)) :
    ∃ (s s' : Machine) (root : Nat) (loaded : LoadedElf), EmptyLower s root ∧
      elf64LoadExecutable true (idealReader content) root [] (fun _ => []) 0 s = .ok (.ok loaded, s') ∧
      readVirt s'.mem root virt = byte := by
  cases hrun : loadThenRead content virt (Machine.allFree 1) with
  | error panic =>
    rw [hrun] at hread
    cases hread
  | ok result =>
    obtain ⟨answer, final⟩ := result
    rw [hrun] at hread
    obtain ⟨root, s, hinit, hrest⟩ := bind_ok_iff.mp hrun
    obtain ⟨answer, s', hload, hrest⟩ := bind_ok_iff.mp hrest
    have hroot := vmmInit_emptyRoot hinit
    cases answer with
    | error err =>
      cases hrest
      cases hread
    | ok loaded =>
      cases hrest
      exact ⟨s, _, root, loaded, ⟨hroot.aligned, hroot.small, hroot.used, fun i _ => hroot.empty i⟩,
        hload, Option.some.inj (Option.some.inj hread)⟩

theorem fileSegments_tinyElf : fileSegments tinyElf [] 0 (fun _ => []) = [tinyPhdr] := by
  decide +kernel

theorem segmentsAligned_tinyElf : SegmentsAligned tinyElf [tinyPhdr] := by
  refine ⟨?_, List.pairwise_singleton _ _, ?_⟩
  · decide +kernel
  · decide +kernel

/-- The two bytes of the small file are in their place. -/
theorem loadsImage_tinyElf : ∃ (s s' : Machine) (root : Nat) (loaded : LoadedElf),
    EmptyLower s root ∧
      elf64LoadExecutable true (idealReader tinyElf) root [] (fun _ => []) 0 s = .ok (.ok loaded, s') ∧
      LoadsImage tinyElf root [tinyPhdr] s s' loaded.top := by
  obtain ⟨s, s', root, loaded, hempty, hcall, -⟩ := exists_load tinyElf 0x400000 (some 0xEB)
    (by decide +kernel)
  have himage := loadsImage_of_aligned hempty hcall
  rw [fileSegments_tinyElf] at himage
  refine ⟨s, s', root, loaded, hempty, hcall, (himage ?_).1 segmentsAligned_tinyElf⟩
  decide

/-- The same two bytes, to be loaded one byte behind the start of a page. -/
def oddElf : List UInt8 := tinyElf.set 80 1

def oddPhdr : Elf64Phdr := { tinyPhdr with pVaddr := 0x400001 }

/-- Only the first byte is read: the offset in the page is subtracted from the count, and there is no
second page for the rest. -/
theorem oddElf_not_loaded : ∃ (s s' : Machine) (root : Nat) (loaded : LoadedElf),
    EmptyLower s root ∧
      elf64LoadExecutable true (idealReader oddElf) root [] (fun _ => []) 0 s = .ok (.ok loaded, s') ∧
      fileSegments oddElf [] 0 (fun _ => []) = [oddPhdr] ∧
      oddPhdr.wantedByte oddElf 1 = some 0xFE ∧ readVirt s'.mem root (oddPhdr.pVaddr + 1) = some 0 ∧
      ¬ LoadsImage oddElf root [oddPhdr] s s' loaded.top := by
  obtain ⟨s, s', root, loaded, hempty, hcall, hread⟩ := exists_load oddElf
    (oddPhdr.pVaddr + 1) (some 0) (by decide +kernel)
  have hwanted : oddPhdr.wantedByte oddElf 1 = some 0xFE := by decide
  refine ⟨s, s', root, loaded, hempty, hcall, by decide +kernel, hwanted, hread, ?_⟩
  intro himage
  have hbyte := himage.bytes oddPhdr (List.mem_singleton_self _) 1 (by decide)
  rw [hread, hwanted] at hbyte
  cases hbyte

end Pristine.Kernel
