import Pristine.Bsfs.Alloc
import Pristine.Bsfs.Crc32
import Pristine.Bsfs.Host

/-!
# `bsfs-populate`

`bsfs_populate_dir` and `main` of `tools/bsfs/bsfs-populate.c`.  A file's bytes
are stored block by block; its L1 table is kept in memory and written after the
data.  `fuel` bounds the depth of the host's directories.
-/

namespace Pristine.Bsfs

open Lib Kernel

/-! ## Records as bytes -/

/-- The little-endian bytes of a number. -/
def leBytes (width value : Nat) : List UInt8 := (List.range width).map (byteOf value)

/-- A `BsfsDirent` whose name was filled in by `snprintf`; the rest of the name is zero. -/
def direntBytes (inode : Nat) (name : CString) : List UInt8 :=
  let name := (name.snprintf bsfsMaxDirentname).bytes
  leBytes 4 inode ++ name ++ List.replicate (bsfsMaxDirentname - name.length) 0

/-- The blocks of bytes that `fread` returns one after the other. -/
def chunks (size : Nat) (data : List UInt8) : List (List UInt8) :=
  (List.range (divCeil data.length size)).map fun k => (data.drop (k * size)).take size

/-! ## Files -/

/-- What the write loop carries along: the checksum, and block and contents of the L1 table. -/
structure StoreState where
  crc : UInt32
  l1 : Option (Nat × (Nat → Nat))

section PopulateDir

variable (exits : Bool)

/-- Write one block of a file. -/
def writeBlock (block : Nat) (data : List UInt8) : PopulateM Unit := do
  let s ← get
  seekImage (populateOffset s.header block)
  writeImage data

/-- The body of the write loop for a block with a direct pointer. -/
def storeDirect (idx current block : Nat) (data : List UInt8) (st : StoreState) :
    PopulateM StoreState := do
  modifyInode idx fun i => i.setDirect current block
  writeBlock block data
  pure { st with crc := crc32Update st.crc data }

/-- The L1 table, which is allocated for its first entry. -/
def l1TableFor (idx slot : Nat) (st : StoreState) : PopulateM (Option (Nat × (Nat → Nat))) :=
  if slot = 0 then do
    let table ← bsfsAllocBlock exits
    modifyInode idx fun i => { i with blocksL1indirect := table }
    pure (some (table, fun _ => 0))
  else
    pure st.l1

/-- The body of the write loop for a block in the L1 table. -/
def storeIndirect (idx slot block : Nat) (data : List UInt8) (st : StoreState) :
    PopulateM StoreState := do
  let l1 ← l1TableFor exits idx slot st
  match l1 with
  | none => throw .undefined
  | some (table, entries) => do
      writeBlock block data
      pure ⟨crc32Update st.crc data, some (table, Function.update entries slot block)⟩

/-- The body of the write loop for a block beyond the L1 table.  The files are closed before the
panic, so nothing after it is defined. -/
def storeTooBig (path : CString) (size current l3Start : Nat) : PopulateM StoreState := do
  bsfsPanic exits
    (if current < l3Start then .exceedsL1 path.bytes size else .exceedsL2 path.bytes size)
  throw .undefined

/-- Where the block with index `current` goes. -/
def placeChunk (path : CString) (size idx current block : Nat) (data : List UInt8)
    (st : StoreState) : PopulateM StoreState := do
  let s ← get
  let l1Capacity := s.header.blockSize / 4
  let l2Start := u32 (bsfsMaxDirectblocks + l1Capacity)
  let l3Start := u32 (l2Start + u32 (l1Capacity * l1Capacity))
  if current < bsfsMaxDirectblocks then
    storeDirect idx current block data st
  else if current < l2Start then
    storeIndirect exits idx (current - bsfsMaxDirectblocks) block data st
  else
    storeTooBig exits path size current l3Start

/-- The body of the write loop, for the block with index `current`. -/
def storeChunk (path : CString) (size idx current : Nat) (data : List UInt8) (st : StoreState) :
    PopulateM StoreState := do
  let block ← bsfsAllocBlock exits
  let st ← placeChunk exits path size idx current block data st
  modifyInode idx fun i => { i with
    blocks := u32 (i.blocks + 1)
    size := (i.size + data.length) % 2 ^ 64 }
  pure st

/-- The write loop. -/
def storeChunks (path : CString) (size idx : Nat) :
    Nat → List (List UInt8) → StoreState → PopulateM StoreState
  | _, [], st => pure st
  | current, data :: rest, st => do
      let st ← storeChunk exits path size idx current data st
      storeChunks path size idx (current + 1) rest st

/-- The bytes of an L1 table. -/
def l1Bytes (capacity : Nat) (entries : Nat → Nat) : List UInt8 :=
  (List.range capacity).flatMap fun k => leBytes 4 (entries k)

/-- A directory or file inode before its contents. -/
def freshInode (type time : Nat) (i : BsfsInode) : BsfsInode :=
  { i with
    type := type
    permissions := bsfsInodePermRead ||| bsfsInodePermWrite
    uid := 0
    gid := 0
    size := 0
    created := time
    modified := time
    accessed := time
    linkCount := 0 }

/-- Write the L1 table, if there is one. -/
def writeL1 (capacity : Nat) : Option (Nat × (Nat → Nat)) → PopulateM Unit
  | some (table, entries) => writeBlock table (l1Bytes capacity entries)
  | none => pure ()

/-- Contents, L1 table and checksum of a file. -/
def storeFile (path : CString) (time idx : Nat) (data : List UInt8) : PopulateM Unit := do
  modifyInode idx (freshInode bsfsInodeTypeFile time)
  let s ← get
  let st ← storeChunks exits path data.length idx 0 (chunks s.header.blockSize data)
    ⟨crc32Start, none⟩
  writeL1 (s.header.blockSize / 4) st.l1
  modifyInode idx fun i => { i with checksum := (crc32Finalize st.crc).toNat }

/-! ## Directories -/

/-- Write a directory entry at the offset `bsfs_alloc_dirent` returned. -/
def writeDirent (offset inode : Nat) (name : CString) : PopulateM Unit := do
  seekImage offset
  writeImage (direntBytes inode name)

/-- `size += sizeof(BsfsDirent)`. -/
def growDirectory (idx : Nat) : PopulateM Unit :=
  modifyInode idx fun i => { i with size := (i.size + sizeofBsfsDirent) % 2 ^ 64 }

/-- The entries `"."` and `".."`. -/
def addLink (idx inode : Nat) (name : CString) : PopulateM Unit := do
  let offset ← bsfsAllocDirent exits idx
  writeDirent offset inode name
  growDirectory idx

/-- How both branches begin: the place of a new entry, and its inode. -/
def openEntry (idx : Nat) : PopulateM (Nat × Nat) := do
  let offset ← bsfsAllocDirent exits idx
  let inode ← bsfsAllocInode exits
  growDirectory idx
  pure (offset, inode)

variable (fs : HostFs)

/-- The branch for a regular file. -/
def populateFile (path name : CString) (time idx : Nat) : PopulateM Unit := do
  let (offset, fileIdx) ← openEntry exits idx
  match fs.fopen (subpath path name) with
  | none =>
    bsfsPanic exits (.cannotOpenFile (subpath path name).bytes)
    throw .undefined
  | some data =>
    storeFile exits (subpath path name) time fileIdx data
    writeDirent offset fileIdx name

/-- The branch for a directory. -/
def populateSubdir (recurse : CString → Nat → Nat → PopulateM Unit) (path name : CString)
    (idx : Nat) : PopulateM Unit := do
  let (offset, dirIdx) ← openEntry exits idx
  writeDirent offset dirIdx name
  recurse (subpath path name) dirIdx idx

/-- The body of the loop over the host's directory entries. -/
def populateEntry (recurse : CString → Nat → Nat → PopulateM Unit) (path : CString)
    (time idx : Nat) (dirent : HostDirent) : PopulateM Unit :=
  if dirent.name = .dot ∨ dirent.name = .dotDot then pure ()
  else
    match dirent.type with
    | .dir => populateSubdir exits recurse path dirent.name idx
    | .reg => populateFile exits fs path dirent.name time idx
    | .unknown => do
        bsfsPanic exits .direntUnknown
        throw .undefined
    | .other type => do
        bsfsPanic exits (.direntType type)
        throw .undefined

def populateEntries (recurse : CString → Nat → Nat → PopulateM Unit) (path : CString)
    (time idx : Nat) : List HostDirent → PopulateM Unit
  | [] => pure ()
  | dirent :: rest => do
      populateEntry exits fs recurse path time idx dirent
      populateEntries recurse path time idx rest

/-- `bsfs_populate_dir`. -/
def bsfsPopulateDir : Nat → CString → Nat → Nat → PopulateM Unit
  | 0, _, _, _ => throw .outOfFuel
  | fuel + 1, path, idx, parent => do
      bsfsPanicIf exits (fs.opendir path = none) (.cannotOpenPath path.bytes)
      modifyInode idx fun i =>
        { freshInode bsfsInodeTypeDirectory (fs.time path).toNat i with blocks := 0 }
      addLink exits idx idx .dot
      addLink exits idx parent .dotDot
      match fs.opendir path with
      | none => throw .undefined
      | some dirents =>
        populateEntries exits fs (bsfsPopulateDir fuel) path (fs.time path).toNat idx dirents

end PopulateDir

end Pristine.Bsfs
