import InodeFS.Library.Bytes
import InodeFS.Library.Exec

/-! The disk and the block layer: `disk` and `block_manager`. The disk is an
array of raw 512-byte blocks, and the bitmap and the inode table are regions of
that array, not separate structures. -/
namespace InodeFS

open Bytes Exec

def diskSize : Nat := 1024 * 1024 * 16 * 64
def blockSize : Nat := 512
def blockNum : Nat := diskSize / blockSize
def inodeNum : Nat := 1024

/-- One block of the disk. -/
@[ext] structure Block where
  bytes : List Byte
  bytes_length : bytes.length = blockSize

namespace Block

instance : DecidableEq Block := fun a b =>
  decidable_of_iff (a.bytes = b.bytes) Block.ext_iff.symm

/-- The block holding `bs`, cut or padded with zero bytes to the block size. -/
def ofBytes (bs : List Byte) : Block := ⟨padTo blockSize bs, padTo_length _ _⟩

def zeros : Block := ofBytes []

def setByte (b : Block) (i : Nat) (v : Byte) : Block :=
  ⟨b.bytes.set i v, by rw [List.length_set, b.bytes_length]⟩

/-- Overwrite the front of the block with `bs`. -/
def overlay (b : Block) (bs : List Byte) : Block := ofBytes (bs ++ b.bytes.drop bs.length)

theorem zeros_bytes : zeros.bytes = List.replicate blockSize 0 := by
  simp [zeros, ofBytes, padTo]

theorem ofBytes_bytes {bs : List Byte} (h : bs.length ≤ blockSize) :
    (ofBytes bs).bytes = bs ++ List.replicate (blockSize - bs.length) 0 :=
  padTo_of_length_le h

theorem overlay_bytes (b : Block) {bs : List Byte} (h : bs.length ≤ blockSize) :
    (b.overlay bs).bytes = bs ++ b.bytes.drop bs.length := by
  have hlen : (bs ++ b.bytes.drop bs.length).length = blockSize := by
    simp only [List.length_append, List.length_drop, b.bytes_length]
    omega
  exact padTo_of_length_eq hlen

end Block

/-- How an operation stops before it returns. The first two are exceptions; the others
end the process. -/
inductive Stop where
  /-- `std::bad_alloc`, which the code throws itself. -/
  | badAlloc
  /-- `std::length_error` of a string that would get too long. -/
  | lengthError
  /-- A null dereference, or a take from an empty vector. -/
  | segfault
  /-- A block number that is no index of the disk array. -/
  | outOfDisk
  /-- A copy past the end of a local buffer. -/
  | bufferOverflow
  /-- A read in front of a buffer. -/
  | wildRead
  /-- The recursion is deeper than the stack. -/
  | stackOverflow
  /-- A loop that never ends. -/
  | endlessLoop
  deriving DecidableEq

/-- The memory of the server. `clock` lists the values which the next calls of
`time(NULL)` return. `bitmapWrites` is a ghost: it lists the blocks to which
`mark_bit` and `unmark_bit` wrote, and no operation reads it. -/
structure Machine where
  disk : Nat → Block
  clock : Nat → UInt32
  bitmapWrites : List Nat

/-- A non-const method. What it changed before an exception stays changed. -/
abbrev Action (α : Type) := EStateM Stop Machine α

namespace Machine

/-- `disk::disk`, before any inode is allocated. -/
def zeroed (clock : Nat → UInt32) : Machine :=
  { disk := fun _ => Block.zeros, clock, bitmapWrites := [] }

def setBlock (m : Machine) (id : Nat) (buf : Block) : Machine :=
  { m with disk := fun b => if b = id then buf else m.disk b }

/-- Ghost code of `mark_bit` and `unmark_bit`. -/
def noteBitmapWrite (m : Machine) (id : Nat) : Machine :=
  { m with bitmapWrites := id :: m.bitmapWrites }

@[simp] theorem setBlock_disk (m : Machine) (id : Nat) (buf : Block) (b : Nat) :
    (m.setBlock id buf).disk b = if b = id then buf else m.disk b := rfl

@[simp] theorem noteBitmapWrite_disk (m : Machine) (id : Nat) :
    (m.noteBitmapWrite id).disk = m.disk := rfl

end Machine

def time : Action UInt32 := do
  let m ← get
  modify fun m => { m with clock := fun n => m.clock (n + 1) }
  return m.clock 0

def readBlock (m : Machine) (id : Nat) : Except Stop Block :=
  if id < blockNum then .ok (m.disk id) else .error .outOfDisk

def writeBlock (id : Nat) (buf : Block) : Action Unit :=
  if id < blockNum then modify fun m => m.setBlock id buf
  else throw .outOfDisk

structure Superblock where
  size : Nat
  nblocks : Nat
  ninodes : Nat

/-- Set by the constructor of `block_manager` and never changed. -/
def sb : Superblock :=
  { size := blockSize * blockNum, nblocks := blockNum, ninodes := inodeNum }

/-- Inodes per block. -/
def ipb : Nat := 1

/-- Bitmap bits per block. -/
def bpb : Nat := blockSize * 8

/-- Block containing inode `i`. -/
def iblock (i nblocks : Nat) : Nat := nblocks / bpb + i / ipb + 3

def isFree (m : Machine) (id : Nat) : Except Stop Bool := do
  let buf ← readBlock m (id / bpb + 2)
  return byteAt buf.bytes (id % bpb / 8) &&& 1 <<< (id % bpb % 8) == 0

def markBit (id : Nat) : Action Unit := do
  let buf ← query (readBlock · (id / bpb + 2))
  let byte := byteAt buf.bytes (id % bpb / 8) ||| 1 <<< (id % bpb % 8)
  modify (·.noteBitmapWrite (id / bpb + 2))
  writeBlock (id / bpb + 2) (buf.setByte (id % bpb / 8) (UInt8.ofNat byte))

def unmarkBit (id : Nat) : Action Unit := do
  let buf ← query (readBlock · (id / bpb + 2))
  let byte := byteAt buf.bytes (id % bpb / 8) &&& (255 ^^^ 1 <<< (id % bpb % 8))
  modify (·.noteBitmapWrite (id / bpb + 2))
  writeBlock (id / bpb + 2) (buf.setByte (id % bpb / 8) (UInt8.ofNat byte))

/-- The first data block: the one after the last inode. -/
def dataStart : Nat := iblock sb.ninodes sb.nblocks + 1

/-- The loop of `alloc_block`, with `count` ids left from `id` on. -/
def allocFrom : Nat → Nat → Action Nat
  | 0, _ => return 0
  | count + 1, id => do
      if ← query (isFree · id) then
        markBit id
        return id
      else allocFrom count (id + 1)

def allocBlock : Action Nat := allocFrom (sb.nblocks - dataStart) dataStart

def freeBlock (id : Nat) : Action Unit := do
  if id > iblock sb.ninodes sb.nblocks then
    if ← query (isFree · id) then return ()
    else
      unmarkBit id
      writeBlock id Block.zeros
  else return ()

end InodeFS
