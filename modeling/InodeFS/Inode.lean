import InodeFS.Disk

/-! The inode table: the layout of `struct inode` in its block, and the methods
of `inode_manager` that read, write, allocate and free an inode. -/
namespace InodeFS

open Bytes Exec

def ndirect : Nat := 100

/-- Child inums in an indirect block: `BLOCK_SIZE / sizeof(uint32_t)`. -/
def nindirect : Nat := blockSize / 4

/-- `struct inode`. Type 0 marks a free inode. -/
@[ext] structure Inode where
  type : UInt16
  size : UInt32
  atime : UInt32
  mtime : UInt32
  ctime : UInt32
  blocks : List UInt32
  blocks_length : blocks.length = ndirect + 1

/-- `extent_protocol::types`. -/
inductive FileType where
  | T_DIR
  | T_FILE
  | T_LNK
  deriving DecidableEq

def FileType.code : FileType → Nat
  | .T_DIR => 1
  | .T_FILE => 2
  | .T_LNK => 3

namespace Inode

/-- The inode that `memset` leaves, and that a zeroed disk holds everywhere. -/
def cleared : Inode :=
  { type := 0, size := 0, atime := 0, mtime := 0, ctime := 0,
    blocks := List.replicate (ndirect + 1) 0, blocks_length := List.length_replicate }

instance : Inhabited Inode := ⟨cleared⟩

instance : DecidableEq Inode := fun a b =>
  decidable_of_iff (a.type = b.type ∧ a.size = b.size ∧ a.atime = b.atime ∧
    a.mtime = b.mtime ∧ a.ctime = b.ctime ∧ a.blocks = b.blocks)
    ⟨fun ⟨h₁, h₂, h₃, h₄, h₅, h₆⟩ => Inode.ext h₁ h₂ h₃ h₄ h₅ h₆, fun h => by simp [h]⟩

/-- `ino->blocks[k]`. -/
def slot (ino : Inode) (k : Nat) : Nat := (ino.blocks[k]?.getD 0).toNat

/-- `ino->blocks[k] = id`. -/
def setSlot (ino : Inode) (k id : Nat) : Inode :=
  { ino with
    blocks := ino.blocks.set k (UInt32.ofNat id)
    blocks_length := by rw [List.length_set, ino.blocks_length] }

def isDir (ino : Inode) : Bool := ino.type.toNat == FileType.T_DIR.code

/-- The bytes of the structure, with two bytes of padding after `type`. -/
def encode (ino : Inode) : List Byte :=
  le16 ino.type ++ ([0, 0] ++ (le32 ino.size ++ (le32 ino.atime ++
    (le32 ino.mtime ++ (le32 ino.ctime ++ ino.blocks.flatMap le32)))))

def decode (bs : List Byte) : Inode :=
  { type := u16At bs 0
    size := u32At bs 4
    atime := u32At bs 8
    mtime := u32At bs 12
    ctime := u32At bs 16
    blocks := (List.range (ndirect + 1)).map fun k => u32At bs (20 + 4 * k)
    blocks_length := by simp }

end Inode

/-- The 128 inums of an indirect block. -/
def inumBuf (b : Block) : List Nat :=
  (List.range nindirect).map fun i => (u32At b.bytes (4 * i)).toNat

def inumBlock (inums : List Nat) : Block :=
  Block.ofBytes (inums.flatMap fun i => le32 (UInt32.ofNat i))

/-- The entries before the first zero, where every loop over an array of inums
or of block numbers stops. -/
def untilZero (l : List Nat) : List Nat := l.takeWhile (· != 0)

def getInode (m : Machine) (inum : Nat) : Except Stop (Option Inode) :=
  if inum > inodeNum ∨ inum < 1 then .ok none
  else do
    let buf ← readBlock m (iblock inum sb.nblocks)
    return some (Inode.decode buf.bytes)

/-- An inode that is dereferenced without a check for `NULL`. -/
def derefInode (m : Machine) (inum : Nat) : Except Stop Inode := do
  match ← getInode m inum with
  | some ino => return ino
  | none => throw .segfault

def putInode (inum : Nat) (ino : Inode) : Action Unit := do
  if inum > inodeNum ∨ inum < 1 then return ()
  else
    let buf ← query (readBlock · (iblock inum sb.nblocks))
    writeBlock (iblock inum sb.nblocks) (buf.overlay ino.encode)

/-- The loop of `find_free_inode`, with `count` ids left from `id` on. It runs
to `nblocks`, and dereferences what `get_inode` returns at each id. -/
def findFreeFrom (m : Machine) : Nat → Nat → Except Stop Nat
  | 0, _ => return 0
  | count + 1, id => do
      let ino ← derefInode m id
      if ino.type = 0 then return id
      else findFreeFrom m count (id + 1)

def findFreeInode (m : Machine) : Except Stop Nat := findFreeFrom m sb.nblocks 1

def allocInode (type : Nat) : Action Nat := do
  if type ≠ FileType.T_DIR.code ∧ type ≠ FileType.T_FILE.code ∧ type ≠ FileType.T_LNK.code then
    return 0
  else
    let id ← query findFreeInode
    if id = 0 then throw .badAlloc
    else
      let now ← time
      putInode id { Inode.cleared with
        type := UInt16.ofNat type, atime := now, mtime := now, ctime := now }
      return id

def freeInode (inum : Nat) : Action Unit := do
  let ino ← query (derefInode · inum)
  if ino.type ≠ 0 then putInode inum Inode.cleared
  else return ()

end InodeFS
