import InodeFS.Inode

/-! The methods of `inode_manager` on the contents of an inode. A file keeps
its first 100 blocks in its own slots. Slot 100 names an indirect block, which
lists child inodes of 100 blocks each; the last of the 128 children takes the
whole rest. `stack` bounds the depth of the recursive calls. -/
namespace InodeFS

open Bytes Exec

/-- `n / BLOCK_SIZE + (n % BLOCK_SIZE != 0)`. -/
def blocksFor (n : Nat) : Nat := n / blockSize + if n % blockSize ≠ 0 then 1 else 0

/-- Data bytes in the direct slots of one inode. -/
def directSize : Nat := ndirect * blockSize

/-- The direct blocks that the size field covers. -/
def readDirect (m : Machine) (ino : Inode) : Except Stop (List Block) :=
  (List.range (min ino.size.toNat ndirect)).mapM fun i => readBlock m (ino.slot i)

/-- The loop over the child inums which every traversal runs when the size
exceeds `NDIRECT`. `visit` is the recursive call. -/
def mapChildren {α : Type} (m : Machine) (ino : Inode) (visit : Nat → Except Stop α) :
    Except Stop (List α) :=
  if ino.size.toNat > ndirect then do
    let inums ← readBlock m (ino.slot ndirect)
    (untilZero (inumBuf inums)).mapM visit
  else return []

/-- `inode_manager::read_file`, with an empty string where the code leaves
`*size` at the 0 of its caller. -/
def readFile (m : Machine) : Nat → Nat → Except Stop (List Byte)
  | 0, _ => throw .stackOverflow
  | stack + 1, inum => do
      match ← getInode m inum with
      | none => return []
      | some ino =>
          let directBufs ← readDirect m ino
          let indirectBufs ← mapChildren m ino (readFile m stack)
          return trim (directBufs.flatMap Block.bytes ++ indirectBufs.flatten)

/-- One round of the first loop of `write_file`. -/
def writeDirect (buf : List Byte) (size : Nat) (ino : Inode) (i : Nat) : Action Inode := do
  let id ← allocBlock
  if id > 0 then
    if blockSize * (i + 1) > size then
      writeBlock id (Block.ofBytes ((buf.drop (blockSize * i)).take (size - blockSize * i)))
    else
      writeBlock id (Block.ofBytes ((buf.drop (blockSize * i)).take blockSize))
    return ino.setSlot i id
  else throw .badAlloc

/-- The `do … while` of `write_file` over the first 127 children, with `count`
entries of the array left. `write` is the recursive call. -/
def writeChildren (write : Nat → List Byte → Int → Action Unit) (buf : List Byte) (size : Int) :
    Nat → List Nat → Action (List Nat)
  | 0, inodes => return inodes
  | count + 1, inodes => do
      let i := inodes.length
      let inodeNum ← allocInode FileType.T_FILE.code
      write inodeNum (buf.drop (directSize * (i + 1)))
        (min (size - directSize * (i + 1)) directSize)
      if size > directSize * (i + 2) then
        writeChildren write buf size count (inodes ++ [inodeNum])
      else return inodes ++ [inodeNum]

/-- The 128th child, which takes the rest. It is allocated whenever the loop
reached the end of the array, also when nothing is left. -/
def writeLastChild (write : Nat → List Byte → Int → Action Unit) (buf : List Byte) (size : Int)
    (inodes : List Nat) : Action (List Nat) := do
  if inodes.length = nindirect - 1 then
    let inodeNum ← allocInode FileType.T_FILE.code
    write inodeNum (buf.drop (directSize * nindirect)) (size - directSize * nindirect)
    return inodes ++ [inodeNum]
  else return inodes

/-- The branch of `write_file` for `size > NDIRECT * BLOCK_SIZE`. -/
def writeIndirect (write : Nat → List Byte → Int → Action Unit) (buf : List Byte) (size : Int)
    (ino : Inode) : Action Inode := do
  if size > directSize then
    let id ← allocBlock
    if id = 0 then throw .badAlloc
    else
      let inodes ← writeChildren write buf size (nindirect - 1) []
      let inodes ← writeLastChild write buf size inodes
      writeBlock id (inumBlock inodes)
      return ino.setSlot ndirect id
  else return ino

/-- `inode_manager::write_file`. `size` is the `int` argument, `buf` the bytes
from the pointer on. -/
def writeFile : Nat → Nat → List Byte → Int → Action Unit
  | 0, _, _, _ => throw .stackOverflow
  | stack + 1, inum, buf, size => do
      if size < 0 then return ()
      else
        match ← query (getInode · inum) with
        | none => return ()
        | some ino =>
            let ino ← (List.range (min (blocksFor size.toNat) ndirect)).foldlM
              (writeDirect buf size.toNat) ino
            let ino ← writeIndirect (writeFile stack) buf size ino
            let now ← time
            putInode inum { ino with
              size := UInt32.ofNat (min (blocksFor size.toNat) (ndirect + 1)), mtime := now }

/-- The loop of `remove_file` over the child inums. -/
def forChildren (ino : Inode) (visit : Nat → Action Unit) : Action Unit := do
  if ino.size.toNat > ndirect then
    let inodes ← query (readBlock · (ino.slot ndirect))
    (untilZero (inumBuf inodes)).forM visit
  else return ()

/-- `inode_manager::remove_file`. The loop over the direct slots stops at the
first zero slot, whatever the size field says. -/
def removeFile : Nat → Nat → Action Unit
  | 0, _ => throw .stackOverflow
  | stack + 1, inum => do
      let ino ← query (derefInode · inum)
      if ino.type = 0 then return ()
      else
        (untilZero ((List.range ndirect).map ino.slot)).forM freeBlock
        forChildren ino (removeFile stack)
        freeInode inum

/-- `inode_manager::get_file_block_num`, a `uint32_t`. -/
def getFileBlockNum (m : Machine) : Nat → Nat → Except Stop Nat
  | 0, _ => throw .stackOverflow
  | stack + 1, inum => do
      let ino ← derefInode m inum
      let size := ino.size.toNat
      if size < ndirect + 1 then return size
      else
        let nums ← mapChildren m ino (getFileBlockNum m stack)
        return (ndirect + nums.sum) % 2 ^ 32

def lastNonZeroElementIndexInBlock (m : Machine) (id : Nat) : Except Stop Nat := do
  let block ← readBlock m id
  return ((List.range blockSize).reverse.find? fun i => byteAt block.bytes i != 0).getD 0

/-- `inode_manager::get_file_size`, a `uint32_t`. -/
def getFileSize (m : Machine) : Nat → Nat → Except Stop Nat
  | 0, _ => throw .stackOverflow
  | stack + 1, inum => do
      let ino ← derefInode m inum
      let size := ino.size.toNat
      if size = 0 then return 0
      else if size < ndirect + 1 then
        let last ← lastNonZeroElementIndexInBlock m (ino.slot (size - 1))
        return (size - 1) * blockSize + last + 1
      else
        let sizes ← mapChildren m ino (getFileSize m stack)
        return (directSize + sizes.sum) % 2 ^ 32

/-- `extent_protocol::attr`. -/
structure Attr where
  type : Nat
  atime : UInt32
  mtime : UInt32
  ctime : UInt32
  size : Nat
  deriving DecidableEq

def getAttr (m : Machine) (stack inum : Nat) : Except Stop Attr := do
  let ino ← derefInode m inum
  let size ← getFileSize m stack inum
  return { type := ino.type.toNat, atime := ino.atime, mtime := ino.mtime, ctime := ino.ctime,
           size := size }

/-- One round of the first loop of `truncate_file`. -/
def truncateDirect (ino : Inode) (remainBlocks i : Nat) : Action Unit := do
  if i ≥ remainBlocks then
    writeBlock (ino.slot i) Block.zeros
    freeBlock (ino.slot i)
  else return ()

/-- The loop of `truncate_file` over the child inums. A child gets the size
beyond the data before it, as a `uint32_t`. -/
def truncateChildren (truncate : Nat → Nat → Action Unit) (ino : Inode) (size : Nat) :
    Action Unit := do
  if ino.size.toNat > ndirect then
    let inums ← query (readBlock · (ino.slot ndirect))
    (untilZero (inumBuf inums)).zipIdx.forM fun (child, i) =>
      truncate child
        ((if size > (i + 1) * directSize then size - (i + 1) * directSize else 0) % 2 ^ 32)
  else return ()

/-- `inode_manager::truncate_file`. `size` is a `size_t` and the number of
blocks a `uint32_t`. -/
def truncateFile : Nat → Nat → Nat → Action Unit
  | 0, _, _ => throw .stackOverflow
  | stack + 1, inum, size => do
      let ino ← query (derefInode · inum)
      let remainBlocks := blocksFor size % 2 ^ 32
      (List.range (min ino.size.toNat ndirect)).forM (truncateDirect ino remainBlocks)
      truncateChildren (truncateFile stack) ino size
      if size = 0 then freeInode inum
      else
        let now ← time
        putInode inum { ino with
          size := UInt32.ofNat (min remainBlocks (ndirect + 1)), mtime := now }

/-- One round of the first loop of `padding_file`. The id is not checked. -/
def padDirect (ino : Inode) (i : Nat) : Action Inode := do
  if i ≥ ino.size.toNat then
    let id ← allocBlock
    writeBlock id Block.zeros
    return ino.setSlot i id
  else return ino

/-- The child inum of one entry. A new one stays in the local array. -/
def childOrNew (type child : Nat) : Action Nat :=
  if child = 0 then allocInode type else return child

/-- The loop of `padding_file` over the array of child inums. -/
def padChildren (pad : Nat → Nat → Action Unit) (type finalBlocks : Nat) :
    Nat → List Nat → Action Unit
  | _, [] => return ()
  | i, child :: rest => do
      if finalBlocks ≤ (i + 1) * ndirect then return ()
      else
        let child ← childOrNew type child
        pad child ((if finalBlocks > (i + 2) * ndirect then ndirect
          else finalBlocks - (i + 1) * ndirect) * blockSize)
        padChildren pad type finalBlocks (i + 1) rest

def padIndirect (pad : Nat → Nat → Action Unit) (ino : Inode) (finalBlocks : Nat) :
    Action Unit := do
  if finalBlocks > ndirect then
    let inums ← query (readBlock · (ino.slot ndirect))
    padChildren pad ino.type.toNat finalBlocks 0 (inumBuf inums)
  else return ()

/-- `inode_manager::padding_file`. -/
def paddingFile : Nat → Nat → Nat → Action Unit
  | 0, _, _ => throw .stackOverflow
  | stack + 1, inum, size => do
      let ino ← query (derefInode · inum)
      let finalBlocks := blocksFor size % 2 ^ 32
      let ino ← (List.range (min finalBlocks ndirect)).foldlM padDirect ino
      padIndirect (paddingFile stack) ino finalBlocks
      let now ← time
      putInode inum { ino with
        size := UInt32.ofNat (min finalBlocks (ndirect + 1)), mtime := now }

/-- `inode_manager::set_attr`. A larger size goes to `truncate_file` and a
smaller one to `padding_file`. -/
def setAttr (stack inum size : Nat) : Action Unit := do
  let attrSize ← query (getFileSize · stack inum)
  if attrSize < size then truncateFile stack inum size
  else if attrSize > size then paddingFile stack inum size
  else return ()

end InodeFS
