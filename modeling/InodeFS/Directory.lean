import InodeFS.File

/-! The methods of `inode_manager` on directories. A directory keeps one entry
in each of its blocks: a 4-byte inum and a name. Beyond 100 entries it uses the
indirect block that slot 100 names, with child inodes of type `T_DIR`. -/
namespace InodeFS

open Bytes Exec

/-- A C string: the bytes before the terminating NUL. -/
@[ext] structure CString where
  bytes : List Byte
  nul_free : 0 ∉ bytes

instance : DecidableEq CString := fun a b =>
  decidable_of_iff (a.bytes = b.bytes) CString.ext_iff.symm

/-- The C string that starts at the front of `bs`, with a NUL after its end. -/
def CString.ofBytes (bs : List Byte) : CString where
  bytes := bs.takeWhile (· != 0)
  nul_free h := by simpa using List.mem_takeWhile_imp h

/-- The block which `add_to_dir` fills for one entry. -/
def entryBlock (inum : Nat) (name : CString) : Block :=
  Block.ofBytes (le32 (UInt32.ofNat inum) ++ name.bytes)

/-- The entry which `read_dir` finds in a block. -/
def entryOf (b : Block) : Nat × CString :=
  ((u32At b.bytes 0).toNat, CString.ofBytes (b.bytes.drop 4))

/-- `inode_manager::read_dir`. -/
def readDir (m : Machine) : Nat → Nat → Except Stop (List (Nat × CString))
  | 0, _ => throw .stackOverflow
  | stack + 1, inum => do
      match ← getInode m inum with
      | none => return []
      | some ino =>
          if ino.isDir then
            let directBufs ← readDirect m ino
            let indirectBufs ← mapChildren m ino (readDir m stack)
            return directBufs.map entryOf ++ indirectBufs.flatten
          else return []

def getInoBlockNum (m : Machine) (inum : Nat) : Except Stop Nat := do
  let ino ← derefInode m inum
  return ino.size.toNat

/-- The loop of `add_to_dir` over the array `inums`, from index `i` on. `add`
is the recursive call and `indirect` the block the array came from. -/
def addToChild (add : Nat → Action Unit) (indirect : Nat) (inums : List Nat) :
    Nat → List Nat → Action Unit
  | _, [] => return ()
  | i, child :: rest => do
      if child = 0 then
        let fresh ← allocInode FileType.T_DIR.code
        add fresh
        writeBlock indirect (inumBlock (inums.set i fresh))
      else
        let blocks ← query (getInoBlockNum · child)
        if blocks < ndirect ∨ i = nindirect - 1 then add child
        else addToChild add indirect inums (i + 1) rest

/-- Store the entry in the slots of the directory or in a child. Copying a name
longer than 508 bytes runs over the end of the local buffer. -/
def addEntry (add : Nat → Action Unit) (ino : Inode) (inum : Nat) (name : CString) :
    Action Inode := do
  if ino.size.toNat < ndirect then
    let id ← allocBlock
    if id = 0 then throw .badAlloc
    else if 4 + name.bytes.length > blockSize then throw .bufferOverflow
    else
      writeBlock id (entryBlock inum name)
      return ino.setSlot ino.size.toNat id
  else
    let inums ← query (readBlock · (ino.slot ndirect))
    addToChild add (ino.slot ndirect) (inumBuf inums) 0 (inumBuf inums)
    return ino

/-- `inode_manager::add_to_dir`. -/
def addToDir : Nat → Nat → Nat → CString → Action Unit
  | 0, _, _, _ => throw .stackOverflow
  | stack + 1, parentInum, inum, name => do
      match ← query (getInode · parentInum) with
      | none => return ()
      | some ino =>
          if ino.isDir then
            let ino ← addEntry (fun child => addToDir stack child inum name) ino inum name
            let mtime ← time
            let ctime ← time
            putInode parentInum { ino with
              size := if ino.size.toNat < ndirect + 1 then ino.size + 1 else ino.size
              mtime := mtime, ctime := ctime }
          else return ()

/-- `inode_manager::ino_next_block`: the block at position `iter`, or the `id` of the
caller where there is no inode. It looks at no sizes. -/
def inoNextBlock (m : Machine) : Nat → Nat → Nat → Nat → Except Stop Nat
  | 0, _, _, _ => throw .stackOverflow
  | stack + 1, inum, iter, id => do
      match ← getInode m inum with
      | none => return id
      | some ino =>
          if iter < ndirect then return ino.slot iter
          else
            let inums ← readBlock m (ino.slot ndirect)
            let calcIndex := (iter - ndirect) / ndirect
            let maxIndex := nindirect - 1
            let index := if calcIndex < maxIndex then calcIndex else maxIndex
            inoNextBlock m stack ((inumBuf inums).getD index 0) (iter - (index + 1) * ndirect) id

/-- `inode_manager::read_blockid`. It looks at sizes only, not at types. -/
def readBlockid (m : Machine) : Nat → Nat → Except Stop (List Nat)
  | 0, _ => throw .stackOverflow
  | stack + 1, inum => do
      match ← getInode m inum with
      | none => return []
      | some ino =>
          let direct := (List.range (min ino.size.toNat ndirect)).map ino.slot
          let indirect ← mapChildren m ino (readBlockid m stack)
          return direct ++ indirect.flatten

/-- The search loop of `free_and_find_last`: free the first block that carries
`inum` and return its index, or the number of blocks when there is none. -/
def freeFirst (inum : Nat) : List Nat → Nat → Action Nat
  | [], index => return index
  | blockId :: rest, index => do
      let buf ← query (readBlock · blockId)
      if (u32At buf.bytes 0).toNat = inum then
        freeBlock blockId
        return index
      else freeFirst inum rest (index + 1)

/-- The output parameters of `free_and_find_last`. -/
structure LastEntry where
  index : Nat := 0
  lastBlockId : Nat := 0
  lastBlockIndex : Nat := 0

/-- `inode_manager::free_and_find_last`. Taking `back` of an empty vector is
undefined. -/
def freeAndFindLast (stack parentInum inum : Nat) : Action LastEntry := do
  match ← query (getInode · parentInum) with
  | none => return {}
  | some ino =>
      if ino.isDir then
        let blockIds ← query (readBlockid · stack parentInum)
        let index ← freeFirst inum blockIds 0
        match blockIds.getLast? with
        | none => throw .segfault
        | some last =>
            return { index := index, lastBlockId := last, lastBlockIndex := blockIds.length - 1 }
      else return {}

/-- The loop of `set_ino_block_id` over the array of child inums, from index
`i` on. `set` is the recursive call; it returns whether it succeeded and the
child inum, which becomes 0 when the child was freed. The result says which
index succeeded, and the inum it left in the array. -/
def setInChild (set : Nat → Nat → Action (Bool × Nat)) (index : Nat) :
    Nat → List Nat → Action (Option (Nat × Nat))
  | _, [] => return none
  | i, child :: rest => do
      if child = 0 then return none
      else
        let (done, child') ← set child ((index + 2 ^ 32 - (i + 1) * ndirect) % 2 ^ 32)
        if done then return some (i, child')
        else setInChild set index (i + 1) rest

/-- `inode_manager::set_ino_block_id`. The second result is the value left in
the reference parameter `parent_inum`. -/
def setInoBlockId : Nat → Nat → Nat → Nat → Bool → Action (Bool × Nat)
  | 0, _, _, _, _ => throw .stackOverflow
  | stack + 1, parentInum, index, blockId, autoFree => do
      match ← query (getInode · parentInum) with
      | none => return (false, parentInum)
      | some ino =>
          if ino.isDir then
            if index < min ino.size.toNat ndirect then
              let ino := ino.setSlot index blockId
              let ino := if blockId = 0 then { ino with size := ino.size - 1 } else ino
              if ino.size = 0 ∧ autoFree then
                freeInode parentInum
                return (true, 0)
              else
                putInode parentInum ino
                return (true, parentInum)
            else if ino.size.toNat > ndirect ∧ index > ndirect then
              let inums ← query (readBlock · (ino.slot ndirect))
              let found ← setInChild (fun child k => setInoBlockId stack child k blockId true)
                index 0 (inumBuf inums)
              match found with
              | none => return (false, parentInum)
              | some (i, child) =>
                  if i = 0 ∧ child = 0 then
                    freeBlock (ino.slot (ino.size.toNat - 1))
                    putInode parentInum { ino.setSlot (ino.size.toNat - 1) 0 with
                      size := UInt32.ofNat ndirect }
                    return (true, parentInum)
                  else return (true, parentInum)
            else return (false, parentInum)
          else return (false, parentInum)

/-- `inode_manager::remove_from_dir`. -/
def removeFromDir (stack parentInum inum : Nat) : Action Unit := do
  let last ← freeAndFindLast stack parentInum inum
  let (_, parentInum) ← setInoBlockId stack parentInum last.index last.lastBlockId false
  let (_, parentInum) ← setInoBlockId stack parentInum last.lastBlockIndex 0 false
  match ← query (getInode · parentInum) with
  | none => return ()
  | some ino =>
      let mtime ← time
      let ctime ← time
      putInode parentInum { ino with mtime := mtime, ctime := ctime }

end InodeFS
