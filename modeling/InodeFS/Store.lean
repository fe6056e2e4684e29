import InodeFS.Inode

/-! The raw disk seen as three separate maps: the bitmap, the inode table and
the data blocks. Every primitive of the block and inode layers acts on exactly
one entry of one map. Block 0 is kept as data: no layer owns it, and
directories write to it. -/
namespace InodeFS

open Bytes Exec

/-- The blocks that `alloc_block` may hand out. -/
def IsData (b : Nat) : Prop := dataStart ≤ b ∧ b < sb.nblocks

/-- The blocks that the map of data blocks shows: block 0 and block 1 as well. -/
def Visible (b : Nat) : Prop := IsData b ∨ b < 2

/-- The numbers of inodes. `get_inode` refuses all others. -/
def IsInum (i : Nat) : Prop := 1 ≤ i ∧ i ≤ inodeNum

/-- The data blocks by number: behind the superblock, the bitmap and the inode table. -/
theorem isData_iff {b : Nat} : IsData b ↔ 1540 ≤ b ∧ b < 2097152 := Iff.rfl

theorem isInum_iff {i : Nat} : IsInum i ↔ 1 ≤ i ∧ i ≤ 1024 := Iff.rfl

instance (b : Nat) : Decidable (IsData b) := inferInstanceAs (Decidable (_ ∧ _))

instance (b : Nat) : Decidable (Visible b) := inferInstanceAs (Decidable (_ ∨ _))

instance (i : Nat) : Decidable (IsInum i) := inferInstanceAs (Decidable (_ ∧ _))

@[simp] theorem blockSize_eq : blockSize = 512 := rfl
@[simp] theorem blockNum_eq : blockNum = 2097152 := rfl
@[simp] theorem inodeNum_eq : inodeNum = 1024 := rfl
@[simp] theorem ndirect_eq : ndirect = 100 := rfl
@[simp] theorem nindirect_eq : nindirect = 128 := rfl
@[simp] theorem bpb_eq : bpb = 4096 := rfl
@[simp] theorem dataStart_eq : dataStart = 1540 := rfl
@[simp] theorem sb_nblocks : sb.nblocks = 2097152 := rfl
@[simp] theorem sb_ninodes : sb.ninodes = 1024 := rfl

/-- Every inode has a block of its own. -/
@[simp] theorem iblock_eq (i : Nat) : iblock i 2097152 = 515 + i := by
  simp only [iblock, bpb_eq, ipb]
  omega

/-- The abstract content of the disk. -/
@[ext] structure Store where
  bit : Nat → Bool
  inode : Nat → Inode
  data : Nat → Block

namespace Store

/-- The bit of a block set. -/
def mark (σ : Store) (b : Nat) : Store := { σ with bit := Function.update σ.bit b true }

/-- The bit of a block cleared. -/
def unmark (σ : Store) (b : Nat) : Store := { σ with bit := Function.update σ.bit b false }

/-- The inode with this number replaced. -/
def putInode (σ : Store) (i : Nat) (ino : Inode) : Store :=
  { σ with inode := Function.update σ.inode i ino }

/-- The data block with this number replaced. Its bit stays as it is. -/
def write (σ : Store) (b : Nat) (buf : Block) : Store :=
  { σ with data := Function.update σ.data b buf }

/-- An inode in use. -/
def Alive (σ : Store) (i : Nat) : Prop := (σ.inode i).type ≠ 0

instance (σ : Store) (i : Nat) : Decidable (σ.Alive i) := inferInstanceAs (Decidable (¬_))

section Updates

variable (σ : Store) (b i : Nat) (ino : Inode) (buf : Block)

@[simp] theorem mark_bit (c : Nat) : (σ.mark b).bit c = if c = b then true else σ.bit c := by
  simp [mark, Function.update_apply]

@[simp] theorem mark_inode : (σ.mark b).inode = σ.inode := rfl
@[simp] theorem mark_data : (σ.mark b).data = σ.data := rfl

@[simp] theorem unmark_bit (c : Nat) :
    (σ.unmark b).bit c = if c = b then false else σ.bit c := by
  simp [unmark, Function.update_apply]

@[simp] theorem unmark_inode : (σ.unmark b).inode = σ.inode := rfl
@[simp] theorem unmark_data : (σ.unmark b).data = σ.data := rfl
@[simp] theorem putInode_bit : (σ.putInode i ino).bit = σ.bit := rfl
@[simp] theorem putInode_data : (σ.putInode i ino).data = σ.data := rfl

@[simp] theorem putInode_inode (j : Nat) :
    (σ.putInode i ino).inode j = if j = i then ino else σ.inode j := by
  simp [putInode, Function.update_apply]

@[simp] theorem write_bit : (σ.write b buf).bit = σ.bit := rfl
@[simp] theorem write_inode : (σ.write b buf).inode = σ.inode := rfl

@[simp] theorem write_data (c : Nat) :
    (σ.write b buf).data c = if c = b then buf else σ.data c := by
  simp [write, Function.update_apply]

end Updates
end Store

/-- The bit of a block in the bitmap, which starts at block 2. -/
def rawBit (m : Machine) (b : Nat) : Bool :=
  (byteAt (m.disk (b / 4096 + 2)).bytes (b % 4096 / 8)).testBit (b % 4096 % 8)

/-- The abstraction of a machine. Outside the ranges of the three regions the
maps are constant. -/
def Machine.store (m : Machine) : Store :=
  { bit := fun b => decide (b < 2097152) && rawBit m b
    inode := fun i => if IsInum i then Inode.decode (m.disk (515 + i)).bytes else Inode.cleared
    data := fun b => if Visible b then m.disk b else Block.zeros }

/-- Only the disk counts, not the clock or the log of bitmap updates. -/
theorem Machine.store_congr {m m' : Machine} (h : m'.disk = m.disk) : m'.store = m.store := by
  simp only [Machine.store, rawBit, h]

namespace Inode

theorem slot_lt (ino : Inode) (k : Nat) : ino.slot k < 2 ^ 32 := UInt32.toNat_lt _

/-- There are 100 direct slots and one for the indirect block. -/
theorem slot_of_le (ino : Inode) {k : Nat} (h : 101 ≤ k) : ino.slot k = 0 := by
  rw [slot, List.getElem?_eq_none (by simpa [ino.blocks_length] using h)]
  rfl

@[simp] theorem cleared_slot (k : Nat) : cleared.slot k = 0 := by
  simp only [slot, cleared, List.getElem?_replicate]
  split <;> rfl

@[simp] theorem cleared_type : cleared.type = 0 := rfl
@[simp] theorem cleared_size : cleared.size = 0 := rfl

/-- One slot changes. -/
theorem setSlot_slot (ino : Inode) {k id : Nat} (hk : k < 101) (hid : id < 2 ^ 32) (l : Nat) :
    (ino.setSlot k id).slot l = if l = k then id else ino.slot l := by
  have hlen : k < ino.blocks.length := by simpa [ino.blocks_length] using hk
  by_cases h : l = k
  · subst h
    rw [if_pos rfl, slot, setSlot, List.getElem?_set_self hlen, Option.getD_some,
      UInt32.toNat_ofNat_of_lt' hid]
  · rw [if_neg h, slot, setSlot, List.getElem?_set_ne (Ne.symm h)]
    rfl

@[simp] theorem setSlot_type (ino : Inode) (k id : Nat) : (ino.setSlot k id).type = ino.type := rfl
@[simp] theorem setSlot_size (ino : Inode) (k id : Nat) : (ino.setSlot k id).size = ino.size := rfl

/-- An inode fits its block. -/
theorem encode_length (ino : Inode) : ino.encode.length = 424 := by
  simp [encode, ino.blocks_length]

private theorem u32At_skip (v : UInt32) (bs : List Byte) (off : Nat) :
    u32At (le32 v ++ bs) (off + 4) = u32At bs off := by
  rw [u32At_append_right _ _ (by simp), le32_length, Nat.add_sub_cancel]

private theorem u32At_skip_type (v : UInt16) (bs : List Byte) (off : Nat) :
    u32At (le16 v ++ ([0, 0] ++ bs)) (off + 4) = u32At bs off := by
  rw [← List.append_assoc, u32At_append_right _ _ (by simp)]
  simp

/-- What `put_inode` writes is what `get_inode` reads. -/
theorem decode_encode (ino : Inode) (tail : List Byte) : decode (ino.encode ++ tail) = ino := by
  have hs : ino.encode ++ tail = le16 ino.type ++ ([0, 0] ++ (le32 ino.size ++ (le32 ino.atime ++
      (le32 ino.mtime ++ (le32 ino.ctime ++ (ino.blocks.flatMap le32 ++ tail)))))) := by
    simp only [encode, List.append_assoc]
  rw [hs]
  apply Inode.ext
  · exact u16At_le16 _ _
  · exact (u32At_skip_type _ _ 0).trans (u32At_le32 _ _)
  · exact (u32At_skip_type _ _ 4).trans ((u32At_skip _ _ 0).trans (u32At_le32 _ _))
  · exact (u32At_skip_type _ _ 8).trans ((u32At_skip _ _ 4).trans
      ((u32At_skip _ _ 0).trans (u32At_le32 _ _)))
  · exact (u32At_skip_type _ _ 12).trans ((u32At_skip _ _ 8).trans
      ((u32At_skip _ _ 4).trans ((u32At_skip _ _ 0).trans (u32At_le32 _ _))))
  · apply List.ext_getElem
    · simp [decode, ino.blocks_length]
    · intro k h _
      have hk : k < ino.blocks.length := by simpa [decode, ino.blocks_length] using h
      have hOff : 20 + 4 * k = 4 * k + 4 + 4 + 4 + 4 + 4 := by omega
      simp only [decode, List.getElem_map, List.getElem_range]
      rw [hOff, u32At_skip_type, u32At_skip, u32At_skip, u32At_skip, u32At_skip,
        u32At_flatMap _ _ _ hk]

end Inode
end InodeFS
