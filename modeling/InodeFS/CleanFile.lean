import InodeFS.Clean
import InodeFS.History

/-! The readers never leave the disk, and every operation on files keeps the
disk clean, on both exits and from any clean state. -/
namespace InodeFS

open Bytes Exec Store

section Readers

variable {R N : Set Nat} {m : Machine} {ino : Inode} {α : Type} {post : α → Prop}

theorem Inode.Tidy.yields_readDirect (h : ino.Tidy) :
    Yields NoFault (readDirect m ino) Unchecked :=
  (Yields.mapM fun k _ => yields_readBlock (h.slot k)).mono fun _ _ => trivial

/-- A walk over the children reads the indirect block, which is addressable. -/
theorem Inode.Tidy.yields_mapChildren (h : ino.Tidy) {visit : Nat → Except Stop α}
    (hVisit : ∀ c, Yields NoFault (visit c) post) :
    Yields NoFault (mapChildren m ino visit) fun l => ∀ a ∈ l, post a := by
  unfold mapChildren
  split
  · exact (yields_readBlock (h.slot ndirect)).bind fun _ _ => Yields.mapM fun c _ => hVisit c
  · exact Yields.pure fun a ha => absurd ha List.not_mem_nil

namespace Machine.Clean

variable (hm : m.Clean R N)
include hm

/-- The induction is on the depth of the calls: a child is read by the same code. -/
theorem yields_readFile (stack i : Nat) : Yields NoFault (readFile m stack i) Unchecked := by
  induction stack generalizing i with
  | zero => exact Yields.throw nofun
  | succ stack ih =>
      apply (hm.yields_getInode i).bind
      rintro (_ | ino) h
      · exact Yields.pure trivial
      · have hTidy := (h ino rfl).tidy
        exact hTidy.yields_readDirect.bind fun _ _ =>
          (hTidy.yields_mapChildren ih).bind fun _ _ => Yields.pure trivial

theorem yields_readDir (stack i : Nat) : Yields NoFault (readDir m stack i) Unchecked := by
  induction stack generalizing i with
  | zero => exact Yields.throw nofun
  | succ stack ih =>
      apply (hm.yields_getInode i).bind
      rintro (_ | ino) h
      · exact Yields.pure trivial
      · have hTidy := (h ino rfl).tidy
        show Yields NoFault (if ino.isDir then _ else _) _
        split
        · exact hTidy.yields_readDirect.bind fun _ _ =>
            (hTidy.yields_mapChildren ih).bind fun _ _ => Yields.pure trivial
        · exact Yields.pure trivial

theorem yields_getFileSize (stack i : Nat) :
    Yields NoFault (getFileSize m stack i) Unchecked := by
  induction stack generalizing i with
  | zero => exact Yields.throw nofun
  | succ stack ih =>
      apply (hm.yields_derefInode i).bind
      intro ino h
      show Yields NoFault (if ino.size.toNat = 0 then _ else _) _
      split
      · exact Yields.pure trivial
      · show Yields NoFault (if ino.size.toNat < ndirect + 1 then _ else _) _
        split
        · have hLast : Yields NoFault
              (lastNonZeroElementIndexInBlock m (ino.slot (ino.size.toNat - 1))) Unchecked :=
            (yields_readBlock (h.tidy.slot _)).bind fun _ _ => Yields.pure trivial
          exact hLast.bind fun _ _ => Yields.pure trivial
        · exact (h.tidy.yields_mapChildren ih).bind fun _ _ => Yields.pure trivial

theorem yields_getAttr (stack i : Nat) : Yields NoFault (getAttr m stack i) Unchecked :=
  (hm.yields_derefInode i).bind fun _ _ =>
    (hm.yields_getFileSize stack i).bind fun _ _ => Yields.pure trivial

/-- All block numbers that it returns may be passed to the disk. -/
theorem yields_readBlockid (stack i : Nat) :
    Yields NoFault (readBlockid m stack i) fun l => ∀ b ∈ l, Addressable b := by
  induction stack generalizing i with
  | zero => exact Yields.throw nofun
  | succ stack ih =>
      apply (hm.yields_getInode i).bind
      rintro (_ | ino) h
      · exact Yields.pure fun b hb => absurd hb List.not_mem_nil
      · have hTidy := (h ino rfl).tidy
        apply (hTidy.yields_mapChildren ih).bind
        intro indirect hIndirect
        apply Yields.pure
        intro b hb
        rcases List.mem_append.mp hb with hb | hb
        · obtain ⟨k, -, rfl⟩ := List.mem_map.mp hb
          exact hTidy.slot k
        · obtain ⟨l, hl, hbl⟩ := List.mem_flatten.mp hb
          exact hIndirect l hl b hbl

/-- The directory is read, and nothing else. -/
theorem yields_lookup (stack parent : Nat) (name : CString) :
    Yields NoFault (ChfsClient.lookup m stack parent name) Unchecked :=
  (hm.yields_readDir stack _).bind fun _ _ => Yields.pure trivial

theorem yields_read (stack i size off : Nat) :
    Yields NoFault (ChfsClient.read m stack i size off) Unchecked := by
  apply (hm.yields_readFile stack _).bind
  intro str _
  show Yields NoFault (if str.length % 2 ^ 32 < off then _ else _) _
  split
  · exact Yields.pure trivial
  · show Yields NoFault (if str.length % 2 ^ 32 < (off + size) % 2 ^ 64 then _ else _) _
    split
    · exact Yields.pure trivial
    · exact Yields.pure trivial

end Machine.Clean
end Readers

section Files

variable {R N : Set Nat} {ino : Inode} {buf : List Byte} {r : Nat}

theorem IsData.addressable {b : Nat} (h : IsData b) : Addressable b := Or.inr h

/-- The block is marked before anything is written to it, and only then stored in a slot. -/
theorem keeps_writeDirect {size i : Nat} (hi : i < 100) (h : ino.Allowed N r) :
    KeepsClean R N (writeDirect buf size ino i) fun ino' => ino'.Allowed N r := by
  apply keeps_bind_allocBlock
  · exact Keeps.throw nofun
  · intro b hData
    have hPos : b > 0 := by
      have := isData_iff.mp hData
      omega
    have hWrite : ∀ block, KeepsClean (insert b R) N (writeBlock b block) Unchecked := fun block =>
      keeps_writeBlock hData.addressable fun _ => Or.inl (Set.mem_insert b R)
    have hSlot : (ino.setSlot i b).Allowed N r := h.setSlot hData.addressable fun h100 => by omega
    rw [if_pos hPos]
    refine Keeps.ite (fun _ => ?_) fun _ => ?_
    · exact (hWrite _).bind fun _ _ => Keeps.pure hSlot
    · exact (hWrite _).bind fun _ _ => Keeps.pure hSlot

theorem keeps_writeDirect_loop {size n : Nat} (hn : n ≤ 100) (h : ino.Allowed N r) :
    KeepsClean R N ((List.range n).foldlM (writeDirect buf size) ino)
      fun ino' => ino'.Allowed N r := by
  have hRound : ∀ i ∈ List.range n, ∀ ino', ino'.Allowed N r →
      KeepsClean R N (writeDirect buf size ino' i) fun ino'' => ino''.Allowed N r := by
    intro i hi ino' hIno
    have hLt := List.mem_range.mp hi
    exact keeps_writeDirect (by omega) hIno
  exact Keeps.foldlM hRound h

/-- What the recursive calls of `write_file` are assumed to keep. -/
def KeepsWriting (write : Nat → List Byte → Int → Action Unit) : Prop :=
  ∀ (R N : Set Nat) (r : Nat) (buf : List Byte) (size : Int), r ∈ N →
    KeepsClean R N (write r buf size) Unchecked

variable {write : Nat → List Byte → Int → Action Unit}

/-- A child is a file from its allocation on. -/
theorem keeps_writeChild {α : Type} {post : α → Prop} (hWrite : KeepsWriting write) {size : Int}
    {next : Nat → Action α} (hNext : ∀ N c, KeepsClean R N (next c) post) :
    KeepsClean R N (do
      let inodeNum ← allocInode FileType.T_FILE.code
      write inodeNum buf size
      next inodeNum) post := by
  apply keeps_bind_allocFile
  intro c
  exact (hWrite R _ c buf size (Set.mem_insert c N)).bind fun _ _ => hNext _ c

/-- Every round allocates a child of its own. -/
theorem keeps_writeChildren (hWrite : KeepsWriting write) (size : Int) (count : Nat)
    (inodes : List Nat) :
    KeepsClean R N (writeChildren write buf size count inodes) Unchecked := by
  induction count generalizing N inodes with
  | zero => exact Keeps.pure trivial
  | succ count ih =>
      apply keeps_writeChild hWrite
      intro N c
      exact Keeps.ite (fun _ => ih _) fun _ => Keeps.pure trivial

theorem keeps_writeLastChild (hWrite : KeepsWriting write) (size : Int) (inodes : List Nat) :
    KeepsClean R N (writeLastChild write buf size inodes) Unchecked := by
  apply Keeps.ite
  · intro _
    exact keeps_writeChild hWrite fun N c => Keeps.pure trivial
  · exact fun _ => Keeps.pure trivial

/-- The indirect block was marked before the children were made, and is reserved until it
is written. It goes to slot 100, so the inode has to be a file. -/
theorem keeps_writeIndirect (hWrite : KeepsWriting write) (size : Int) (hr : r ∈ N)
    (h : ino.Allowed N r) :
    KeepsClean R N (writeIndirect write buf size ino) fun ino' => ino'.Allowed N r := by
  apply Keeps.ite
  · intro _
    apply keeps_bind_allocBlock
    · exact Keeps.throw nofun
    · intro b hData
      have hne : b ≠ 0 := by
        have := isData_iff.mp hData
        omega
      rw [if_neg hne]
      apply (keeps_writeChildren hWrite size _ _).bind
      intro inodes _
      apply (keeps_writeLastChild hWrite size inodes).bind
      intro inodes' _
      apply (keeps_writeBlock hData.addressable fun _ => Or.inl (Set.mem_insert b R)).bind
      intro _ _
      apply Keeps.pure
      exact h.setSlot hData.addressable fun _ hDir => by simp [(h.file hr).2] at hDir
  · exact fun _ => Keeps.pure h

/-- In an inode in use the slots hold what `alloc_block` returned, at every depth of the tree. -/
theorem keeps_writeFile (stack : Nat) : KeepsWriting (writeFile stack) := by
  induction stack with
  | zero => exact fun _ _ _ _ _ _ => Keeps.throw nofun
  | succ stack ih =>
      intro R N r buf size hr
      apply Keeps.ite
      · exact fun _ => Keeps.pure trivial
      · intro _
        apply (Keeps.query fun m hm => hm.yields_getInode r).bind
        rintro (_ | ino) hFound
        · exact Keeps.pure trivial
        · have hStart := hFound ino rfl
          apply (keeps_writeDirect_loop (Nat.min_le_right _ _) hStart).bind
          intro ino₁ h₁
          apply (keeps_writeIndirect ih size hr h₁).bind
          intro ino₂ h₂
          apply keeps_time.bind
          intro now _
          exact keeps_putInode (h₂.congr rfl rfl)

theorem keeps_freeBlocks {l : List Nat} (h : ∀ b ∈ l, Addressable b) :
    KeepsClean ∅ N (l.forM freeBlock) Unchecked :=
  Keeps.forM fun b hb => keeps_freeBlock (h b hb)

theorem keeps_forChildren {visit : Nat → Action Unit} (h : ino.Tidy)
    (hVisit : ∀ c, KeepsClean R N (visit c) Unchecked) :
    KeepsClean R N (forChildren ino visit) Unchecked := by
  apply Keeps.ite
  · intro _
    exact (keeps_readBlock (h.slot ndirect)).bind fun _ _ => Keeps.forM fun c _ => hVisit c
  · exact fun _ => Keeps.pure trivial

/-- A freed block is zeroed, so the disk stays clean although the inode still points to it. -/
theorem keeps_removeFile (stack r : Nat) : KeepsClean ∅ ∅ (removeFile stack r) Unchecked := by
  induction stack generalizing r with
  | zero => exact Keeps.throw nofun
  | succ stack ih =>
      apply (keeps_derefInode r).bind
      intro ino h
      apply Keeps.ite
      · exact fun _ => Keeps.pure trivial
      · intro _
        have hSlots : ∀ b ∈ untilZero ((List.range ndirect).map ino.slot), Addressable b := by
          intro b hb
          obtain ⟨k, -, rfl⟩ := List.mem_map.mp (( List.takeWhile_prefix _).subset hb)
          exact h.tidy.slot k
        apply (keeps_freeBlocks hSlots).bind
        intro _ _
        apply (keeps_forChildren h.tidy ih).bind
        intro _ _
        exact keeps_freeInode r

/-- The block is zeroed before it is freed. -/
theorem keeps_truncateDirect (h : ino.Tidy) (remainBlocks i : Nat) :
    KeepsClean ∅ N (truncateDirect ino remainBlocks i) Unchecked := by
  apply Keeps.ite
  · intro _
    exact (keeps_writeBlock (h.slot i) fun _ => Or.inr rfl).bind fun _ _ =>
      keeps_freeBlock (h.slot i)
  · exact fun _ => Keeps.pure trivial

theorem keeps_truncateChildren {truncate : Nat → Nat → Action Unit} (h : ino.Tidy)
    (hTruncate : ∀ c size, KeepsClean R N (truncate c size) Unchecked) (size : Nat) :
    KeepsClean R N (truncateChildren truncate ino size) Unchecked := by
  apply Keeps.ite
  · intro _
    apply (keeps_readBlock (h.slot ndirect)).bind
    intro inums _
    exact Keeps.forM fun child _ => hTruncate child.1 _
  · exact fun _ => Keeps.pure trivial

/-- Children are cut first, and the inode is freed or gets its new size behind them. -/
theorem keeps_truncateFile (stack r size : Nat) :
    KeepsClean ∅ ∅ (truncateFile stack r size) Unchecked := by
  induction stack generalizing r size with
  | zero => exact Keeps.throw nofun
  | succ stack ih =>
      apply (keeps_derefInode r).bind
      intro ino h
      apply (Keeps.forM fun i _ => keeps_truncateDirect h.tidy (blocksFor size % 2 ^ 32) i).bind
      intro _ _
      apply (keeps_truncateChildren h.tidy ih size).bind
      intro _ _
      apply Keeps.ite
      · exact fun _ => keeps_freeInode r
      · intro _
        apply keeps_time.bind
        intro now _
        exact keeps_putInode (h.congr rfl rfl)

/-- Where no block is left the slot gets block 0, and zeros are written to it. -/
theorem keeps_padDirect {i : Nat} (hi : i < 100) (h : ino.Allowed N r) :
    KeepsClean R N (padDirect ino i) fun ino' => ino'.Allowed N r := by
  have hZeros : ∀ {S : Set Nat} {b : Nat}, Addressable b →
      KeepsClean S N (do writeBlock b Block.zeros; return ino.setSlot i b)
        fun ino' => ino'.Allowed N r := by
    intro S b hb
    apply (keeps_writeBlock hb fun _ => Or.inr rfl).bind
    exact fun _ _ => Keeps.pure (h.setSlot hb fun h100 => by omega)
  apply Keeps.ite
  · intro _
    exact keeps_bind_allocBlock (hZeros (Or.inl rfl)) fun b hData => hZeros hData.addressable
  · exact fun _ => Keeps.pure h

theorem keeps_padDirect_loop {n : Nat} (hn : n ≤ 100) (h : ino.Allowed N r) :
    KeepsClean R N ((List.range n).foldlM padDirect ino) fun ino' => ino'.Allowed N r := by
  have hRound : ∀ i ∈ List.range n, ∀ ino', ino'.Allowed N r →
      KeepsClean R N (padDirect ino' i) fun ino'' => ino''.Allowed N r := by
    intro i hi ino' hIno
    have hLt := List.mem_range.mp hi
    exact keeps_padDirect (by omega) hIno
  exact Keeps.foldlM hRound h

/-- A child whose number is 0 is allocated in its place. -/
theorem keeps_padChildren {pad : Nat → Nat → Action Unit}
    (hPad : ∀ c size, KeepsClean R N (pad c size) Unchecked) (type finalBlocks i : Nat)
    (inums : List Nat) : KeepsClean R N (padChildren pad type finalBlocks i inums) Unchecked := by
  induction inums generalizing i with
  | nil => exact Keeps.pure trivial
  | cons child rest ih =>
      apply Keeps.ite
      · exact fun _ => Keeps.pure trivial
      · intro _
        have hChild : KeepsClean R N (childOrNew type child) Unchecked :=
          Keeps.ite (fun _ => keeps_allocInode type) fun _ => Keeps.pure trivial
        apply hChild.bind
        intro c _
        exact (hPad c _).bind fun _ _ => ih (i + 1)

theorem keeps_padIndirect {pad : Nat → Nat → Action Unit} (h : ino.Tidy)
    (hPad : ∀ c size, KeepsClean R N (pad c size) Unchecked) (finalBlocks : Nat) :
    KeepsClean R N (padIndirect pad ino finalBlocks) Unchecked := by
  apply Keeps.ite
  · intro _
    apply (keeps_readBlock (h.slot ndirect)).bind
    intro inums _
    exact keeps_padChildren hPad _ _ _ _
  · exact fun _ => Keeps.pure trivial

/-- `padding_file` frees nothing, so the reserved blocks and the files stay. -/
theorem keeps_paddingFile (stack r size : Nat) :
    KeepsClean R N (paddingFile stack r size) Unchecked := by
  induction stack generalizing r size with
  | zero => exact Keeps.throw nofun
  | succ stack ih =>
      apply (keeps_derefInode r).bind
      intro ino h
      apply (keeps_padDirect_loop (Nat.min_le_right _ _) h).bind
      intro ino₁ h₁
      apply (keeps_padIndirect h₁.tidy ih _).bind
      intro _ _
      apply keeps_time.bind
      intro now _
      exact keeps_putInode (h₁.congr rfl rfl)

/-- The size decides which of the two helpers runs. -/
theorem keeps_setAttr (stack r size : Nat) :
    KeepsClean ∅ ∅ (setAttr stack r size) Unchecked := by
  apply (Keeps.query fun m hm => hm.yields_getFileSize stack r).bind
  intro attrSize _
  refine Keeps.ite (fun _ => keeps_truncateFile stack r size) fun _ => ?_
  exact Keeps.ite (fun _ => keeps_paddingFile stack r size) fun _ => Keeps.pure trivial

/-- A new size of 0 never truncates. -/
theorem keeps_setAttr_zero (stack r : Nat) : KeepsClean R N (setAttr stack r 0) Unchecked := by
  apply (Keeps.query fun m hm => hm.yields_getFileSize stack r).bind
  intro attrSize _
  refine Keeps.ite (fun hLess => (Nat.not_lt_zero _ hLess).elim) fun _ => ?_
  exact Keeps.ite (fun _ => keeps_paddingFile stack r 0) fun _ => Keeps.pure trivial

end Files
end InodeFS
