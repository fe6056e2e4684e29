import InodeFS.Library.Invariant
import InodeFS.Remove

/-! What every operation keeps, in any state and also when it stops half way:
block numbers in inodes stay in the data area, only marked blocks hold data, and
only the bitmap is updated as a bitmap. Nothing is assumed about who owns what. -/
namespace InodeFS

open Bytes Exec Store

/-- The block numbers that may be passed to the disk. -/
def Addressable (b : Nat) : Prop := b = 0 ∨ IsData b

/-- Every slot holds 0 or the number of a data block. A directory has no indirect
block of its own: its slot 100 stays 0. -/
structure Inode.Tidy (ino : Inode) : Prop where
  slot : ∀ k, Addressable (ino.slot k)
  dir : ino.isDir = true → ino.slot 100 = 0

/-- The writes to the bitmap so far stayed in the bitmap. -/
def Machine.InBitmap (m : Machine) : Prop := ∀ b ∈ m.bitmapWrites, 2 ≤ b ∧ b ≤ 513

/-- An inode in use that is no directory. -/
def Inode.IsFile (ino : Inode) : Prop := ino.type ≠ 0 ∧ ino.isDir = false

/-- A clean state, in which the blocks of `R` are marked and the inodes of `N` are
files. -/
structure Machine.Clean (R N : Set Nat) (m : Machine) : Prop where
  tidy : ∀ i, (m.store.inode i).Tidy
  blank : ∀ b, IsData b → m.store.bit b = false → m.store.data b = Block.zeros
  bitmap : m.InBitmap
  reserved : ∀ b ∈ R, m.store.bit b = true
  file : ∀ i ∈ N, (m.store.inode i).IsFile

/-- What may be stored as inode `i` when the inodes of `N` have to stay files. -/
structure Inode.Allowed (ino : Inode) (N : Set Nat) (i : Nat) : Prop where
  tidy : ino.Tidy
  file : i ∈ N → ino.IsFile

/-- No block number outside the disk was passed to the disk. -/
abbrev NoFault (e : Stop) : Prop := e ≠ .outOfDisk

abbrev KeepsClean {α : Type} (R N : Set Nat) (x : Action α) (post : α → Prop) : Prop :=
  Keeps (Machine.Clean R N) (fun e _ => NoFault e) x post

/-- A loop or a call that returns nothing. -/
abbrev Unchecked {α : Type} (_ : α) : Prop := True

theorem Addressable.visible {b : Nat} (h : Addressable b) : Visible b := by
  rcases h with rfl | hData
  · exact Or.inr (by omega)
  · exact Or.inl hData

namespace Inode.Tidy

variable {ino : Inode} {b k : Nat}

theorem setSlot (h : ino.Tidy) (hb : Addressable b)
    (hDir : k = 100 → ino.isDir = true → b = 0) : (ino.setSlot k b).Tidy := by
  by_cases hk : k < 101
  · have hLt : b < 2 ^ 32 := by
      rcases hb with rfl | hData
      · omega
      · have := isData_iff.mp hData
        omega
    have hSet := ino.setSlot_slot hk hLt
    refine ⟨fun l => ?_, fun hType => ?_⟩
    · rw [hSet]
      split
      · exact hb
      · exact h.slot l
    · rw [hSet]
      split
      · rename_i he
        exact hDir he.symm hType
      · exact h.dir hType
  · have hSame : ino.setSlot k b = ino := by
      refine Inode.ext rfl rfl rfl rfl rfl ?_
      exact List.set_eq_of_length_le (by rw [ino.blocks_length, ndirect_eq]; omega)
    rwa [hSame]

/-- The size and the times play no part. -/
theorem congr {ino' : Inode} (h : ino.Tidy) (hType : ino'.type = ino.type)
    (hBlocks : ino'.blocks = ino.blocks) : ino'.Tidy := by
  have hSlot : ∀ k, ino'.slot k = ino.slot k := fun k => by
    rw [Inode.slot, hBlocks, Inode.slot]
  refine ⟨fun k => hSlot k ▸ h.slot k, fun hDir => ?_⟩
  rw [hSlot]
  exact h.dir (by rwa [isDir, ← hType])

theorem of_slots (h : ∀ k, ino.slot k = 0) : ino.Tidy :=
  ⟨fun k => Or.inl (h k), fun _ => h 100⟩

end Inode.Tidy

namespace Inode.Allowed

variable {ino : Inode} {N : Set Nat} {b i k : Nat}

theorem setSlot (h : ino.Allowed N i) (hb : Addressable b)
    (hDir : k = 100 → ino.isDir = true → b = 0) : (ino.setSlot k b).Allowed N i :=
  ⟨h.tidy.setSlot hb hDir, h.file⟩

theorem congr {ino' : Inode} (h : ino.Allowed N i) (hType : ino'.type = ino.type)
    (hBlocks : ino'.blocks = ino.blocks) : ino'.Allowed N i := by
  refine ⟨h.tidy.congr hType hBlocks, fun hi => ?_⟩
  rw [IsFile, isDir, hType]
  exact h.file hi

end Inode.Allowed

section Log

/-- A program that updates the bitmap only within its blocks. -/
abbrev KeepsLog {α : Type} (x : Action α) : Prop :=
  Keeps Machine.InBitmap (fun _ _ => True) x Unchecked

theorem keeps_log_writeBlock (b : Nat) (buf : Block) : KeepsLog (writeBlock b buf) :=
  Keeps.ite (fun _ _ hm => ⟨hm, trivial⟩) fun _ => Keeps.throw fun _ _ => trivial

theorem keeps_log_query {α : Type} (f : Machine → Except Stop α) : KeepsLog (query f) :=
  Keeps.query fun m _ => by
    cases f m <;> trivial

theorem keeps_log_note {id : Nat} (h : id < 2097152) :
    KeepsLog (modify (·.noteBitmapWrite (id / bpb + 2)) : Action Unit) := by
  refine fun m hm => ⟨?_, trivial⟩
  rintro b (_ | ⟨_, hb⟩)
  · rw [bpb_eq]
    omega
  · exact hm b hb

theorem keeps_log_markBit {id : Nat} (h : id < 2097152) : KeepsLog (markBit id) :=
  (keeps_log_query _).bind fun _ _ => (keeps_log_note h).bind fun _ _ => keeps_log_writeBlock _ _

theorem keeps_log_unmarkBit {id : Nat} (h : id < 2097152) : KeepsLog (unmarkBit id) :=
  (keeps_log_query _).bind fun _ _ => (keeps_log_note h).bind fun _ _ => keeps_log_writeBlock _ _

theorem keeps_log_allocBlock : KeepsLog allocBlock := by
  suffices h : ∀ count id, id + count = 2097152 →
      KeepsLog (allocFrom count id) from h _ _ (by simp)
  intro count
  induction count with
  | zero => exact fun id _ => Keeps.pure trivial
  | succ count ih =>
      intro id hEnd
      refine (keeps_log_query _).bind fun free _ => Keeps.ite (fun _ => ?_) fun _ => ?_
      · exact (keeps_log_markBit (by omega)).bind fun _ _ => Keeps.pure trivial
      · exact ih (id + 1) (by omega)

theorem keeps_log_freeBlock {id : Nat} (h : id < 2097152) : KeepsLog (freeBlock id) := by
  refine Keeps.ite (fun _ => ?_) fun _ => Keeps.pure trivial
  refine (keeps_log_query _).bind fun free _ => Keeps.ite (fun _ => Keeps.pure trivial) fun _ => ?_
  exact (keeps_log_unmarkBit h).bind fun _ _ => keeps_log_writeBlock _ _

theorem keeps_log_putInode (i : Nat) (ino : Inode) : KeepsLog (putInode i ino) :=
  Keeps.ite (fun _ => Keeps.pure trivial) fun _ =>
    (keeps_log_query _).bind fun _ _ => keeps_log_writeBlock _ _

theorem keeps_log_allocInode (type : Nat) : KeepsLog (allocInode type) := by
  refine Keeps.ite (fun _ => Keeps.pure trivial) fun _ => ?_
  refine (keeps_log_query _).bind fun id _ => ?_
  refine Keeps.ite (fun _ => Keeps.throw fun _ _ => trivial) fun _ => ?_
  have hTime : KeepsLog time := fun _ hm => ⟨hm, trivial⟩
  exact hTime.bind fun _ _ => (keeps_log_putInode _ _).bind fun _ _ => Keeps.pure trivial

/-- The log after a program that returned. -/
theorem Machine.InBitmap.of_ok {α : Type} {x : Action α} {m m' : Machine} {a : α}
    (h : m.InBitmap) (hKeeps : KeepsLog x) (hRun : x m = .ok a m') : m'.InBitmap :=
  (wp_ok (hKeeps m h) hRun).1

end Log

section Primitive

variable {R N : Set Nat} {m m' : Machine} {α : Type} {post : α → Prop} {b i : Nat} {ino : Inode}
  {buf : Block}

namespace Machine.Clean

theorem congr (h : m.Clean R N) (hStore : m'.store = m.store) (hLog : m'.InBitmap) :
    m'.Clean R N where
  tidy := hStore ▸ h.tidy
  blank := hStore ▸ h.blank
  bitmap := hLog
  reserved := hStore ▸ h.reserved
  file := hStore ▸ h.file

theorem mono {R' N' : Set Nat} (h : m.Clean R N) (hR : R' ⊆ R) (hN : N' ⊆ N) : m.Clean R' N' :=
  { h with
    reserved := fun b hb => h.reserved b (hR hb)
    file := fun i hi => h.file i (hN hi) }

end Machine.Clean

theorem keeps_time : KeepsClean R N time Unchecked :=
  fun _ hm => ⟨hm.congr (Machine.store_congr rfl) hm.bitmap, trivial⟩

/-- Data is written to reserved blocks and to block 0 only. -/
theorem keeps_writeBlock (hb : Addressable b) (h : IsData b → b ∈ R ∨ buf = Block.zeros) :
    KeepsClean R N (writeBlock b buf) Unchecked := by
  intro m hm
  obtain ⟨m', hRun, hStore⟩ := writeBlock_data (m := m) hb.visible buf
  refine wp_of_ok hRun ⟨⟨?_, ?_, hm.bitmap.of_ok (keeps_log_writeBlock b buf) hRun, ?_, ?_⟩, trivial⟩
  · rw [hStore]
    exact hm.tidy
  · intro c hc hFree
    rw [hStore, write_bit] at hFree
    rw [hStore, write_data]
    split
    · rename_i he
      subst he
      rcases h hc with hMem | hZero
      · simp [hm.reserved c hMem] at hFree
      · exact hZero
    · exact hm.blank c hc hFree
  · rw [hStore]
    exact hm.reserved
  · rw [hStore]
    exact hm.file

theorem keeps_freeBlock (hb : Addressable b) : KeepsClean ∅ N (freeBlock b) Unchecked := by
  intro m hm
  rcases hb with rfl | hData
  · exact wp_of_ok (freeBlock_low (by omega)) ⟨hm, trivial⟩
  cases hBit : m.store.bit b with
  | false => exact wp_of_ok (freeBlock_unmarked hData hBit) ⟨hm, trivial⟩
  | true =>
      obtain ⟨m', hRun, hStore⟩ := freeBlock_marked hData hBit
      refine wp_of_ok hRun ⟨⟨?_, ?_, hm.bitmap.of_ok (keeps_log_freeBlock hData.2) hRun,
        fun c hc => hc.elim, ?_⟩, trivial⟩
      · rw [hStore]
        exact hm.tidy
      · intro c hc hFree
        rw [hStore, write_bit, unmark_bit] at hFree
        rw [hStore, write_data]
        split
        · rfl
        · rename_i hne
          rw [if_neg hne] at hFree
          exact hm.blank c hc hFree
      · rw [hStore]
        exact hm.file

/-- What follows an allocation may use the new block, or has to do without. -/
theorem keeps_bind_allocBlock {f : Nat → Action α} (hNone : KeepsClean R N (f 0) post)
    (h : ∀ b, IsData b → KeepsClean (insert b R) N (f b) post) :
    KeepsClean R N (allocBlock >>= f) post := by
  apply Keeps.bind_of_wp
  intro m hm
  have hAlloc : wp allocBlock (fun b m' => b = 0 ∧ m' = m ∨
      IsData b ∧ m'.store = m.store.mark b) (fun _ _ => False) m :=
    wp_allocBlock (fun b m' hData _ _ hStore => Or.inr ⟨hData, hStore⟩) fun _ => Or.inl ⟨rfl, rfl⟩
  refine wp_mono (wp_and hAlloc (keeps_log_allocBlock m hm.bitmap)) (fun b m' hPost => ?_)
    fun _ _ he => he.1.elim
  rcases hPost with ⟨⟨rfl, rfl⟩ | ⟨hData, hStore⟩, hLog, -⟩
  · exact hNone _ hm
  refine (h b hData).wp_of_le ⟨?_, ?_, hLog, ?_, ?_⟩ fun t ht =>
    ht.mono (Set.subset_insert b R) (Set.Subset.refl N)
  · rw [hStore]
    exact hm.tidy
  · intro c hc hFree
    rw [hStore, mark_bit] at hFree
    rw [hStore]
    split at hFree
    · cases hFree
    · exact hm.blank c hc hFree
  · rw [hStore]
    rintro c (rfl | hc)
    · simp
    · simp [hm.reserved c hc]
  · rw [hStore]
    exact hm.file

theorem putInode_clean (hm : m.Clean R N) (hIno : ino.Allowed N i) (hLog : m'.InBitmap)
    (hStore : m'.store = m.store.putInode i ino) : m'.Clean R N := by
  refine ⟨fun j => ?_, ?_, hLog, ?_, fun j hj => ?_⟩
  · rw [hStore, putInode_inode]
    split
    · exact hIno.tidy
    · exact hm.tidy j
  · rw [hStore]
    exact hm.blank
  · rw [hStore]
    exact hm.reserved
  · rw [hStore, putInode_inode]
    split
    · rename_i he
      exact hIno.file (he ▸ hj)
    · exact hm.file j hj

theorem keeps_putInode (hIno : ino.Allowed N i) : KeepsClean R N (putInode i ino) Unchecked := by
  intro m hm
  by_cases hi : IsInum i
  · obtain ⟨m', hRun, hStore⟩ := putInode_eq (m := m) hi ino
    exact wp_of_ok hRun
      ⟨putInode_clean hm hIno (hm.bitmap.of_ok (keeps_log_putInode i ino) hRun) hStore, trivial⟩
  · have hOut : ¬(1 ≤ i ∧ i ≤ 1024) := hi
    have hRange : i > inodeNum ∨ i < 1 := by
      rw [inodeNum_eq]
      omega
    rw [putInode, if_pos hRange]
    exact ⟨hm, trivial⟩

theorem freshInode_tidy (type : FileType) (now : UInt32) : (freshInode type now).Tidy :=
  Inode.Tidy.of_slots (freshInode_slot type now)

/-- A new inode is none of the old files. It may be added to them when it is no
directory. -/
theorem wp_allocInode_clean (hm : m.Clean R N) (type : FileType) :
    wp (allocInode type.code)
      (fun c m' => m'.Clean R N ∧ (type ≠ .T_DIR → m'.Clean R (insert c N)))
      (fun e m' => m'.Clean R N ∧ NoFault e) m := by
  have hAlloc : wp (allocInode type.code)
      (fun c m' => ¬m.store.Alive c ∧ ∃ now, m'.store = m.store.putInode c (freshInode type now))
      (fun e m' => m' = m ∧ e = .segfault) m :=
    wp_allocInode type (fun c now m' _ hDead _ hStore => ⟨hDead, now, hStore⟩) fun _ => ⟨rfl, rfl⟩
  apply wp_mono (wp_and hAlloc (keeps_log_allocInode type.code m hm.bitmap))
  · rintro c m' ⟨⟨hDead, now, hStore⟩, hLog, -⟩
    have hNew : c ∉ N := fun hc => hDead (hm.file c hc).1
    have hOld : m'.Clean R N :=
      putInode_clean hm ⟨freshInode_tidy type now, fun hc => (hNew hc).elim⟩ hLog hStore
    refine ⟨hOld, fun hType => { hOld with file := ?_ }⟩
    rintro i (rfl | hi)
    · rw [hStore, putInode_inode, if_pos rfl]
      cases type with
      | T_DIR => exact (hType rfl).elim
      | T_FILE => exact ⟨FileType.code_toUInt16_ne_zero _, rfl⟩
      | T_LNK => exact ⟨FileType.code_toUInt16_ne_zero _, rfl⟩
    · exact hOld.file i hi
  · rintro e m' ⟨⟨rfl, rfl⟩, -⟩
    exact ⟨hm, nofun⟩

theorem keeps_allocInode (type : Nat) : KeepsClean R N (allocInode type) Unchecked := by
  intro m hm
  by_cases hType : ∃ known : FileType, known.code = type
  · obtain ⟨known, rfl⟩ := hType
    exact wp_mono (wp_allocInode_clean hm known) (fun _ _ h => ⟨h.1, trivial⟩) fun _ _ h => h
  · have hInvalid : type ≠ FileType.T_DIR.code ∧ type ≠ FileType.T_FILE.code ∧
        type ≠ FileType.T_LNK.code :=
      ⟨fun h => hType ⟨_, h.symm⟩, fun h => hType ⟨_, h.symm⟩, fun h => hType ⟨_, h.symm⟩⟩
    rw [allocInode, if_pos hInvalid]
    exact ⟨hm, trivial⟩

/-- What follows may treat a new file as a file. -/
theorem keeps_bind_allocFile {f : Nat → Action α}
    (h : ∀ c, KeepsClean R (insert c N) (f c) post) :
    KeepsClean R N (allocInode FileType.T_FILE.code >>= f) post := by
  apply Keeps.bind_of_wp
  intro m hm
  apply wp_mono (wp_allocInode_clean hm .T_FILE)
  · rintro c m' ⟨-, hNew⟩
    exact (h c).wp_of_le (hNew nofun) fun t ht =>
      ht.mono (Set.Subset.refl R) (Set.subset_insert c N)
  · exact fun _ _ he => he

/-- What a dereferenced inode is like. -/
theorem Machine.Clean.yields_getInode (hm : m.Clean R N) (i : Nat) :
    Yields NoFault (getInode m i) fun found => ∀ ino ∈ found, ino.Allowed N i := by
  by_cases hi : IsInum i
  · rw [getInode_some hi]
    rintro ino (_ | _)
    exact ⟨hm.tidy i, hm.file i⟩
  · rw [getInode_none hi]
    exact nofun

theorem Machine.Clean.yields_derefInode (hm : m.Clean R N) (i : Nat) :
    Yields NoFault (derefInode m i) fun ino => ino.Allowed N i := by
  apply (hm.yields_getInode i).bind
  rintro (_ | ino) h
  · exact Yields.throw nofun
  · exact Yields.pure (h ino rfl)

theorem keeps_derefInode (i : Nat) :
    KeepsClean R N (query (derefInode · i)) fun ino => ino.Allowed N i :=
  Keeps.query fun _ hm => hm.yields_derefInode i

theorem yields_readBlock (hb : Addressable b) : Yields NoFault (readBlock m b) Unchecked := by
  rw [readBlock_data hb.visible]
  trivial

theorem keeps_readBlock (hb : Addressable b) :
    KeepsClean R N (query (readBlock · b)) Unchecked :=
  Keeps.query fun _ _ => yields_readBlock hb

theorem keeps_freeInode (i : Nat) : KeepsClean R ∅ (freeInode i) Unchecked := by
  apply (keeps_derefInode i).bind
  intro ino _
  have hCleared : Inode.cleared.Allowed ∅ i :=
    ⟨Inode.Tidy.of_slots Inode.cleared_slot, fun hi => hi.elim⟩
  exact Keeps.ite (fun _ => keeps_putInode hCleared) fun _ => Keeps.pure trivial

end Primitive
end InodeFS
