import InodeFS.Integrity

/-! `alloc_inode` on any inode table. The search runs to the number of blocks and
not of inodes: with a full table it dereferences the null pointer that `get_inode`
returns for id 1025, before `alloc_inode` can throw. -/
namespace InodeFS

open Bytes Exec Store

section Disk

variable {m : Machine} {i : Nat}

/-- Only the block of the inode is written. -/
theorem putInode_disk (hInum : IsInum i) (ino : Inode) : ∃ m', putInode i ino m = .ok () m' ∧
    getInode m' i = .ok (some ino) ∧ ∀ b, b ≠ iblock i sb.nblocks → m'.disk b = m.disk b := by
  have hRange := isInum_iff.mp hInum
  have hValid : ¬(i > inodeNum ∨ i < 1) := by
    rw [inodeNum_eq]
    omega
  have hRead : readBlock m (515 + i) = .ok (m.disk (515 + i)) := readBlock_ok (by omega)
  have hRun : putInode i ino m =
      .ok () (m.setBlock (515 + i) ((m.disk (515 + i)).overlay ino.encode)) := by
    rw [putInode, if_neg hValid, sb_nblocks, iblock_eq]
    simp only [bind, EStateM.bind, query, hRead]
    exact writeBlock_ok (by omega) _
  obtain ⟨m', hRun', hStore⟩ := putInode_eq (m := m) hInum ino
  rw [hRun] at hRun'
  injection hRun' with _ hSame
  refine ⟨_, hRun, ?_, fun b hb => ?_⟩
  · rw [hSame, getInode_some hInum, hStore, putInode_inode, if_pos rfl]
  · rw [sb_nblocks, iblock_eq] at hb
    rw [Machine.setBlock_disk, if_neg hb]

end Disk

section Alloc

variable {m : Machine} {type : FileType}

/-- What a caller may expect: the first free inode, fresh, and no other block of the
disk changed; or `bad_alloc` when the table is full, and the disk unchanged. -/
def Allocates (type : FileType) (m : Machine) : Prop :=
  (∀ i, IsLeast {i | IsInum i ∧ ¬m.store.Alive i} i → ∃ ino m', allocInode type.code m = .ok i m' ∧
    getInode m' i = .ok (some ino) ∧ ino.type = UInt16.ofNat type.code ∧ ino.size = 0 ∧
    (∀ k ≤ ndirect, ino.slot k = 0) ∧ ∀ b, b ≠ iblock i sb.nblocks → m'.disk b = m.disk b) ∧
  ((∀ i, IsInum i → m.store.Alive i) →
    ∃ m', allocInode type.code m = .error .badAlloc m' ∧ m'.disk = m.disk)

theorem allocInode_unfold (type : FileType) : allocInode type.code = (do
    let id ← query findFreeInode
    if id = 0 then throw .badAlloc
    else
      let now ← time
      putInode id (freshInode type now)
      return id) := by
  have hValid : ¬(type.code ≠ FileType.T_DIR.code ∧ type.code ≠ FileType.T_FILE.code ∧
      type.code ≠ FileType.T_LNK.code) := by cases type <;> decide
  rw [allocInode, if_neg hValid]
  rfl

theorem allocInode_first {i : Nat} (type : FileType) (hFirst : IsLeast {i | IsInum i ∧ ¬m.store.Alive i} i) :
    ∃ now m', allocInode type.code m = .ok i m' ∧ getInode m' i = .ok (some (freshInode type now)) ∧
      ∀ b, b ≠ iblock i sb.nblocks → m'.disk b = m.disk b := by
  rcases findFreeInode_eq m with ⟨j, hj, hDead, hBefore, hFind⟩ | ⟨hAll, -⟩
  · have hij : i = j := by
      have hLe : i ≤ j := hFirst.2 ⟨hj, hDead⟩
      by_contra hne
      exact hFirst.1.2 (hBefore i hFirst.1.1 (by omega))
    subst hij
    have hPos : i ≠ 0 := by
      have := isInum_iff.mp hj
      omega
    obtain ⟨m', hPut, hGet, hSame⟩ := putInode_disk
      (m := { m with clock := fun n => m.clock (n + 1) }) hj (freshInode type (m.clock 0))
    refine ⟨m.clock 0, m', ?_, hGet, hSame⟩
    have hTime : time m = .ok (m.clock 0) { m with clock := fun n => m.clock (n + 1) } := rfl
    rw [allocInode_unfold]
    simp only [bind, EStateM.bind, query, hFind, hPos, if_false, hTime, hPut]
    rfl
  · exact absurd (hAll i hFirst.1.1) hFirst.1.2

/-- With a full table the process dies. -/
theorem allocInode_full (hAll : ∀ i, IsInum i → m.store.Alive i) (type : FileType) :
    allocInode type.code m = .error .segfault m := by
  rcases findFreeInode_eq m with ⟨j, hj, hDead, -⟩ | ⟨-, hFind⟩
  · exact absurd (hAll j hj) hDead
  · rw [allocInode_unfold]
    simp only [bind, EStateM.bind, query, hFind]

/-- `alloc_inode` does what it should exactly when the table is not full. -/
theorem alloc_inode_iff (m : Machine) (type : FileType) :
    Allocates type m ↔ ∃ i, IsInum i ∧ ¬m.store.Alive i := by
  constructor
  · rintro ⟨-, hFull⟩
    by_contra hNone
    have hAll : ∀ i, IsInum i → m.store.Alive i := fun i hi => by
      by_contra hDead
      exact hNone ⟨i, hi, hDead⟩
    obtain ⟨m', hThrow, -⟩ := hFull hAll
    rw [allocInode_full hAll] at hThrow
    cases hThrow
  · rintro ⟨i, hi, hDead⟩
    refine ⟨fun j hFirst => ?_, fun hAll => absurd (hAll i hi) hDead⟩
    obtain ⟨now, m', hRun, hGet, hSame⟩ := allocInode_first type hFirst
    exact ⟨_, m', hRun, hGet, freshInode_type type now, freshInode_size type now,
      fun k _ => freshInode_slot type now k, hSame⟩

/-- A thousand and twenty-three files fill the table. -/
theorem exists_fewer_inodes (count : Nat) (h : count ≤ 1023) : ∃ s : ExtentServer.Session,
    ExtentServer.Run (maxDepth + 1) (fun _ => 0) (fun _ call => call.KeepsSize) s ∧
      s.machine.store.freeInodes + count = 1023 := by
  induction count with
  | zero =>
      obtain ⟨m, hInit, hInodes, -⟩ := ExtentServer.exists_start fun _ => 0
      exact ⟨_, .start hInit, hInodes⟩
  | succ count ih =>
      obtain ⟨s, hRun, hFree⟩ := ih (by omega)
      obtain ⟨id, m', hCreate, -, -, -, hOne, -⟩ :=
        ExtentServer.exists_create s.machine .T_FILE (by omega)
      refine ⟨_, hRun.step (show ExtentServer.Call.KeepsSize (.create .T_FILE) from trivial)
        (.create hCreate), ?_⟩
      change m'.store.freeInodes + _ = _
      omega

/-- A full table, reached by `create`. -/
theorem alloc_inode_full_table : ∃ s : ExtentServer.Session,
    ExtentServer.Run (maxDepth + 1) (fun _ => 0) (fun _ call => call.KeepsSize) s ∧
      (∀ i, IsInum i → s.machine.store.Alive i) ∧
      ExtentServer.create .T_FILE s.machine = .error .segfault s.machine := by
  obtain ⟨s, hRun, hFree⟩ := exists_fewer_inodes 1023 (Nat.le_refl _)
  have hAll : ∀ i, IsInum i → s.machine.store.Alive i := by
    intro i hi
    have hNone := Finset.card_eq_zero.mp (show s.machine.store.freeInodes = 0 by omega)
    by_contra hDead
    exact Finset.notMem_empty i (hNone ▸ Finset.mem_filter.mpr ⟨Finset.mem_Icc.mpr hi, hDead⟩)
  exact ⟨s, hRun, hAll, allocInode_full hAll .T_FILE⟩

end Alloc
end InodeFS
