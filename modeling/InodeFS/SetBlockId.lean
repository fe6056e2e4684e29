import InodeFS.ChildSizes
import InodeFS.Volume

/-! `set_ino_block_id` on directories that were only added to. A flat index is looked
for in the slots of the directory, and behind them in one child after the other. -/
namespace InodeFS

open Bytes Exec Paging Store

theorem Store.directBlocks_withSlot {σ : Store} {x k b : Nat} (hk : k < min (σ.size x) 100)
    (hb : b ≠ 0) (hLt : b < 2 ^ 32) :
    (σ.putInode x ((σ.inode x).withSlot k b)).directBlocks x = (σ.directBlocks x).set k b := by
  have hSize : (σ.putInode x ((σ.inode x).withSlot k b)).size x = σ.size x := by
    rw [size_putInode_self, Inode.withSlot_size _ _ hb]
    rfl
  refine List.ext_getElem (by simp [directBlocks, hSize]) fun l hl _ => ?_
  simp only [directBlocks, hSize, List.getElem_map, List.getElem_range, List.getElem_set,
    slot_putInode_self, Inode.withSlot_slot _ (show k < 101 by omega) hLt]
  by_cases he : l = k
  · rw [if_pos he, if_pos he.symm]
  · rw [if_neg he, if_neg (Ne.symm he)]
    rfl

namespace ChfsClient.EntriesOn

variable {m : Machine} {N : Entries} {C : List Nat} {p k b stack : Nat}

/-- The directory and the children are read as before when the sizes did not change. -/
theorem readBlockid_of_sizes {m' : Machine} (h : EntriesOn m.store N C) (hp : p ∈ N.dirs)
    (hData : m'.store.data 0 = m.store.data 0) (hSize : ∀ i, m'.store.size i = m.store.size i)
    (hSlot : m'.store.slot p 100 = 0) :
    readBlockid m' (stack + 2) p = .ok (m'.store.entryBlocks C (N.large p) p) := by
  have hRow := h.row p hp
  have hRowSize : m.store.size p = (N.own p).length + (N.large p).toNat := hRow.size
  have hFew := hRow.few
  have hTable : m'.store.Table C := by
    rw [Table, hData]
    exact h.childEntries.table
  cases hLarge : N.large p with
  | false =>
      rw [hLarge] at hRowSize
      change m.store.size p = (N.own p).length + 0 at hRowSize
      rw [readBlockid_flat hRow.lists.inum (by rw [hSize]; omega)]
      exact congrArg Except.ok (List.append_nil _).symm
  | true =>
      have hFull := hRow.full hLarge
      rw [hLarge] at hRowSize
      change m.store.size p = (N.own p).length + 1 at hRowSize
      refine readBlockid_large hRow.lists.inum (by rw [hSize]; omega) hSlot hTable fun c hc => ?_
      obtain ⟨l, hChild⟩ := h.childEntries.mem hc
      have hChildFew := hChild.few
      have hChildSize : m.store.size c = l.length + 0 := hChild.size
      exact ⟨hChild.lists.inum, by rw [hSize]; omega⟩

/-- An index in the slots of the directory. -/
theorem set_own (h : EntriesOn m.store N C) (hp : p ∈ N.dirs) (hk : k < (N.own p).length)
    (hb : b ≠ 0) (hLt : b < 2 ^ 32) :
    ∃ m', setInoBlockId (stack + 2) p k b false m = .ok (true, p) m' ∧
      readBlockid m' (stack + 2) p =
        .ok ((m.store.entryBlocks C (N.large p) p).set k b) := by
  have hRow := h.row p hp
  have hCovered := hRow.covered
  have hFew := hRow.few
  obtain ⟨m', hRun, hStore⟩ := setInoBlockId_slot (m := m) (b := b)
    hRow.lists.inum hRow.lists.dir (show k < min (m.store.size p) 100 by omega) (Or.inr rfl)
    (stack + 1)
  have hSizes : ∀ i, m'.store.size i = m.store.size i := fun i => hStore ▸ size_withSlot hb i
  have hIndirect : m'.store.slot p 100 = 0 := by
    rw [hStore, slot_putInode_self, Inode.withSlot_slot _ (by omega) hLt, if_neg (by omega)]
    exact hRow.indirect
  refine ⟨m', hRun, ?_⟩
  rw [h.readBlockid_of_sizes hp (by rw [hStore]; rfl) hSizes hIndirect]
  have hOwn : m'.store.directBlocks p = (m.store.directBlocks p).set k b := by
    rw [hStore, directBlocks_withSlot (by omega) hb hLt]
  have hKids : C.flatMap m'.store.directBlocks = C.flatMap m.store.directBlocks :=
    List.flatMap_congr fun c hc => directBlocks_congr (by
      have hne : c ≠ p := fun he => h.kids c hc (he ▸ hp)
      rw [hStore, putInode_inode, if_neg hne])
  rw [entryBlocks, hOwn, hKids, entryBlocks, List.set_append_left _ _
    (by rw [hRow.directBlocks_length]; exact hk)]

/-- An index in a child. Index 100, the first of the first child, is not looked for
there. -/
theorem set_behind {q : Nat} (h : EntriesOn m.store N C) (hp : p ∈ N.dirs) (hLarge : N.large p = true)
    (hPos : 0 < q) (hq : q < N.shared.length) (hb : b ≠ 0) (hLt : b < 2 ^ 32)
    (stack : Nat) : ∃ m', setInoBlockId (stack + 2) p (100 + q) b false m = .ok (true, p) m' ∧
      readBlockid m' (stack + 2) p =
        .ok ((m.store.entryBlocks C (N.large p) p).set (100 + q) b) := by
  have hRow := h.row p hp
  have hFull := hRow.full hLarge
  have hCount := h.childEntries.count
  have hRowSize := hRow.size
  rw [hLarge] at hRowSize
  change m.store.size p = (N.own p).length + 1 at hRowSize
  have hj : q / 100 < C.length := by omega
  have hChild := h.childEntries.child _ hj
  have hCovered := hChild.covered
  rw [page_length] at hCovered
  have hNe : C[q / 100] ≠ p := fun he => h.kids _ (List.getElem_mem hj) (he ▸ hp)
  have hIn : q % 100 < min (m.store.size C[q / 100]) 100 := by omega
  obtain ⟨m', hRun, hStore⟩ := h.childEntries.childSizes.set_behind hRow.lists.inum hRow.lists.dir
    (by omega) hRow.indirect stack hPos hq hj hb
  have hSizes : ∀ i, m'.store.size i = m.store.size i := fun i => hStore ▸ size_withSlot hb i
  have hSame : m'.store.inode p = m.store.inode p := by
    rw [hStore, putInode_inode, if_neg (Ne.symm hNe)]
  refine ⟨m', hRun, ?_⟩
  rw [h.readBlockid_of_sizes hp (by rw [hStore]; rfl) hSizes
    ((slot_congr hSame 100).trans hRow.indirect)]
  have hHit : m'.store.directBlocks C[q / 100] =
      (m.store.directBlocks C[q / 100]).set (q % 100) b := by
    rw [hStore, directBlocks_withSlot hIn hb hLt]
  have hOther : ∀ c, c ≠ C[q / 100] → m'.store.directBlocks c = m.store.directBlocks c := by
    intro c hne
    refine directBlocks_congr ?_
    rw [hStore, putInode_inode, if_neg hne]
  have hChildren : C.map m'.store.directBlocks =
      (C.map m.store.directBlocks).set (q / 100) ((m.store.directBlocks C[q / 100]).set (q % 100) b) := by
    refine List.ext_getElem (by simp) fun i hi _ => ?_
    rw [List.length_map] at hi
    rw [List.getElem_map, List.getElem_set, List.getElem_map]
    by_cases he : q / 100 = i
    · subst he
      rw [if_pos rfl, hHit]
    · rw [if_neg he]
      exact hOther _ fun hEq => he ((List.Nodup.getElem_inj_iff h.childEntries.nodup).mp hEq.symm)
  have hPages : C.flatMap m'.store.directBlocks = (C.flatMap m.store.directBlocks).set q b := by
    rw [List.flatMap_def, hChildren, flatten_set (n := 100) b (p := m.store.directBlocks C[q / 100])
      (by simp [hj]) (by rw [hChild.directBlocks_length, page_length]; omega) fun i hi l hl => ?_,
      ← List.flatMap_def, Nat.div_add_mod]
    obtain ⟨hLen, rfl⟩ := List.getElem?_eq_some_iff.mp hl
    have hLen' : i < C.length := by simpa using hLen
    rw [List.getElem_map, (h.childEntries.child i hLen').directBlocks_length, page_length]
    omega
  have hLength := hRow.directBlocks_length
  rw [entryBlocks, hLarge, if_pos rfl, directBlocks_congr hSame, hPages, entryBlocks, if_pos rfl,
    List.set_append_right _ _ (by omega), hLength, hFull, Nat.add_sub_cancel_left]

end ChfsClient.EntriesOn

namespace ExtentServer

open ChfsClient

/-- `set_ino_block_id` reports success, and the block list has `b` at index `k` and is
otherwise the same. -/
def Replaces (stack p k b : Nat) (m : Machine) : Prop :=
  wp (setInoBlockId stack p k b false)
    (fun r m' => r.1 = true ∧ ∃ ids, readBlockid m stack p = .ok ids ∧
      readBlockid m' stack p = .ok (ids.set k b))
    (fun _ _ => False) m

section Updates

variable {stack p k b : Nat} {clock : Nat → UInt32} {v : Volume} {ids : List Nat}

/-- Index 100 is not found: the search behind the slots begins at 101. -/
theorem not_replaces_hundred (m : Machine) (depth p b : Nat) :
    ¬Replaces (depth + 1) p 100 b m := by
  intro hReplaces
  have hMiss : setInoBlockId (depth + 1) p 100 b false m = .ok (false, p) m := setInoBlockId_miss
    (Nat.min_le_right _ 100) (Or.inr (Nat.le_refl 100))
  have hFalse := (wp_ok hReplaces hMiss).1
  cases hFalse

/-- A block number is replaced at every index but 100. -/
theorem set_ino_block_id_iff (hStack : maxDepth < stack) (hReach : Reached stack clock v)
    (hp : p ∈ v.dirs) (hIds : readBlockid v.machine stack p = .ok ids) (hk : k < ids.length)
    (hb : b ≠ 0) (hLt : b < 2 ^ 32) : Replaces stack p k b v.machine ↔ k ≠ 100 := by
  obtain ⟨N, C, h⟩ := hReach.arranged hStack
  obtain ⟨depth, rfl⟩ : ∃ depth, stack = depth + 2 :=
    ⟨stack - 2, by rw [maxDepth_eq] at hStack; omega⟩
  have hp' : p ∈ N.dirs := h.dirs.symm ▸ hp
  have hList := h.entriesOn.readBlockid_eq hp' depth
  obtain rfl : _ = ids := Except.ok.inj (hList.symm.trans hIds)
  have hLength := (h.entriesOn.row p hp').directBlocks_length
  constructor
  · rintro hReplaces rfl
    exact not_replaces_hundred _ (depth + 1) p b hReplaces
  · intro hNe
    have hSet : ∃ m', setInoBlockId (depth + 2) p k b false v.machine = .ok (true, p) m' ∧
        readBlockid m' (depth + 2) p =
          .ok ((v.machine.store.entryBlocks C (N.large p) p).set k b) := by
      rcases Nat.lt_or_ge k (N.own p).length with hOwn | hBehind
      · exact h.entriesOn.set_own hp' hOwn hb hLt
      · rw [entryBlocks, List.length_append, hLength] at hk
        cases hLarge : N.large p with
        | false =>
            rw [hLarge] at hk
            exact absurd hk (by simpa using hBehind)
        | true =>
            have hFull := (h.entriesOn.row p hp').full hLarge
            rw [hLarge, if_pos rfl, h.entriesOn.childEntries.length_blocks, hFull] at hk
            rw [hFull] at hBehind
            obtain ⟨q, rfl⟩ : ∃ q, k = 100 + q := Nat.exists_eq_add_of_le hBehind
            have hChild := h.entriesOn.set_behind hp' hLarge
              (show 0 < q by omega) (show q < N.shared.length by omega) hb hLt depth
            rwa [hLarge] at hChild
    obtain ⟨m', hRun, hAfter⟩ := hSet
    exact wp_of_ok hRun ⟨rfl, _, hList, hAfter⟩

/-- An index in the second child of a directory, and a block that was at no index before. -/
theorem replaces_in_second_child : ∃ v ids, Reached 330 (fun _ => 0) v ∧
    readBlockid v.machine 330 1 = .ok ids ∧ ids.length = 250 ∧ 5 ∉ ids ∧
    Replaces 330 1 230 5 v.machine := by
  have hStack : maxDepth < 330 := by rw [maxDepth_eq]; omega
  obtain ⟨v, N, C, hReach, h, hDirs, hLength, -, hBlocks, -⟩ :=
    exists_root_entries 328 (show 250 ≤ 1000 by omega)
  have hp : 1 ∈ v.dirs := hDirs ▸ rfl
  have hp' : 1 ∈ N.dirs := h.dirs.symm ▸ hp
  have hIds := h.entriesOn.readBlockid_eq hp' 328
  have hCount := congrArg List.length (h.entriesOn.map_entryIn hp')
  rw [List.length_map, hLength] at hCount
  refine ⟨v, _, hReach, hIds, hCount, fun hMem => ?_, (set_ino_block_id_iff hStack hReach hp hIds
    (by omega) (by omega) (by omega)).mpr (by omega)⟩
  have hData := isData_iff.mp (h.entriesOn.mem_entryBlocks hp' hMem).1
  omega

/-- Index 100 of a directory with 101 entries. -/
theorem hundred_is_not_replaced : ∃ v ids, Reached 330 (fun _ => 0) v ∧
    readBlockid v.machine 330 1 = .ok ids ∧ 100 < ids.length ∧
    ¬Replaces 330 1 100 1540 v.machine := by
  obtain ⟨v, N, C, hReach, h, hDirs, hLength, -⟩ :=
    exists_root_entries 328 (show 101 ≤ 1000 by omega)
  have hp' : 1 ∈ N.dirs := h.dirs.symm ▸ hDirs ▸ rfl
  have hCount := congrArg List.length (h.entriesOn.map_entryIn hp')
  rw [List.length_map, hLength] at hCount
  exact ⟨v, _, hReach, h.entriesOn.readBlockid_eq hp' 328, by omega,
    not_replaces_hundred v.machine 329 1 1540⟩

end Updates

end ExtentServer
end InodeFS
