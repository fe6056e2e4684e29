import InodeFS.WriteResult
import InodeFS.Library.Pages

/-! The traversals of a tree as `write_file` builds it: `read_blockid` lists the data
blocks, `get_file_block_num` counts them, and `ino_next_block` finds one by its index.
They agree because every child but the last is full. -/
namespace InodeFS

open Bytes Exec Ownership Paging

namespace Store

variable {σ : Store} {b c i n r : Nat} {s : List Byte}

/-- The data blocks of the tree at `r`, in the order of the bytes. -/
def dataBlocks (σ : Store) (n r : Nat) : List Nat := (σ.treeNodes n r).flatMap σ.directBlocks

theorem treeNodes_succ (n r : Nat) :
    σ.treeNodes (n + 1) r = r :: (σ.kids r).flatMap (σ.treeNodes n) := rfl

theorem dataBlocks_succ (n r : Nat) :
    σ.dataBlocks (n + 1) r = σ.directBlocks r ++ (σ.kids r).flatMap (σ.dataBlocks n) := by
  rw [dataBlocks, treeNodes_succ, List.flatMap_cons, List.flatMap_assoc]
  rfl

theorem dataBlocks_eq (hShallow : σ.shape.Shallow n r) :
    σ.dataBlocks n r = σ.directBlocks r ++ (σ.kids r).flatMap (σ.dataBlocks (n - 1)) := by
  cases n with
  | zero =>
      have hNil : σ.kids r = [] := hShallow
      rw [hNil, List.flatMap_nil, List.append_nil]
      exact List.flatMap_singleton _ _
  | succ n => exact dataBlocks_succ n r

theorem mem_directBlocks_blocks (hb : b ∈ σ.directBlocks i) : b ∈ σ.blocks i :=
  List.mem_append_left _ hb

/-- The number of data blocks. -/
theorem Holds.dataBlocks_length (h : σ.Holds n r s) :
    (σ.dataBlocks n r).length = blocksFor s.length := by
  have hBytes := congrArg List.length h.direct_nodes
  have hDirect : ∀ l : List Nat, (l.flatMap σ.direct).length = 512 * (l.flatMap σ.directBlocks).length := by
    intro l
    induction l with
    | nil => rfl
    | cons i rest ih =>
        rw [List.flatMap_cons, List.flatMap_cons, List.length_append, List.length_append, ih,
          direct_length, directBlocks_length, Nat.mul_add]
  rw [hDirect, padTo_length] at hBytes
  exact Nat.eq_of_mul_eq_mul_left (by omega) hBytes

theorem Holds.kids_length (h : σ.Holds n r s) : (σ.kids r).length = childCount s.length := by
  cases n with
  | zero =>
      have hNil : σ.kids r = [] := h.shallow
      rw [hNil, childCount_of_le h.1]
      rfl
  | succ n =>
      have hLength := h.2.2.length_eq
      rwa [pieces, List.length_map, List.length_range] at hLength

theorem Holds.pos (h : σ.Holds n r s) (hc : c ∈ σ.kids r) : 0 < n := by
  cases n with
  | zero =>
      have hNil : σ.kids r = [] := h.shallow
      rw [hNil] at hc
      exact absurd hc List.not_mem_nil
  | succ n => exact Nat.succ_pos n

/-- The child at index `j` holds the piece at index `j`. -/
theorem Holds.kid {j : Nat} (h : σ.Holds n r s) (hc : (σ.kids r)[j]? = some c) :
    j < childCount s.length ∧ σ.Holds (n - 1) c (piece s j) := by
  have hLength := h.kids_length
  obtain ⟨hj, rfl⟩ := List.getElem?_eq_some_iff.mp hc
  refine ⟨by omega, ?_⟩
  cases n with
  | zero =>
      have hNil : σ.kids r = [] := h.shallow
      rw [hNil] at hj
      exact absurd hj (Nat.not_lt_zero j)
  | succ n =>
      have hPiece := h.2.2.get hj (by rw [pieces, List.length_map, List.length_range]; omega)
      simp only [List.get_eq_getElem, pieces, List.getElem_map, List.getElem_range] at hPiece
      exact hPiece

/-- Behind a child with less than 100 data blocks there are no more. -/
theorem Holds.packed (h : σ.Holds n r s) : Packed 100 (σ.kids r) (σ.dataBlocks (n - 1)) := by
  intro j c hc
  obtain ⟨hj, hChild⟩ := h.kid hc
  have hMost := childCount_le s.length
  rw [hChild.dataBlocks_length, blocksFor_eq]
  rcases Nat.lt_or_ge s.length (51200 * (j + 2)) with hEnd | hFull
  · refine Or.inr fun i d hi hd => List.eq_nil_of_length_eq_zero ?_
    obtain ⟨hi', hNext⟩ := h.kid hd
    have hNone : (piece s i).length = 0 := by
      by_cases hLast : i < 127
      · rw [piece_length s hLast]
        omega
      · obtain rfl : i = 127 := by omega
        rw [piece_last_length]
        omega
    rw [hNext.dataBlocks_length, hNone]
    rfl
  · by_cases hLast : j < 127
    · refine Or.inl ?_
      rw [piece_length s hLast]
      omega
    · refine Or.inr fun i d hi hd => ?_
      have := (h.kid hd).1
      omega

end Store

open Store

section Reading

variable {m : Machine} {P : Set Nat} {r n stack : Nat} {s : List Byte}

theorem piece_sublist (s : List Byte) (j : Nat) : List.Sublist (piece s j) s := by
  rw [piece]
  split
  · exact (List.take_sublist _ _).trans (List.drop_sublist _ _)
  · exact List.drop_sublist _ _

/-- `get_file_block_num` counts the data blocks. -/
theorem getFileBlockNum_eq (hR : m.store.Readable P) (hr : r ∈ P) (hHolds : m.store.Holds n r s)
    (hLen : s.length < 2 ^ 31) (hStack : n < stack) :
    getFileBlockNum m stack r = .ok (m.store.dataBlocks n r).length := by
  induction stack generalizing n r s with
  | zero => omega
  | succ stack ih =>
      have hDirect := m.store.directBlocks_length r
      have hTotal := hHolds.dataBlocks_length
      have hBlocks := blocksFor_eq s.length
      rw [dataBlocks_eq hHolds.shallow, List.length_append, hDirect] at hTotal ⊢
      rw [getFileBlockNum, derefInode_ok (hR.inum r hr)]
      simp only [bind, Except.bind]
      by_cases hSize : m.store.size r ≤ 100
      · rw [if_pos (show (m.store.inode r).size.toNat < ndirect + 1 from Nat.lt_succ_of_le hSize),
          kids_of_size_le hSize, Nat.min_eq_left hSize]
        rfl
      · have hKids : ∀ c ∈ m.store.kids r,
            getFileBlockNum m stack c = .ok (m.store.dataBlocks (n - 1) c).length := by
          intro c hc
          obtain ⟨j, hj⟩ := List.mem_iff_getElem?.mp hc
          obtain ⟨-, hChild⟩ := hHolds.kid hj
          have hShort : (piece s j).length ≤ s.length := (piece_sublist s j).length_le
          have hDeep := hHolds.pos hc
          exact ih (hR.kid r hr c hc) hChild (by omega) (by omega)
        have hVisible : 100 < m.store.size r → Visible (m.store.slot r 100) := fun hLarge =>
          hR.visible r hr 100 (Or.inr ⟨rfl, hLarge⟩)
        rw [if_neg (show ¬(m.store.inode r).size.toNat < ndirect + 1 from fun hLt =>
          hSize (Nat.le_of_lt_succ hLt)), mapChildren_node hVisible hKids]
        rw [List.length_flatMap] at hTotal ⊢
        refine congrArg Except.ok ?_
        rw [ndirect_eq]
        omega

/-- The child at an index is in the same place of the array in the indirect block. -/
theorem getD_of_untilZero {l : List Nat} {j c : Nat} (h : (untilZero l)[j]? = some c) :
    l.getD j 0 = c := by
  have hSplit : untilZero l ++ l.dropWhile (· != 0) = l := List.takeWhile_append_dropWhile
  rw [← hSplit, List.getD_eq_getElem?_getD,
    List.getElem?_append_left (List.getElem?_eq_some_iff.mp h).1, h]
  rfl

/-- `ino_next_block` finds the data block at an index. -/
theorem inoNextBlock_eq {k b : Nat} (hR : m.store.Readable P) (hr : r ∈ P)
    (hHolds : m.store.Holds n r s) (hb : (m.store.dataBlocks n r)[k]? = some b)
    (hStack : n < stack) (id : Nat) : inoNextBlock m stack r k id = .ok b := by
  induction stack generalizing n r s k with
  | zero => omega
  | succ stack ih =>
      have hDirect := m.store.directBlocks_length r
      rw [dataBlocks_eq hHolds.shallow] at hb
      rw [inoNextBlock, getInode_some (hR.inum r hr)]
      simp only [bind, Except.bind]
      rcases Nat.lt_or_ge k (m.store.directBlocks r).length with hOwn | hLater
      · rw [List.getElem?_append_left hOwn] at hb
        obtain ⟨hk, hSlot⟩ := List.getElem?_eq_some_iff.mp hb
        have hFront : k < ndirect := by
          rw [ndirect_eq]
          omega
        rw [if_pos hFront, ← hSlot]
        simp only [directBlocks, List.getElem_map, List.getElem_range]
        rfl
      · rw [List.getElem?_append_right hLater] at hb
        obtain ⟨j, c, hc, hLow, hIn⟩ := hHolds.packed.getElem?_flatMap hb
        obtain ⟨hIndex, hChild⟩ := hHolds.kid hc
        have hMem := List.mem_of_getElem? hc
        have hLarge : 100 < m.store.size r := by
          by_contra hSmall
          rw [kids_of_size_le (by omega)] at hMem
          exact absurd hMem List.not_mem_nil
        have hFull : (m.store.directBlocks r).length = 100 := by omega
        rw [hFull] at hLater hLow hIn
        -- Only the last child has more than 100 blocks, and the index stops there.
        have hCapped : (if (k - ndirect) / ndirect < nindirect - 1 then (k - ndirect) / ndirect
            else nindirect - 1) = j := by
          have hShort := (List.getElem?_eq_some_iff.mp hIn).1
          have hMost := childCount_le s.length
          have hFit : j < 127 → (m.store.dataBlocks (n - 1) c).length ≤ 100 := fun hFirst => by
            have hPiece : (piece s j).length ≤ 51200 := by
              rw [piece_length s hFirst]
              exact Nat.min_le_left _ _
            rw [hChild.dataBlocks_length, blocksFor_eq]
            omega
          rw [ndirect_eq, nindirect_eq]
          split <;> omega
        have hRead : readBlock m ((m.store.inode r).slot ndirect) =
            .ok (m.store.data (m.store.slot r 100)) :=
          readBlock_data (hR.visible r hr 100 (Or.inr ⟨rfl, hLarge⟩))
        have hBehind : ¬k < ndirect := by
          rw [ndirect_eq]
          omega
        rw [kids_of_size hLarge] at hc
        rw [if_neg hBehind, hRead]
        simp only
        rw [hCapped, getD_of_untilZero hc]
        have hRest : k - (j + 1) * ndirect = k - 100 - 100 * j := by
          rw [ndirect_eq]
          omega
        rw [hRest]
        have hDeep := hHolds.pos hMem
        exact ih (hR.kid r hr c hMem) hChild hIn (by omega)

end Reading

/-- Whatever `write_file` built, `get_file_block_num` counts what `read_blockid` lists,
and `ino_next_block` finds it at the same index. -/
theorem traversals_agree {m m' : Machine} {stack r n : Nat} {buf : List Byte}
    (hStack : maxDepth < stack) (hAlive : m.store.Alive r) (hLen : n ≤ buf.length)
    (hInt : n < 2 ^ 31) (hRun : writeFile stack r buf n m = .ok () m') :
    ∃ ids, readBlockid m' stack r = .ok ids ∧ getFileBlockNum m' stack r = .ok ids.length ∧
      ∀ k (hk : k < ids.length) (id : Nat), inoNextBlock m' stack r k id = .ok ids[k] := by
  obtain ⟨d, rfl⟩ : ∃ d, stack = d + 1 := ⟨stack - 1, by omega⟩
  have hTake : (buf.take n).length = n := List.length_take_of_le hLen
  have hDepth := levels_lt_maxDepth hInt
  have hWrite := wp_writeFile_step (wp_writeFile d) hAlive hLen (by omega) hDepth
  have hPost := wp_ok hWrite hRun
  obtain ⟨σ₁, new, inodes, hPlaced, hStore⟩ := hPost
  rw [← hTake] at hDepth
  have hHolds := hPlaced.holds hAlive
  have hReadable := hPlaced.readable hAlive (isInum_of_alive hAlive) hDepth
  rw [← hStore] at hHolds hReadable
  have hRoot : r ∈ ({r} : Set Nat) ∪ Born m.store σ₁ := Or.inl rfl
  refine ⟨m'.store.dataBlocks (levels (buf.take n).length) r,
    readBlockid_eq hReadable hRoot hHolds.shallow (by omega),
    getFileBlockNum_eq hReadable hRoot hHolds (by omega) (by omega), fun k hk id => ?_⟩
  exact inoNextBlock_eq hReadable hRoot hHolds (List.getElem?_eq_getElem hk) (by omega) id

/-- A new file with one byte more than 128 full children of an inode can take, whose last
block is in a child of the last child. -/
theorem traversals_agree_deep : ∃ m id m₁ m₂ ids b,
    initInodeManager (Machine.zeroed fun _ => 0) = .ok () m ∧
    ExtentServer.create .T_FILE m = .ok id m₁ ∧
    writeFile (maxDepth + 1) id (List.replicate 6604801 97) (6604801 : Nat) m₁ = .ok () m₂ ∧
    readBlockid m₂ (maxDepth + 1) id = .ok ids ∧ ids.length = 12901 ∧
    getFileBlockNum m₂ (maxDepth + 1) id = .ok 12901 ∧ ids[12900]? = some b ∧
    inoNextBlock m₂ (maxDepth + 1) id 12900 0 = .ok b := by
  obtain ⟨m, hInit, hInodes, hBlocks⟩ := ExtentServer.exists_start fun _ => 0
  obtain ⟨id, m₁, hCreate, -, hRoot, hSame, hFewer, -⟩ :=
    ExtentServer.exists_create m .T_FILE (by omega)
  have hBuf : (List.replicate 6604801 (97 : Byte)).length = 6604801 := List.length_replicate
  obtain ⟨m₂, ids, -, hRun, hIds, hLength, -⟩ := layout (Nat.lt_succ_self maxDepth) hRoot.1.1
    (show (List.replicate 6604801 (97 : Byte)).length < 2 ^ 31 by rw [hBuf]; decide)
    (by
      rw [hSame, hBlocks, hBuf]
      decide)
    (by
      have hNeeded : inodesNeeded 6604801 = 129 := by decide
      rw [hBuf]
      omega)
  rw [hBuf] at hRun hLength
  obtain ⟨ids', hIds', hNum, hNext⟩ := traversals_agree (Nat.lt_succ_self maxDepth) hRoot.1.1
    hBuf.ge (by decide) hRun
  obtain rfl := Except.ok.inj (hIds.symm.trans hIds')
  have hIn : 12900 < ids.length := by omega
  have hCount : ids.length = 12901 := by omega
  rw [hCount] at hNum
  exact ⟨m, id, m₁, m₂, ids, ids[12900], hInit, hCreate, hRun, hIds, hCount, hNum,
    List.getElem?_eq_getElem hIn, hNext 12900 hIn 0⟩

end InodeFS
