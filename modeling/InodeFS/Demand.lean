import InodeFS.Padding
import InodeFS.WriteResult

/-! What `write_file` takes from the disk. The last of the 128 children is
allocated as soon as the other 127 are there, also when no byte is left for it. -/
namespace InodeFS

open Bytes Exec Store

namespace Store

variable {σ σ' : Store}

/-- Blocks that were free and are marked now. -/
def newlyMarked (σ σ' : Store) : Finset Nat :=
  (Finset.Ico dataStart sb.nblocks).filter fun b => σ.bit b = false ∧ σ'.bit b = true

/-- Inodes of type 0 that have another type now. -/
def newInodes (σ σ' : Store) : Finset Nat :=
  (Finset.Icc 1 inodeNum).filter fun i => ¬σ.Alive i ∧ σ'.Alive i

theorem newlyMarked_card (h : ∀ b, σ.bit b = true → σ'.bit b = true) :
    (newlyMarked σ σ').card + σ'.freeBlocks = σ.freeBlocks := by
  have hSub : ((Finset.Ico dataStart sb.nblocks).filter fun b => σ'.bit b = false) ⊆
      (Finset.Ico dataStart sb.nblocks).filter fun b => σ.bit b = false := by
    refine Finset.monotone_filter_right _ fun b _ hFree => ?_
    by_contra hMarked
    rw [h b (by simpa using hMarked)] at hFree
    cases hFree
  have hDiff : newlyMarked σ σ' =
      ((Finset.Ico dataStart sb.nblocks).filter fun b => σ.bit b = false) \
        (Finset.Ico dataStart sb.nblocks).filter fun b => σ'.bit b = false := by
    ext b
    simp only [newlyMarked, Finset.mem_filter, Finset.mem_sdiff]
    constructor
    · rintro ⟨hRange, hFree, hMarked⟩
      exact ⟨⟨hRange, hFree⟩, fun hStill => by simp [hMarked] at hStill⟩
    · rintro ⟨⟨hRange, hFree⟩, hNot⟩
      refine ⟨hRange, hFree, ?_⟩
      by_contra hMarked
      exact hNot ⟨hRange, by simpa using hMarked⟩
  rw [hDiff]
  exact Finset.card_sdiff_add_card_eq_card hSub

theorem newInodes_card (h : ∀ i, σ.Alive i → σ'.Alive i) :
    (newInodes σ σ').card + σ'.freeInodes = σ.freeInodes := by
  have hSub : ((Finset.Icc 1 inodeNum).filter fun i => ¬σ'.Alive i) ⊆
      (Finset.Icc 1 inodeNum).filter fun i => ¬σ.Alive i :=
    Finset.monotone_filter_right _ fun i _ hDead hAlive => hDead (h i hAlive)
  have hDiff : newInodes σ σ' =
      ((Finset.Icc 1 inodeNum).filter fun i => ¬σ.Alive i) \
        (Finset.Icc 1 inodeNum).filter fun i => ¬σ'.Alive i := by
    ext i
    simp only [newInodes, Finset.mem_filter, Finset.mem_sdiff]
    constructor
    · rintro ⟨hRange, hDead, hAlive⟩
      exact ⟨⟨hRange, hDead⟩, fun hStill => hStill.2 hAlive⟩
    · rintro ⟨⟨hRange, hDead⟩, hNot⟩
      exact ⟨hRange, hDead, by_contra fun hStill => hNot ⟨hRange, hStill⟩⟩
  rw [hDiff]
  exact Finset.card_sdiff_add_card_eq_card hSub

end Store

section Demand

variable {m m' : Machine} {stack r : Nat} {str : List Byte}

/-- Up to 12900 blocks there is one indirect block at most. -/
theorem blocksNeeded_flat {n : Nat} (h : blocksFor n ≤ 12900) :
    blocksNeeded n = if blocksFor n ≤ 100 then blocksFor n else blocksFor n + 1 := by
  rw [blocksFor_eq] at h
  rw [blocksNeeded, levels_eq, blocksFor_eq]
  split <;> omega

theorem inodesNeeded_flat {n : Nat} (h : blocksFor n ≤ 12900) :
    inodesNeeded n = childCount n := by
  rw [blocksFor_eq] at h
  rw [inodesNeeded, childCount_eq, parts_eq, nindirect_eq]
  split_ifs <;> omega

theorem childCount_flat {n : Nat} (h : blocksFor n ≤ 12900) :
    childCount n = if 12700 < blocksFor n then 128 else (blocksFor n - 100 + 99) / 100 := by
  rw [blocksFor_eq] at h
  rw [childCount_eq, parts_eq, blocksFor_eq]
  split_ifs <;> omega

/-- The child at index `j` gets the bytes behind the first `51200 * (j + 1)`. -/
theorem size_piece_pos {j : Nat} (hj : j < 128) :
    0 < blocksFor (piece str j).length ↔ 51200 * (j + 1) < str.length := by
  rw [blocksFor_eq]
  by_cases hLast : j < 127
  · rw [piece_of_lt str hLast, List.length_take, List.length_drop]
    omega
  · obtain rfl : j = 127 := by omega
    rw [piece_last, List.length_drop]
    omega

theorem Store.Holds.child {σ : Store} {n c : Nat} (h : σ.Holds n r str) (hc : c ∈ σ.kids r) :
    ∃ j < childCount str.length, ∃ d, σ.Holds d c (piece str j) := by
  cases n with
  | zero =>
      have hNil : σ.kids r = [] := h.shallow
      rw [hNil] at hc
      exact absurd hc List.not_mem_nil
  | succ n =>
      have hMem := (List.forall₂_and_left (p := (· ∈ pieces str)) _ _).mpr
        ⟨fun p hp => hp, h.2.2.flip⟩
      obtain ⟨p, hp, hHolds⟩ := Holds.exists_of_forall₂ hMem.flip hc
      obtain ⟨j, hj, rfl⟩ := mem_pieces.mp hp
      exact ⟨j, hj, n, hHolds⟩

/-- What a write of `n` blocks should take: the blocks, an indirect block for more
than 100, and children with something in them. -/
def TakesExactly (stack r : Nat) (str : List Byte) (m : Machine) : Prop :=
  ∃ m', writeFile stack r str str.length m = .ok () m' ∧
    (newlyMarked m.store m'.store).card =
      (if blocksFor str.length ≤ 100 then blocksFor str.length else blocksFor str.length + 1) ∧
    (newInodes m.store m'.store).card =
      (if 100 < blocksFor str.length then (blocksFor str.length - 100 + 99) / 100 else 0) ∧
    ∀ c ∈ m'.store.kids r, 0 < m'.store.size c

/-- What a write does take, and the tree it leaves. -/
theorem exists_counted_write (hStack : maxDepth < stack) (hAlive : m.store.Alive r)
    (hLen : str.length < 2 ^ 31)
    (hBlocks : blocksNeeded str.length ≤ m.store.freeBlocks)
    (hInodes : inodesNeeded str.length ≤ m.store.freeInodes) :
    ∃ m', writeFile stack r str str.length m = .ok () m' ∧
      (newlyMarked m.store m'.store).card = blocksNeeded str.length ∧
      (newInodes m.store m'.store).card = inodesNeeded str.length ∧
      m'.store.Holds (levels str.length) r str := by
  obtain ⟨d, rfl⟩ : ∃ d, stack = d + 1 := ⟨stack - 1, by omega⟩
  have hDepth := levels_lt_maxDepth hLen
  have hWrite := wp_writeFile_step (wp_writeFile d) hAlive (Nat.le_refl str.length)
    (by omega) hDepth
  rw [List.take_length] at hWrite
  obtain ⟨_, m', hRun, σ₁, new, inodes, hPlaced, hStore⟩ := exists_ok_of_wp
    (wp_mono hWrite (fun _ _ hPost => hPost) fun e m' hFail => by
      have := hFail.cause
      omega)
  have hProgress := hPlaced.progress
  have hAliveIff : ∀ i, m'.store.Alive i ↔ σ₁.Alive i := by
    intro i
    rw [hStore]
    refine alive_putInode_iff ?_ i
    rw [hPlaced.type, hProgress.grows.inode_of_alive hAlive]
  refine ⟨m', hRun, ?_, ?_, hStore ▸ hPlaced.holds hAlive⟩
  · have hCard := newlyMarked_card fun b (hb : m.store.bit b = true) => show m'.store.bit b = true by
      rw [hStore]
      exact hProgress.grows.bit b hb
    have hFree : m'.store.freeBlocks = σ₁.freeBlocks := freeBlocks_congr (hStore ▸ rfl)
    have := hProgress.blocks
    omega
  · have hCard := newInodes_card fun i (hi : m.store.Alive i) =>
      (hAliveIff i).mpr (hProgress.grows.alive hi)
    have hFree : m'.store.freeInodes = σ₁.freeInodes := freeInodes_congr hAliveIff
    have := hProgress.inodes
    omega

/-- Between 12701 and 12800 blocks there is a child too many. -/
theorem not_takesExactly (hStack : maxDepth < stack) (hAlive : m.store.Alive r)
    (hMore : 12700 < blocksFor str.length) (hLess : blocksFor str.length ≤ 12800)
    (hBlocks : blocksNeeded str.length ≤ m.store.freeBlocks)
    (hInodes : inodesNeeded str.length ≤ m.store.freeInodes) : ¬TakesExactly stack r str m := by
  have hCeil := blocksFor_eq str.length
  obtain ⟨m', hRun, -, hNew, -⟩ :=
    exists_counted_write hStack hAlive (by omega) hBlocks hInodes
  rw [inodesNeeded_flat (by omega), childCount_flat (by omega), if_pos hMore] at hNew
  rintro ⟨m₁, hRun', -, hCount, -⟩
  rw [hRun] at hRun'
  injection hRun' with _ hSame
  subst hSame
  rw [hNew, if_pos (by omega)] at hCount
  omega

/-- `write_file` takes what it needs, except for 12701 to 12800 blocks, where it
allocates a 128th child without data. -/
theorem takes_exactly_iff (hStack : maxDepth < stack) (hAlive : m.store.Alive r)
    (hFlat : blocksFor str.length ≤ 12900)
    (hBlocks : blocksNeeded str.length ≤ m.store.freeBlocks)
    (hInodes : inodesNeeded str.length ≤ m.store.freeInodes) :
    TakesExactly stack r str m ↔
      ¬(12700 < blocksFor str.length ∧ blocksFor str.length ≤ 12800) := by
  constructor
  · rintro hExact ⟨hMore, hLess⟩
    exact not_takesExactly hStack hAlive hMore hLess hBlocks hInodes hExact
  · intro hNoGap
    have hCeil := blocksFor_eq str.length
    obtain ⟨m', hRun, hMarked, hNew, hHolds⟩ :=
      exists_counted_write hStack hAlive (by omega) hBlocks hInodes
    rw [blocksNeeded_flat hFlat] at hMarked
    rw [inodesNeeded_flat hFlat, childCount_flat hFlat] at hNew
    refine ⟨m', hRun, hMarked, ?_, fun c hc => ?_⟩
    · rw [hNew]
      split_ifs <;> omega
    · obtain ⟨j, hj, _, hChild⟩ := hHolds.child hc
      rw [childCount_flat hFlat] at hj
      have hPos : 0 < blocksFor (piece str j).length := (size_piece_pos (by split_ifs at hj <;> omega)).mpr (by
        split_ifs at hj <;> omega)
      rw [hChild.size_eq]
      omega

/-- The root of a fresh disk, and a string of any length that fits. -/
theorem exists_fresh_root {n : Nat} (hBlocks : blocksNeeded n ≤ 2095612)
    (hInodes : inodesNeeded n ≤ 1023) : ∃ m, initInodeManager (Machine.zeroed fun _ => 0) = .ok () m ∧
      m.store.Alive 1 ∧ blocksNeeded n ≤ m.store.freeBlocks ∧ inodesNeeded n ≤ m.store.freeInodes := by
  obtain ⟨m, hInit, hFreeInodes, hFreeBlocks⟩ := ExtentServer.exists_start fun _ => 0
  exact ⟨m, hInit, (ExtentServer.Session.start_intact hInit).1.alive 1 rfl, hFreeBlocks ▸ hBlocks,
    hFreeInodes ▸ hInodes⟩

/-- 12701 blocks, written to the root of a fresh disk. -/
theorem takes_empty_child : ∃ (m : Machine) (str : List Byte),
    initInodeManager (Machine.zeroed fun _ => 0) = .ok () m ∧ blocksFor str.length = 12701 ∧
      blocksNeeded str.length ≤ m.store.freeBlocks ∧ inodesNeeded str.length ≤ m.store.freeInodes ∧
      ¬TakesExactly (maxDepth + 1) 1 str m := by
  have hLength : (List.replicate 6502401 (1 : Byte)).length = 6502401 := List.length_replicate
  obtain ⟨m, hInit, hAlive, hBlocks, hInodes⟩ :=
    exists_fresh_root (n := 6502401) (by decide) (by decide)
  rw [← hLength] at hBlocks hInodes
  have hCount : blocksFor (List.replicate 6502401 (1 : Byte)).length = 12701 := by
    rw [hLength]
    rfl
  exact ⟨m, _, hInit, hCount, hBlocks, hInodes,
    not_takesExactly (Nat.lt_succ_self maxDepth) hAlive (by omega) (by omega) hBlocks hInodes⟩

/-- 170000 letters in an empty file, next to a file of 60000 letters. -/
theorem takes_three_children : ∃ (s : ExtentServer.Session) (id other : Nat),
    ExtentServer.Run (maxDepth + 1) (fun _ => 0) (fun _ call => call.KeepsSize) s ∧
    ExtentServer.get s.machine (maxDepth + 1) id = .ok (List.replicate 60000 97) ∧
    TakesExactly (maxDepth + 1) other (List.replicate 170000 98) s.machine := by
  have hStack := Nat.lt_succ_self maxDepth
  have hNeeds : blocksNeeded 60000 = 119 ∧ inodesNeeded 60000 = 1 ∧ blocksNeeded 170000 = 334 ∧
      inodesNeeded 170000 = 3 ∧ blocksFor 170000 = 333 := by decide
  obtain ⟨s, id, other, hRun, -, hOther, -, hGet, hFree, hFree'⟩ := ExtentServer.exists_letters
    (show 60000 < 2 ^ 31 by decide) (by omega) (by omega)
  have hLength : (List.replicate 170000 (98 : Byte)).length = 170000 := List.length_replicate
  generalize List.replicate 170000 (98 : Byte) = str at hLength ⊢
  exact ⟨s, id, other, hRun, hGet, (takes_exactly_iff hStack
    ((hRun.faithful hStack).intact.alive other hOther) (by rw [hLength]; omega) (by rw [hLength]; omega)
    (by rw [hLength]; omega)).mpr (by rw [hLength]; omega)⟩

end Demand
end InodeFS
