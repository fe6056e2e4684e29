import InodeFS.WriteFile
import InodeFS.Directory

/-! The blocks and the inodes of a whole tree, one node after the other. The tree
that `write_file` builds takes exactly the blocks and the inodes which its string
needs, and `read_blockid` lists its data blocks in the order of the bytes. -/
namespace InodeFS

open Bytes Exec Ownership

section Sums

variable (s : List Byte)

theorem piece_length {j : Nat} (hj : j < 127) :
    (piece s j).length = min 51200 (s.length - 51200 * (j + 1)) := by
  rw [piece_of_lt s hj, List.length_take, List.length_drop]

theorem piece_last_length : (piece s 127).length = s.length - 6553600 := by
  rw [piece_last, List.length_drop]

/-- Every child but the last is one inode. -/
theorem sum_inodes_pieces : ((pieces s).map fun p => 1 + inodesNeeded p.length).sum =
    inodesNeeded s.length := by
  have hFirst : ∀ j ≤ 127, ((List.range j).map fun i =>
      1 + inodesNeeded (piece s i).length).sum = j := by
    intro j hj
    induction j with
    | zero => rfl
    | succ j ih =>
        have hPiece : (piece s j).length ≤ 51200 := by
          rw [piece_length s (by omega)]
          omega
        rw [List.range_succ, List.map_append, List.sum_append, ih (by omega), List.map_singleton,
          List.sum_singleton, inodesNeeded_of_le hPiece]
  have hSum : ((pieces s).map fun p => 1 + inodesNeeded p.length).sum =
      ((List.range (childCount s.length)).map fun i => 1 + inodesNeeded (piece s i).length).sum := by
    rw [pieces, List.map_map]
    rfl
  rw [hSum]
  by_cases hParts : parts s.length < 128
  · rw [childCount_eq, if_pos hParts, hFirst _ (by omega), inodesNeeded, nindirect_eq]
    by_cases hNone : parts s.length = 0
    · simp [hNone]
    · rw [if_neg (by omega)]
  · rw [childCount_eq, if_neg hParts, List.range_succ, List.map_append, List.sum_append,
      hFirst 127 (Nat.le_refl 127), List.map_singleton, List.sum_singleton, piece_last_length]
    simp only [inodesNeeded, parts_eq, nindirect_eq] at hParts ⊢
    split <;> split <;> omega

/-- An inode takes its direct blocks, and one block more to list its children. -/
def ownBlocks (n : Nat) : Nat := min (blocksFor n) 100 + if 51200 < n then 1 else 0

theorem sum_blocks_pieces : ownBlocks s.length + ((pieces s).map fun p => blocksNeeded p.length).sum =
    blocksNeeded s.length := by
  have hBlocks := blocksFor_eq s.length
  by_cases hSmall : s.length ≤ 51200
  · rw [pieces_of_le hSmall, ownBlocks, if_neg (by omega), blocksNeeded, levels_of_le hSmall,
      List.map_nil, List.sum_nil]
    omega
  have hFirst : ∀ j ≤ 127, 100 + ((List.range j).map fun i =>
      blocksNeeded (piece s i).length).sum = min (blocksFor s.length) (100 * (j + 1)) := by
    intro j hj
    induction j with
    | zero =>
        rw [List.range_zero, List.map_nil, List.sum_nil]
        omega
    | succ j ih =>
        have hLength := piece_length s (show j < 127 by omega)
        have hFlat : levels (piece s j).length = 0 := levels_of_le (by omega)
        have hPiece := blocksFor_eq (piece s j).length
        rw [List.range_succ, List.map_append, List.sum_append, ← Nat.add_assoc, ih (by omega),
          List.map_singleton, List.sum_singleton, blocksNeeded, hFlat]
        omega
  have hSum : ((pieces s).map fun p => blocksNeeded p.length).sum =
      ((List.range (childCount s.length)).map fun i => blocksNeeded (piece s i).length).sum := by
    rw [pieces, List.map_map]
    rfl
  have hLevels := levels_of_gt (Nat.lt_of_not_le hSmall)
  rw [hSum, ownBlocks, if_pos (by omega), blocksNeeded]
  by_cases hParts : parts s.length < 128
  · have hChildren := hFirst (parts s.length - 1) (by omega)
    have hFlat : levels (s.length - 6553600) = 0 := by
      rw [parts_eq] at hParts
      rw [levels_eq]
      omega
    rw [childCount_eq, if_pos hParts]
    rw [parts_eq] at hChildren hParts ⊢
    omega
  · have hChildren := hFirst 127 (Nat.le_refl 127)
    have hLast := blocksFor_eq (s.length - 6553600)
    rw [childCount_eq, if_neg hParts, List.range_succ, List.map_append, List.sum_append,
      List.map_singleton, List.sum_singleton, piece_last_length, blocksNeeded]
    rw [parts_eq] at hParts
    omega

theorem padTo_take_of_le {n k : Nat} (h : n ≤ k) : padTo n (s.take k) = padTo n s := by
  rw [← padTo_take n (s.take k), List.take_take, Nat.min_eq_left h, padTo_take]

/-- The padded pieces make up the padded string. -/
theorem padTo_pieces : padTo (512 * min (blocksFor s.length) 100) s ++
    (pieces s).flatMap (fun p => padTo (512 * blocksFor p.length) p) =
      padTo (512 * blocksFor s.length) s := by
  have hBlocks := blocksFor_eq s.length
  have hFirst : ∀ j ≤ 127, padTo (512 * min (blocksFor s.length) 100) s ++
      (List.range j).flatMap (fun i => padTo (512 * blocksFor (piece s i).length) (piece s i)) =
        padTo (512 * min (blocksFor s.length) (100 * (j + 1))) s := by
    intro j hj
    induction j with
    | zero => simp
    | succ j ih =>
        have hLength := piece_length s (show j < 127 by omega)
        have hPiece := blocksFor_eq (piece s j).length
        rw [List.range_succ, List.flatMap_append, ← List.append_assoc, ih (by omega),
          List.flatMap_singleton]
        by_cases hMore : 51200 * (j + 1) < s.length
        · have hFull : 512 * min (blocksFor s.length) (100 * (j + 1)) = 51200 * (j + 1) := by omega
          have hNext : 512 * min (blocksFor s.length) (100 * (j + 1 + 1)) =
              51200 * (j + 1) + 512 * blocksFor (piece s j).length := by omega
          rw [hFull, hNext, padTo_add]
          congr 1
          rw [piece_of_lt s (by omega)] at hPiece hLength ⊢
          exact padTo_take_of_le _ (by omega)
        · have hZero : 512 * blocksFor (piece s j).length = 0 := by omega
          have hSame : min (blocksFor s.length) (100 * (j + 1)) =
              min (blocksFor s.length) (100 * (j + 1 + 1)) := by omega
          rw [hZero, hSame]
          simp [padTo]
  have hFlat : (pieces s).flatMap (fun p => padTo (512 * blocksFor p.length) p) =
      (List.range (childCount s.length)).flatMap
        (fun i => padTo (512 * blocksFor (piece s i).length) (piece s i)) := by
    rw [pieces, List.flatMap_map]
  rw [hFlat]
  by_cases hParts : parts s.length < 128
  · have hAll : min (blocksFor s.length) (100 * (parts s.length - 1 + 1)) = blocksFor s.length := by
      rw [parts_eq]
      omega
    rw [childCount_eq, if_pos hParts, hFirst _ (by omega), hAll]
  · have hLast := blocksFor_eq (s.length - 6553600)
    rw [childCount_eq, if_neg hParts, List.range_succ, List.flatMap_append, ← List.append_assoc,
      hFirst 127 (Nat.le_refl 127), List.flatMap_singleton, piece_last_length, piece_last]
    by_cases hMore : 6553600 < s.length
    · have hFull : 512 * min (blocksFor s.length) (100 * (127 + 1)) = 6553600 := by omega
      have hRest : 512 * blocksFor s.length = 6553600 + 512 * blocksFor (s.length - 6553600) := by
        omega
      rw [hFull, hRest, padTo_add]
    · have hZero : 512 * blocksFor (s.length - 6553600) = 0 := by omega
      have hAll : min (blocksFor s.length) (100 * (127 + 1)) = blocksFor s.length := by omega
      rw [hZero, hAll]
      simp [padTo]

end Sums

namespace Store

variable (σ : Store)

/-- The blocks that the size field covers, with the indirect block. -/
def blocks (i : Nat) : List Nat :=
  σ.directBlocks i ++ if 100 < σ.size i then [σ.slot i 100] else []

/-- The trees with the blocks in use, without the stale slots. -/
def covered : Shape Nat Nat := { owns := σ.blocks, kids := σ.kids }

/-- The inodes of the tree at `r`. -/
def treeNodes (n r : Nat) : List Nat := σ.covered.nodes n r

/-- The blocks of the tree at `r`. -/
def treeBlocks (n r : Nat) : List Nat := (σ.treeNodes n r).flatMap σ.blocks

variable {σ} {σ' σ₁ : Store} {A M P : Set Nat} {i r b n : Nat} {s : List Byte}

theorem mem_blocks : b ∈ σ.blocks i ↔ ∃ k, σ.Used i k ∧ σ.slot i k = b := by
  simp only [blocks, directBlocks, List.mem_append, List.mem_map, List.mem_range, Used]
  constructor
  · rintro (⟨k, hk, rfl⟩ | hb)
    · exact ⟨k, Or.inl hk, rfl⟩
    · split at hb
      · exact ⟨100, Or.inr ⟨rfl, ‹_›⟩, (List.mem_singleton.mp hb).symm⟩
      · simp at hb
  · rintro ⟨k, hk | ⟨rfl, hSize⟩, rfl⟩
    · exact Or.inl ⟨k, hk, rfl⟩
    · exact Or.inr (by simp [hSize])

theorem blocks_nodup (h : ∀ k l, σ.Used i k → σ.Used i l → σ.slot i k = σ.slot i l → k = l) :
    (σ.blocks i).Nodup := by
  rw [blocks, List.nodup_append]
  refine ⟨?_, ?_, ?_⟩
  · rw [directBlocks, List.nodup_map_iff_inj_on List.nodup_range]
    intro k hk l hl he
    exact h k l (Or.inl (List.mem_range.mp hk)) (Or.inl (List.mem_range.mp hl)) he
  · split <;> simp
  · intro b hb c hc he
    obtain ⟨k, hk, rfl⟩ := List.mem_map.mp hb
    have hLt := List.mem_range.mp hk
    split at hc
    · rename_i hSize
      rw [List.mem_singleton.mp hc] at he
      have := h k 100 (Or.inl hLt) (Or.inr ⟨rfl, hSize⟩) he
      omega
    · simp at hc

theorem shallow_covered (h : σ.shape.Shallow n r) : σ.covered.Shallow n r := by
  have hKids : ∀ j ∈ Set.univ, σ.covered.kids j = σ.shape.kids j := fun _ _ => rfl
  exact h.congr (fun _ _ _ _ => Set.mem_univ _) hKids (Set.mem_univ r)

theorem treeNodes_eq (n r : Nat) : σ.treeNodes n r = σ.shape.nodes n r := by
  have hKids : ∀ j ∈ Set.univ, σ.covered.kids j = σ.shape.kids j := fun _ _ => rfl
  exact Shape.nodes_congr (fun _ _ _ _ => Set.mem_univ _) hKids n (Set.mem_univ r)

theorem Sound.covered (h : σ.Sound A M) : IsForest σ.covered maxDepth A M := by
  have hOwns : ∀ j ∈ A, ∀ b ∈ σ.blocks j, b ∈ σ.owns j := by
    intro j hj b hb
    obtain ⟨k, hk, rfl⟩ := mem_blocks.mp hb
    exact mem_owns_of_used (h.slot_ne j hj k hk) hk
  refine ⟨fun j hj b hb => h.forest.owns_mem j hj b (hOwns j hj b hb), fun j hj => ?_,
    fun i hi j hj b hb hb' => ?_, h.forest.kids_mem, h.forest.kids_nodup, h.forest.kids_unique,
    fun j hj => shallow_covered (h.forest.shallow j hj)⟩
  · refine blocks_nodup fun k l hk hl he => ?_
    exact (owns_nodup_iff σ).mp (h.forest.owns_nodup j hj) k hk.lt l hl.lt he (h.slot_ne j hj k hk)
  · exact h.forest.owns_unique i hi j hj b (hOwns i hi b hb) (hOwns j hj b hb')

/-- A quantity that each node adds to those of its children. -/
theorem Holds.sum_nodes (g : Nat → Nat) (own total : List Byte → Nat)
    (hTotal : ∀ s, own s + ((pieces s).map total).sum = total s)
    (hOwn : ∀ n i s, σ.Holds n i s → g i = own s) (h : σ.Holds n r s) :
    ((σ.treeNodes n r).map g).sum = total s := by
  induction n generalizing r s with
  | zero =>
      have hLen : s.length ≤ 51200 := h.1
      have hRoot := hTotal s
      rw [pieces_of_le hLen, List.map_nil, List.sum_nil, Nat.add_zero] at hRoot
      rw [← hRoot, ← hOwn 0 r s h]
      simp [treeNodes, Shape.nodes]
  | succ n ih =>
      have hKids : ((σ.kids r).map fun c => ((σ.treeNodes n c).map g).sum) = (pieces s).map total := by
        rw [← List.forall₂_eq_eq_eq, List.forall₂_map_left_iff, List.forall₂_map_right_iff]
        exact h.2.2.imp fun c p hc => ih hc
      have hNodes : σ.treeNodes (n + 1) r = r :: (σ.kids r).flatMap (σ.treeNodes n) := rfl
      rw [hNodes, List.map_cons, List.sum_cons, List.map_flatMap, List.flatMap_def, List.sum_flatten,
        List.map_map, hOwn (n + 1) r s h]
      exact (congrArg (own s + ·.sum) hKids).trans (hTotal s)

theorem Holds.size_eq (h : σ.Holds n r s) : σ.size r = min (blocksFor s.length) 101 := by
  cases n with
  | zero =>
      have hLen : s.length ≤ 51200 := h.1
      have hBlocks := blocksFor_eq s.length
      rw [h.2.1]
      omega
  | succ n => exact h.1

theorem Holds.nodes_length (h : σ.Holds n r s) :
    (σ.treeNodes n r).length = 1 + inodesNeeded s.length := by
  have hSum := h.sum_nodes (fun _ => 1) (fun _ => 1) (fun s => 1 + inodesNeeded s.length)
    (fun s => by rw [sum_inodes_pieces]) fun _ _ _ _ => rfl
  simpa using hSum

theorem Holds.blocks_length (h : σ.Holds n r s) :
    (σ.treeBlocks n r).length = blocksNeeded s.length := by
  have hSum := h.sum_nodes (fun i => (σ.blocks i).length) (fun s => ownBlocks s.length)
    (fun s => blocksNeeded s.length) sum_blocks_pieces ?_
  · rw [treeBlocks, List.length_flatMap]
    exact hSum
  · intro n i s h
    have hBlocks := blocksFor_eq s.length
    rw [blocks, directBlocks, List.length_append, List.length_map, List.length_range, h.size_eq,
      ownBlocks]
    split <;> split <;> simp <;> omega

/-- The data blocks in order hold the string, padded to whole blocks. -/
theorem Holds.direct_nodes (h : σ.Holds n r s) :
    (σ.treeNodes n r).flatMap σ.direct = padTo (512 * blocksFor s.length) s := by
  induction n generalizing r s with
  | zero =>
      have hNodes : σ.treeNodes 0 r = [r] := rfl
      rw [hNodes, List.flatMap_singleton, h.2.2]
  | succ n ih =>
      have hKids : ((σ.kids r).flatMap fun c => (σ.treeNodes n c).flatMap σ.direct) =
          (pieces s).flatMap fun p => padTo (512 * blocksFor p.length) p :=
        flatMap_eq_of_forall₂ (h.2.2.imp fun c p hc => ih hc)
      have hNodes : σ.treeNodes (n + 1) r = r :: (σ.kids r).flatMap (σ.treeNodes n) := rfl
      rw [hNodes, List.flatMap_cons, List.flatMap_assoc, hKids, h.2.1]
      exact padTo_pieces s

end Store
end InodeFS
