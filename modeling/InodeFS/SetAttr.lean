import InodeFS.Resize

/-! `set_attr` compares the new size with `get_file_size` and calls
`padding_file` for a smaller and `truncate_file` for a larger one. -/
namespace InodeFS

open Bytes Exec Ownership Store

namespace Store

variable {σ : Store} {live : Set Nat} {r n : Nat}

theorem lastNonZero_lt (b : Block) : lastNonZero b < 512 := by
  have hLe := trim_length_le b.bytes
  rw [b.bytes_length, blockSize_eq] at hLe
  rw [lastNonZero]
  omega

/-- The size of a file without children lies in its last block. -/
theorem fileSize_small (h : σ.size r ≤ 100) (n : Nat) : σ.fileSize n r =
    if σ.size r = 0 then 0
    else 512 * (σ.size r - 1) + lastNonZero (σ.data (σ.slot r (σ.size r - 1))) + 1 := by
  cases n <;> simp [fileSize, h, Nat.mul_comm]

theorem fileSize_le (h : σ.size r ≤ 100) (n : Nat) : σ.fileSize n r ≤ 512 * σ.size r := by
  have hLast := lastNonZero_lt (σ.data (σ.slot r (σ.size r - 1)))
  rw [fileSize_small h]
  split <;> omega

theorem lt_fileSize (h : σ.size r ≤ 100) (hPos : 0 < σ.size r) (n : Nat) :
    512 * (σ.size r - 1) < σ.fileSize n r := by
  rw [fileSize_small h, if_neg (by omega)]
  omega

theorem fileSize_lt (σ : Store) (n r : Nat) : σ.fileSize n r < 2 ^ 32 := by
  by_cases h : σ.size r ≤ 100
  · have := fileSize_le h n
    omega
  · have hne : σ.size r ≠ 0 := by omega
    cases n with
    | zero => simp [fileSize, h, hne]
    | succ n =>
        rw [fileSize, if_neg hne, if_neg h]
        exact Nat.mod_lt _ (by decide)

theorem share_eq_zero {final k : Nat} (h : final ≤ 100) : share final k = 0 := by
  rw [share]
  omega

/-- A file that needs no children misses direct blocks only. -/
theorem missingBlocks_of_le {final : Nat} (h : final ≤ 100) :
    σ.missingBlocks r final = final - σ.size r := by
  have hSum : ∀ l : List Nat, (l.map (σ.missing r final)).sum = 0 := by
    intro l
    induction l with
    | nil => rfl
    | cons k rest ih =>
        rw [List.map_cons, List.sum_cons, ih, missing, share_eq_zero h, Nat.zero_sub]
  rw [missingBlocks, hSum]
  omega

/-- A change of the size field within the blocks that are there. -/
theorem refits_resized {final : Nat} (hI : σ.Intact live) (hr : σ.Alive r)
    (hFinal : final ≤ 100) (hLe : final ≤ σ.size r) (now : UInt32) :
    Refits σ {i | σ.Alive i} r (resized (σ.inode r) final now) := by
  refine ⟨rfl, ?_, fun k _ => Or.inl rfl, fun k hk l hl he hne => ?_, fun k hk => ?_, fun hSize => ?_⟩
  · rw [resized_size]
    omega
  · exact (owns_nodup_iff σ).mp (hI.sound.forest.owns_nodup r hr) k hk l hl he hne
  · rw [resized_size] at hk
    exact hI.sound.slot_ne r hr k (Or.inl (by omega))
  · rw [resized_size] at hSize
    omega

end Store

/-- `truncate_file` on a file that has no more blocks than the new size needs
only sets the size field. -/
theorem wp_truncateFile_grow {m : Machine} {r n stack : Nat} (hInum : IsInum r)
    (hSize : m.store.size r ≤ 100) (hLe : m.store.size r ≤ blocksFor n % 2 ^ 32) (hPos : 0 < n)
    (hStack : 0 < stack) :
    wp (truncateFile stack r n) (fun _ m' => ∃ now,
      m'.store = m.store.putInode r (resized (m.store.inode r) (blocksFor n % 2 ^ 32) now))
      (fun _ _ => False) m := by
  obtain ⟨stack, rfl⟩ := Nat.exists_eq_add_of_lt hStack
  have hOld : (m.store.inode r).size.toNat = m.store.size r := rfl
  rw [Nat.zero_add, truncateFile, wp_bind, wp_derefInode hInum]
  simp only [ndirect_eq]
  rw [wp_bind]
  refine wp_mono (wp_forM (fun _ m' => m' = m) rfl fun done i rest hl m' hm' => ?_)
    (fun _ m₁ hm₁ => ?_) fun _ _ hFalse => hFalse
  · obtain ⟨-, hi⟩ := index_of_range_eq hl
    rw [truncateDirect, if_neg (by omega)]
    exact hm'
  · subst hm₁
    rw [wp_bind, truncateChildren, if_neg (by rw [ndirect_eq]; omega), wp_pure, if_neg (by omega),
      wp_bind]
    refine wp_time fun now m₂ hm₂ => ?_
    obtain ⟨m₃, hRun, hStore⟩ := putInode_eq (m := m₂) hInum
      (resized (m₁.store.inode r) (blocksFor n % 2 ^ 32) now)
    exact wp_of_ok hRun ⟨now, by rw [hStore, hm₂]⟩

namespace ExtentServer

variable {live : Set Nat} {m : Machine} {id n stack : Nat}

theorem setAttr_eq (h : m.store.Intact live) (hStack : maxDepth < stack) (hi : id ∈ live)
    {Q : Unit → Machine → Prop} {E : Stop → Machine → Prop} :
    wp (ExtentServer.setAttr stack id n) Q E m ↔
      wp (if m.store.fileSize maxDepth id < n then truncateFile stack id n
        else if m.store.fileSize maxDepth id > n then paddingFile stack id n else pure ()) Q E m := by
  have hAlive := h.alive id hi
  have hRange := isInum_iff.mp (isInum_of_alive hAlive)
  have hSize := getFileSize_eq h.sound.readable hAlive (h.sound.forest.shallow id hAlive) hStack
  rw [ExtentServer.setAttr, Nat.mod_eq_of_lt (show id < 2 ^ 32 by omega), InodeFS.setAttr, wp_bind,
    wp_query_ok (f := (getFileSize · stack id)) hSize]

/-- A smaller size, with blocks enough for what is missing. -/
theorem wp_setAttr_shrink (h : m.store.Intact live) (hStack : maxDepth < stack) (hi : id ∈ live)
    (hn : n ≤ m.store.fileSize maxDepth id)
    (hEnough : m.store.missingBlocks id (blocksFor n) ≤ m.store.freeBlocks) :
    wp (ExtentServer.setAttr stack id n) (fun _ m' => m'.store.Intact live ∧
      if n = m.store.fileSize maxDepth id then m' = m
      else Resized m.store m'.store id (blocksFor n))
      (fun _ _ => 100 < blocksFor n) m := by
  have hDepth := maxDepth_eq
  rw [setAttr_eq h hStack hi, if_neg (by omega)]
  by_cases he : n = m.store.fileSize maxDepth id
  · rw [if_neg (by omega)]
    simp only [if_pos he]
    exact ⟨h, rfl⟩
  · have hLt : n < m.store.fileSize maxDepth id := by omega
    rw [if_pos hLt]
    simp only [if_neg he]
    by_cases hFinal : blocksFor n ≤ 100
    · exact wp_mono (wp_paddingFile_small h hi hFinal hEnough (by omega)) (fun _ _ hPost => hPost)
        fun _ _ hFalse => hFalse.elim
    · have hBig : 100 < m.store.size id := by
        by_contra hSmall
        have hLe : m.store.fileSize maxDepth id ≤ 512 * m.store.size id :=
          fileSize_le (by omega) maxDepth
        rw [blocksFor_eq] at hFinal
        omega
      have hBound := fileSize_lt m.store maxDepth id
      have hBlocks : blocksFor n < 2 ^ 32 := by
        rw [blocksFor_eq]
        omega
      exact wp_mono (wp_paddingFile_large h hi (by omega) hBlocks hBig hEnough (by omega))
        (fun _ _ hPost => hPost) fun _ _ _ => by omega

/-- A larger size for a file without children: only the size field changes. -/
theorem wp_setAttr_grow (h : m.store.Intact live) (hStack : maxDepth < stack) (hi : id ∈ live)
    (hSize : m.store.size id ≤ 100) (hn : m.store.fileSize maxDepth id < n)
    (hBlocks : m.store.size id ≤ blocksFor n % 2 ^ 32) :
    wp (ExtentServer.setAttr stack id n) (fun _ m' => ∃ now,
      m'.store = m.store.putInode id (resized (m.store.inode id) (blocksFor n % 2 ^ 32) now))
      (fun _ _ => False) m := by
  have hDepth := maxDepth_eq
  rw [setAttr_eq h hStack hi, if_pos hn]
  exact wp_truncateFile_grow (isInum_of_alive (h.alive id hi)) hSize hBlocks (by omega) (by omega)

/-- A size that needs no other blocks than those of the file. -/
theorem wp_setAttr_inside (h : m.store.Intact live) (hStack : maxDepth < stack) (hi : id ∈ live)
    (hSize : m.store.size id ≤ 100) (hBlocks : blocksFor n ≤ m.store.size id) :
    wp (ExtentServer.setAttr stack id n) (fun _ m' => m'.store.Intact live) (fun _ _ => False) m := by
  have hAlive := h.alive id hi
  by_cases hn : n ≤ m.store.fileSize maxDepth id
  · have hMissing : m.store.missingBlocks id (blocksFor n) = blocksFor n - m.store.size id :=
      missingBlocks_of_le (by omega)
    exact wp_mono (wp_setAttr_shrink h hStack hi hn (by omega)) (fun _ _ hPost => hPost.1)
      fun _ _ hBig => by omega
  · have hLast : m.store.size id ≤ blocksFor n := by
      by_cases hZero : m.store.size id = 0
      · omega
      · have hLt := lt_fileSize hSize (by omega) maxDepth
        rw [blocksFor_eq]
        omega
    have hMod : blocksFor n % 2 ^ 32 = blocksFor n := Nat.mod_eq_of_lt (by omega)
    refine wp_mono (wp_setAttr_grow h hStack hi hSize (by omega) (by omega))
      (fun _ m' hPost => ?_) fun _ _ hFalse => hFalse
    obtain ⟨now, hStore⟩ := hPost
    rw [hStore, hMod]
    exact (refits_resized h hAlive (by omega) hBlocks now).intact h hAlive

end ExtentServer
end InodeFS
