import InodeFS.Write

/-! The children of `write_file` and the whole recursion. Every child is a new
inode, written like any other file. -/
namespace InodeFS

open Bytes Exec Ownership Store

variable {σ σ₁ σ₂ : Store} {s : List Byte} {d c : Nat} {inodes : List Nat}

/-- The first children of the tree for `s`, in order. -/
structure Children (σ σ' : Store) (s : List Byte) (d : Nat) (inodes : List Nat) : Prop where
  fresh : ∀ c ∈ inodes, FreshRoot σ σ' c
  nodup : inodes.Nodup
  holds : List.Forall₂ (σ'.Holds d) inodes ((List.range inodes.length).map (piece s))

namespace Children

theorem nil (σ σ' : Store) (s : List Byte) (d : Nat) : Children σ σ' s d [] :=
  ⟨by simp, List.nodup_nil, List.Forall₂.nil⟩

/-- Children stay as they are while the disk grows. -/
theorem mono (h : Children σ σ₁ s d inodes) (h₁ : Grows σ σ₁) (h₂ : Grows σ₁ σ₂) :
    Children σ σ₂ s d inodes := by
  refine ⟨fun c hc => (h.fresh c hc).mono h₁ h₂, h.nodup, ?_⟩
  have hMem := (List.forall₂_and_left (p := (· ∈ Born σ σ₁)) _ _).mpr
    ⟨fun c hc => (h.fresh c hc).1, h.holds⟩
  exact hMem.imp fun c p hc =>
    Holds.congr (h₂.sameOn h₁.sound) h₁.sound.forest.kids_mem hc.1 hc.2

/-- Writing the indirect block does not touch the children. -/
theorem write (h : Children σ σ₁ s d inodes) (h₁ : Grows σ σ₁) {b : Nat} (hb : Fresh σ σ₁ b)
    (buf : Block) : Children σ (σ₁.write b buf) s d inodes := by
  have hSame := h₁.sameOn_write hb buf
  refine ⟨fun c hc => ⟨(h.fresh c hc).1, fun i hi hMem => ?_⟩, h.nodup, ?_⟩
  · exact (h.fresh c hc).2 i hi (hSame.kids hi ▸ hMem)
  · have hMem := (List.forall₂_and_left (p := (· ∈ Born σ σ₁)) _ _).mpr
      ⟨fun c hc => (h.fresh c hc).1, h.holds⟩
    exact hMem.imp fun c p hc => Holds.congr hSame h₁.sound.forest.kids_mem hc.1 hc.2

theorem deepen {e : Nat} (h : Children σ σ₁ s d inodes) (hle : d ≤ e) :
    Children σ σ₁ s e inodes :=
  ⟨h.fresh, h.nodup, h.holds.imp fun _ _ hHolds => hHolds.mono hle⟩

/-- One more child, written after the others. -/
theorem snoc (h : Children σ σ₁ s d inodes) (h₁ : Grows σ σ₁) (h₂ : Grows σ₁ σ₂)
    (hc : FreshRoot σ₁ σ₂ c) (hHolds : σ₂.Holds d c (piece s inodes.length)) :
    Children σ σ₂ s d (inodes ++ [c]) := by
  have hOld := h.mono h₁ h₂
  have hNew : c ∉ inodes := fun hMem => hc.1.2 (h.fresh c hMem).1.1
  refine ⟨?_, ?_, ?_⟩
  · intro x hx
    rcases List.mem_append.mp hx with hx | hx
    · exact hOld.fresh x hx
    · obtain rfl : x = c := List.mem_singleton.mp hx
      exact hc.of_later h₁ h₂
  · refine List.nodup_append.mpr ⟨h.nodup, List.nodup_singleton c, ?_⟩
    rintro x hx y hy rfl
    exact hNew (List.mem_singleton.mp hy ▸ hx)
  · rw [List.length_append, List.length_singleton, List.range_succ, List.map_append]
    exact List.rel_append hOld.holds (List.Forall₂.cons hHolds List.Forall₂.nil)

/-- Seen from an earlier state of the disk. -/
theorem of_later {ρ : Store} (h : Children σ σ₁ s d inodes) (h₀ : Grows ρ σ) (h₁ : Grows σ σ₁) :
    Children ρ σ₁ s d inodes :=
  ⟨fun c hc => (h.fresh c hc).of_later h₀ h₁, h.nodup, h.holds⟩

theorem ne_zero_and_lt (h : Children σ σ₁ s d inodes) (h₁ : Grows σ σ₁) :
    ∀ c ∈ inodes, c ≠ 0 ∧ c < 2 ^ 32 := by
  intro c hc
  have hInum := isInum_iff.mp (h₁.sound.inum c (h.fresh c hc).1)
  omega

end Children

/-- A child is allocated and written, and the loop goes on. -/
theorem wp_writeChild {α : Type} {write : Nat → List Byte → Int → Action Unit} {stack : Nat}
    (hWrite : WriteSpec write stack) {m : Machine} {buf : List Byte} {size : Int}
    (hBuf : size.toNat ≤ buf.length) (hStack : levels size.toNat < stack)
    (hDepth : levels size.toNat ≤ maxDepth) {next : Nat → Action α}
    {Q : α → Machine → Prop} {E : Stop → Machine → Prop}
    (hNext : ∀ c m', Progress m.store m'.store (blocksNeeded size.toNat)
        (1 + inodesNeeded size.toNat) → FreshRoot m.store m'.store c →
      (∀ n, levels size.toNat ≤ n → m'.store.Holds n c (buf.take size.toNat)) →
      wp (next c) Q E m')
    (hNone : m.store.freeInodes = 0 → E .segfault m)
    (hFail : ∀ σ₁ e m', Progress m.store σ₁ 0 1 → Failed σ₁ m'.store size.toNat 0 0 e → E e m') :
    wp (do
      let inodeNum ← allocInode FileType.T_FILE.code
      write inodeNum buf size
      next inodeNum) Q E m := by
  rw [wp_bind]
  refine wp_allocInode _ (fun c now m₁ hInum hDead _ hStore => ?_) fun hAll => ?_
  · have hAlloc : Progress m.store m₁.store 0 1 := hStore ▸ Progress.allocInode hInum hDead now
    have hRoot : FreshRoot m.store m₁.store c :=
      hStore ▸ FreshRoot.putInode hDead (FileType.code_toUInt16_ne_zero _) rfl
    have hNone : ∀ k, m₁.store.slot c k = 0 := fun k => by
      rw [hStore, slot_putInode_self, freshInode_slot]
    have hMarked : m₁.store.SlotsMarked c := fun k hne => (hne (hNone k)).elim
    rw [wp_bind]
    refine wp_mono (hWrite m₁ c buf size hRoot.1.1 hMarked hBuf hStack hDepth) (fun _ m₂ hPost => ?_)
      fun e m₂ hFailed => hFail _ e m₂ hAlloc hFailed
    by_cases hNeg : size < 0
    · rw [if_pos hNeg] at hPost
      subst hPost
      have hZero : size.toNat = 0 := by omega
      have hEmpty : m₂.store.Holds 0 c [] := by
        have hSize : m₂.store.size c = 0 := by
          rw [hStore, size_putInode_self]
          rfl
        refine ⟨by simp, hSize, ?_⟩
        simp [direct, hSize, blocksFor, padTo]
      refine hNext c m₂ ?_ hRoot fun n _ => ?_
      · rw [hZero]
        exact hAlloc
      · rw [hZero, List.take_zero]
        exact hEmpty.mono (Nat.zero_le n)
    · rw [if_neg hNeg] at hPost
      have hLen : (buf.take size.toNat).length = size.toNat := List.length_take_of_le hBuf
      have hProgress := hPost.progress hAlloc hRoot (hNone 100)
      have hHolds := hPost.holds
      rw [hLen] at hProgress hHolds
      obtain ⟨⟨σ₁, hRewrites, -⟩, -⟩ := hPost
      refine hNext c m₂ ?_ (hRewrites.freshRoot_trans hAlloc.grows hRoot) hHolds
      rwa [Nat.zero_add] at hProgress
  · exact hNone (freeInodes_eq_zero hAll)

section Order

variable {n i p q : Nat}

theorem inodesNeeded_of_le (h : n ≤ 51200) : inodesNeeded n = 0 := by
  simp only [inodesNeeded, parts_eq, nindirect_eq]
  split <;> omega

/-- Nothing is taken for the empty string. -/
theorem not_failed_zero {e : Stop} : ¬Failed σ σ₁ 0 0 0 e := by
  intro hFail
  have hNone : blocksNeeded 0 = 0 ∧ inodesNeeded 0 = 0 := by decide
  rcases hFail.cause with ⟨-, hLess, -⟩ | ⟨-, hLess, -⟩ <;> omega

/-- The indirect block comes behind the direct blocks. -/
theorem atBlock_indirect (h : 51200 < n) : AtBlock n 100 0 := by
  have hNeeded : 101 < blocksNeeded n := by
    rw [blocksNeeded, blocksFor_eq, levels_eq]
    omega
  exact ⟨by omega, fun _ => by rw [blocksAhead]; omega⟩

/-- The loop over the children allocates the next one. -/
theorem atInode_child (hi : i < 127) (hMore : 51200 * (i + 1) < n) :
    AtInode n (101 + (blocksFor (min n (51200 * (i + 1))) - 100)) i := by
  constructor
  · simp only [inodesNeeded, parts_eq, nindirect_eq]
    split <;> omega
  · rw [blocksAhead, blocksNeeded, blocksFor_eq, blocksFor_eq, levels_eq]
    omega

/-- A child among the first 127 takes blocks only. -/
theorem atBlock_child (hi : i < 127) (hMore : 51200 * (i + 1) < n)
    (h : AtBlock (min (n - 51200 * (i + 1)) 51200) p q) :
    AtBlock n (101 + (blocksFor (min n (51200 * (i + 1))) - 100) + p) (i + 1 + q) := by
  have hLess := h.1
  rw [blocksNeeded, levels_of_le (Nat.min_le_right _ _), blocksFor_eq] at hLess
  constructor
  · rw [blocksNeeded, blocksFor_eq, blocksFor_eq, levels_eq]
    omega
  · intro _
    rw [blocksAhead, blocksNeeded, blocksFor_eq, blocksFor_eq, levels_eq]
    omega

/-- The last child comes behind all blocks of the others. -/
theorem atInode_last (hUsed : 51200 * 127 < n) :
    AtInode n (101 + (blocksFor (min n 6553600) - 100)) 127 := by
  constructor
  · simp only [inodesNeeded, parts_eq, nindirect_eq]
    split <;> omega
  · rw [blocksAhead, blocksNeeded, blocksFor_eq, blocksFor_eq, levels_eq]
    omega

theorem inodesNeeded_last (hRest : 6553600 < n) :
    inodesNeeded n = 128 + inodesNeeded (n - 6553600) := by
  simp only [inodesNeeded, parts_eq, nindirect_eq]
  split <;> split <;> omega

theorem blocksAhead_last (hRest : 6553600 < n) (q : Nat) :
    blocksAhead n (128 + q) = 12801 + blocksAhead (n - 6553600) q := by
  have hLevels := levels_of_gt (show 51200 < n by omega)
  rw [blocksAhead, blocksAhead, blocksNeeded, blocksNeeded, hLevels, blocksFor_eq, blocksFor_eq]
  omega

theorem blocksNeeded_last (hRest : 6553600 < n) :
    blocksNeeded n = 12801 + blocksNeeded (n - 6553600) := by
  rw [blocksNeeded, blocksNeeded, levels_of_gt (show 51200 < n by omega), blocksFor_eq, blocksFor_eq]
  omega

theorem blocks_before_last (hRest : 6553600 < n) :
    101 + (blocksFor (min n 6553600) - 100) = 12801 := by
  rw [blocksFor_eq]
  omega

theorem atBlock_last (h : AtBlock (n - 6553600) p q) :
    AtBlock n (101 + (blocksFor (min n 6553600) - 100) + p) (128 + q) := by
  obtain ⟨hLess, hAhead⟩ := h
  have hRest : 6553600 < n := by
    rw [blocksNeeded, blocksFor_eq, levels_eq] at hLess
    omega
  rw [AtBlock, blocks_before_last hRest, blocksNeeded_last hRest, inodesNeeded_last hRest,
    blocksAhead_last hRest]
  exact ⟨by omega, fun hMore => by have := hAhead (by omega); omega⟩

theorem atInode_last_child (h : AtInode (n - 6553600) p q) :
    AtInode n (101 + (blocksFor (min n 6553600) - 100) + p) (128 + q) := by
  obtain ⟨hLess, hAhead⟩ := h
  have hRest : 6553600 < n := by
    by_contra hNone
    rw [inodesNeeded_of_le (by omega)] at hLess
    omega
  rw [AtInode, blocks_before_last hRest, inodesNeeded_last hRest, blocksAhead_last hRest]
  exact ⟨by omega, by omega⟩

end Order

section Loops

variable {write : Nat → List Byte → Int → Action Unit} {stack n : Nat} {buf : List Byte}

/-- The state of the loop over the children: the disk has grown by the blocks
of all bytes written so far, the 100 direct blocks apart. -/
structure LoopDone (σ σ' : Store) (buf : List Byte) (n : Nat) (inodes : List Nat) : Prop where
  progress : Progress σ σ' (blocksFor (min n (51200 * (inodes.length + 1))) - 100) inodes.length
  children : Children σ σ' (buf.take n) 0 inodes

theorem take_piece (buf : List Byte) (n : Nat) {i : Nat} (hi : i < 127) :
    (buf.drop (51200 * (i + 1))).take (min (n - 51200 * (i + 1)) 51200) =
      piece (buf.take n) i := by
  rw [piece_of_lt _ hi, List.drop_take, List.take_take, Nat.min_comm]

theorem LoopDone.step (h : LoopDone σ σ₁ buf n inodes)
    (hi : inodes.length < 127) (hMore : 51200 * (inodes.length + 1) < n)
    (h₁ : Progress σ₁ σ₂ (blocksNeeded (min (n - 51200 * (inodes.length + 1)) 51200))
      (1 + inodesNeeded (min (n - 51200 * (inodes.length + 1)) 51200)))
    (hRoot : FreshRoot σ₁ σ₂ c)
    (hHolds : σ₂.Holds 0 c ((buf.drop (51200 * (inodes.length + 1))).take
      (min (n - 51200 * (inodes.length + 1)) 51200))) :
    LoopDone σ σ₂ buf n (inodes ++ [c]) := by
  rw [take_piece _ _ hi] at hHolds
  refine ⟨?_, h.children.snoc h.progress.grows h₁.grows hRoot hHolds⟩
  have hBlocks : blocksFor (min n (51200 * (inodes.length + 1))) - 100 +
      blocksNeeded (min (n - 51200 * (inodes.length + 1)) 51200) =
      blocksFor (min n (51200 * (inodes.length + 1 + 1))) - 100 := by
    rw [blocksNeeded, levels_of_le (Nat.min_le_right _ _), blocksFor_eq, blocksFor_eq,
      blocksFor_eq]
    omega
  have hInodes : inodesNeeded (min (n - 51200 * (inodes.length + 1)) 51200) = 0 := by
    simp only [inodesNeeded, parts_eq, nindirect_eq]
    split <;> omega
  have hAll := h.progress.trans h₁
  rw [hBlocks, hInodes] at hAll
  rw [List.length_append, List.length_singleton]
  exact hAll

/-- The loop over the first 127 children. -/
theorem wp_writeChildren (hWrite : WriteSpec write stack) (hStack : 0 < stack)
    (hLen : n ≤ buf.length) (count : Nat) {m : Machine} (hLoop : LoopDone σ m.store buf n inodes)
    (hCount : inodes.length + count = 127) (hMore : 51200 * (inodes.length + 1) < n) :
    wp (writeChildren write buf n count inodes)
      (fun l m' => LoopDone σ m'.store buf n l ∧ l.length ≤ 127 ∧ 51200 * l.length < n ∧
        (l.length < 127 → n ≤ 51200 * (l.length + 1)))
      (fun e m' => Failed σ m'.store n 101 0 e) m := by
  induction count generalizing inodes m with
  | zero => exact ⟨hLoop, by omega, by omega, by omega⟩
  | succ count ih =>
      have hChild : (min ((n : Int) - directSize * ((inodes.length : Int) + 1)) directSize).toNat =
          min (n - 51200 * (inodes.length + 1)) 51200 := by
        rw [directSize_eq]
        omega
      have hFlat : levels (min (n - 51200 * (inodes.length + 1)) 51200) = 0 :=
        levels_of_le (Nat.min_le_right _ _)
      rw [writeChildren]
      refine wp_writeChild hWrite ?_ ?_ ?_ (fun c m₁ hProgress hRoot hHolds => ?_)
        (fun hNone => ?_) fun σ₁ e m₁ hAlloc hFail => ?_
      · rw [hChild, List.length_drop, directSize_eq]
        omega
      · rwa [hChild, hFlat]
      · rw [hChild, hFlat]
        exact Nat.zero_le _
      · rw [hChild] at hProgress hHolds
        rw [directSize_eq] at hHolds
        have hStep := hLoop.step (by omega) hMore hProgress hRoot (hHolds 0 hFlat.le)
        have hLength : (inodes ++ [c]).length = inodes.length + 1 := by simp
        by_cases hNext : (n : Int) > directSize * ((inodes.length : Int) + 2)
        · rw [if_pos hNext]
          rw [directSize_eq] at hNext
          exact ih hStep (by omega) (by omega)
        · rw [if_neg hNext]
          rw [directSize_eq] at hNext
          exact ⟨hStep, by omega, by omega, by omega⟩
      · exact (Failed.noInode hNone (atInode_child (by omega) hMore)).after hLoop.progress rfl
          (Nat.zero_add _).symm
      · rw [hChild] at hFail
        have hPart : Failed σ₁ m₁.store n
            (101 + (blocksFor (min n (51200 * (inodes.length + 1))) - 100)) (inodes.length + 1) e := by
          refine hFail.part (fun p q hAt => ?_) fun p q hAt => ?_
          · rw [Nat.zero_add, Nat.zero_add] at hAt
            exact atBlock_child (by omega) hMore hAt
          · have hNone := hAt.1
            rw [inodesNeeded_of_le (Nat.min_le_right _ _)] at hNone
            omega
        exact hPart.after (hLoop.progress.trans hAlloc) (by omega) (by omega)

/-- The rest goes into the 128th child when the loop used up the array. -/
theorem wp_writeLastChild (hWrite : WriteSpec write stack) (hStack : levels n ≤ stack)
    (hDepth : levels n ≤ maxDepth) (hLen : n ≤ buf.length) {m : Machine}
    (hLoop : LoopDone σ m.store buf n inodes) (hLe : inodes.length ≤ 127)
    (hUsed : 51200 * inodes.length < n)
    (hEnd : inodes.length < 127 → n ≤ 51200 * (inodes.length + 1)) (hLarge : 51200 < n) :
    wp (writeLastChild write buf n inodes)
      (fun l m' => Progress σ m'.store (blocksNeeded n - 101) (inodesNeeded n) ∧
        Children σ m'.store (buf.take n) (levels n - 1) l ∧ l.length = childCount n)
      (fun e m' => Failed σ m'.store n 101 0 e) m := by
  have hLevels := levels_of_gt hLarge
  rw [writeLastChild]
  by_cases hIndex : inodes.length = nindirect - 1
  · have hFull : inodes.length = 127 := hIndex
    have hChild : ((n : Int) - directSize * nindirect).toNat = n - 6553600 := by
      rw [directSize_eq, nindirect_eq]
      omega
    have hPiece : (buf.drop (directSize * nindirect)).take (n - 6553600) =
        piece (buf.take n) inodes.length := by
      rw [hFull, piece_last, List.drop_take, directSize_eq, nindirect_eq]
    have hBlocks : blocksFor (min n (51200 * (inodes.length + 1))) - 100 +
        blocksNeeded (n - 6553600) = blocksNeeded n - 101 := by
      rw [blocksNeeded, blocksNeeded, hLevels, blocksFor_eq, blocksFor_eq, blocksFor_eq, hFull]
      omega
    have hInodes : inodes.length + (1 + inodesNeeded (n - 6553600)) = inodesNeeded n := by
      simp only [inodesNeeded, parts_eq, nindirect_eq, hFull]
      split <;> split <;> omega
    have hCount : inodes.length + 1 = childCount n := by
      rw [childCount_eq, if_neg, hFull]
      rw [parts_eq]
      omega
    rw [if_pos hIndex]
    have hEight : 51200 * (inodes.length + 1) = 6553600 := by omega
    have hBefore := hLoop.progress
    rw [hEight, hFull] at hBefore
    refine wp_writeChild hWrite ?_ ?_ ?_ (fun c m₁ hProgress hRoot hHolds => ?_)
      (fun hNone => ?_) fun σ₁ e m₁ hAlloc hFail => ?_
    · rw [hChild, List.length_drop, directSize_eq, nindirect_eq]
      omega
    · rw [hChild]
      omega
    · rw [hChild]
      omega
    · rw [hChild] at hProgress hHolds
      rw [hPiece] at hHolds
      have hAll := hLoop.progress.trans hProgress
      rw [hBlocks, hInodes] at hAll
      refine ⟨hAll, ?_, ?_⟩
      · exact (hLoop.children.deepen (Nat.zero_le _)).snoc hLoop.progress.grows hProgress.grows
          hRoot (hHolds _ (by omega))
      · rw [List.length_append, List.length_singleton, hCount]
    · exact (Failed.noInode hNone (atInode_last (by omega))).after hBefore rfl (Nat.zero_add _).symm
    · rw [hChild] at hFail
      have hPart : Failed σ₁ m₁.store n (101 + (blocksFor (min n 6553600) - 100)) 128 e := by
        refine hFail.part (fun p q hAt => ?_) fun p q hAt => ?_
        · rw [Nat.zero_add, Nat.zero_add] at hAt
          exact atBlock_last hAt
        · rw [Nat.zero_add, Nat.zero_add] at hAt
          exact atInode_last_child hAt
      exact hPart.after (hBefore.trans hAlloc) (by omega) (by omega)
  · have hFull : ¬inodes.length = 127 := hIndex
    have hShort := hEnd (by omega)
    have hBlocks : blocksFor (min n (51200 * (inodes.length + 1))) - 100 = blocksNeeded n - 101 := by
      rw [blocksNeeded, levels_eq, blocksFor_eq, blocksFor_eq]
      omega
    have hInodes : inodes.length = inodesNeeded n := by
      simp only [inodesNeeded, parts_eq, nindirect_eq]
      split <;> omega
    have hCount : inodes.length = childCount n := by
      rw [childCount_eq, parts_eq]
      split <;> omega
    have hProgress := hLoop.progress
    rw [hBlocks, hInodes] at hProgress
    rw [if_neg hIndex]
    exact ⟨hProgress, hLoop.children.deepen (Nat.zero_le _), hCount⟩

/-- The indirect block `id` lists the children of the tree for `s`. -/
structure IndirectDone (σ σ' : Store) (s : List Byte) (id : Nat) (inodes : List Nat) : Prop where
  progress : Progress σ σ' (blocksNeeded s.length - 100) (inodesNeeded s.length)
  block : Fresh σ σ' id
  data : σ'.data id = inumBlock inodes
  children : Children σ σ' s (levels s.length - 1) inodes
  count : inodes.length = childCount s.length

theorem wp_writeIndirect (hWrite : WriteSpec write stack) (hStack : levels n ≤ stack)
    (hDepth : levels n ≤ maxDepth) (hLen : n ≤ buf.length) (ino : Inode) (m : Machine) :
    wp (writeIndirect write buf n ino)
      (fun ino' m' => if n ≤ 51200 then ino' = ino ∧ m'.store = m.store else
        ∃ id inodes, ino' = ino.setSlot 100 id ∧
          IndirectDone m.store m'.store (buf.take n) id inodes)
      (fun e m' => 51200 < n ∧ Failed m.store m'.store n 100 0 e) m := by
  have hTake : (buf.take n).length = n := List.length_take_of_le hLen
  rw [writeIndirect]
  by_cases hLarge : 51200 < n
  · have hLevels := levels_of_gt hLarge
    have hBlocks : 1 + (blocksNeeded n - 101) = blocksNeeded n - 100 := by
      rw [blocksNeeded, blocksFor_eq]
      omega
    have hGt : (n : Int) > directSize := by
      rw [directSize_eq]
      omega
    rw [if_pos hGt, wp_bind]
    refine wp_allocBlock (fun id m₁ hData hFree _ hMark => ?_) fun hAll => ?_
    · have hne : id ≠ 0 := by
        have := isData_iff.mp hData
        omega
      have hAlloc : Progress m.store m₁.store 1 0 := hMark ▸ Progress.mark hData hFree
      have hFresh : Fresh m.store m₁.store id := hMark ▸ Fresh.mark hData hFree
      have hStart : LoopDone m₁.store m₁.store buf n [] := by
        refine ⟨?_, Children.nil _ _ _ _⟩
        have hZero : blocksFor (min n (51200 * (([] : List Nat).length + 1))) - 100 = 0 := by
          rw [blocksFor_eq, List.length_nil]
          omega
        rw [hZero]
        exact Progress.refl _
      have hLater : ∀ e (m' : Machine), Failed m₁.store m'.store n 101 0 e →
          51200 < n ∧ Failed m.store m'.store n 100 0 e := fun e m' hFail =>
        ⟨hLarge, hFail.after hAlloc rfl rfl⟩
      simp only [hne, if_false]
      rw [wp_bind]
      refine wp_mono (wp_writeChildren hWrite (by omega) hLen (nindirect - 1) hStart
        (by rw [nindirect_eq]; rfl) (by simpa using hLarge)) (fun l m₂ hDone => ?_) hLater
      obtain ⟨hLoop, hLe, hUsed, hEnd⟩ := hDone
      rw [wp_bind]
      refine wp_mono (wp_writeLastChild hWrite hStack hDepth hLen hLoop hLe hUsed hEnd hLarge)
        (fun l' m₃ hDone => ?_) hLater
      obtain ⟨hProgress, hChildren, hCount⟩ := hDone
      obtain ⟨m₄, hRun, hStore⟩ := writeBlock_data (m := m₃) (Or.inl hData) (inumBlock l')
      have hAll := hAlloc.trans hProgress
      rw [hBlocks, Nat.zero_add] at hAll
      have hReserved := hFresh.mono hAlloc.grows hProgress.grows
      rw [wp_bind]
      refine wp_of_ok hRun ?_
      rw [wp_pure, if_neg (by omega)]
      refine ⟨id, l', rfl, ?_⟩
      rw [hStore]
      refine ⟨?_, hReserved, by simp, ?_, ?_⟩
      · rw [hTake]
        exact hAll.write hReserved _
      · rw [hTake]
        exact (hChildren.of_later hAlloc.grows hProgress.grows).write hAll.grows hReserved _
      · rw [hTake, hCount]
    · simp only [if_true]
      exact ⟨hLarge, Failed.noBlock (freeBlocks_eq_zero hAll) (atBlock_indirect hLarge)⟩
  · have hLe : ¬(n : Int) > directSize := by
      rw [directSize_eq]
      omega
    rw [if_neg hLe, wp_pure, if_pos (by omega)]
    exact ⟨rfl, rfl⟩

end Loops

/-- The slots that a string of length `n` needs. -/
def Needs (n k : Nat) : Prop := k < min (blocksFor n) 100 ∨ k = 100 ∧ 51200 < n

theorem Needs.lt {n k : Nat} (h : Needs n k) : k < 101 := by
  rcases h with h | h <;> omega

/-- The inode `new` that `write_file` puts back as `r`: new blocks in the slots
that `s` needs, the old ones in the others, and new children. -/
structure Placed (σ σ₁ : Store) (r : Nat) (s : List Byte) (new : Inode) (inodes : List Nat) :
    Prop where
  progress : Progress σ σ₁ (blocksNeeded s.length) (inodesNeeded s.length)
  type : new.type = (σ.inode r).type
  size : new.size.toNat = min (blocksFor s.length) 101
  fresh : ∀ k, Needs s.length k → Fresh σ σ₁ (new.slot k)
  rest : ∀ k < 101, ¬Needs s.length k → new.slot k = σ.slot r k
  inj : ∀ k l, l < k → Needs s.length k → new.slot k ≠ new.slot l
  data : ∀ k < min (blocksFor s.length) 100, σ₁.data (new.slot k) = blockOf s k
  children : Children σ σ₁ s (levels s.length - 1) inodes
  count : inodes.length = childCount s.length
  list : 51200 < s.length → σ₁.data (new.slot 100) = inumBlock inodes

/-- Putting an old inode back does not touch the new ones. -/
theorem sameOn_putInode {r : Nat} (hAlive : σ.Alive r) (new : Inode) :
    SameOn σ₁ (σ₁.putInode r new) (Born σ σ₁) := by
  refine ⟨fun i hi => ?_, fun _ _ _ _ => rfl⟩
  have hne : i ≠ r := fun he => hi.2 (he ▸ hAlive)
  rw [putInode_inode, if_neg hne]

namespace Placed

variable {r : Nat} {new : Inode} (h : Placed σ σ₁ r s new inodes)
include h

theorem size_eq : (σ₁.putInode r new).size r = min (blocksFor s.length) 101 :=
  size_putInode_self.trans h.size

theorem large_iff : 100 < (σ₁.putInode r new).size r ↔ 51200 < s.length := by
  rw [h.size_eq, blocksFor_eq]
  omega

theorem needs_of_used {k : Nat} (hk : (σ₁.putInode r new).Used r k) : Needs s.length k := by
  rcases hk with hk | hk
  · rw [h.size_eq] at hk
    exact Or.inl (by omega)
  · exact Or.inr ⟨hk.1, h.large_iff.mp hk.2⟩

theorem slot_ne {k : Nat} (hk : Needs s.length k) : new.slot k ≠ 0 := by
  have hData := isData_iff.mp (h.fresh k hk).1.1
  omega

theorem kids_eq : (σ₁.putInode r new).kids r = inodes := by
  by_cases hLarge : 51200 < s.length
  · rw [kids_of_size (h.large_iff.mpr hLarge), putInode_data, slot_putInode_self, h.list hLarge]
    exact untilZero_inumBlock (h.count.trans_le (childCount_le _))
      (h.children.ne_zero_and_lt h.progress.grows)
  · have hNone : inodes.length = 0 := h.count.trans (childCount_of_le (by omega))
    have hShort := Nat.le_of_not_lt (mt h.large_iff.mp hLarge)
    rw [kids_of_size_le hShort, List.length_eq_zero_iff.mp hNone]

theorem packed (hLarge : 100 < (σ₁.putInode r new).size r) :
    inumBuf ((σ₁.putInode r new).data ((σ₁.putInode r new).slot r 100)) =
      (σ₁.putInode r new).kids r ++
        List.replicate (128 - ((σ₁.putInode r new).kids r).length) 0 := by
  rw [h.kids_eq, putInode_data, slot_putInode_self, h.list (h.large_iff.mp hLarge)]
  exact inumBuf_inumBlock (h.count.trans_le (childCount_le _))
    fun c hc => (h.children.ne_zero_and_lt h.progress.grows c hc).2

theorem direct_eq : (σ₁.putInode r new).direct r = padTo (512 * min (blocksFor s.length) 100) s := by
  have hMin : min (min (blocksFor s.length) 101) 100 = min (blocksFor s.length) 100 := by omega
  rw [direct, h.size_eq, ← flatMap_blockOf, hMin]
  refine List.flatMap_congr fun k hk => ?_
  rw [slot_putInode_self, putInode_data, h.data k (List.mem_range.mp hk)]

theorem holds (hAlive : σ.Alive r) : (σ₁.putInode r new).Holds (levels s.length) r s := by
  have hBlocks := blocksFor_eq s.length
  by_cases hLarge : 51200 < s.length
  · have hMem := (List.forall₂_and_left (p := (· ∈ Born σ σ₁)) _ _).mpr
      ⟨fun c hc => (h.children.fresh c hc).1, h.children.holds⟩
    obtain ⟨d, hDeep⟩ : ∃ d, levels s.length = d + 1 := ⟨_, levels_of_gt hLarge⟩
    rw [hDeep, Nat.add_sub_cancel] at hMem
    rw [hDeep]
    refine ⟨h.size_eq, h.direct_eq, ?_⟩
    rw [h.kids_eq, pieces, ← h.count]
    exact hMem.imp fun c p hc => Holds.congr (sameOn_putInode hAlive new)
      h.progress.grows.sound.forest.kids_mem hc.1 hc.2
  · rw [levels_of_le (by omega)]
    have hSize := h.size_eq
    have hDirect := h.direct_eq
    have hFit : blocksFor s.length ≤ 100 := by omega
    rw [Nat.min_eq_left hFit] at hDirect
    exact ⟨by omega, by omega, hDirect⟩

/-- Only the new blocks are fresh when no old slot holds a free block. -/
theorem rewrites (hAlive : σ.Alive r) (hMarked : σ.SlotsMarked r)
    (hDepth : levels s.length ≤ maxDepth) : Rewrites σ σ₁ (σ₁.putInode r new) r := by
  have hSlot : ∀ k, (σ₁.putInode r new).slot r k = new.slot k := fun _ => slot_putInode_self
  have hNew : ∀ k < 101, Fresh σ σ₁ (new.slot k) → Needs s.length k := by
    intro k hk hFresh
    by_contra hNot
    rw [h.rest k hk hNot] at hFresh
    exact hMarked.not_fresh k hFresh
  refine ⟨h.progress.grows, hAlive, rfl, rfl, ?_, ?_, ?_, ?_, ?_, ?_, h.packed, ?_, ?_, ?_⟩
  · intro i hi
    rw [putInode_inode, if_neg hi]
  · rw [Alive, putInode_inode, if_pos rfl, h.type]
    exact hAlive
  · have hSize := h.size_eq
    omega
  · intro k hk
    rw [hSlot]
    by_cases hNeeds : Needs s.length k
    · exact Or.inr (h.fresh k hNeeds)
    · exact Or.inl (h.rest k hk hNeeds)
  · intro k hk l hl hFresh he hFresh'
    rw [hSlot] at hFresh hFresh' he
    rw [hSlot] at he
    rcases Nat.lt_trichotomy k l with hlt | heq | hlt
    · exact (h.inj l k hlt (hNew l hl hFresh') he.symm).elim
    · exact heq
    · exact (h.inj k l hlt (hNew k hk hFresh) he).elim
  · intro k hk
    rw [hSlot]
    exact h.slot_ne (h.needs_of_used hk)
  · rw [h.kids_eq]
    exact h.children.fresh
  · rw [h.kids_eq]
    exact h.children.nodup
  · intro c hc
    rw [h.kids_eq] at hc
    obtain ⟨p, hHolds⟩ := Holds.exists_of_forall₂ h.children.holds hc
    exact hHolds.shallow.mono (by omega)

theorem wrote (hAlive : σ.Alive r) (hMarked : σ.SlotsMarked r) (hDepth : levels s.length ≤ maxDepth) :
    Wrote σ (σ₁.putInode r new) r s := by
  refine ⟨⟨σ₁, h.rewrites hAlive hMarked hDepth, h.progress⟩, ?_, fun hSize => ?_,
    fun n hn => (h.holds hAlive).mono hn⟩
  · rw [putInode_inode, if_pos rfl, h.type]
  · have hSmall := mt h.large_iff.mpr (Nat.not_lt.mpr hSize)
    rw [slot_putInode_self]
    refine h.rest 100 (Nat.lt_succ_self 100) ?_
    rintro (hLow | ⟨-, hLarge⟩)
    · omega
    · exact hSmall hLarge

end Placed

/-- The two loops together. -/
theorem placed_of_loops {r n : Nat} {buf : List Byte} {ino₁ ino₂ : Inode} (now : UInt32)
    (hLen : n ≤ buf.length)
    (hDirect : DirectDone σ σ₁ (buf.take n) (σ.inode r) ino₁ (min (blocksFor n) 100))
    (hIndirect : if n ≤ 51200 then ino₂ = ino₁ ∧ σ₂ = σ₁ else
      ∃ id inodes, ino₂ = ino₁.setSlot 100 id ∧ IndirectDone σ₁ σ₂ (buf.take n) id inodes) :
    ∃ inodes, Placed σ σ₂ r (buf.take n) { ino₂ with
      size := UInt32.ofNat (min (blocksFor n) (100 + 1)), mtime := now } inodes := by
  have hTake : (buf.take n).length = n := List.length_take_of_le hLen
  have hBlocks := blocksFor_eq n
  have hOld : ∀ k, min (blocksFor n) 100 ≤ k → ino₁.slot k = σ.slot r k := hDirect.rest
  have hSize : (UInt32.ofNat (min (blocksFor n) (100 + 1))).toNat = min (blocksFor n) 101 :=
    UInt32.toNat_ofNat_of_lt' (by rw [UInt32.size]; omega)
  by_cases h : n ≤ 51200
  · rw [if_pos h] at hIndirect
    obtain ⟨rfl, rfl⟩ := hIndirect
    have hSmall : min (blocksFor n) 100 = blocksNeeded n := by
      rw [blocksNeeded, levels_of_le h]
      omega
    have hNone : 0 = inodesNeeded n := by
      simp only [inodesNeeded, parts_eq, nindirect_eq]
      split <;> omega
    have hProgress := hDirect.progress
    rw [hSmall, hNone] at hProgress
    refine ⟨[], ?_, hDirect.type, ?_, ?_, ?_, ?_, ?_, Children.nil _ _ _ _, ?_, ?_⟩
    all_goals rw [hTake]
    · exact hProgress
    · exact hSize
    · rintro k (hk | ⟨-, hk⟩)
      · exact hDirect.fresh k hk
      · omega
    · intro k _ hk
      exact hOld k (Nat.le_of_not_lt fun hlt => hk (Or.inl hlt))
    · rintro k l hl (hk | ⟨-, hk⟩) he
      · have := hDirect.inj k hk l (by omega) he
        omega
      · omega
    · exact hDirect.data
    · rw [childCount_of_le h]
      rfl
    · omega
  · rw [if_neg h] at hIndirect
    obtain ⟨id, inodes, rfl, hDone⟩ := hIndirect
    have hGrows := hDirect.progress.grows
    have hGrows' := hDone.progress.grows
    have hFull : min (blocksFor n) 100 = 100 := by omega
    have hId := isData_iff.mp hDone.block.1.1
    have hSlot : ∀ k, (ino₁.setSlot 100 id).slot k = if k = 100 then id else ino₁.slot k :=
      ino₁.setSlot_slot (by omega) (by omega)
    have hNew : ∀ k < 100, ino₁.slot k ≠ id := fun k hk he => by
      have hMarked' := (hDirect.fresh k (by omega)).1.2.1
      simp [he, hDone.block.1.2.2] at hMarked'
    have hAll := hDirect.progress.trans hDone.progress
    have hSum : 100 + (blocksNeeded n - 100) = blocksNeeded n := by
      rw [blocksNeeded]
      omega
    rw [hFull, hTake, hSum, Nat.zero_add] at hAll
    refine ⟨inodes, ?_, hDirect.type, ?_, ?_, ?_, ?_, ?_,
      hDone.children.of_later hGrows hGrows', hDone.count, ?_⟩
    all_goals rw [hTake]
    · exact hAll
    · exact hSize
    · intro k hk
      have hLt := hk.lt
      change Fresh σ σ₂ ((ino₁.setSlot 100 id).slot k)
      rw [hSlot]
      split
      · exact hDone.block.of_later hGrows hGrows'
      · exact (hDirect.fresh k (by omega)).mono hGrows hGrows'
    · intro k hk hNot
      have hNeeds : Needs n k := by
        by_cases h100 : k = 100
        · exact Or.inr ⟨h100, by omega⟩
        · exact Or.inl (by omega)
      exact (hNot hNeeds).elim
    · intro k l hl hk
      have hLt := hk.lt
      change (ino₁.setSlot 100 id).slot k ≠ (ino₁.setSlot 100 id).slot l
      rw [hSlot, hSlot, if_neg (show l ≠ 100 by omega)]
      split
      · exact (hNew l (by omega)).symm
      · intro he
        have := hDirect.inj k (by omega) l (by omega) he
        omega
    · intro k hk
      change σ₂.data ((ino₁.setSlot 100 id).slot k) = _
      rw [hSlot, if_neg (by omega), hGrows'.data_of_marked (hDirect.fresh k hk).1.2.1]
      exact hDirect.data k hk
    · intro _
      change σ₂.data ((ino₁.setSlot 100 id).slot 100) = _
      rw [hSlot, if_pos rfl]
      exact hDone.data

/-- `write_file` on any inode in use, whatever its old slots hold. -/
theorem wp_writeFile_step {stack n r : Nat} {m : Machine} {buf : List Byte}
    (hWrite : WriteSpec (writeFile stack) stack) (hAlive : m.store.Alive r)
    (hLen : n ≤ buf.length) (hStack : levels n ≤ stack) (hDepth : levels n ≤ maxDepth) :
    wp (writeFile (stack + 1) r buf n)
      (fun _ m' => ∃ σ₁ new inodes, Placed m.store σ₁ r (buf.take n) new inodes ∧
        m'.store = σ₁.putInode r new)
      (fun e m' => Failed m.store m'.store n 0 0 e) m := by
  have hInum := isInum_of_alive hAlive
  rw [writeFile, if_neg (by omega), wp_bind, wp_getInode hInum, Int.toNat_natCast]
  simp only [ndirect_eq]
  rw [wp_bind]
  refine wp_mono wp_writeDirect_loop (fun ino₁ m₁ hDirect => ?_) fun _ _ hFail => hFail
  rw [wp_bind]
  refine wp_mono (wp_writeIndirect hWrite hStack hDepth hLen ino₁ m₁)
    (fun ino₂ m₂ hIndirect => ?_) fun e m₂ ⟨hLarge, hFail⟩ =>
      hFail.after hDirect.progress (by rw [blocksFor_eq]; omega) rfl
  rw [wp_bind]
  refine wp_time fun now m₃ hTime => ?_
  obtain ⟨m₄, hRun, hStore⟩ := putInode_eq (m := m₃) hInum { ino₂ with
    size := UInt32.ofNat (min (blocksFor n) (100 + 1)), mtime := now }
  obtain ⟨inodes, hPlaced⟩ := placed_of_loops now hLen hDirect hIndirect
  exact wp_of_ok hRun ⟨_, _, inodes, hPlaced, hStore.trans (by rw [hTime])⟩

/-- `write_file` stores its string, unless the disk is short of blocks or of
inodes. -/
theorem wp_writeFile (stack : Nat) : WriteSpec (writeFile stack) stack := by
  induction stack with
  | zero =>
      intro m r buf size _ _ _ hStack
      omega
  | succ stack ih =>
      intro m r buf size hAlive hMarked hLen hStack hDepth
      by_cases hNeg : size < 0
      · rw [writeFile, if_pos hNeg, wp_pure, if_pos hNeg]
      · obtain ⟨n, rfl⟩ := Int.eq_ofNat_of_zero_le (Int.not_lt.mp hNeg)
        rw [Int.toNat_natCast] at *
        have hTake : (buf.take n).length = n := List.length_take_of_le hLen
        refine wp_mono (wp_writeFile_step ih hAlive hLen (by omega) hDepth)
          (fun _ m' hPost => ?_) fun _ _ hFail => hFail
        obtain ⟨σ₁, new, inodes, hPlaced, hStore⟩ := hPost
        rw [if_neg hNeg, hStore]
        exact hPlaced.wrote hAlive hMarked (by rwa [hTake])

end InodeFS
