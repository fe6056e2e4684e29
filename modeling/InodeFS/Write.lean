import InodeFS.Layout

/-! `write_file` stores a string in a tree of new blocks and new inodes. A run
that stops early has only added to the disk; it stops exactly when the disk is
short of blocks or of inodes. -/
namespace InodeFS

open Bytes Exec Ownership

namespace Store

/-- Data blocks whose bit is clear. -/
def freeBlocks (σ : Store) : Nat :=
  ((Finset.Ico dataStart sb.nblocks).filter fun b => σ.bit b = false).card

/-- Inodes of type 0. -/
def freeInodes (σ : Store) : Nat :=
  ((Finset.Icc 1 inodeNum).filter fun i => ¬σ.Alive i).card

variable {σ σ' σ₁ σ₂ : Store} {i b : Nat} {ino : Inode}

theorem freeBlocks_congr (h : σ'.bit = σ.bit) : σ'.freeBlocks = σ.freeBlocks := by
  rw [freeBlocks, h, freeBlocks]

theorem freeInodes_congr (h : ∀ i, σ'.Alive i ↔ σ.Alive i) : σ'.freeInodes = σ.freeInodes := by
  simp only [freeInodes, h]

theorem freeBlocks_mono (h : ∀ b, σ'.bit b = true → σ.bit b = true) :
    σ.freeBlocks ≤ σ'.freeBlocks := by
  refine Finset.card_le_card (Finset.monotone_filter_right _ fun b _ hFree => ?_)
  cases hb : σ'.bit b with
  | false => rfl
  | true => exact (h b hb).symm.trans hFree

theorem freeInodes_mono (h : ∀ i, σ'.Alive i → σ.Alive i) : σ.freeInodes ≤ σ'.freeInodes :=
  Finset.card_le_card (Finset.monotone_filter_right _ fun i _ hDead hAlive => hDead (h i hAlive))

theorem freeBlocks_mark (hData : IsData b) (hFree : σ.bit b = false) :
    (σ.mark b).freeBlocks + 1 = σ.freeBlocks := by
  have hMem : b ∈ (Finset.Ico dataStart sb.nblocks).filter fun c => σ.bit c = false :=
    Finset.mem_filter.mpr ⟨Finset.mem_Ico.mpr hData, hFree⟩
  have hErase : ((Finset.Ico dataStart sb.nblocks).filter fun c => (σ.mark b).bit c = false) =
      ((Finset.Ico dataStart sb.nblocks).filter fun c => σ.bit c = false).erase b := by
    ext c
    simp only [Finset.mem_filter, Finset.mem_erase, mark_bit]
    by_cases hc : c = b
    · simp [hc]
    · simp [hc]
  rw [freeBlocks, hErase, Finset.card_erase_add_one hMem, freeBlocks]

theorem freeBlocks_eq_zero (h : ∀ b, IsData b → σ.bit b = true) : σ.freeBlocks = 0 := by
  refine Finset.card_eq_zero.mpr (Finset.filter_eq_empty_iff.mpr fun b hb => ?_)
  simp [h b (Finset.mem_Ico.mp hb)]

theorem freeInodes_putInode (hInum : IsInum i) (hDead : ¬σ.Alive i) (hType : ino.type ≠ 0) :
    (σ.putInode i ino).freeInodes + 1 = σ.freeInodes := by
  have hMem : i ∈ (Finset.Icc 1 inodeNum).filter fun j => ¬σ.Alive j :=
    Finset.mem_filter.mpr ⟨Finset.mem_Icc.mpr hInum, hDead⟩
  have hErase : ((Finset.Icc 1 inodeNum).filter fun j => ¬(σ.putInode i ino).Alive j) =
      ((Finset.Icc 1 inodeNum).filter fun j => ¬σ.Alive j).erase i := by
    ext j
    simp only [Finset.mem_filter, Finset.mem_erase, Alive, putInode_inode]
    by_cases hj : j = i
    · simp [hj, hType]
    · simp [hj]
  rw [freeInodes, hErase, Finset.card_erase_add_one hMem, freeInodes]

theorem freeInodes_eq_zero (h : ∀ i, IsInum i → σ.Alive i) : σ.freeInodes = 0 := by
  refine Finset.card_eq_zero.mpr (Finset.filter_eq_empty_iff.mpr fun i hi => ?_)
  exact not_not.mpr (h i (Finset.mem_Icc.mp hi))

/-- The disk grew by this many blocks and inodes; the inodes are plain files, and the
small ones have nothing in slot 100. -/
structure Progress (σ σ' : Store) (blocks inodes : Nat) : Prop where
  grows : Grows σ σ'
  plain : ∀ i ∈ Born σ σ', (σ'.inode i).isDir = false
  bare : ∀ i ∈ Born σ σ', σ'.size i ≤ 100 → σ'.slot i 100 = 0
  blocks : σ'.freeBlocks + blocks = σ.freeBlocks
  inodes : σ'.freeInodes + inodes = σ.freeInodes

namespace Progress

variable {p q p' q' : Nat}

theorem refl (σ : Store) : Progress σ σ 0 0 where
  grows := Grows.refl σ
  plain _ hi := (hi.2 hi.1).elim
  bare _ hi := (hi.2 hi.1).elim
  blocks := rfl
  inodes := rfl

theorem trans (h₁ : Progress σ σ₁ p q) (h₂ : Progress σ₁ σ₂ p' q') :
    Progress σ σ₂ (p + p') (q + q') where
  grows := h₁.grows.trans h₂.grows
  plain i hi := by
    rw [h₁.grows.born_trans h₂.grows] at hi
    rcases hi with hi | hi
    · rw [h₂.grows.inode_of_alive hi.1]
      exact h₁.plain i hi
    · exact h₂.plain i hi
  bare i hi := by
    rw [h₁.grows.born_trans h₂.grows] at hi
    rcases hi with hi | hi
    · rw [size, slot, h₂.grows.inode_of_alive hi.1]
      exact h₁.bare i hi
    · exact h₂.bare i hi
  blocks := by
    have := h₁.blocks
    have := h₂.blocks
    omega
  inodes := by
    have := h₁.inodes
    have := h₂.inodes
    omega

theorem mark (hData : IsData b) (hFree : σ.bit b = false) : Progress σ (σ.mark b) 1 0 where
  grows := Grows.mark σ b
  plain _ hi := (hi.2 hi.1).elim
  bare _ hi := (hi.2 hi.1).elim
  blocks := freeBlocks_mark hData hFree
  inodes := rfl

theorem write (h : Progress σ σ' p q) (hb : Fresh σ σ' b) (buf : Block) :
    Progress σ (σ'.write b buf) p q where
  grows := h.grows.write hb buf
  plain := h.plain
  bare := h.bare
  blocks := h.blocks
  inodes := h.inodes

theorem allocInode (hInum : IsInum i) (hDead : ¬σ.Alive i) (now : UInt32) :
    Progress σ (σ.putInode i (freshInode .T_FILE now)) 0 1 where
  grows := Grows.putInode hInum hDead (FileType.code_toUInt16_ne_zero _) rfl (freshInode_slot _ now)
  plain j hj := by
    rw [born_putInode (FileType.code_toUInt16_ne_zero _) hDead] at hj
    obtain rfl : j = i := hj
    rw [putInode_inode, if_pos rfl]
    rfl
  bare j hj _ := by
    rw [born_putInode (FileType.code_toUInt16_ne_zero _) hDead] at hj
    obtain rfl : j = i := hj
    rw [slot_putInode_self, freshInode_slot]
  blocks := rfl
  inodes := freeInodes_putInode hInum hDead (FileType.code_toUInt16_ne_zero _)

end Progress

/-- The tree at `r`, of depth at most `n`, that `write_file` builds for `s`. -/
def Holds (σ : Store) : Nat → Nat → List Byte → Prop
  | 0, r, s => s.length ≤ 51200 ∧ σ.size r = blocksFor s.length ∧
      σ.direct r = padTo (512 * blocksFor s.length) s
  | n + 1, r, s => σ.size r = min (blocksFor s.length) 101 ∧
      σ.direct r = padTo (512 * min (blocksFor s.length) 100) s ∧
      List.Forall₂ (σ.Holds n) (σ.kids r) (pieces s)

namespace Holds

variable {n m r : Nat} {s : List Byte}

theorem exists_of_forall₂ {α β : Type} {R : α → β → Prop} {l : List α} {u : List β}
    (h : List.Forall₂ R l u) {a : α} (ha : a ∈ l) : ∃ b, R a b := by
  induction h with
  | nil => simp at ha
  | cons hHead _ ih =>
      rcases List.mem_cons.mp ha with rfl | ha
      · exact ⟨_, hHead⟩
      · exact ih ha

theorem flatMap_eq_of_forall₂ {α β γ : Type} {f : α → List γ} {g : β → List γ}
    {l : List α} {u : List β} (h : List.Forall₂ (fun a b => f a = g b) l u) :
    l.flatMap f = u.flatMap g := by
  induction h with
  | nil => rfl
  | cons hHead _ ih => rw [List.flatMap_cons, List.flatMap_cons, hHead, ih]

theorem succ (h : σ.Holds n r s) : σ.Holds (n + 1) r s := by
  induction n generalizing r s with
  | zero =>
      obtain ⟨hLen, hSize, hDirect⟩ := h
      have hBlocks : blocksFor s.length ≤ 100 := by
        rw [blocksFor_eq]
        omega
      refine ⟨by omega, by rwa [Nat.min_eq_left hBlocks], ?_⟩
      rw [kids_of_size_le (by omega), pieces_of_le hLen]
      exact List.Forall₂.nil
  | succ n ih =>
      obtain ⟨hSize, hDirect, hKids⟩ := h
      exact ⟨hSize, hDirect, hKids.imp fun _ _ => ih⟩

theorem mono (h : σ.Holds n r s) (hle : n ≤ m) : σ.Holds m r s := by
  induction hle with
  | refl => exact h
  | step _ ih => exact ih.succ

theorem shallow (h : σ.Holds n r s) : σ.shape.Shallow n r := by
  induction n generalizing r s with
  | zero =>
      obtain ⟨hLen, hSize, -⟩ := h
      have hBlocks : blocksFor s.length ≤ 100 := by
        rw [blocksFor_eq]
        omega
      exact kids_of_size_le (by omega)
  | succ n ih =>
      obtain ⟨-, -, hKids⟩ := h
      intro c hc
      obtain ⟨p, hHolds⟩ := exists_of_forall₂ hKids hc
      exact ih hHolds

theorem congr {P : Set Nat} (hSame : SameOn σ σ' P) (hKid : ∀ i ∈ P, ∀ c ∈ σ.kids i, c ∈ P)
    (hr : r ∈ P) (h : σ.Holds n r s) : σ'.Holds n r s := by
  induction n generalizing r s with
  | zero =>
      rw [Holds, hSame.size hr, hSame.direct hr]
      exact h
  | succ n ih =>
      obtain ⟨hSize, hDirect, hKids⟩ := h
      rw [Holds, hSame.size hr, hSame.direct hr, hSame.kids hr]
      have hMem := (List.forall₂_and_left (p := (· ∈ P)) _ _).mpr ⟨hKid r hr, hKids⟩
      exact ⟨hSize, hDirect, hMem.imp fun c p hc => ih hc.1 hc.2⟩

/-- Reading the tree back. -/
theorem content (h : σ.Holds n r s) : σ.content n r = readBack n s := by
  induction n generalizing r s with
  | zero =>
      obtain ⟨-, hSize, hDirect⟩ := h
      rw [Store.content, hDirect, readBack, padTo_of_length_le, trim_append_zeros]
      rw [blocksFor_eq]
      omega
  | succ n ih =>
      obtain ⟨hSize, hDirect, hKids⟩ := h
      rw [Store.content, readBack, flatMap_eq_of_forall₂ (hKids.imp fun c p => ih), hDirect,
        directSize_eq]
      by_cases hLen : s.length ≤ 51200
      · have hFit : s.length ≤ 512 * min (blocksFor s.length) 100 := by
          rw [blocksFor_eq]
          omega
        rw [pieces_of_le hLen, List.flatMap_nil, List.append_nil, List.append_nil,
          padTo_of_length_le hFit, trim_append_zeros, List.take_of_length_le hLen]
      · have hFull : 512 * min (blocksFor s.length) 100 = 51200 := by
          rw [blocksFor_eq]
          omega
        rw [hFull, padTo_of_le_length (by omega)]

end Holds

/-- The blocks that `write_file` takes for `n` bytes before it allocates child inode `k`. -/
def blocksAhead (n k : Nat) : Nat := min (100 * (k + 1) + k / 128 + 1) (blocksNeeded n)

/-- After `p` blocks and `q` child inodes of those for `n` bytes the next thing to take is
a block. -/
def AtBlock (n p q : Nat) : Prop :=
  p < blocksNeeded n ∧ (q < inodesNeeded n → p < blocksAhead n q)

/-- The next thing to take is a child inode. -/
def AtInode (n p q : Nat) : Prop := q < inodesNeeded n ∧ p = blocksAhead n q

/-- `write_file` had taken `k` blocks and `l` child inodes for `n` bytes when the disk was
`σ`. The disk grew, until there was no block or no inode for the next thing to take. -/
structure Failed (σ σ' : Store) (n k l : Nat) (e : Stop) : Prop where
  stopped : ∃ p q, Progress σ σ' p q ∧
    (e = .badAlloc ∧ σ'.freeBlocks = 0 ∧ AtBlock n (k + p) (l + q) ∨
      e = .segfault ∧ σ'.freeInodes = 0 ∧ AtInode n (k + p) (l + q))

namespace Failed

variable {n k l : Nat} {e : Stop}

theorem noBlock (h : σ.freeBlocks = 0) (hAt : AtBlock n k l) : Failed σ σ n k l .badAlloc :=
  ⟨0, 0, Progress.refl σ, Or.inl ⟨rfl, h, hAt⟩⟩

theorem noInode (h : σ.freeInodes = 0) (hAt : AtInode n k l) : Failed σ σ n k l .segfault :=
  ⟨0, 0, Progress.refl σ, Or.inr ⟨rfl, h, hAt⟩⟩

theorem after {p q k' l' : Nat} (h : Progress σ σ₁ p q) (hFail : Failed σ₁ σ₂ n k' l' e)
    (hBlocks : k' = k + p) (hInodes : l' = l + q) : Failed σ σ₂ n k l e := by
  obtain ⟨p', q', hMore, hCause⟩ := hFail
  refine ⟨_, _, h.trans hMore, ?_⟩
  rw [hBlocks, hInodes, Nat.add_assoc, Nat.add_assoc] at hCause
  exact hCause

/-- A part of the string that is stored by a call of its own. -/
theorem part {n' k' l' : Nat} (h : Failed σ σ' n' k' l' e)
    (hBlock : ∀ p q, AtBlock n' (k' + p) (l' + q) → AtBlock n (k + p) (l + q))
    (hInode : ∀ p q, AtInode n' (k' + p) (l' + q) → AtInode n (k + p) (l + q)) :
    Failed σ σ' n k l e := by
  obtain ⟨p, q, hMore, ⟨he, hNone, hAt⟩ | ⟨he, hNone, hAt⟩⟩ := h
  · exact ⟨p, q, hMore, Or.inl ⟨he, hNone, hBlock p q hAt⟩⟩
  · exact ⟨p, q, hMore, Or.inr ⟨he, hNone, hInode p q hAt⟩⟩

theorem progress (h : Failed σ σ' n k l e) : ∃ p q, Progress σ σ' p q := by
  obtain ⟨p, q, hMore, -⟩ := h
  exact ⟨p, q, hMore⟩

/-- What was missing. The process dies when the inodes run out before the blocks do. -/
theorem cause (h : Failed σ σ' n 0 0 e) :
    e = .badAlloc ∧ σ.freeBlocks < blocksNeeded n ∧
        (σ.freeInodes < inodesNeeded n → σ.freeBlocks < blocksAhead n σ.freeInodes) ∨
      e = .segfault ∧ σ.freeInodes < inodesNeeded n ∧
        blocksAhead n σ.freeInodes ≤ σ.freeBlocks := by
  obtain ⟨p, q, hMore, hCause⟩ := h
  have hBlocks := hMore.blocks
  have hInodes := hMore.inodes
  rw [Nat.zero_add, Nat.zero_add] at hCause
  rcases hCause with ⟨he, hNone, hLess, hAhead⟩ | ⟨he, hNone, hLess, hAhead⟩
  · refine Or.inl ⟨he, by omega, fun hShort => ?_⟩
    have hFew := hAhead (by omega)
    rw [blocksAhead] at hFew ⊢
    omega
  · refine Or.inr ⟨he, by omega, ?_⟩
    have hTaken : σ.freeInodes = q := by omega
    rw [hTaken, ← hAhead]
    omega

end Failed

/-- `write_file` stored `s` in the inode `r`. -/
structure Wrote (σ σ' : Store) (r : Nat) (s : List Byte) : Prop where
  rewrites : ∃ σ₁, Rewrites σ σ₁ σ' r ∧
    Progress σ σ₁ (blocksNeeded s.length) (inodesNeeded s.length)
  type : (σ'.inode r).type = (σ.inode r).type
  behind : σ'.size r ≤ 100 → σ'.slot r 100 = σ.slot r 100
  holds : ∀ n, levels s.length ≤ n → σ'.Holds n r s

/-- Writing an inode which is new itself only adds to the disk. -/
theorem Wrote.progress {ρ : Store} {r p q : Nat} {s : List Byte} (h : Wrote σ σ' r s)
    (h₀ : Progress ρ σ p q) (hRoot : FreshRoot ρ σ r) (hBare : σ.slot r 100 = 0) :
    Progress ρ σ' (p + blocksNeeded s.length) (q + inodesNeeded s.length) := by
  obtain ⟨⟨σ₁, hRewrites, hProgress⟩, hType, hBehind, -⟩ := h
  have hAll := h₀.trans hProgress
  refine ⟨hRewrites.grows_trans h₀.grows hRoot, fun i hi => ?_, fun i hi hSize => ?_, ?_, ?_⟩
  · rw [hRewrites.born] at hi
    by_cases he : i = r
    · subst he
      rw [Inode.isDir, hType]
      exact h₀.plain i hRoot.1
    · rw [hRewrites.inode i he]
      exact hAll.plain i hi
  · rw [hRewrites.born] at hi
    by_cases he : i = r
    · subst he
      exact (hBehind hSize).trans hBare
    · rw [size, hRewrites.inode i he] at hSize
      rw [slot, hRewrites.inode i he]
      exact hAll.bare i hi hSize
  · rw [freeBlocks_congr hRewrites.bit]
    exact hAll.blocks
  · rw [freeInodes_congr fun i => hRewrites.alive_iff]
    exact hAll.inodes

theorem Wrote.blocks {r : Nat} {s : List Byte} (h : Wrote σ σ' r s) :
    σ'.freeBlocks + blocksNeeded s.length = σ.freeBlocks := by
  obtain ⟨σ₁, hRewrites, hProgress⟩ := h.rewrites
  rw [freeBlocks_congr hRewrites.bit]
  exact hProgress.blocks

theorem Wrote.inodes {r : Nat} {s : List Byte} (h : Wrote σ σ' r s) :
    σ'.freeInodes + inodesNeeded s.length = σ.freeInodes := by
  obtain ⟨σ₁, hRewrites, hProgress⟩ := h.rewrites
  rw [freeInodes_congr fun i => hRewrites.alive_iff]
  exact hProgress.inodes

end Store

open Store

/-- No slot of `r`, used or stale, holds a free block. -/
def Store.SlotsMarked (σ : Store) (r : Nat) : Prop :=
  ∀ k, σ.slot r k ≠ 0 → σ.bit (σ.slot r k) = true

theorem Store.SlotsMarked.not_fresh {σ σ' : Store} {r : Nat} (h : σ.SlotsMarked r) (k : Nat) :
    ¬Fresh σ σ' (σ.slot r k) := by
  intro hFresh
  have hData := isData_iff.mp hFresh.1.1
  simpa [hFresh.1.2.2] using h k (by omega)

/-- What the recursive calls of `write_file` are assumed to do. A negative size
is ignored. -/
def WriteSpec (write : Nat → List Byte → Int → Action Unit) (stack : Nat) : Prop :=
  ∀ m r buf (size : Int), m.store.Alive r → m.store.SlotsMarked r → size.toNat ≤ buf.length →
    levels size.toNat < stack → levels size.toNat ≤ maxDepth →
    wp (write r buf size)
      (fun _ m' => if size < 0 then m' = m else Wrote m.store m'.store r (buf.take size.toNat))
      (fun e m' => Failed m.store m'.store size.toNat 0 0 e) m

section Direct

/-- The block at index `k` of a string. -/
def blockOf (s : List Byte) (k : Nat) : Block := Block.ofBytes ((s.drop (512 * k)).take 512)

theorem flatMap_blockOf (s : List Byte) (k : Nat) :
    (List.range k).flatMap (fun i => (blockOf s i).bytes) = padTo (512 * k) s := by
  induction k with
  | zero => simp [padTo]
  | succ k ih =>
      have hBlock : (blockOf s k).bytes = padTo 512 (s.drop (512 * k)) := padTo_take 512 _
      rw [List.range_succ, List.flatMap_append, ih, List.flatMap_singleton, hBlock,
        Nat.mul_succ, padTo_add]

/-- One round of the first loop takes a block and fills it. -/
theorem wp_writeDirect {m : Machine} {buf : List Byte} {size i : Nat} {ino : Inode}
    {Q : Inode → Machine → Prop} {E : Stop → Machine → Prop}
    (hOk : ∀ b m', IsData b → m.store.bit b = false →
      m'.store = (m.store.mark b).write b (blockOf (buf.take size) i) → Q (ino.setSlot i b) m')
    (hFull : m.store.freeBlocks = 0 → E .badAlloc m) :
    wp (writeDirect buf size ino i) Q E m := by
  have hSplit : (buf.take size).drop (512 * i) = (buf.drop (512 * i)).take (size - 512 * i) := by
    rw [List.drop_take]
  rw [writeDirect, wp_bind]
  refine wp_allocBlock (fun b m₁ hData hFree _ hMark => ?_) fun hAll => ?_
  · have hPos : b > 0 := by
      have := isData_iff.mp hData
      omega
    simp only [hPos, if_true]
    by_cases hShort : blockSize * (i + 1) > size
    · have hBuf : Block.ofBytes ((buf.drop (blockSize * i)).take (size - blockSize * i)) =
          blockOf (buf.take size) i := by
        rw [blockOf, hSplit, List.take_take, blockSize_eq, Nat.min_eq_right]
        simp only [blockSize_eq] at hShort
        omega
      rw [if_pos hShort, hBuf, wp_bind]
      obtain ⟨m₂, hRun, hStore⟩ := writeBlock_data (m := m₁) (Or.inl hData)
        (blockOf (buf.take size) i)
      exact wp_of_ok hRun (hOk b m₂ hData hFree (by rw [hStore, hMark]))
    · have hBuf : Block.ofBytes ((buf.drop (blockSize * i)).take blockSize) =
          blockOf (buf.take size) i := by
        rw [blockOf, hSplit, List.take_take, blockSize_eq, Nat.min_eq_left]
        simp only [blockSize_eq] at hShort
        omega
      rw [if_neg hShort, hBuf, wp_bind]
      obtain ⟨m₂, hRun, hStore⟩ := writeBlock_data (m := m₁) (Or.inl hData)
        (blockOf (buf.take size) i)
      exact wp_of_ok hRun (hOk b m₂ hData hFree (by rw [hStore, hMark]))
  · simp only [gt_iff_lt, Nat.lt_irrefl, if_false]
    exact hFull (freeBlocks_eq_zero hAll)

/-- After `i` rounds of the first loop. -/
structure DirectDone (σ σ' : Store) (s : List Byte) (old ino : Inode) (i : Nat) : Prop where
  progress : Progress σ σ' i 0
  type : ino.type = old.type
  fresh : ∀ k < i, Fresh σ σ' (ino.slot k)
  data : ∀ k < i, σ'.data (ino.slot k) = blockOf s k
  inj : ∀ k < i, ∀ l < i, ino.slot k = ino.slot l → k = l
  rest : ∀ k, i ≤ k → ino.slot k = old.slot k

theorem DirectDone.step {σ σ' : Store} {s : List Byte} {old ino : Inode} {i b : Nat}
    (h : DirectDone σ σ' s old ino i) (hi : i < 100) (hData : IsData b)
    (hFree : σ'.bit b = false) :
    DirectDone σ ((σ'.mark b).write b (blockOf s i)) s old (ino.setSlot i b) (i + 1) := by
  have hMark : Progress σ' (σ'.mark b) 1 0 := Progress.mark hData hFree
  have hNew : Fresh σ' (σ'.mark b) b := Fresh.mark hData hFree
  have hStep : Progress σ' ((σ'.mark b).write b (blockOf s i)) 1 0 := hMark.write hNew _
  have hSlot : ∀ k, (ino.setSlot i b).slot k = if k = i then b else ino.slot k := by
    have := isData_iff.mp hData
    exact ino.setSlot_slot (by omega) (by omega)
  have hOld : ∀ k < i, ino.slot k ≠ b := fun k hk he => by
    simpa [he, hFree] using (h.fresh k hk).1.2.1
  refine ⟨h.progress.trans hStep, h.type, ?_, ?_, ?_, ?_⟩
  · intro k hk
    rw [hSlot]
    split
    · exact (hNew.write b _).of_later h.progress.grows hStep.grows
    · exact (h.fresh k (by omega)).mono h.progress.grows hStep.grows
  · intro k hk
    rw [hSlot, write_data]
    by_cases he : k = i
    · simp [he]
    · have hlt : k < i := by omega
      rw [if_neg he, if_neg (hOld k hlt)]
      exact h.data k hlt
  · intro k hk l hl he
    rw [hSlot, hSlot] at he
    split at he <;> split at he
    · omega
    · exact (hOld l (by omega) he.symm).elim
    · exact (hOld k (by omega) he).elim
    · exact h.inj k (by omega) l (by omega) he
  · intro k hk
    rw [hSlot, if_neg (by omega)]
    exact h.rest k (by omega)

/-- The first loop of `write_file`. -/
theorem wp_writeDirect_loop {m : Machine} {buf : List Byte} {size : Nat} {old : Inode} :
    wp ((List.range (min (blocksFor size) 100)).foldlM (writeDirect buf size) old)
      (fun ino m' => DirectDone m.store m'.store (buf.take size) old ino (min (blocksFor size) 100))
      (fun e m' => Failed m.store m'.store size 0 0 e) m := by
  have hStart : DirectDone m.store m.store (buf.take size) old old 0 :=
    ⟨Progress.refl _, rfl, by simp, by simp, by simp, fun _ _ => rfl⟩
  have hLoop := wp_foldlM (f := writeDirect buf size) (l := List.range (min (blocksFor size) 100))
    (b := old) (s := m) (E := fun e m' => Failed m.store m'.store size 0 0 e)
    (fun done ino m' => DirectDone m.store m'.store (buf.take size) old ino done.length) hStart ?_
  · simpa using hLoop
  intro done i rest hRange ino m₁ hDone
  obtain ⟨hIndex, hLt⟩ := index_of_range_eq hRange
  subst hIndex
  refine wp_writeDirect (fun b m₂ hData hFree hStore => ?_) fun hNone => ?_
  · rw [List.length_append, List.length_singleton, hStore]
    exact hDone.step (by omega) hData hFree
  · have hAt : AtBlock size done.length 0 := by
      refine ⟨?_, fun _ => ?_⟩
      · rw [blocksNeeded]
        omega
      · rw [blocksAhead, blocksNeeded]
        omega
    exact (Failed.noBlock hNone hAt).after hDone.progress (by omega) rfl

end Direct
end InodeFS
