import InodeFS.RoundTrip
import InodeFS.Enumeration
import InodeFS.WriteResult

/-! What storage an overwrite and a removal give back. The tree that `write_file`
builds accounts for every block and every inode it took; the old tree keeps its
blocks, and a removed tree keeps its indirect blocks. -/
namespace InodeFS

open Bytes Exec Ownership Store

section Accounting

variable {σ σ₁ : Store} {r p q : Nat} {s : List Byte} {new : Inode} {inodes : List Nat}

/-- A part without repetitions that is as long as the whole is the whole. -/
theorem mem_of_card_le {F : Finset Nat} {l : List Nat} (hNodup : l.Nodup) (hSub : ∀ x ∈ l, x ∈ F)
    (hCard : F.card ≤ l.length) {x : Nat} (hx : x ∈ F) : x ∈ l := by
  have hEq : l.toFinset = F := by
    refine Finset.eq_of_subset_of_card_le (fun y hy => hSub y (List.mem_toFinset.mp hy)) ?_
    rwa [List.toFinset_card_of_nodup hNodup]
  exact List.mem_toFinset.mp (hEq ▸ hx)

theorem mem_of_taken (h : Progress σ σ₁ p q) {l : List Nat} (hNodup : l.Nodup)
    (hSub : ∀ b ∈ l, b ∈ Taken σ σ₁) (hLength : l.length = p) {b : Nat} (hb : b ∈ Taken σ σ₁) :
    b ∈ l := by
  let before := (Finset.Ico dataStart sb.nblocks).filter fun c => σ.bit c = false
  let after := (Finset.Ico dataStart sb.nblocks).filter fun c => σ₁.bit c = false
  have hSubset : after ⊆ before := by
    intro c hc
    obtain ⟨hRange, hFree⟩ := Finset.mem_filter.mp hc
    refine Finset.mem_filter.mpr ⟨hRange, ?_⟩
    by_contra hMarked
    simp [h.grows.bit c (by simpa using hMarked)] at hFree
  have hMem : ∀ c, c ∈ Taken σ σ₁ → c ∈ before \ after := by
    intro c hc
    refine Finset.mem_sdiff.mpr
      ⟨Finset.mem_filter.mpr ⟨Finset.mem_Ico.mpr hc.1, hc.2.2⟩, fun hAfter => ?_⟩
    exact Bool.false_ne_true ((Finset.mem_filter.mp hAfter).2.symm.trans hc.2.1)
  have hCard : (before \ after).card = p := by
    have hBlocks : after.card + p = before.card := h.blocks
    rw [Finset.card_sdiff_of_subset hSubset]
    omega
  exact mem_of_card_le hNodup (fun c hc => hMem c (hSub c hc)) (by omega) (hMem b hb)

theorem mem_of_born (h : Progress σ σ₁ p q) {l : List Nat} (hNodup : l.Nodup)
    (hSub : ∀ i ∈ l, i ∈ Born σ σ₁) (hLength : l.length = q) {i : Nat} (hi : i ∈ Born σ σ₁) :
    i ∈ l := by
  let before := (Finset.Icc 1 inodeNum).filter fun j => ¬σ.Alive j
  let after := (Finset.Icc 1 inodeNum).filter fun j => ¬σ₁.Alive j
  have hSubset : after ⊆ before := by
    intro j hj
    obtain ⟨hRange, hDead⟩ := Finset.mem_filter.mp hj
    exact Finset.mem_filter.mpr ⟨hRange, fun hAlive => hDead (h.grows.alive hAlive)⟩
  have hMem : ∀ j, j ∈ Born σ σ₁ → j ∈ before \ after := by
    intro j hj
    have hInum := h.grows.sound.inum j hj
    exact Finset.mem_sdiff.mpr ⟨Finset.mem_filter.mpr ⟨Finset.mem_Icc.mpr hInum, hj.2⟩,
      fun hAfter => (Finset.mem_filter.mp hAfter).2 hj.1⟩
  have hCard : (before \ after).card = q := by
    have hInodes : after.card + q = before.card := h.inodes
    rw [Finset.card_sdiff_of_subset hSubset]
    omega
  exact mem_of_card_le hNodup (fun j hj => hMem j (hSub j hj)) (by omega) (hMem i hi)

namespace Placed

/-- The blocks of the new tree are the blocks that were taken. -/
theorem mem_taken_iff (h : Placed σ σ₁ r s new inodes) (hAlive : σ.Alive r)
    (hDepth : levels s.length ≤ maxDepth) (b : Nat) :
    b ∈ Taken σ σ₁ ↔ b ∈ (σ₁.putInode r new).treeBlocks maxDepth r := by
  have hForest := h.covered hAlive hDepth
  have hRoot : r ∈ ({r} : Set Nat) ∪ Born σ σ₁ := Or.inl rfl
  have hLength := ((h.holds hAlive).mono hDepth).blocks_length
  have hTaken : ∀ c ∈ (σ₁.putInode r new).treeBlocks maxDepth r, c ∈ Taken σ σ₁ :=
    fun c hc => hForest.owned_mem hRoot hc
  exact ⟨mem_of_taken h.progress (hForest.owned_nodup hRoot _) hTaken hLength, hTaken b⟩

/-- The nodes below the root of the new tree are the inodes that were allocated. -/
theorem mem_born_iff (h : Placed σ σ₁ r s new inodes) (hAlive : σ.Alive r)
    (hDepth : levels s.length ≤ maxDepth) (i : Nat) :
    i ∈ Born σ σ₁ ↔ i ∈ (σ₁.putInode r new).treeNodes maxDepth r ∧ i ≠ r := by
  have hForest := h.covered hAlive hDepth
  have hRoot : r ∈ ({r} : Set Nat) ∪ Born σ σ₁ := Or.inl rfl
  have hNodup : ((σ₁.putInode r new).treeNodes maxDepth r).Nodup := hForest.nodes_nodup hRoot _
  have hLength := ((h.holds hAlive).mono hDepth).nodes_length
  have hBorn : ∀ j ∈ ((σ₁.putInode r new).treeNodes maxDepth r).erase r, j ∈ Born σ σ₁ := by
    intro j hj
    obtain ⟨hne, hMem⟩ := hNodup.mem_erase_iff.mp hj
    exact (hForest.nodes_mem hRoot hMem).resolve_left hne
  have hErase : (((σ₁.putInode r new).treeNodes maxDepth r).erase r).length =
      inodesNeeded s.length := by
    have hSelf : r ∈ (σ₁.putInode r new).treeNodes maxDepth r := Shape.mem_nodes_self _ _ r
    rw [List.length_erase_of_mem hSelf, hLength]
    omega
  constructor
  · intro hi
    have hMem := mem_of_born h.progress (hNodup.erase r) hBorn hErase hi
    exact (hNodup.mem_erase_iff.mp hMem).symm
  · rintro ⟨hMem, hne⟩
    exact hBorn i (hNodup.mem_erase_iff.mpr ⟨hne, hMem⟩)

end Placed

end Accounting

namespace ExtentServer

section Overwrite

variable {stack : Nat} {live : Set Nat} {m : Machine} {id : Nat} {str : List Byte}

/-- `put` on a live id, with the inode that `write_file` puts back. -/
theorem exists_put_placed (h : m.store.Intact live) (hStack : maxDepth < stack) (hLive : id ∈ live)
    (hBlocks : blocksNeeded str.length ≤ m.store.freeBlocks)
    (hInodes : inodesNeeded str.length ≤ m.store.freeInodes) :
    ∃ m' σ₁ new inodes, put stack id str m = .ok () m' ∧
      Placed m.store σ₁ id str new inodes ∧ m'.store = σ₁.putInode id new := by
  obtain ⟨d, rfl⟩ : ∃ d, stack = d + 1 := ⟨stack - 1, by omega⟩
  have hLen := length_lt_of_blocksNeeded hBlocks
  have hAlive := h.alive id hLive
  have hWrite := wp_writeFile_step (wp_writeFile d) hAlive (Nat.le_refl str.length) (by
    have := levels_lt_maxDepth hLen
    omega) (levels_lt_maxDepth hLen)
  rw [List.take_length] at hWrite
  obtain ⟨_, m', hRun, σ₁, new, inodes, hPlaced, hStore⟩ := exists_ok_of_wp
    (wp_mono hWrite (fun _ _ hPost => hPost) fun e m' hFail => by
      have := hFail.cause
      omega)
  refine ⟨m', σ₁, new, inodes, ?_, hPlaced, hStore⟩
  rw [put, maskId_of_isInum (isInum_of_alive hAlive), toInt_of_lt hLen]
  exact hRun

/-- The old tree at `id` is given back and the new one accounts for the rest: a
block is marked when it was marked and not in the old tree, or is in the new
tree, and the same holds of the inodes below `id`. -/
def Reclaims (σ τ : Store) (id : Nat) : Prop :=
  (∀ b, IsData b → (τ.bit b = true ↔
    (σ.bit b = true ∧ b ∉ σ.treeBlocks maxDepth id) ∨ b ∈ τ.treeBlocks maxDepth id)) ∧
  ∀ i, τ.Alive i ↔
    (σ.Alive i ∧ ¬(i ∈ σ.treeNodes maxDepth id ∧ i ≠ id)) ∨ i ∈ τ.treeNodes maxDepth id

theorem reclaims_iff {σ σ₁ : Store} {new : Inode} {inodes : List Nat} (h : σ.Intact live)
    (hLive : id ∈ live) (hPlaced : Placed σ σ₁ id str new inodes)
    (hDepth : levels str.length ≤ maxDepth) :
    Reclaims σ (σ₁.putInode id new) id ↔ σ.size id = 0 := by
  have hAlive := h.alive id hLive
  have hGrows := hPlaced.progress.grows
  have hRewrites := hPlaced.rewrites hAlive (SlotsMarked.of_sound h.sound hAlive) hDepth
  constructor
  · rintro ⟨hBits, -⟩
    by_contra hSize
    -- The first block stays marked, and it is not in the new tree.
    have hUsed : σ.Used id 0 := Or.inl (by omega)
    have hMarked := h.sound.slot_mem hAlive hUsed
    have hOld : σ.slot id 0 ∈ σ.treeBlocks maxDepth id :=
      List.mem_flatMap.mpr ⟨id, Shape.mem_nodes_self _ _ _, mem_blocks.mpr ⟨0, hUsed, rfl⟩⟩
    have hStill : (σ₁.putInode id new).bit (σ.slot id 0) = true := hGrows.bit _ hMarked.2
    rcases (hBits _ hMarked.1).mp hStill with ⟨-, hNot⟩ | hNew
    · exact hNot hOld
    · have hTaken := (hPlaced.mem_taken_iff hAlive hDepth _).mpr hNew
      exact Bool.false_ne_true (hTaken.2.2.symm.trans hMarked.2)
  · intro hSize
    have hKids : σ.covered.kids id = [] := kids_of_size_le (by omega)
    have hNodes : σ.treeNodes maxDepth id = [id] := by
      rw [treeNodes, maxDepth_eq, Shape.nodes, hKids]
      rfl
    have hBlocks : σ.treeBlocks maxDepth id = [] := by
      rw [treeBlocks, hNodes, List.flatMap_singleton, blocks, directBlocks, hSize]
      rfl
    rw [Reclaims, hBlocks, hNodes]
    refine ⟨fun b hb => ?_, fun i => ?_⟩
    · rw [← hPlaced.mem_taken_iff hAlive hDepth, putInode_bit]
      cases hBit : σ.bit b with
      | true => simp [hGrows.bit b hBit]
      | false => simp [Taken, hb, hBit]
    · rw [hRewrites.alive_iff]
      by_cases hi : i = id
      · simp [hi, hAlive, hGrows.alive hAlive]
      · have hBorn := hPlaced.mem_born_iff hAlive hDepth i
        rw [and_iff_left hi] at hBorn
        rw [← hBorn]
        by_cases hOld : σ.Alive i
        · simp [hOld, hGrows.alive hOld, hi]
        · simp [Store.Born, hOld]

/-- With room enough `put` succeeds. It gives the old tree back exactly when
there is nothing to give back. -/
theorem overwrite_reclaims_iff {clock : Nat → UInt32} {s : Session} (hStack : maxDepth < stack)
    (hRun : Run stack clock (fun _ call => call.KeepsSize) s) (hLive : id ∈ s.live)
    (hBlocks : blocksNeeded str.length ≤ s.machine.store.freeBlocks)
    (hInodes : inodesNeeded str.length ≤ s.machine.store.freeInodes) :
    ∃ m', put stack id str s.machine = .ok () m' ∧
      (Reclaims s.machine.store m'.store id ↔ s.machine.store.size id = 0) := by
  have hIntact := (hRun.faithful hStack).intact
  have hDepth := levels_lt_maxDepth (length_lt_of_blocksNeeded hBlocks)
  obtain ⟨m', σ₁, new, inodes, hPut, hPlaced, hStore⟩ :=
    exists_put_placed hIntact hStack hLive hBlocks hInodes
  refine ⟨m', hPut, ?_⟩
  rw [hStore]
  exact reclaims_iff hIntact hLive hPlaced hDepth

/-- The first string of a new file, with three child inodes. -/
theorem overwrite_new_file : ∃ (s : Session) (id : Nat) (m' : Machine),
    put (maxDepth + 1) id (List.replicate 170000 97) s.machine = .ok () m' ∧
    Reclaims s.machine.store m'.store id := by
  have hNeeds : blocksNeeded 170000 = 334 ∧ inodesNeeded 170000 = 3 := by decide
  obtain ⟨s, id, hRun, hLive, hBlocks, hInodes, hSize, -⟩ := exists_new_file
  have hLength : (List.replicate 170000 (97 : Byte)).length = 170000 := List.length_replicate
  generalize List.replicate 170000 (97 : Byte) = str at hLength ⊢
  obtain ⟨m', hPut, hIff⟩ := overwrite_reclaims_iff (Nat.lt_succ_self maxDepth) hRun hLive
    (by rw [hLength]; omega) (by rw [hLength]; omega)
  exact ⟨s, id, m', hPut, hIff.mpr hSize⟩

/-- A file of one byte, overwritten with another byte. -/
theorem overwrite_leaks : ∃ (s : Session) (id : Nat) (m' : Machine),
    Run (maxDepth + 1) (fun _ => 0) (fun _ call => call.KeepsSize) s ∧ id ∈ s.live ∧
    ExtentServer.get s.machine (maxDepth + 1) id = .ok [97] ∧
    put (maxDepth + 1) id [98] s.machine = .ok () m' ∧
    ¬Reclaims s.machine.store m'.store id := by
  obtain ⟨s, id, hRun, hLive, hBlocks, hInodes, -⟩ := exists_new_file
  have hIntact := (hRun.faithful (Nat.lt_succ_self maxDepth)).intact
  obtain ⟨m₁, hPut, hWrote⟩ := exists_put hIntact (Nat.lt_succ_self maxDepth) hLive
    (show [(97 : Byte)].length < 2 ^ 31 by decide) (by rw [hBlocks]; decide)
    (by rw [hInodes]; decide)
  have hBlocks₁ : m₁.store.freeBlocks + 1 = 2095612 := hBlocks ▸ hWrote.blocks
  have hRun₁ := hRun.step (show Call.KeepsSize (.put id [97]) from trivial) (.put hLive hPut)
  have hIntact₁ : m₁.store.Intact s.live := (hRun₁.faithful (Nat.lt_succ_self maxDepth)).intact
  have hSize : m₁.store.size id = 1 := (hWrote.holds 0 (by decide)).2.1
  have hDepth : levels [(98 : Byte)].length ≤ maxDepth := by decide
  have hEnough : blocksNeeded [(98 : Byte)].length ≤ m₁.store.freeBlocks := by
    have hOne : blocksNeeded [(98 : Byte)].length = 1 := by decide
    omega
  obtain ⟨m₂, σ₂, new, inodes, hPut₂, hPlaced, hStore⟩ := exists_put_placed hIntact₁
    (Nat.lt_succ_self maxDepth) hLive hEnough (Nat.zero_le _)
  refine ⟨_, id, m₂, hRun₁, hLive, ?_, hPut₂, fun hReclaims => ?_⟩
  · change ExtentServer.get m₁ _ _ = _
    rw [get_eq hIntact₁ (Nat.lt_succ_self maxDepth) hLive,
      (hWrote.holds maxDepth (by decide)).content, (readBack_eq_self_iff (by decide)).mpr]
    refine ⟨fun _ => by simp, fun k hk hlt => ?_⟩
    rw [directSize_eq, List.length_singleton] at hlt
    omega
  · change Reclaims m₁.store m₂.store id at hReclaims
    rw [hStore, reclaims_iff hIntact₁ hLive hPlaced hDepth] at hReclaims
    omega

end Overwrite

section Removal

variable {stack : Nat} {live : Set Nat} {m m₃ : Machine} {id : Nat} {str : List Byte}

theorem mem_untilZero_of_ne {l : List Nat} {k : Nat} (hk : k < l.length)
    (h : ∀ j (hj : j < l.length), j ≤ k → l[j] ≠ 0) : l[k] ∈ untilZero l := by
  induction l generalizing k with
  | nil => simp at hk
  | cons a rest ih =>
      have hHead : a ≠ 0 := h 0 (by simp) (Nat.zero_le k)
      rw [untilZero, List.takeWhile_cons_of_pos (by simpa using hHead)]
      cases k with
      | zero => exact List.mem_cons_self
      | succ k =>
          refine List.mem_cons_of_mem a (ih (Nat.lt_of_succ_lt_succ hk) fun j hj hle => ?_)
          exact h (j + 1) (Nat.succ_lt_succ hj) (Nat.succ_le_succ hle)

/-- A direct slot is freed when no slot before it is zero. -/
theorem slot_mem_freedBlocks {σ : Store} {i k : Nat} (hk : k < 100)
    (h : ∀ j ≤ k, σ.slot i j ≠ 0) : σ.slot i k ∈ σ.freedBlocks i := by
  have hMem := mem_untilZero_of_ne (l := (List.range 100).map (σ.slot i)) (k := k) (by simpa using hk)
    fun j hj hle => by simpa using h j hle
  rw [freedBlocks]
  simpa using hMem

/-- A new file is written and removed again. -/
structure Removed (σ σ₁ τ ρ : Store) (id : Nat) (str : List Byte) (new : Inode)
    (inodes : List Nat) : Prop where
  fresh : ∀ k, σ.slot id k = 0
  placed : Placed σ σ₁ id str new inodes
  store : τ = σ₁.putInode id new
  sound : τ.Sound {i | τ.Alive i} τ.Marked
  removes : Removes τ ρ {x | x ∈ τ.treeNodes maxDepth id} {x | x ∈ τ.treeNodes maxDepth id}

namespace Removed

variable {σ σ₁ τ ρ : Store} {new : Inode} {inodes : List Nat} {b i : Nat}
  (h : Removed σ σ₁ τ ρ id str new inodes) (hAlive : σ.Alive id)
include h hAlive

theorem root_alive : id ∈ {i | τ.Alive i} := by
  rw [Set.mem_ofPred_eq, Alive, h.store, putInode_inode, if_pos rfl, h.placed.type]
  exact hAlive

/-- The indirect block of the root stays marked. -/
theorem bit_of_large (hLarge : 51200 < str.length) :
    ∃ b, IsData b ∧ σ.bit b = false ∧ ρ.bit b = true := by
  have hNew := h.placed.fresh 100 (Or.inr ⟨rfl, hLarge⟩)
  have hSlot : τ.slot id 100 = new.slot 100 := by rw [h.store, slot_putInode_self]
  refine ⟨new.slot 100, hNew.1.1, hNew.1.2.2, ?_⟩
  have hStill : τ.bit (new.slot 100) = true := by
    rw [h.store, putInode_bit]
    exact hNew.1.2.1
  have hIn := h.root_alive hAlive
  have hne : τ.slot id 100 ≠ 0 := by
    have := isData_iff.mp hNew.1.1
    omega
  by_contra hGone
  obtain ⟨i, hi, hFreed⟩ := (h.removes.freed _ hStill).mp (by simpa using hGone)
  rw [Set.mem_ofPred_eq, treeNodes_eq] at hi
  rw [← hSlot] at hFreed
  -- The indirect block has one owner and lies in one slot of it, the last.
  obtain ⟨hOwn, k, hk, he⟩ := mem_freedBlocks hFreed
  have hOwner := h.sound.forest.owns_unique i (h.sound.forest.nodes_mem hIn hi) id hIn _ hOwn
    (slot_mem_owns (by omega) hne)
  subst hOwner
  have := (owns_nodup_iff τ).mp (h.sound.forest.owns_nodup i hIn) k (by omega) 100 (by omega) he
    (he ▸ hne)
  omega

variable (hDepth : levels str.length ≤ maxDepth)
include hDepth

theorem mem_tree_iff : i ∈ τ.treeNodes maxDepth id ↔ i = id ∨ i ∈ Store.Born σ σ₁ := by
  have hBorn := h.placed.mem_born_iff hAlive hDepth i
  rw [← h.store] at hBorn
  by_cases hi : i = id
  · simp only [hi, true_or, iff_true]
    exact Shape.mem_nodes_self _ _ _
  · rw [hBorn, and_iff_left hi, or_iff_right hi]

/-- The inodes in use are those before the write, without `id`. -/
theorem alive_iff : ρ.Alive i ↔ σ.Alive i ∧ i ≠ id := by
  by_cases hi : i ∈ τ.treeNodes maxDepth id
  · have hGone : ρ.inode i = Inode.cleared := h.removes.cleared i hi
    have hDead : ¬ρ.Alive i := by simp [Alive, hGone]
    constructor
    · exact fun hLive => (hDead hLive).elim
    · rintro ⟨hOld, hne⟩
      exact ((((h.mem_tree_iff hAlive hDepth).mp hi).resolve_left hne).2 hOld).elim
  · have hKept : ρ.inode i = τ.inode i := h.removes.inode i hi
    have hOut := mt (h.mem_tree_iff hAlive hDepth).mpr hi
    have hne : i ≠ id := fun he => hOut (Or.inl he)
    have hSame : τ.inode i = σ.inode i := by
      rw [h.store, putInode_inode, if_neg hne]
      exact h.placed.progress.grows.inode i fun hBorn => hOut (Or.inr hBorn)
    rw [and_iff_left hne, Alive, hKept, hSame, Alive]

/-- Only new blocks are freed. -/
theorem owned_taken (hi : i ∈ τ.treeNodes maxDepth id) (hb : b ∈ τ.owns i) :
    b ∈ Taken σ σ₁ := by
  rcases (h.mem_tree_iff hAlive hDepth).mp hi with rfl | hBorn
  · obtain ⟨hne, k, hk, rfl⟩ := (mem_owns τ).mp hb
    rw [h.store, slot_putInode_self] at hne ⊢
    by_cases hNeeds : Needs str.length k
    · exact (h.placed.fresh k hNeeds).1
    · rw [h.placed.rest k hk hNeeds, h.fresh] at hne
      exact (hne rfl).elim
  · have hne : i ≠ id := fun he => hBorn.2 (he ▸ hAlive)
    have hOwns : τ.owns i = σ₁.owns i := owns_congr (by rw [h.store, putInode_inode, if_neg hne])
    rw [hOwns] at hb
    exact h.placed.progress.grows.sound.forest.owns_mem i hBorn b hb

theorem bit_of_old (hb : σ.bit b = true) : ρ.bit b = true := by
  have hStill : τ.bit b = true := by
    rw [h.store, putInode_bit]
    exact h.placed.progress.grows.bit b hb
  by_contra hGone
  obtain ⟨i, hi, hFreed⟩ := (h.removes.freed b hStill).mp (by simpa using hGone)
  have hTaken := h.owned_taken hAlive hDepth hi (mem_freedBlocks hFreed).1
  simp [hTaken.2.2] at hb

theorem bit_of_small (hSmall : str.length ≤ 51200) (hData : IsData b) (hb : σ.bit b = false) :
    ρ.bit b = false := by
  by_contra hMarked
  have hStill : τ.bit b = true := h.removes.bit b (by simpa using hMarked)
  have hTaken : b ∈ Taken σ σ₁ := ⟨hData, by rwa [h.store] at hStill, hb⟩
  have hTree := (h.placed.mem_taken_iff hAlive hDepth b).mp hTaken
  rw [← h.store] at hTree
  obtain ⟨i, hi, hBlock⟩ := List.mem_flatMap.mp hTree
  have hSize : τ.size id = min (blocksFor str.length) 101 := by
    rw [h.store]
    exact h.placed.size_eq
  have hFit : τ.size id ≤ 100 := by
    rw [hSize, blocksFor_eq]
    omega
  -- The tree is one inode, and all its used slots come before the first zero.
  have hRoot : i = id := by
    have hKids : τ.covered.kids id = [] := kids_of_size_le hFit
    rw [treeNodes, maxDepth_eq, Shape.nodes, hKids] at hi
    simpa using hi
  subst hRoot
  obtain ⟨k, hk, rfl⟩ := mem_blocks.mp hBlock
  have hLt : k < τ.size i := by
    rcases hk with hk | hk <;> omega
  have hFreed : τ.slot i k ∈ τ.freedBlocks i := by
    refine slot_mem_freedBlocks (by omega) fun j hj => ?_
    exact h.sound.slot_ne i (h.root_alive hAlive) j (Or.inl (by omega))
  have hGone := (h.removes.freed _ hStill).mpr ⟨i, hi, hFreed⟩
  exact hMarked hGone

end Removed

/-- A new file takes any string for which there is room, and can be removed. -/
theorem exists_removed {clock : Nat → UInt32} {s : Session} (hStack : maxDepth < stack)
    (hRun : Run stack clock (fun _ call => call.KeepsSize) s) (type : FileType)
    (hBlocks : blocksNeeded str.length ≤ s.machine.store.freeBlocks)
    (hInodes : inodesNeeded str.length < s.machine.store.freeInodes) :
    ∃ id m₁ m₂ m₃ σ₁ new inodes, create type s.machine = .ok id m₁ ∧
      put stack id str m₁ = .ok () m₂ ∧ remove stack id m₂ = .ok () m₃ ∧
      (¬s.machine.store.Alive id ∧
        ∃ now, m₁.store = s.machine.store.putInode id (freshInode type now)) ∧
      m₁.store.Alive id ∧ Removed m₁.store σ₁ m₂.store m₃.store id str new inodes := by
  have hIntact := (hRun.faithful hStack).intact
  have hDepth := levels_lt_maxDepth (length_lt_of_blocksNeeded hBlocks)
  obtain ⟨id, m₁, hCreate, hGrows, hRoot, hBlocks₁, hInodes₁, now, hStore₁⟩ :=
    exists_create s.machine type (by omega)
  have hIntact₁ := hIntact.handOut hGrows hRoot
  have hLive : id ∈ insert id s.live := Or.inl rfl
  have hAlive := hIntact₁.alive id hLive
  obtain ⟨m₂, σ₁, new, inodes, hPut, hPlaced, hStore₂⟩ := exists_put_placed hIntact₁ hStack hLive
    (hBlocks₁ ▸ hBlocks) (by omega)
  have hIntact₂ : m₂.store.Intact (insert id s.live) := by
    rw [hStore₂]
    exact hIntact₁.rewrites hLive
      (hPlaced.rewrites hAlive (SlotsMarked.of_sound hIntact₁.sound hAlive) hDepth)
  obtain ⟨_, m₃, hRemove, hRemoves⟩ := exists_ok_of_wp (wp_remove hIntact₂ hStack hLive)
  simp only [← treeNodes_eq] at hRemoves
  exact ⟨id, m₁, m₂, m₃, σ₁, new, inodes, hCreate, hPut, hRemove, ⟨hRoot.1.2, now, hStore₁⟩, hAlive,
    fun k => by rw [hStore₁, slot_putInode_self, freshInode_slot], hPlaced, hStore₂,
    hIntact₂.sound, hRemoves⟩

/-- A string that needs an indirect block leaves that block behind. -/
theorem Removed.not_sameUse {σ₁ τ : Store} {new : Inode} {inodes : List Nat} {m₁ : Machine}
    {type : FileType} {now : UInt32} (h : Removed m₁.store σ₁ τ m₃.store id str new inodes)
    (hAlive : m₁.store.Alive id) (hStore : m₁.store = m.store.putInode id (freshInode type now))
    (hLarge : 51200 < str.length) : ¬SameUse m m₃ := by
  intro hSame
  obtain ⟨b, hData, hFree, hMarked⟩ := h.bit_of_large hAlive hLarge
  rw [hStore, putInode_bit] at hFree
  have hEq := hSame.1 b hData
  rw [isFree_eq hData.2, isFree_eq hData.2, hMarked, hFree] at hEq
  cases hEq

/-- After a new file was written and removed, the disk is used as before exactly
when no indirect block was needed. -/
theorem create_put_remove_iff {clock : Nat → UInt32} {s : Session} (hStack : maxDepth < stack)
    (hRun : Run stack clock (fun _ call => call.KeepsSize) s) (type : FileType)
    (hBlocks : blocksNeeded str.length ≤ s.machine.store.freeBlocks)
    (hInodes : inodesNeeded str.length < s.machine.store.freeInodes) :
    ∃ id m₁ m₂ m₃, create type s.machine = .ok id m₁ ∧ put stack id str m₁ = .ok () m₂ ∧
      remove stack id m₂ = .ok () m₃ ∧ (SameUse s.machine m₃ ↔ str.length ≤ 51200) := by
  have hDepth := levels_lt_maxDepth (length_lt_of_blocksNeeded hBlocks)
  obtain ⟨id, m₁, m₂, m₃, σ₁, new, inodes, hCreate, hPut, hRemove, ⟨hDead, now, hStore⟩, hAlive, h⟩ :=
    exists_removed hStack hRun type hBlocks hInodes
  refine ⟨id, m₁, m₂, m₃, hCreate, hPut, hRemove, fun hSame => ?_, fun hSmall => ⟨fun b hb => ?_,
    fun i => ?_⟩⟩
  · by_contra hLarge
    exact h.not_sameUse hAlive hStore (Nat.lt_of_not_le hLarge) hSame
  · have hEq : m₃.store.bit b = m₁.store.bit b := by
      cases hOld : m₁.store.bit b with
      | true => exact h.bit_of_old hAlive hDepth hOld
      | false => exact h.bit_of_small hAlive hDepth hSmall hb hOld
    rw [isFree_eq hb.2, isFree_eq hb.2, hEq, hStore, putInode_bit]
  · rw [h.alive_iff hAlive hDepth]
    by_cases hi : i = id
    · simp only [hi, ne_eq, not_true_eq_false, and_false, false_iff]
      exact hDead
    · rw [and_iff_left hi, Alive, hStore, putInode_inode, if_neg hi, Alive]

/-- 51200 letters leave nothing behind, on a disk with another file of 170000 letters. -/
theorem create_put_remove_letters : ∃ (s : Session) (other id : Nat) (m₁ m₂ m₃ : Machine),
    ExtentServer.get s.machine (maxDepth + 1) other = .ok (List.replicate 170000 97) ∧
    create .T_FILE s.machine = .ok id m₁ ∧ put (maxDepth + 1) id (List.replicate 51200 98) m₁ = .ok () m₂ ∧
    remove (maxDepth + 1) id m₂ = .ok () m₃ ∧ SameUse s.machine m₃ := by
  have hNeeds : blocksNeeded 170000 = 334 ∧ inodesNeeded 170000 = 3 ∧ blocksNeeded 51200 = 100 ∧
      inodesNeeded 51200 = 0 := by decide
  obtain ⟨s, other, -, hRun, -, -, -, hGet, hFree, hFree'⟩ := exists_letters
    (show 170000 < 2 ^ 31 by decide) (by omega) (by omega)
  have hLength : (List.replicate 51200 (98 : Byte)).length = 51200 := List.length_replicate
  generalize List.replicate 51200 (98 : Byte) = str at hLength ⊢
  obtain ⟨id, m₁, m₂, m₃, hCreate, hPut, hRemove, hIff⟩ := create_put_remove_iff
    (Nat.lt_succ_self maxDepth) hRun .T_FILE (by rw [hLength]; omega) (by rw [hLength]; omega)
  exact ⟨s, other, id, m₁, m₂, m₃, hGet, hCreate, hPut, hRemove, hIff.mpr hLength.le⟩

/-- One byte more than the direct blocks hold. -/
theorem create_put_remove_leaks : ∃ (s : Session) (id : Nat) (m₁ m₂ m₃ : Machine),
    Run (maxDepth + 1) (fun _ => 0) (fun _ call => call.KeepsSize) s ∧
    create .T_FILE s.machine = .ok id m₁ ∧
    put (maxDepth + 1) id (List.replicate 51201 1) m₁ = .ok () m₂ ∧
    remove (maxDepth + 1) id m₂ = .ok () m₃ ∧ ¬SameUse s.machine m₃ := by
  obtain ⟨s, -, hRun, -, hBlocks, hInodes, -⟩ := exists_new_file
  have hLength : (List.replicate 51201 (1 : Byte)).length = 51201 := List.length_replicate
  obtain ⟨id, m₁, m₂, m₃, σ₁, new, inodes, hCreate, hPut, hRemove, ⟨-, now, hStore⟩, hAlive, h⟩ :=
    exists_removed (Nat.lt_succ_self maxDepth) hRun .T_FILE
      (show blocksNeeded (List.replicate 51201 (1 : Byte)).length ≤ _ by
        rw [hLength, hBlocks]
        decide)
      (by
        rw [hLength, hInodes]
        decide)
  exact ⟨s, id, m₁, m₂, m₃, hRun, hCreate, hPut, hRemove,
    h.not_sameUse hAlive hStore (by rw [hLength]; decide)⟩

end Removal

end ExtentServer
end InodeFS
