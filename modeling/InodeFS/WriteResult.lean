import InodeFS.Enumeration
import InodeFS.Isolation

/-! What `write_file` leaves behind, from any state of the disk: the layout of the
data, and what it does not touch, also when it throws. -/
namespace InodeFS

open Bytes Exec Ownership Store

/-- `read_blockid` lists the blocks of one inode and then those of its children. -/
theorem readBlockid_node {m : Machine} {i stack : Nat} {g : Nat → List Nat} (hInum : IsInum i)
    (hVisible : 100 < m.store.size i → Visible (m.store.slot i 100))
    (hKids : ∀ c ∈ m.store.kids i, readBlockid m stack c = .ok (g c)) :
    readBlockid m (stack + 1) i =
      .ok (m.store.directBlocks i ++ (m.store.kids i).flatMap g) := by
  rw [readBlockid, getInode_some hInum]
  simp only [bind, Except.bind, mapChildren_node hVisible hKids]
  rw [List.flatMap_def]
  rfl

/-- `read_blockid` lists the direct blocks of the nodes. -/
theorem readBlockid_eq {m : Machine} {P : Set Nat} (hR : m.store.Readable P) {n i : Nat}
    (hi : i ∈ P) (hShallow : m.store.shape.Shallow n i) {stack : Nat} (hStack : n < stack) :
    readBlockid m stack i = .ok ((m.store.treeNodes n i).flatMap m.store.directBlocks) := by
  induction stack generalizing n i with
  | zero => omega
  | succ stack ih =>
      have hKids : ∀ c ∈ m.store.kids i, readBlockid m stack c =
          .ok ((m.store.treeNodes (n - 1) c).flatMap m.store.directBlocks) := by
        intro c hc
        cases n with
        | zero =>
            have hNil : m.store.kids i = [] := hShallow
            simp [hNil] at hc
        | succ n => exact ih (hR.kid i hi c hc) (hShallow c hc) (by omega)
      rw [readBlockid_node (hR.inum i hi) (fun hSize => hR.visible i hi 100 (Or.inr ⟨rfl, hSize⟩)) hKids]
      cases n with
      | zero =>
          have hNil : m.store.kids i = [] := hShallow
          simp [treeNodes, Shape.nodes, hNil]
      | succ n =>
          have hTree : m.store.treeNodes (n + 1) i =
              i :: (m.store.kids i).flatMap (m.store.treeNodes n) := rfl
          rw [hTree, List.flatMap_cons, List.flatMap_assoc]
          rfl

namespace Placed

variable {σ σ₁ : Store} {r : Nat} {s : List Byte} {new : Inode} {inodes : List Nat}

/-- The nodes and the blocks of the new tree are all new, the root apart. -/
theorem covered (h : Placed σ σ₁ r s new inodes) (hAlive : σ.Alive r)
    (hDepth : levels s.length ≤ maxDepth) :
    IsForest (σ₁.putInode r new).covered maxDepth ({r} ∪ Born σ σ₁) (Taken σ σ₁) := by
  have hSame : SameOn σ₁ (σ₁.putInode r new) (Born σ σ₁) := sameOn_putInode hAlive new
  have hBorn : ∀ i ∈ Born σ σ₁, i ≠ r := fun i hi he => hi.2 (he ▸ hAlive)
  -- Start from a root that owns nothing.
  let bare : Shape Nat Nat :=
    { owns := fun i => if i = r then [] else σ₁.blocks i
      kids := fun i => if i = r then [] else σ₁.kids i }
  have hSound := h.progress.grows.sound.covered
  have hNew : IsForest bare maxDepth (Born σ σ₁) (Taken σ σ₁) :=
    hSound.congr (fun i hi => if_neg (hBorn i hi)) fun i hi => if_neg (hBorn i hi)
  have hRoot : IsForest bare maxDepth {r} ∅ := IsForest.singleton (if_pos rfl) (if_pos rfl) _ _
  have hStart := hRoot.union hNew (Set.disjoint_singleton_left.mpr fun hr => hBorn r hr rfl)
    (Set.empty_disjoint _)
  rw [Set.empty_union] at hStart
  have hOld : ∀ i ∈ {r} ∪ Born σ σ₁, i ≠ r → i ∈ Born σ σ₁ := fun i hi hne => hi.resolve_left hne
  have hNeeds : ∀ b ∈ (σ₁.putInode r new).blocks r, ∃ k, Needs s.length k ∧ new.slot k = b := by
    intro b hb
    obtain ⟨k, hk, rfl⟩ := mem_blocks.mp hb
    exact ⟨k, h.needs_of_used hk, slot_putInode_self.symm⟩
  refine hStart.replace (n := maxDepth - 1) (Or.inl rfl) ?_ ?_ ?_ ?_ ?_ ?_ ?_ ?_ ?_
  · rintro i hi hMem
    by_cases he : i = r
    · simp [bare, he] at hMem
    · simp only [bare, if_neg he] at hMem
      exact hBorn r (hSound.kids_mem i (hOld i hi he) r hMem) rfl
  · intro i hi hne
    have hBlocks : (σ₁.putInode r new).blocks i = σ₁.blocks i := by
      rw [blocks, directBlocks, hSame.size (hOld i hi hne), funext (hSame.slot (hOld i hi hne)),
        blocks, directBlocks]
    exact hBlocks.trans (if_neg hne).symm
  · intro i hi hne
    exact (hSame.kids (hOld i hi hne)).trans (if_neg hne).symm
  · intro b hb
    obtain ⟨k, hk, rfl⟩ := hNeeds b hb
    refine ⟨(h.fresh k hk).1, Or.inr fun i hi hMem => ?_⟩
    by_cases he : i = r
    · simp [bare, he] at hMem
    · simp only [bare, if_neg he] at hMem
      obtain ⟨l, hl, hSlot⟩ := mem_blocks.mp hMem
      have hi' := hOld i hi he
      have hOwn := mem_owns_of_used (h.progress.grows.sound.slot_ne i hi' l hl) hl
      exact (h.fresh k hk).2 i hi' (hSlot ▸ hOwn)
  · refine blocks_nodup fun k l hk hl he => ?_
    rw [slot_putInode_self, slot_putInode_self] at he
    rcases Nat.lt_trichotomy k l with hlt | heq | hlt
    · exact (h.inj l k hlt (h.needs_of_used hl) he.symm).elim
    · exact heq
    · exact (h.inj k l hlt (h.needs_of_used hk) he).elim
  · intro c hc
    have hc' : c ∈ inodes := h.kids_eq ▸ hc
    have hFresh := h.children.fresh c hc'
    refine ⟨Or.inr hFresh.1, hBorn c hFresh.1, fun i hi hne hMem => ?_⟩
    simp only [bare, if_neg hne] at hMem
    exact hFresh.2 i (hOld i hi hne) hMem
  · have hNodup := h.children.nodup
    rw [← h.kids_eq] at hNodup
    exact hNodup
  · intro c hc
    have hc' : c ∈ inodes := h.kids_eq ▸ hc
    obtain ⟨p, hHolds⟩ := Holds.exists_of_forall₂ h.children.holds hc'
    have hKids : ∀ j ∈ Born σ σ₁, bare.kids j = σ₁.covered.kids j :=
      fun j hj => if_neg (hBorn j hj)
    have hShallow := shallow_covered (hHolds.shallow.mono (show _ ≤ maxDepth - 1 by omega))
    exact hShallow.congr hSound.kids_mem hKids (h.children.fresh c hc').1
  · rw [maxDepth_eq]

theorem readable (h : Placed σ σ₁ r s new inodes) (hAlive : σ.Alive r) (hInum : IsInum r)
    (hDepth : levels s.length ≤ maxDepth) :
    (σ₁.putInode r new).Readable ({r} ∪ Born σ σ₁) where
  inum := by
    rintro i (rfl | hi)
    · exact hInum
    · exact h.progress.grows.sound.inum i hi
  visible i hi k hk :=
    Or.inl ((h.covered hAlive hDepth).owns_mem i hi _ (mem_blocks.mpr ⟨k, hk, rfl⟩)).1
  kid := (h.covered hAlive hDepth).kids_mem

end Placed

section Layout

variable {m m' : Machine} {stack r : Nat} {str : List Byte}

theorem bytes_directBlocks (σ : Store) (i : Nat) :
    (σ.directBlocks i).flatMap (fun b => (σ.data b).bytes) = σ.direct i := by
  rw [directBlocks, List.flatMap_map, direct]

theorem flatMap_bytes_length (l : List Nat) (σ : Store) :
    (l.flatMap fun b => (σ.data b).bytes).length = 512 * l.length := by
  induction l with
  | nil => rfl
  | cons b rest ih =>
      rw [List.flatMap_cons, List.length_append, (σ.data b).bytes_length, ih, List.length_cons,
        blockSize_eq]
      omega

/-- Any inode in use takes a string for which there is room. `read_blockid` then
lists new blocks which hold the string in order. -/
theorem layout (hStack : maxDepth < stack) (hAlive : m.store.Alive r) (hLen : str.length < 2 ^ 31)
    (hBlocks : blocksNeeded str.length ≤ m.store.freeBlocks)
    (hInodes : inodesNeeded str.length ≤ m.store.freeInodes) :
    ∃ m' ids bufs, writeFile stack r str str.length m = .ok () m' ∧
      readBlockid m' stack r = .ok ids ∧ ids.length = (str.length + 511) / 512 ∧ ids.Nodup ∧
      (∀ b ∈ ids, IsData b ∧ isFree m b = .ok true) ∧
      ids.mapM (readBlock m') = .ok bufs ∧
      bufs.flatMap Block.bytes = padTo (512 * ((str.length + 511) / 512)) str ∧
      (m'.store.inode r).type = (m.store.inode r).type := by
  obtain ⟨d, rfl⟩ : ∃ d, stack = d + 1 := ⟨stack - 1, by omega⟩
  have hDepth := levels_lt_maxDepth hLen
  have hWrite := wp_writeFile_step (wp_writeFile d) hAlive (Nat.le_refl str.length)
    (by omega) hDepth
  rw [List.take_length] at hWrite
  obtain ⟨_, m', hRun, σ₁, new, inodes, hPlaced, hStore⟩ := exists_ok_of_wp
    (wp_mono hWrite (fun _ _ hPost => hPost) fun e m' hFail => by
      have := hFail.cause
      omega)
  have hHolds := hPlaced.holds hAlive
  have hForest := hPlaced.covered hAlive hDepth
  have hReadable := hPlaced.readable hAlive (isInum_of_alive hAlive) hDepth
  rw [← hStore] at hHolds hForest hReadable
  have hRoot : r ∈ ({r} : Set Nat) ∪ Born m.store σ₁ := Or.inl rfl
  -- The data blocks are a part of all blocks of the tree.
  have hSub : List.Sublist
      ((m'.store.treeNodes (levels str.length) r).flatMap m'.store.directBlocks)
      (m'.store.treeBlocks (levels str.length) r) :=
    List.Sublist.flatMap_right _ fun i _ => List.sublist_append_left _ _
  have hTaken : ∀ b ∈ (m'.store.treeNodes (levels str.length) r).flatMap m'.store.directBlocks,
      b ∈ Taken m.store σ₁ := fun b hb => hForest.owned_mem hRoot (hSub.subset hb)
  have hBytes := hHolds.direct_nodes
  rw [blocksFor_eq] at hBytes
  have hJoin : ((m'.store.treeNodes (levels str.length) r).flatMap m'.store.directBlocks).flatMap
      (fun b => (m'.store.data b).bytes) = padTo (512 * ((str.length + 511) / 512)) str := by
    rw [← hBytes, List.flatMap_assoc]
    exact List.flatMap_congr fun i _ => bytes_directBlocks m'.store i
  refine ⟨m', _, _, hRun, readBlockid_eq hReadable hRoot hHolds.shallow (by omega), ?_,
    (hForest.owned_nodup hRoot _).sublist hSub, fun b hb => ?_,
    mapM_ok fun b hb => readBlock_data (Or.inl (hTaken b hb).1), ?_, ?_⟩
  · have hLength := congrArg List.length hJoin
    rw [flatMap_bytes_length, padTo_length] at hLength
    omega
  · have hFree := hTaken b hb
    rw [isFree_eq hFree.1.2, hFree.2.2]
    exact ⟨hFree.1, rfl⟩
  · rw [List.flatMap_map]
    exact hJoin
  · rw [hStore, putInode_inode, if_pos rfl, hPlaced.type]

/-- More than 128 full children can take, written to the root of a fresh disk: the last block
is in a child of the last child. -/
theorem layout_deep : ∃ m m' ids, initInodeManager (Machine.zeroed fun _ => 0) = .ok () m ∧
    writeFile (maxDepth + 1) 1 (List.replicate 6604801 97) (6604801 : Nat) m = .ok () m' ∧
    readBlockid m' (maxDepth + 1) 1 = .ok ids ∧ ids.length = 12901 ∧ ids.Nodup ∧
    ∀ b ∈ ids, IsData b ∧ isFree m b = .ok true := by
  obtain ⟨m, hInit, hInodes, hBlocks⟩ := ExtentServer.exists_start fun _ => 0
  have hAlive := (ExtentServer.Session.start_intact hInit).1.alive 1 rfl
  have hBuf : (List.replicate 6604801 (97 : Byte)).length = 6604801 := List.length_replicate
  have hNeeded : blocksNeeded 6604801 ≤ 2095612 ∧ inodesNeeded 6604801 ≤ 1023 := by decide
  obtain ⟨m', ids, _, hRun, hIds, hLength, hNodup, hFresh, -⟩ := layout (Nat.lt_succ_self maxDepth) hAlive
    (show (List.replicate 6604801 (97 : Byte)).length < 2 ^ 31 by rw [hBuf]; decide)
    (by rw [hBuf, hBlocks]; exact hNeeded.1) (by rw [hBuf, hInodes]; exact hNeeded.2)
  rw [hBuf] at hRun hLength
  exact ⟨m, m', ids, hInit, hRun, hIds, hLength, hNodup, hFresh⟩

end Layout

section Frame

/-- The same data blocks are marked and the same inodes are in use. -/
def SameUse (m m' : Machine) : Prop :=
  (∀ b, IsData b → isFree m' b = isFree m b) ∧ ∀ i, m'.store.Alive i ↔ m.store.Alive i

variable {m m' : Machine} {stack r : Nat} {buf : List Byte} {size : Int} {σ₁ : Store}

/-- The disk outside inode `r`: marked data blocks keep their bit and their
contents, blocks 0 and 1 their contents, and the inodes in use stay as they are. -/
structure Untouched (m m' : Machine) (r : Nat) : Prop where
  bit : ∀ b, IsData b → isFree m b = .ok false → isFree m' b = .ok false
  data : ∀ b, IsData b → isFree m b = .ok false → readBlock m' b = readBlock m b
  low : ∀ b < 2, readBlock m' b = readBlock m b
  inode : ∀ i ino, i ≠ r → getInode m i = .ok (some ino) → ino.type ≠ 0 →
    getInode m' i = .ok (some ino)

theorem Untouched.refl (m : Machine) (r : Nat) : Untouched m m r :=
  ⟨fun _ _ h => h, fun _ _ _ => rfl, fun _ _ => rfl, fun _ _ _ h _ => h⟩

theorem Untouched.of_grows (hGrows : Grows m.store σ₁) (hBit : m'.store.bit = σ₁.bit)
    (hData : m'.store.data = σ₁.data) (hInode : ∀ i, i ≠ r → m'.store.inode i = σ₁.inode i) :
    Untouched m m' r := by
  have hMarked : ∀ b, IsData b → isFree m b = .ok false → m.store.bit b = true := by
    intro b hb hFree
    rw [isFree_eq hb.2, Except.ok.injEq, Bool.not_eq_false'] at hFree
    exact hFree
  refine ⟨fun b hb hFree => ?_, fun b hb hFree => ?_, fun b hb => ?_, fun i ino hne hFound hType => ?_⟩
  · rw [isFree_eq hb.2, hBit, hGrows.bit b (hMarked b hb hFree)]
    rfl
  · rw [readBlock_data (Or.inl hb), readBlock_data (Or.inl hb), hData,
      hGrows.data_of_marked (hMarked b hb hFree)]
  · have hOutside : b ∉ Taken m.store σ₁ := fun hTaken => by
      have := isData_iff.mp hTaken.1
      omega
    rw [readBlock_data (Or.inr hb), readBlock_data (Or.inr hb), hData, hGrows.data b hOutside]
  · by_cases hi : IsInum i
    · rw [getInode_some hi] at hFound ⊢
      obtain rfl := Option.some.inj (Except.ok.inj hFound)
      rw [hInode i hne, hGrows.inode_of_alive hType]
    · rw [getInode_none hi] at hFound
      cases hFound

theorem Untouched.of_failed {n k l : Nat} {e : Stop} (hAlive : m.store.Alive r)
    (hFail : Failed m.store m'.store n k l e) :
    Untouched m m' r ∧ getInode m' r = getInode m r := by
  obtain ⟨p, q, hProgress⟩ := hFail.progress
  have hInum := isInum_of_alive hAlive
  refine ⟨of_grows hProgress.grows rfl rfl fun _ _ => rfl, ?_⟩
  rw [getInode_some hInum, getInode_some hInum, hProgress.grows.inode_of_alive hAlive]

/-- What `write_file` does to a disk in any state, also when it throws. -/
theorem write_frame (hStack : maxDepth < stack) (hAlive : m.store.Alive r)
    (hLen : size.toNat ≤ buf.length) (hInt : size < 2 ^ 31) :
    wp (writeFile stack r buf size) (fun _ m' => Untouched m m' r)
      (fun _ m' => Untouched m m' r ∧ getInode m' r = getInode m r) m := by
  obtain ⟨d, rfl⟩ : ∃ d, stack = d + 1 := ⟨stack - 1, by omega⟩
  by_cases hNeg : size < 0
  · rw [writeFile, if_pos hNeg]
    exact Untouched.refl m r
  obtain ⟨n, rfl⟩ := Int.eq_ofNat_of_zero_le (Int.not_lt.mp hNeg)
  rw [Int.toNat_natCast] at hLen
  have hDepth : levels n ≤ maxDepth := levels_lt_maxDepth (by omega)
  apply wp_mono (wp_writeFile_step (wp_writeFile d) hAlive hLen (by omega) hDepth)
  · rintro _ m' ⟨σ₁, new, inodes, hPlaced, hStore⟩
    refine Untouched.of_grows hPlaced.progress.grows ?_ ?_ fun i hi => ?_
    · rw [hStore, putInode_bit]
    · rw [hStore, putInode_data]
    · rw [hStore, putInode_inode, if_neg hi]
  · exact fun _ _ hFail => Untouched.of_failed hAlive hFail

end Frame
end InodeFS
