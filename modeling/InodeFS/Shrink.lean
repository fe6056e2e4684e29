import InodeFS.Truncate
import InodeFS.Volume

/-! Whether `truncate_file` shrinks a file that was just written. It does so when the
cut leaves every child some bytes and the last block has zeros behind the cut. -/
namespace InodeFS

open Bytes Exec Ownership Store Transition

namespace Store

variable {σ σ₁ : Store} {A : Set Nat} {i n r x : Nat} {s : List Byte} {new : Inode}
  {inodes : List Nat}

/-- The indirect blocks are not among the data blocks. -/
theorem Planted.indirect_kept (h : σ.Planted A) (hr : r ∈ A) (hx : x ∈ A) (hSize : 100 < σ.size x) :
    σ.slot x 100 ∉ σ.dataBlocks n r := by
  intro hb
  obtain ⟨y, hy, hb⟩ := List.mem_flatMap.mp hb
  have hOwn : σ.slot x 100 ∈ σ.blocks x := mem_blocks.mpr ⟨100, Or.inr ⟨rfl, hSize⟩, rfl⟩
  have he := h.forest.owns_unique x hx y (h.forest.nodes_mem hr hy) _ hOwn
    (mem_directBlocks_blocks hb)
  exact h.indirect_notMem hx hSize (he ▸ hb)

theorem dataBlocks_sublist (σ : Store) (n r : Nat) :
    List.Sublist (σ.dataBlocks n r) (σ.treeBlocks n r) :=
  List.Sublist.flatMap_right _ fun _ _ => List.sublist_append_left _ _

theorem Planted.dataBlocks_nodup (h : σ.Planted A) (hr : r ∈ A) : (σ.dataBlocks n r).Nodup :=
  (h.forest.owned_nodup hr n).sublist (σ.dataBlocks_sublist n r)

theorem Planted.dataBlocks_marked (h : σ.Planted A) (hr : r ∈ A) {b : Nat}
    (hb : b ∈ σ.dataBlocks n r) : b ∈ σ.Marked :=
  h.forest.owned_mem hr ((σ.dataBlocks_sublist n r).subset hb)

/-- The data blocks hold the bytes. -/
theorem Holds.dataBlocks_bytes (h : σ.Holds n r s) :
    (σ.dataBlocks n r).flatMap (fun b => (σ.data b).bytes) =
      padTo (512 * blocksFor s.length) s := by
  rw [← h.direct_nodes, dataBlocks, List.flatMap_assoc]
  exact List.flatMap_congr fun i _ => bytes_directBlocks σ i

/-- The first blocks hold the first bytes. -/
theorem Holds.take_bytes {k : Nat} (h : σ.Holds n r s) (hk : k ≤ s.length) :
    ((σ.dataBlocks n r).take (blocksFor k)).flatMap (fun b => (σ.data b).bytes) =
      padTo (512 * blocksFor k) s := by
  have hSplit := h.dataBlocks_bytes
  have hBlocks : blocksFor k ≤ blocksFor s.length := by
    rw [blocksFor_eq, blocksFor_eq]
    omega
  rw [← List.take_append_drop (blocksFor k) (σ.dataBlocks n r), List.flatMap_append,
    show 512 * blocksFor s.length = 512 * blocksFor k + 512 * (blocksFor s.length - blocksFor k)
      by omega, padTo_add] at hSplit
  refine List.append_inj_left hSplit ?_
  rw [flatMap_bytes_length, padTo_length, List.length_take, h.dataBlocks_length,
    Nat.min_eq_left hBlocks]

theorem byteAt_padTo {k l : Nat} (hk : k < l) : byteAt (padTo l s) k = byteAt s k := by
  rw [byteAt, byteAt, padTo, List.getElem?_take_of_lt hk]
  by_cases hIn : k < s.length
  · rw [List.getElem?_append_left hIn]
  · rw [List.getElem?_append_right (by omega), List.getElem?_eq_none (l := s) (by omega),
      List.getElem?_replicate]
    split <;> rfl

end Store

/-- The tree that `write_file` leaves at `r`. -/
theorem Placed.planted {σ σ₁ : Store} {r : Nat} {s : List Byte} {new : Inode} {inodes : List Nat}
    (h : Placed σ σ₁ r s new inodes) (hAlive : σ.Alive r) (hInum : IsInum r)
    (hDepth : levels s.length ≤ maxDepth) :
    (σ₁.putInode r new).Planted ({r} ∪ Born σ σ₁) := by
  have hForest := h.covered hAlive hDepth
  refine ⟨{ hForest with owns_mem := fun i hi b hb => ?_ }, ?_, ?_⟩
  · have hTaken := hForest.owns_mem i hi b hb
    exact ⟨hTaken.1, hTaken.2.1⟩
  · rintro i (rfl | hi)
    · exact hInum
    · exact h.progress.grows.sound.inum i hi
  · rintro i (rfl | hi)
    · rw [Alive, putInode_inode, if_pos rfl, h.type]
      exact hAlive
    · have hSame := (sameOn_putInode hAlive new).inode i hi
      rw [Alive, hSame]
      exact hi.1

section Cuts

variable {m m' : Machine} {A : Set Nat} {r d n : Nat} {s : List Byte}

/-- The inode is in use, with its type, unless nothing is left. -/
theorem alive_cut_iff (hAlive : m.store.Alive r) (hCut : Cut m.store m'.store d r n) :
    (m'.store.Alive r ∧ (m'.store.inode r).type = (m.store.inode r).type) ↔ 0 < n := by
  constructor
  · rintro ⟨hStill, -⟩
    by_contra hZero
    rw [Alive, hCut.root.cleared (Nat.eq_zero_of_not_pos hZero)] at hStill
    exact hStill rfl
  · intro hPos
    rw [Alive, (hCut.root.kept hPos).1]
    exact ⟨hAlive, rfl⟩

variable (h : m.store.Planted A) (hr : r ∈ A) (hHolds : m.store.Holds d r s)
  (hCuts : Cuts m.store m'.store {x | x ∈ m.store.treeNodes d r}
    {b | b ∈ (m.store.dataBlocks d r).drop (blocksFor n)})
include h hr hCuts

theorem isFree_cut {b : Nat} (hb : b ∈ (m.store.dataBlocks d r).drop (blocksFor n)) :
    isFree m' b = .ok true := by
  have hMarked := h.dataBlocks_marked hr (List.mem_of_mem_drop hb)
  rw [isFree_eq hMarked.1.2, hCuts.gone b hb]
  rfl

/-- The child lists stay readable. -/
theorem visible_cut {x : Nat} (hx : x ∈ A) (hSize : 100 < m.store.size x) :
    Visible (m.store.slot x 100) ∧
      m'.store.data (m.store.slot x 100) = m.store.data (m.store.slot x 100) := by
  refine ⟨Or.inl (h.used hx (Or.inr ⟨rfl, hSize⟩)).1, (hCuts.keep _ fun hMem => ?_).2⟩
  exact h.indirect_kept hr hx hSize (List.mem_of_mem_drop hMem)

/-- The blocks in front of the cut are read as before. -/
theorem readBlock_cut : ((m.store.dataBlocks d r).take (blocksFor n)).mapM (readBlock m') =
    .ok (((m.store.dataBlocks d r).take (blocksFor n)).map m.store.data) := by
  refine mapM_ok fun b hb => ?_
  have hMarked := h.dataBlocks_marked hr (List.mem_of_mem_take hb)
  have hNodup : (m.store.dataBlocks d r).Nodup := h.dataBlocks_nodup hr
  have hApart := List.disjoint_take_drop hNodup (Nat.le_refl (blocksFor n))
  rw [readBlock_data (Or.inl hMarked.1), (hCuts.keep b (hApart hb)).2]

include hHolds

/-- The bytes from `n` on are zero when those of the last block are. -/
theorem zero_cut_iff (hLt : n < s.length) :
    (∃ bufs, ((m.store.dataBlocks d r).take (blocksFor n)).mapM (readBlock m') = .ok bufs ∧
      ∀ k, n ≤ k → byteAt (bufs.flatMap Block.bytes) k = 0) ↔
    ∀ k, n ≤ k → k < 512 * blocksFor n → byteAt s k = 0 := by
  have hBytes := hHolds.take_bytes hLt.le
  rw [readBlock_cut h hr hCuts]
  have hValue : ∀ k, n ≤ k → (byteAt (((m.store.dataBlocks d r).take (blocksFor n)).flatMap
      fun b => (m.store.data b).bytes) k = 0 ↔ k < 512 * blocksFor n → byteAt s k = 0) := by
    intro k hk
    rw [hBytes]
    by_cases hIn : k < 512 * blocksFor n
    · rw [byteAt_padTo hIn]
      exact ⟨fun hZero _ => hZero, fun hZero => hZero hIn⟩
    · have hNone : (padTo (512 * blocksFor n) s)[k]? = none :=
        List.getElem?_eq_none (by rw [padTo_length]; omega)
      rw [byteAt, hNone]
      exact iff_of_true rfl fun hLow => absurd hLow hIn
  constructor
  · rintro ⟨bufs, hRead, hZero⟩ k hk
    obtain rfl := Except.ok.inj hRead
    have hAt := hZero k hk
    rw [List.flatMap_map] at hAt
    exact (hValue k hk).mp hAt
  · intro hZero
    refine ⟨_, rfl, fun k hk => ?_⟩
    rw [List.flatMap_map]
    exact (hValue k hk).mpr (hZero k hk)

omit hHolds in
/-- Behind the direct blocks the list of children stays. -/
theorem kids_cut (hCut : Cut m.store m'.store d r n) (hMany : 100 < blocksFor n)
    (hLarge : 100 < m.store.size r) :
    100 < m'.store.size r ∧ m'.store.slot r = m.store.slot r ∧
      m'.store.kids r = m.store.kids r := by
  have hCeil := blocksFor_eq n
  obtain ⟨-, hSlots, hSize⟩ := hCut.root.kept (by omega)
  have hSlot : m'.store.slot r = m.store.slot r := hSlots
  have hNew : m'.store.size r = min (blocksFor n) 101 := hSize
  have hSome : 100 < m'.store.size r := by omega
  refine ⟨hSome, hSlot, ?_⟩
  rw [kids_of_size hSome, kids_of_size hLarge, hSlot, (visible_cut h hr hCuts hr hLarge).2]

/-- The children that are still listed are in use when the last one keeps some bytes. -/
theorem kids_cut_iff (hCut : Cut m.store m'.store d r n) (hPos : 0 < n) (hLt : n < s.length) :
    (∀ c ∈ m'.store.kids r, m'.store.Alive c) ↔
      blocksFor n ≤ 100 ∨ 51200 * childCount s.length < n := by
  have hOld := hHolds.size_eq
  have hBlocks := blocksFor_eq s.length
  have hCeil := blocksFor_eq n
  by_cases hFew : blocksFor n ≤ 100
  · have hNew : m'.store.size r = min (blocksFor n) 101 := (hCut.root.kept hPos).2.2
    have hNone : m'.store.kids r = [] := kids_of_size_le (by omega)
    rw [hNone]
    exact iff_of_true (fun c hc => absurd hc List.not_mem_nil) (Or.inl hFew)
  · have hSame := (kids_cut h hr hCuts hCut (by omega) (by omega)).2.2
    have hLength := hHolds.kids_length
    rw [hSame, or_iff_right hFew]
    constructor
    · intro hAll
      by_contra hShort
      have hSome : childCount s.length - 1 < (m.store.kids r).length := by
        have hMany := childCount_eq s.length
        rw [parts_eq] at hMany
        omega
      have hLast := List.getElem?_eq_getElem hSome
      have hCleared := (hCut.kid hHolds.shallow hLast).root.cleared (by omega)
      have hStill := hAll _ (List.getElem_mem hSome)
      rw [Alive, hCleared] at hStill
      exact hStill rfl
    · intro hMost c hc
      obtain ⟨j, hj⟩ := List.mem_iff_getElem?.mp hc
      have hIndex := (hHolds.kid hj).1
      rw [Alive, ((hCut.kid hHolds.shallow hj).root.kept (by omega)).1]
      exact h.alive c (h.forest.kids_mem r hr c hc)

end Cuts

/-- What a file of the blocks `ids` is after it was cut to `n` bytes. -/
structure Shortened (m m' : Machine) (stack r n : Nat) (ids : List Nat) : Prop where
  live : m'.store.Alive r ∧ (m'.store.inode r).type = (m.store.inode r).type
  first : readBlockid m' stack r = .ok (ids.take (blocksFor n))
  freed : ∀ b ∈ ids.drop (blocksFor n), isFree m' b = .ok true
  kids : ∀ c ∈ m'.store.kids r, m'.store.Alive c
  zero : ∃ bufs, (ids.take (blocksFor n)).mapM (readBlock m') = .ok bufs ∧
    ∀ k, n ≤ k → byteAt (bufs.flatMap Block.bytes) k = 0

/-- `truncate_file` shrinks the file at `r`. -/
def Shrinks (m : Machine) (stack r n : Nat) : Prop :=
  ∃ ids m', readBlockid m stack r = .ok ids ∧ truncateFile stack r n m = .ok () m' ∧
    Shortened m m' stack r n ids

/-- Something is left, the last block that is left has zeros behind the cut, and the
cut is among the direct blocks or leaves the last child some bytes. With two children
there is one that is full, and block 0 must not list anything. -/
structure CutsClean (m : Machine) (str : List Byte) (n : Nat) : Prop where
  some : 0 < n
  zero : ∀ k, n ≤ k → k < 512 * blocksFor n → byteAt str k = 0
  kids : blocksFor n ≤ 100 ∨ 51200 * childCount str.length < n
  bare : blocksFor n ≤ 100 ∨ childCount str.length ≤ 1 ∨
    untilZero (inumBuf (m.store.data 0)) = []

/-- What `read_blockid` returns comes from the inode and from its children. -/
theorem readBlockid_parts {m : Machine} {stack x : Nat} {ids : List Nat} (hInum : IsInum x)
    (hVisible : 100 < m.store.size x → Visible (m.store.slot x 100))
    (hRead : readBlockid m (stack + 1) x = .ok ids) :
    ∃ children, (m.store.kids x).mapM (readBlockid m stack) = .ok children ∧
      ids = m.store.directBlocks x ++ children.flatten := by
  have hKids : mapChildren m (m.store.inode x) (readBlockid m stack) =
      (m.store.kids x).mapM (readBlockid m stack) := by
    unfold mapChildren
    by_cases hSize : 100 < m.store.size x
    · have hBlock : readBlock m ((m.store.inode x).slot ndirect) = _ := readBlock_data (hVisible hSize)
      rw [if_pos (show (m.store.inode x).size.toNat > ndirect from hSize), hBlock,
        kids_of_size hSize]
      rfl
    · rw [if_neg (show ¬(m.store.inode x).size.toNat > ndirect from hSize),
        kids_of_size_le (by omega)]
      rfl
  rw [readBlockid, getInode_some hInum] at hRead
  simp only [bind, Except.bind, hKids] at hRead
  cases hChildren : (m.store.kids x).mapM (readBlockid m stack) with
  | error e =>
      rw [hChildren] at hRead
      cases hRead
  | ok children =>
      rw [hChildren] at hRead
      exact ⟨children, rfl, (Except.ok.inj hRead).symm⟩

section Tree

variable {m m' : Machine} {A K : Set Nat} {r d n stack : Nat} {s : List Byte}
  (h : m.store.Planted A) (hr : r ∈ A) (hHolds : m.store.Holds d r s)
  (hCuts : Cuts m.store m'.store {x | x ∈ m.store.treeNodes d r}
    {b | b ∈ (m.store.dataBlocks d r).drop (blocksFor n)})
  (hCut : Cut m.store m'.store d r n)
include h hr hHolds hCuts hCut

theorem shortened_iff (hLt : n < s.length) :
    Shortened m m' stack r n (m.store.dataBlocks d r) ↔
      0 < n ∧ (∀ k, n ≤ k → k < 512 * blocksFor n → byteAt s k = 0) ∧
      (blocksFor n ≤ 100 ∨ 51200 * childCount s.length < n) ∧
      readBlockid m' stack r = .ok ((m.store.dataBlocks d r).take (blocksFor n)) := by
  have hLive := alive_cut_iff (h.alive r hr) hCut
  have hZero := zero_cut_iff h hr hHolds hCuts hLt
  constructor
  · intro hShort
    have hPos := hLive.mp hShort.live
    exact ⟨hPos, hZero.mp hShort.zero,
      (kids_cut_iff h hr hHolds hCuts hCut hPos hLt).mp hShort.kids, hShort.first⟩
  · rintro ⟨hPos, hBytes, hKids, hFirst⟩
    exact ⟨hLive.mpr hPos, hFirst, fun b hb => isFree_cut h hr hCuts hb,
      (kids_cut_iff h hr hHolds hCuts hCut hPos hLt).mpr hKids, hZero.mpr hBytes⟩

theorem readBlockid_clean (hSub : K ⊆ A) (hKids : ∀ c ∈ m.store.kids r, c ∈ K)
    (hClosed : ∀ x ∈ K, ∀ c ∈ m.store.kids x, c ∈ K)
    (hBare : ∀ x ∈ K, m.store.size x ≤ 100 → m.store.slot x 100 = 0)
    (hList : blocksFor n ≤ 100 ∨ childCount s.length ≤ 1 ∨
      untilZero (inumBuf (m.store.data 0)) = [])
    (hLt : n < s.length) (hStack : d < stack) :
    readBlockid m' stack r = .ok ((m.store.dataBlocks d r).take (blocksFor n)) := by
  have hLists : SameLists m.store m'.store K := ⟨fun x hx => h.inum x (hSub hx), hClosed, hBare,
    fun x hx hSize => visible_cut h hr hCuts (hSub hx) hSize⟩
  refine readBlockid_cut hLists (h.inum r hr) hKids (visible_cut h hr hCuts hr) hHolds hCut
    (Or.inl hLt.le) ?_ hStack
  have hCeil := blocksFor_eq n
  rcases hList with hFew | hOne | hNone
  · exact Or.inl (by omega)
  · have hMany := childCount_eq s.length
    rw [parts_eq] at hMany
    split at hMany <;> exact Or.inl (by omega)
  · refine Or.inr ?_
    rw [(hCuts.keep 0 fun hMem => ?_).2]
    · exact hNone
    · have hData := isData_iff.mp (h.dataBlocks_marked hr (List.mem_of_mem_drop hMem)).1
      omega

end Tree

namespace ExtentServer

section Written

variable {m m₁ : Machine} {stack r n : Nat} {str : List Byte}

/-- The inode that `put` leaves. -/
theorem placed_of_put (hStack : maxDepth < stack) (hAlive : m.store.Alive r)
    (hLen : str.length < 2 ^ 31) (hPut : put stack r str m = .ok () m₁) :
    ∃ σ₁ new inodes, Placed m.store σ₁ r str new inodes ∧ m₁.store = σ₁.putInode r new := by
  obtain ⟨d, rfl⟩ : ∃ d, stack = d + 1 := ⟨stack - 1, by omega⟩
  have hWrite := wp_writeFile_step (wp_writeFile d) hAlive (Nat.le_refl str.length)
    (by
      have := levels_lt_maxDepth hLen
      omega) (levels_lt_maxDepth hLen)
  rw [List.take_length] at hWrite
  rw [put, maskId_of_isInum (isInum_of_alive hAlive), toInt_of_lt hLen] at hPut
  have hPost := wp_ok hWrite hPut
  exact hPost

/-- A file that was just written, as a tree of depth `d` with the children in `K`, and
what `truncate_file` makes of it. -/
structure Truncated (m m₁ m₂ : Machine) (stack d r n : Nat) (str : List Byte) (K : Set Nat) :
    Prop where
  depth : d < stack
  zero : m₁.store.data 0 = m.store.data 0
  new : ∀ b ∈ m₁.store.dataBlocks d r, m.store.bit b = false
  old : ∀ i, m.store.Alive i → i ≠ r → m₁.store.inode i = m.store.inode i ∧ i ∉ K
  planted : m₁.store.Planted ({r} ∪ K)
  kids : ∀ c ∈ m₁.store.kids r, c ∈ K
  closed : ∀ x ∈ K, ∀ c ∈ m₁.store.kids x, c ∈ K
  bare : ∀ x ∈ K, m₁.store.size x ≤ 100 → m₁.store.slot x 100 = 0
  holds : m₁.store.Holds d r str
  run : truncateFile stack r n m₁ = .ok () m₂
  cuts : Cuts m₁.store m₂.store {x | x ∈ m₁.store.treeNodes d r}
    {b | b ∈ (m₁.store.dataBlocks d r).drop (blocksFor n)}
  cut : Cut m₁.store m₂.store d r n

theorem exists_truncated (hStack : maxDepth < stack) (hAlive : m.store.Alive r)
    (hLen : str.length < 2 ^ 31) (hPut : put stack r str m = .ok () m₁) (hLt : n < str.length) :
    ∃ m₂ d K, Truncated m m₁ m₂ stack d r n str K := by
  have hDepth := levels_lt_maxDepth hLen
  obtain ⟨σ₁, new, inodes, hPlaced, hStore⟩ := placed_of_put hStack hAlive hLen hPut
  have hGrows := hPlaced.progress.grows
  have hSame : SameOn σ₁ m₁.store (Born m.store σ₁) := hStore ▸ sameOn_putInode hAlive new
  have hPlanted : m₁.store.Planted ({r} ∪ Born m.store σ₁) :=
    hStore ▸ hPlaced.planted hAlive (isInum_of_alive hAlive) hDepth
  have hForest := hPlaced.covered hAlive hDepth
  have hHolds := hPlaced.holds hAlive
  rw [← hStore] at hForest hHolds
  generalize levels str.length = d at hDepth hHolds
  obtain ⟨_, m₂, hRun, hCuts, hCut⟩ := exists_ok_of_wp (wp_truncateFile stack d
    (by omega) m₁ _ r n str hPlanted (Or.inl rfl) hHolds (by omega))
  refine ⟨m₂, d, Born m.store σ₁, by omega, ?_, fun b hb => ?_, fun i hi hne => ⟨?_, fun hMem => ?_⟩,
    hPlanted, fun c hc => ?_, fun x hx c hc => ?_, fun x hx hSize => ?_, hHolds, hRun, hCuts, hCut⟩
  · rw [hStore, putInode_data, hGrows.data_zero]
  · exact (hForest.owned_mem (Or.inl rfl) ((m₁.store.dataBlocks_sublist d r).subset hb)).2.2
  · rw [hStore, putInode_inode, if_neg hne, hGrows.inode_of_alive hi]
  · exact hMem.2 hi
  · rw [hStore, hPlaced.kids_eq] at hc
    exact (hPlaced.children.fresh c hc).1
  · rw [hSame.kids hx] at hc
    exact hGrows.sound.forest.kids_mem x hx c hc
  · rw [hSame.size hx] at hSize
    rw [hSame.slot hx]
    exact hPlaced.progress.bare x hx hSize

namespace Truncated

variable {m₂ : Machine} {d : Nat} {K : Set Nat} (h : Truncated m m₁ m₂ stack d r n str K)
include h

theorem shrinks_iff : Shrinks m₁ stack r n ↔
    Shortened m₁ m₂ stack r n (m₁.store.dataBlocks d r) := by
  have hRead : readBlockid m₁ stack r = .ok (m₁.store.dataBlocks d r) :=
    readBlockid_eq h.planted.readable (Or.inl rfl) h.holds.shallow h.depth
  constructor
  · rintro ⟨ids, m', hIds, hRun, hShort⟩
    obtain rfl := Except.ok.inj (hIds.symm.trans hRead)
    obtain ⟨-, rfl⟩ := EStateM.Result.ok.inj (hRun.symm.trans h.run)
    exact hShort
  · intro hShort
    exact ⟨_, m₂, hRead, h.run, hShort⟩

/-- The nodes outside the tree are as they were before `put`. -/
theorem inode_old {i : Nat} (hi : m.store.Alive i) (hne : i ≠ r) :
    m₂.store.inode i = m.store.inode i := by
  obtain ⟨hSame, hOut⟩ := h.old i hi hne
  rw [h.cuts.inode i fun hMem => ?_, hSame]
  exact (h.planted.forest.nodes_mem (Or.inl rfl) hMem).elim hne hOut

theorem data_zero : m₂.store.data 0 = m.store.data 0 := by
  rw [(h.cuts.keep 0 fun hMem => ?_).2, h.zero]
  have hData := isData_iff.mp (h.planted.dataBlocks_marked (Or.inl rfl) (List.mem_of_mem_drop hMem)).1
  omega

/-- The first of several children is full and has no list of its own. It takes that of
block 0 when the cut leaves more bytes than it has. -/
theorem list_full {c : Nat} (hc : (m₁.store.kids r)[0]? = some c)
    (hMany : 1 < childCount str.length) (hCut : 51200 * childCount str.length < n) :
    100 < m₂.store.size c ∧ m₂.store.slot c 100 = 0 ∧
      m₂.store.kids c = untilZero (inumBuf (m.store.data 0)) := by
  have hMem := h.kids c (List.mem_of_getElem? hc)
  have hPiece := piece_length str (show 0 < 127 by omega)
  have hFull := (h.holds.kid hc).2.size_eq
  have hBlocks := blocksFor_eq (piece str 0).length
  have hNode := (h.cut.kid h.holds.shallow hc).root
  rw [Nat.zero_add, Nat.mul_one] at hNode hPiece
  have hTwice : 51200 * 2 < n := lt_of_le_of_lt (Nat.mul_le_mul_left 51200 hMany) hCut
  obtain ⟨-, hSlots, hSize⟩ := hNode.kept (by omega)
  have hSlot : m₂.store.slot c = m₁.store.slot c := hSlots
  have hNew : m₂.store.size c = min (blocksFor (n - 51200)) 101 := hSize
  have hZero : m₂.store.slot c 100 = 0 := by
    rw [hSlot]
    exact h.bare c hMem (by omega)
  have hRest : 51200 < n - 51200 := Nat.lt_sub_of_add_lt hTwice
  have hOver : 100 < blocksFor (n - 51200) := by
    rw [blocksFor_eq]
    omega
  have hLarge : 100 < m₂.store.size c := hNew ▸ Nat.lt_min.mpr ⟨hOver, by decide⟩
  refine ⟨hLarge, hZero, ?_⟩
  rw [kids_of_size hLarge, hZero, h.data_zero]

/-- With two children the first one is full, and then it lists the children of block 0.
None of them may have a block. -/
theorem none_listed {N : ChfsClient.Entries} {C : List Nat} {ids : List Nat}
    (hOn : ChfsClient.EntriesOn m.store N C) (hOut : r ∉ C) (hStack : 2 < stack)
    (hMany : 1 < childCount str.length) (hCut : 51200 * childCount str.length < n)
    (hLt : n < str.length) (hRead : readBlockid m₂ stack r = .ok ids)
    (hIds : ∀ b ∈ ids, m.store.bit b = false) : C = [] := by
  obtain ⟨depth, rfl⟩ : ∃ depth, stack = depth + 3 := ⟨stack - 3, by omega⟩
  have hRoot : r ∈ ({r} : Set Nat) ∪ K := Or.inl rfl
  have hSize := h.holds.size_eq
  have hBlocks := blocksFor_eq str.length
  have hCeil := blocksFor_eq n
  obtain ⟨hLarge, hSlot, hKids⟩ := kids_cut h.planted hRoot h.cuts h.cut (by omega) (by omega)
  have hVisible := (visible_cut h.planted hRoot h.cuts hRoot (by omega)).1
  obtain ⟨children, hChildren, hAll⟩ := readBlockid_parts (h.planted.inum r hRoot)
    (fun _ => hSlot ▸ hVisible) hRead
  have hLength := h.holds.kids_length
  obtain ⟨c, hc⟩ : ∃ c, (m₁.store.kids r)[0]? = some c :=
    ⟨_, List.getElem?_eq_getElem (by omega)⟩
  have hMem := List.mem_of_getElem? hc
  obtain ⟨l, hl, hReadKid⟩ := exists_of_mapM hChildren (hKids.symm ▸ hMem)
  obtain ⟨hLargeKid, hSlotKid, hKidsKid⟩ := h.list_full hc hMany hCut
  obtain ⟨shared, hShared, hAllKid⟩ := readBlockid_parts (h.planted.inum c (Or.inr (h.kids c hMem)))
    (fun _ => Or.inr (by omega)) hReadKid
  by_contra hNone
  have hSome : 0 < C.length := List.length_pos_of_ne_nil hNone
  have hRow := hOn.childEntries.child 0 hSome
  have hSame := h.inode_old hRow.alive fun he => hOut (he ▸ List.getElem_mem hSome)
  have hNe : ∀ e ∈ C, e ≠ 0 := fun e he => by
    obtain ⟨k, hOther⟩ := hOn.childEntries.mem he
    have := isInum_iff.mp hOther.lists.inum
    omega
  rw [untilZero_table hOn.childEntries.table hNe] at hKidsKid
  have hSmall : m₂.store.size C[0] ≤ 100 := by
    have hFew := hRow.few
    have hRowSize : m.store.size C[0] = _ + 0 := hRow.size
    rw [Store.size, hSame]
    change m.store.size C[0] ≤ 100
    omega
  rw [hKidsKid] at hShared
  obtain ⟨own, hOwn, hReadOwn⟩ := exists_of_mapM hShared (List.getElem_mem hSome)
  rw [readBlockid_flat hRow.lists.inum hSmall, directBlocks_congr hSame] at hReadOwn
  obtain rfl := Except.ok.inj hReadOwn
  have hCount := hOn.childEntries.count
  have hBlock : 0 < (m.store.directBlocks C[0]).length := by
    rw [hRow.directBlocks_length, Paging.page_length]
    omega
  obtain ⟨b, hb⟩ := List.exists_mem_of_length_pos hBlock
  have hIn : b ∈ ids := by
    rw [hAll]
    refine List.mem_append_right _ (List.mem_flatten_of_mem hl ?_)
    rw [hAllKid]
    exact List.mem_append_right _ (List.mem_flatten_of_mem hOwn hb)
  exact Bool.false_ne_true ((hIds b hIn).symm.trans (hRow.mem_directBlocks hb).2)

end Truncated

/-- A cut that is clean shrinks the file that `put` wrote, on any disk. On a volume
that was only added to no other cut does. -/
theorem truncate_shrinks_iff (hStack : maxDepth < stack) (hAlive : m.store.Alive r)
    (hLen : str.length < 2 ^ 31) (hPut : put stack r str m = .ok () m₁) (hLt : n < str.length) :
    (CutsClean m str n → Shrinks m₁ stack r n) ∧
    ∀ clock v, Reached stack clock v → v.machine = m → r ∈ v.files → Shrinks m₁ stack r n →
      CutsClean m str n := by
  obtain ⟨m₂, d, K, h⟩ := exists_truncated hStack hAlive hLen hPut hLt
  rw [h.shrinks_iff, shortened_iff h.planted (Or.inl rfl) h.holds h.cuts h.cut hLt]
  constructor
  · intro hClean
    refine ⟨hClean.some, hClean.zero, hClean.kids, ?_⟩
    exact readBlockid_clean h.planted (Or.inl rfl) h.holds h.cuts h.cut
      (fun _ hx => Or.inr hx) h.kids h.closed h.bare (h.zero ▸ hClean.bare) hLt h.depth
  · rintro clock v hReached rfl hFile ⟨hPos, hZero, hKids, hRead⟩
    obtain ⟨N, C, hArranged⟩ := hReached.arranged hStack
    refine ⟨hPos, hZero, hKids, ?_⟩
    rcases hKids with hFew | hLast
    · exact Or.inl hFew
    rcases Nat.lt_or_ge 1 (childCount str.length) with hMany | hOne
    · have hNone : C = [] := h.none_listed hArranged.entriesOn (hArranged.apart r hFile).2
        (by rw [maxDepth_eq] at hStack; omega) hMany hLast hLt hRead
        fun b hb => h.new b (List.mem_of_mem_take hb)
      have hTable := untilZero_table hArranged.entriesOn.childEntries.table (by simp [hNone])
      exact Or.inr (Or.inr (hTable.trans hNone))
    · exact Or.inr (Or.inl hOne)

/-- A new file, alone with the root directory. -/
theorem exists_lone_file : ∃ v id, Reached (maxDepth + 1) (fun _ => 0) v ∧ id ∈ v.files ∧
    v.machine.store.Alive id ∧ v.machine.store.freeBlocks = 2095612 := by
  obtain ⟨m, hInit, hInodes, hBlocks⟩ := exists_start fun _ => 0
  obtain ⟨id, m', hCreate, -, hRoot, hSame, -⟩ := exists_create m .T_FILE (by omega)
  exact ⟨_, id, Reach.next (.start ⟨m, hInit, rfl⟩) (.createFile (by decide) hCreate), Or.inl rfl, hRoot.1.1,
    hSame.trans hBlocks⟩

/-- `put` succeeds while there is room. -/
theorem exists_put_short (hAlive : m.store.Alive r) (hFree : m.store.freeBlocks = 2095612)
    (hShort : str.length ≤ 51200) : ∃ m₁, put (maxDepth + 1) r str m = .ok () m₁ := by
  have hLen : str.length < 2 ^ 31 := by omega
  obtain ⟨m₁, _, _, hRun, -⟩ := layout (Nat.lt_succ_self maxDepth) hAlive hLen
    (by
      rw [hFree, blocksNeeded, blocksFor_eq, levels_eq]
      omega)
    (by
      rw [inodesNeeded_of_le hShort]
      exact Nat.zero_le _)
  refine ⟨m₁, ?_⟩
  rw [put, maskId_of_isInum (isInum_of_alive hAlive), toInt_of_lt hLen]
  exact hRun

/-- A block and a byte, cut behind the first byte, where the block has zeros. -/
theorem truncate_shrinks_first : ∃ v id m₁, Reached (maxDepth + 1) (fun _ => 0) v ∧
    put (maxDepth + 1) id (97 :: (List.replicate 511 0 ++ [98])) v.machine = .ok () m₁ ∧
    Shrinks m₁ (maxDepth + 1) id 1 := by
  obtain ⟨v, id, hReached, -, hAlive, hFree⟩ := exists_lone_file
  have hLength : (97 :: (List.replicate 511 (0 : Byte) ++ [98])).length = 513 := by
    rw [List.length_cons, List.length_append, List.length_replicate]
    rfl
  obtain ⟨m₁, hPut⟩ := exists_put_short hAlive hFree (hLength.trans_le (by omega))
  refine ⟨v, id, m₁, hReached, hPut, (truncate_shrinks_iff (Nat.lt_succ_self maxDepth) hAlive
    (by rw [hLength]; omega) hPut (by rw [hLength]; omega)).1 ⟨Nat.one_pos, fun k hk hEnd => ?_,
    Or.inl (by decide), Or.inl (by decide)⟩⟩
  have hIn : k < 512 := hEnd
  obtain ⟨j, rfl⟩ : ∃ j, k = j + 1 := ⟨k - 1, by omega⟩
  have hZeros : j < (List.replicate 511 (0 : Byte)).length := by
    rw [List.length_replicate]
    omega
  rw [byteAt, List.getElem?_cons_succ, List.getElem?_append_left hZeros, List.getElem?_replicate,
    if_pos (by omega)]
  rfl

/-- A file of two bytes. Cut to none it is freed itself, and cut to one it keeps both. -/
theorem truncate_two_fails : ∃ v id m₁, Reached (maxDepth + 1) (fun _ => 0) v ∧ id ∈ v.files ∧
    put (maxDepth + 1) id [97, 98] v.machine = .ok () m₁ ∧
    ¬Shrinks m₁ (maxDepth + 1) id 0 ∧ ¬Shrinks m₁ (maxDepth + 1) id 1 := by
  obtain ⟨v, id, hReached, hFile, hAlive, hFree⟩ := exists_lone_file
  obtain ⟨m₁, hPut⟩ := exists_put_short hAlive hFree (show [(97 : Byte), 98].length ≤ 51200 by decide)
  refine ⟨v, id, m₁, hReached, hFile, hPut, fun hShrinks => ?_, fun hShrinks => ?_⟩
  · obtain ⟨m₂, d, K, h⟩ := exists_truncated (Nat.lt_succ_self maxDepth) hAlive (by decide)
      hPut (show 0 < [(97 : Byte), 98].length by decide)
    rw [h.shrinks_iff, shortened_iff h.planted (Or.inl rfl) h.holds h.cuts h.cut (by decide)]
      at hShrinks
    exact absurd hShrinks.1 (Nat.lt_irrefl 0)
  · obtain ⟨m₂, d, K, h⟩ := exists_truncated (Nat.lt_succ_self maxDepth) hAlive (by decide)
      hPut (show 1 < [(97 : Byte), 98].length by decide)
    rw [h.shrinks_iff, shortened_iff h.planted (Or.inl rfl) h.holds h.cuts h.cut (by decide)]
      at hShrinks
    exact absurd (hShrinks.2.1 1 (Nat.le_refl 1) (by decide)) (by decide)

end Written

end ExtentServer

end InodeFS
