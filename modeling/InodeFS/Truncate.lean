import InodeFS.Traversal

/-! `truncate_file` on a tree as `write_file` builds it. Every node is asked for the
bytes that lie behind the data before it. A node that is asked for none is cleared,
and the others keep their slots and get a size field for the bytes asked for. -/
namespace InodeFS

open Bytes Exec Ownership Paging

namespace Store

variable {σ σ' σ₁ σ₂ : Store} {A T T' D D' : Set Nat} {i b c r n t : Nat} {s : List Byte}

/-- The inodes of `T` may have changed and the blocks of `D` were freed. -/
structure Cuts (σ σ' : Store) (T D : Set Nat) : Prop where
  inode : ∀ i, i ∉ T → σ'.inode i = σ.inode i
  keep : ∀ b, b ∉ D → σ'.bit b = σ.bit b ∧ σ'.data b = σ.data b
  gone : ∀ b ∈ D, σ'.bit b = false

namespace Cuts

theorem refl (σ : Store) : Cuts σ σ ∅ ∅ :=
  ⟨fun _ _ => rfl, fun _ _ => ⟨rfl, rfl⟩, fun _ hb => hb.elim⟩

theorem trans (h : Cuts σ σ₁ T D) (h' : Cuts σ₁ σ₂ T' D') : Cuts σ σ₂ (T ∪ T') (D ∪ D') where
  inode i hi := by rw [h'.inode i fun hT => hi (Or.inr hT), h.inode i fun hT => hi (Or.inl hT)]
  keep b hb := by
    have hFirst := h.keep b fun hD => hb (Or.inl hD)
    have hSecond := h'.keep b fun hD => hb (Or.inr hD)
    exact ⟨hSecond.1.trans hFirst.1, hSecond.2.trans hFirst.2⟩
  gone b hb := by
    by_cases hD : b ∈ D'
    · exact h'.gone b hD
    · rw [(h'.keep b hD).1]
      exact h.gone b (hb.resolve_right hD)

theorem putInode (r : Nat) (new : Inode) : Cuts σ (σ.putInode r new) {r} ∅ where
  inode i hi := by rw [putInode_inode, if_neg (show ¬i = r from hi)]
  keep _ _ := ⟨rfl, rfl⟩
  gone _ hb := hb.elim

theorem congr (h : Cuts σ σ' T D) (hT : T ⊆ T') (hD : ∀ b, b ∈ D' ↔ b ∈ D) : Cuts σ σ' T' D' where
  inode i hi := h.inode i fun hMem => hi (hT hMem)
  keep b hb := h.keep b fun hMem => hb ((hD b).mpr hMem)
  gone b hb := h.gone b ((hD b).mp hb)

/-- A block is filled with zeros and freed. -/
theorem free (σ : Store) (b : Nat) (buf buf' : Block) :
    Cuts σ (((σ.write b buf).unmark b).write b buf') ∅ {b} where
  inode _ _ := rfl
  keep c hc := by
    have hne : ¬c = b := hc
    rw [write_bit, unmark_bit, if_neg hne, write_data, if_neg hne, unmark_data, write_data,
      if_neg hne]
    exact ⟨rfl, rfl⟩
  gone c hc := by
    rw [write_bit, unmark_bit, if_pos (show c = b from hc)]

/-- Nodes that were not touched use the same blocks as before. -/
theorem sameOn (h : Cuts σ σ' T D) (hNot : ∀ i ∈ A, i ∉ T)
    (hBlocks : ∀ i ∈ A, ∀ b ∈ σ.blocks i, b ∉ D) : SameOn σ σ' A where
  inode i hi := h.inode i (hNot i hi)
  data i hi k hk := (h.keep _ (hBlocks i hi _ (mem_blocks.mpr ⟨k, hk, rfl⟩))).2

end Cuts

theorem mem_drop_directBlocks {f : Nat} : b ∈ (σ.directBlocks i).drop f ↔
    ∃ k, f ≤ k ∧ k < min (σ.size i) 100 ∧ σ.slot i k = b := by
  rw [directBlocks, ← List.map_drop, List.mem_map]
  simp only [List.mem_drop_iff_getElem, List.getElem_range, List.length_range]
  constructor
  · rintro ⟨_, ⟨k, hk, rfl⟩, rfl⟩
    exact ⟨f + k, Nat.le_add_right f k, by omega, rfl⟩
  · rintro ⟨k, hf, hk, rfl⟩
    exact ⟨k, ⟨k - f, by omega, by omega⟩, rfl⟩

/-- With at most one child in use, no child is asked for more than its bytes. -/
theorem fit_kid_low {j : Nat} (ht : t ≤ s.length) (hLow : t ≤ 102400) :
    t - 51200 * (j + 1) ≤ (piece s j).length ∧ t - 51200 * (j + 1) ≤ 102400 := by
  by_cases hLast : j < 127
  · have hLength := piece_length s hLast
    omega
  · omega

/-- A child is not asked for more than its bytes when the inode is not, unless the child
is full and has no children itself. -/
theorem Holds.fit_kid {j : Nat} (h : σ.Holds n r s) (ht : t ≤ s.length)
    (hc : (σ.kids r)[j]? = some c) (hBare : σ.size c ≤ 100 → σ.slot c 100 = 0) :
    t - 51200 * (j + 1) ≤ (piece s j).length ∨
      (piece s j).length = 51200 ∧ σ.slot c 100 = 0 := by
  obtain ⟨hj, hChild⟩ := h.kid hc
  have hMost := childCount_le s.length
  have hSize := hChild.size_eq
  have hBlocks := blocksFor_eq (piece s j).length
  by_cases hLast : j < 127
  · have hLength := piece_length s hLast
    rcases Nat.lt_or_ge (s.length - 51200 * (j + 1)) 51200 with hEnd | hFull
    · exact Or.inl (by omega)
    · exact Or.inr ⟨by omega, hBare (by omega)⟩
  · obtain rfl : j = 127 := by omega
    rw [piece_last_length]
    exact Or.inl (by omega)

/-- The data blocks that are cut off are the last ones of the inode and of each of
its children. -/
theorem Holds.mem_drop_dataBlocks (h : σ.Holds n r s) :
    b ∈ (σ.dataBlocks n r).drop (blocksFor t) ↔
      b ∈ (σ.directBlocks r).drop (blocksFor t) ∨
      ∃ j c, (σ.kids r)[j]? = some c ∧
        b ∈ (σ.dataBlocks (n - 1) c).drop (blocksFor (t - 51200 * (j + 1))) := by
  have hBlocks : ∀ j, blocksFor (t - 51200 * (j + 1)) = blocksFor t - 100 - 100 * j := fun j => by
    rw [blocksFor_eq, blocksFor_eq]
    omega
  simp only [hBlocks]
  rw [dataBlocks_eq h.shallow]
  by_cases hNone : σ.kids r = []
  · rw [hNone]
    simp
  · have hLarge : 100 < σ.size r := by
      by_contra hSmall
      exact hNone (kids_of_size_le (by omega))
    have hLength := σ.directBlocks_length r
    rw [List.drop_append, List.mem_append, hLength, Nat.min_eq_right hLarge.le]
    exact or_congr_right h.packed.mem_drop_flatMap

/-- Trees of inodes in use, whose blocks are marked. -/
structure Planted (σ : Store) (A : Set Nat) : Prop where
  forest : IsForest σ.covered maxDepth A σ.Marked
  inum : ∀ i ∈ A, IsInum i
  alive : ∀ i ∈ A, σ.Alive i

namespace Planted

theorem used (h : σ.Planted A) (hi : i ∈ A) {k : Nat} (hk : σ.Used i k) :
    σ.slot i k ∈ σ.Marked :=
  h.forest.owns_mem i hi _ (mem_blocks.mpr ⟨k, hk, rfl⟩)

theorem slot_inj (h : σ.Planted A) (hi : i ∈ A) {k l : Nat} (hk : k < min (σ.size i) 100)
    (hl : l < min (σ.size i) 100) (he : σ.slot i k = σ.slot i l) : k = l := by
  have hNodup := (List.nodup_append.mp (h.forest.owns_nodup i hi)).1
  change (σ.directBlocks i).Nodup at hNodup
  rw [directBlocks, List.nodup_map_iff_inj_on List.nodup_range] at hNodup
  exact hNodup k (List.mem_range.mpr hk) l (List.mem_range.mpr hl) he

/-- The indirect block holds no data. -/
theorem indirect_notMem (h : σ.Planted A) (hi : i ∈ A) (hSize : 100 < σ.size i) :
    σ.slot i 100 ∉ σ.directBlocks i := by
  have hNodup := h.forest.owns_nodup i hi
  change (σ.directBlocks i ++ if 100 < σ.size i then [σ.slot i 100] else []).Nodup at hNodup
  rw [if_pos hSize] at hNodup
  exact fun hMem => (List.nodup_append.mp hNodup).2.2 _ hMem _ List.mem_cons_self rfl

theorem readable (h : σ.Planted A) : σ.Readable A where
  inum := h.inum
  visible _ hi _ hk := Or.inl (h.used hi hk).1
  kid := h.forest.kids_mem

/-- The tree at one node. -/
theorem tree (h : σ.Planted A) (hr : r ∈ A) (hShallow : σ.shape.Shallow n r) :
    σ.Planted {x | x ∈ σ.treeNodes n r} := by
  have hSub : ∀ x ∈ σ.treeNodes n r, x ∈ A := fun x hx => h.forest.nodes_mem hr hx
  refine ⟨h.forest.subset hSub fun i hi c hc => ?_, fun i hi => h.inum i (hSub i hi),
    fun i hi => h.alive i (hSub i hi)⟩
  exact Shape.kid_mem_nodes (shallow_covered hShallow) hi hc

theorem congr (h : σ.Planted A) (hSame : SameOn σ σ' A)
    (hBit : ∀ i ∈ A, ∀ b ∈ σ.blocks i, σ'.bit b = σ.bit b) : σ'.Planted A := by
  have hBlocks : ∀ i ∈ A, σ'.blocks i = σ.blocks i := fun i hi => by
    rw [blocks, directBlocks, hSame.size hi, funext (hSame.slot hi), blocks, directBlocks]
  refine ⟨?_, h.inum, fun i hi => ?_⟩
  · have hForest : IsForest σ'.covered maxDepth A σ.Marked :=
      h.forest.congr hBlocks fun i hi => hSame.kids hi
    exact { hForest with
      owns_mem := fun i hi b hb => by
        have hMem : b ∈ σ.blocks i := hBlocks i hi ▸ hb
        have hMarked := h.forest.owns_mem i hi b hMem
        exact ⟨hMarked.1, (hBit i hi b hMem).trans hMarked.2⟩ }
  · rw [Alive, hSame.inode i hi]
    exact h.alive i hi

end Planted

/-- What becomes of an inode that is asked for `t` bytes. -/
structure NodeCut (old new : Inode) (t : Nat) : Prop where
  cleared : t = 0 → new = Inode.cleared
  kept : 0 < t →
    new.type = old.type ∧ new.slot = old.slot ∧ new.size.toNat = min (blocksFor t) 101

/-- What becomes of a tree: the child at index `j` is asked for the bytes behind the
first `51200 * (j + 1)`. -/
def Cut (σ σ' : Store) : Nat → Nat → Nat → Prop
  | 0, r, t => NodeCut (σ.inode r) (σ'.inode r) t
  | n + 1, r, t => NodeCut (σ.inode r) (σ'.inode r) t ∧
      ∀ j c, (σ.kids r)[j]? = some c → Cut σ σ' n c (t - 51200 * (j + 1))

namespace Cut

theorem root (h : Cut σ σ' n r t) : NodeCut (σ.inode r) (σ'.inode r) t := by
  cases n with
  | zero => exact h
  | succ n => exact h.1

theorem kid {j : Nat} (h : Cut σ σ' n r t) (hShallow : σ.shape.Shallow n r)
    (hc : (σ.kids r)[j]? = some c) : Cut σ σ' (n - 1) c (t - 51200 * (j + 1)) := by
  cases n with
  | zero =>
      have hNil : σ.kids r = [] := hShallow
      rw [hNil] at hc
      cases hc
  | succ n => exact h.2 j c hc

/-- Only the nodes of the tree count. -/
theorem congr_new (h : Cut σ σ₁ n r t)
    (hSame : ∀ x ∈ σ.treeNodes n r, σ₂.inode x = σ₁.inode x) : Cut σ σ₂ n r t := by
  induction n generalizing r t with
  | zero =>
      rw [Cut, hSame r List.mem_cons_self]
      exact h
  | succ n ih =>
      rw [Cut, hSame r List.mem_cons_self]
      refine ⟨h.1, fun j c hc => ih (h.2 j c hc) fun x hx => hSame x ?_⟩
      exact List.mem_cons_of_mem _ (List.mem_flatMap.mpr ⟨c, List.mem_of_getElem? hc, hx⟩)

theorem congr_old (h : Cut σ₁ σ' n r t) (hSame : SameOn σ σ₁ A)
    (hClosed : ∀ i ∈ A, ∀ c ∈ σ.kids i, c ∈ A) (hr : r ∈ A) : Cut σ σ' n r t := by
  induction n generalizing r t with
  | zero =>
      rw [Cut, ← hSame.inode r hr]
      exact h
  | succ n ih =>
      rw [Cut, ← hSame.inode r hr]
      refine ⟨h.1, fun j c hc => ?_⟩
      exact ih (h.2 j c ((hSame.kids hr).symm ▸ hc)) (hClosed r hr c (List.mem_of_getElem? hc))

end Cut

end Store

open Store

section Loops

variable {m : Machine} {A : Set Nat} {r n t stack : Nat} {s : List Byte}

/-- The first loop of `truncate_file` frees the direct blocks from `f` on. -/
theorem wp_truncateDirect_loop (h : m.store.Planted A) (hr : r ∈ A) (f : Nat) :
    wp ((List.range (min (m.store.size r) 100)).forM (truncateDirect (m.store.inode r) f))
      (fun _ m' => Cuts m.store m'.store ∅ {b | b ∈ (m.store.directBlocks r).drop f})
      (fun _ _ => False) m := by
  have hLoop := wp_forM (f := truncateDirect (m.store.inode r) f) (s := m) (E := fun _ _ => False)
    (l := List.range (min (m.store.size r) 100)) (fun done (m' : Machine) =>
      Cuts m.store m'.store ∅ {b | ∃ k, f ≤ k ∧ k < done.length ∧ m.store.slot r k = b}) ?_ ?_
  · simpa only [List.length_range, ← mem_drop_directBlocks] using hLoop
  · refine (Cuts.refl m.store).congr (Set.Subset.refl ∅) fun b => ?_
    exact iff_of_false (fun ⟨_, _, hk, _⟩ => Nat.not_lt_zero _ hk) fun hb => hb
  · intro done i rest hRange m₁ hDone
    obtain ⟨rfl, hLt⟩ := index_of_range_eq hRange
    rw [List.length_append, List.length_singleton, truncateDirect]
    refine wp_ite (fun hGe => ?_) fun hLow => ?_
    · have hMarked := h.used hr (Or.inl hLt)
      have hNew : m.store.slot r done.length ∉
          {b | ∃ k, f ≤ k ∧ k < done.length ∧ m.store.slot r k = b} := by
        rintro ⟨k, -, hk, he⟩
        have := h.slot_inj hr (by omega) hLt he
        omega
      obtain ⟨m₂, hRun₂, hStore₂⟩ := writeBlock_data (m := m₁) (Or.inl hMarked.1) Block.zeros
      obtain ⟨m₃, hRun₃, hStore₃⟩ := freeBlock_marked (m := m₂) hMarked.1
        (by rw [hStore₂, write_bit, (hDone.keep _ hNew).1, hMarked.2])
      rw [wp_bind]
      refine wp_of_ok hRun₂ (wp_of_ok hRun₃ ?_)
      rw [hStore₃, hStore₂]
      refine (hDone.trans (Cuts.free _ _ _ _)).congr (Set.union_subset (Set.Subset.refl _)
        (Set.Subset.refl _)) fun b => ?_
      constructor
      · rintro ⟨k, hk, hLater, rfl⟩
        rcases Nat.lt_succ_iff_lt_or_eq.mp hLater with hk' | rfl
        · exact Or.inl ⟨k, hk, hk', rfl⟩
        · exact Or.inr rfl
      · rintro (⟨k, hk, hk', rfl⟩ | rfl)
        · exact ⟨k, hk, by omega, rfl⟩
        · exact ⟨done.length, hGe, Nat.lt_succ_self _, rfl⟩
    · rw [wp_pure]
      refine hDone.congr (Set.Subset.refl ∅) fun b => ?_
      constructor
      · rintro ⟨k, hk, hLater, rfl⟩
        exact ⟨k, hk, by omega, rfl⟩
      · rintro ⟨k, hk, hk', rfl⟩
        exact ⟨k, hk, by omega, rfl⟩

/-- The inodes of the trees that were cut so far. -/
def cutNodes (σ : Store) (n : Nat) (done : List (Nat × Nat)) : Set Nat :=
  {x | ∃ p ∈ done, x ∈ σ.treeNodes n p.1}

/-- The blocks that were freed so far, at the inode and at the children before the
next one. -/
def cutBlocks (σ : Store) (n r t : Nat) (done : List (Nat × Nat)) : Set Nat :=
  {b | b ∈ (σ.directBlocks r).drop (blocksFor t) ∨
    ∃ p ∈ done, b ∈ (σ.dataBlocks n p.1).drop (blocksFor (t - 51200 * (p.2 + 1)))}

/-- The loop over the children has cut those of `done`. -/
structure ChildrenCut (σ σ' : Store) (n r t : Nat) (done : List (Nat × Nat)) : Prop where
  cuts : Cuts σ σ' (cutNodes σ n done) (cutBlocks σ n r t done)
  trees : ∀ p ∈ done, Cut σ σ' n p.1 (t - 51200 * (p.2 + 1))

/-- What the recursive calls of `truncate_file` are assumed to do. -/
def TruncateSpec (truncate : Nat → Nat → Action Unit) (n : Nat) : Prop :=
  ∀ (m : Machine) (A : Set Nat) (r t : Nat) (s : List Byte), m.store.Planted A → r ∈ A →
    m.store.Holds n r s → t < 2 ^ 32 →
    wp (truncate r t)
      (fun _ m' => Cuts m.store m'.store {x | x ∈ m.store.treeNodes n r}
        {b | b ∈ (m.store.dataBlocks n r).drop (blocksFor t)} ∧ Cut m.store m'.store n r t)
      (fun _ _ => False) m

theorem zipIdx_split {l : List Nat} {done rest : List (Nat × Nat)} {c j : Nat}
    (h : l.zipIdx = done ++ (c, j) :: rest) (hNodup : l.Nodup) :
    l[j]? = some c ∧ (∀ p ∈ done, p.1 ∈ l ∧ p.1 ≠ c) := by
  have hAll : ∀ p ∈ done ++ (c, j) :: rest, l[p.2]? = some p.1 := fun p hp =>
    List.mem_zipIdx_iff_getElem?.mp (h ▸ hp)
  have hFst : l = done.map Prod.fst ++ c :: rest.map Prod.fst := by
    rw [← List.zipIdx_map_fst 0 l, h, List.map_append, List.map_cons]
  refine ⟨hAll (c, j) (List.mem_append_right _ List.mem_cons_self), fun p hp => ⟨?_, fun he => ?_⟩⟩
  · exact List.mem_of_getElem? (hAll p (List.mem_append_left _ hp))
  · rw [hFst] at hNodup
    exact (List.nodup_append.mp hNodup).2.2 p.1 (List.mem_map_of_mem hp) c List.mem_cons_self he

section Child

variable {σ : Store} {c j : Nat} {done rest : List (Nat × Nat)} (h : σ.Planted A) (hr : r ∈ A)
  (hKids : (σ.kids r).zipIdx = done ++ (c, j) :: rest) (hShallow : σ.shape.Shallow n c)
include h hr hKids

/-- The tree of the next child has no node and no block in common with what was cut. -/
theorem next_apart : (∀ i ∈ σ.treeNodes n c, i ∉ cutNodes σ n done) ∧
    ∀ i ∈ σ.treeNodes n c, ∀ b ∈ σ.blocks i, b ∉ cutBlocks σ n r t done := by
  obtain ⟨hc, hDone⟩ := zipIdx_split hKids (h.forest.kids_nodup r hr)
  have hcKid : c ∈ σ.kids r := List.mem_of_getElem? hc
  have hcA := h.forest.kids_mem r hr c hcKid
  have hNodes : ∀ i ∈ σ.treeNodes n c, i ∉ cutNodes σ n done := by
    rintro i hi ⟨p, hp, hi'⟩
    obtain ⟨hpKid, hne⟩ := hDone p hp
    exact hne (h.forest.siblings_disjoint hr hpKid hcKid hi' hi)
  refine ⟨hNodes, fun i hi b hb => ?_⟩
  have hiA := h.forest.nodes_mem hcA hi
  rintro (hDirect | ⟨p, hp, hbp⟩)
  · have hOwn := mem_directBlocks_blocks (List.mem_of_mem_drop hDirect)
    have he := h.forest.owns_unique i hiA r hr b hb hOwn
    exact h.forest.parent_not_mem hr hcKid (he ▸ hi)
  · obtain ⟨x, hx, hbx⟩ := List.mem_flatMap.mp (List.mem_of_mem_drop hbp)
    have hxA := h.forest.nodes_mem (h.forest.kids_mem r hr p.1 (hDone p hp).1) hx
    have he := h.forest.owns_unique i hiA x hxA b hb (mem_directBlocks_blocks hbx)
    exact hNodes i hi ⟨p, hp, he ▸ hx⟩

include hShallow

/-- One child is cut: its tree was left alone so far. -/
theorem wp_truncateChild {truncate : Nat → Nat → Action Unit} (hSpec : TruncateSpec truncate n)
    (hHolds : σ.Holds n c s) (ht : t < 2 ^ 32) (hDone : ChildrenCut σ m.store n r t done) :
    wp (truncate c (t - 51200 * (j + 1)))
      (fun _ m' => ChildrenCut σ m'.store n r t (done ++ [(c, j)])) (fun _ _ => False) m := by
  obtain ⟨hc, -⟩ := zipIdx_split hKids (h.forest.kids_nodup r hr)
  have hcA := h.forest.kids_mem r hr c (List.mem_of_getElem? hc)
  obtain ⟨hApart, hOther⟩ := next_apart (t := t) (n := n) h hr hKids
  have hSelf : c ∈ σ.treeNodes n c := Shape.mem_nodes_self _ n c
  have hTree := h.tree hcA hShallow
  have hClosed := hTree.forest.kids_mem
  have hSame : SameOn σ m.store {x | x ∈ σ.treeNodes n c} := hDone.cuts.sameOn hApart hOther
  have hNow := hTree.congr hSame fun i hi b hb => (hDone.cuts.keep b (hOther i hi b hb)).1
  have hNodes : m.store.treeNodes n c = σ.treeNodes n c :=
    Shape.nodes_congr hClosed (fun i hi => hSame.kids hi) n hSelf
  have hBlocks : m.store.dataBlocks n c = σ.dataBlocks n c := by
    rw [dataBlocks, hNodes]
    exact List.flatMap_congr fun x hx => directBlocks_congr (hSame.inode x hx)
  refine wp_mono (hSpec m _ c _ s hNow hSelf (hHolds.congr hSame hClosed hSelf) (by omega))
    (fun _ m' hPost => ?_) fun _ _ hFalse => hFalse
  obtain ⟨hCuts, hCut⟩ := hPost
  rw [hNodes, hBlocks] at hCuts
  refine ⟨(hDone.cuts.trans hCuts).congr ?_ fun b => ?_, fun p hp => ?_⟩
  · rintro x (⟨p, hp, hx⟩ | hx)
    · exact ⟨p, List.mem_append_left _ hp, hx⟩
    · exact ⟨(c, j), List.mem_append_right _ List.mem_cons_self, hx⟩
  · constructor
    · rintro (hDirect | ⟨p, hp, hb⟩)
      · exact Or.inl (Or.inl hDirect)
      · rcases List.mem_append.mp hp with hp | hp
        · exact Or.inl (Or.inr ⟨p, hp, hb⟩)
        · obtain rfl := List.mem_singleton.mp hp
          exact Or.inr hb
    · rintro ((hDirect | ⟨p, hp, hb⟩) | hb)
      · exact Or.inl hDirect
      · exact Or.inr ⟨p, List.mem_append_left _ hp, hb⟩
      · exact Or.inr ⟨(c, j), List.mem_append_right _ List.mem_cons_self, hb⟩
  · rcases List.mem_append.mp hp with hp | hp
    · refine (hDone.trees p hp).congr_new fun x hx => hCuts.inode x fun hxc => ?_
      exact hApart x hxc ⟨p, hp, hx⟩
    · obtain rfl := List.mem_singleton.mp hp
      exact hCut.congr_old hSame hClosed hSelf

end Child

section Whole

variable {σ σ₁ : Store} (h : σ.Planted A) (hr : r ∈ A) (hHolds : σ.Holds n r s)
include h hr hHolds

/-- The inode is put back after its children were cut. -/
theorem ChildrenCut.finish (hDone : ChildrenCut σ σ₁ (n - 1) r t (σ.kids r).zipIdx) {new : Inode}
    (hNew : NodeCut (σ.inode r) new t) :
    Cuts σ (σ₁.putInode r new) {x | x ∈ σ.treeNodes n r}
      {b | b ∈ (σ.dataBlocks n r).drop (blocksFor t)} ∧ Cut σ (σ₁.putInode r new) n r t := by
  have hMem : ∀ j c, (σ.kids r)[j]? = some c → (c, j) ∈ (σ.kids r).zipIdx := fun j c hc =>
    List.mem_zipIdx_iff_getElem?.mpr hc
  have hRoot : NodeCut (σ.inode r) ((σ₁.putInode r new).inode r) t := by
    rwa [putInode_inode, if_pos rfl]
  refine ⟨(hDone.cuts.trans (Cuts.putInode r new)).congr ?_ fun b => ?_, ?_⟩
  · rintro x (⟨p, hp, hx⟩ | rfl)
    · have hKid := List.mem_of_getElem? (List.mem_zipIdx_iff_getElem?.mp hp)
      cases n with
      | zero =>
          have hNil : σ.kids r = [] := hHolds.shallow
          rw [hNil] at hKid
          exact absurd hKid List.not_mem_nil
      | succ n => exact List.mem_cons_of_mem _ (List.mem_flatMap.mpr ⟨p.1, hKid, hx⟩)
    · exact Shape.mem_nodes_self _ n x
  · rw [Set.union_empty, Set.mem_ofPred_eq, hHolds.mem_drop_dataBlocks]
    refine or_congr_right ⟨?_, ?_⟩
    · rintro ⟨j, c, hc, hb⟩
      exact ⟨(c, j), hMem j c hc, hb⟩
    · rintro ⟨p, hp, hb⟩
      exact ⟨p.2, p.1, List.mem_zipIdx_iff_getElem?.mp hp, hb⟩
  · cases n with
    | zero => exact hRoot
    | succ n =>
        refine ⟨hRoot, fun j c hc => (hDone.trees (c, j) (hMem j c hc)).congr_new fun x hx => ?_⟩
        rw [putInode_inode, if_neg]
        rintro rfl
        exact h.forest.parent_not_mem hr (List.mem_of_getElem? hc) hx

/-- The loop over the children. -/
theorem wp_truncateChildren {truncate : Nat → Nat → Action Unit}
    (hSpec : 0 < n → TruncateSpec truncate (n - 1)) (ht : t < 2 ^ 32)
    (hDirect : Cuts σ m.store ∅ {b | b ∈ (σ.directBlocks r).drop (blocksFor t)}) :
    wp (truncateChildren truncate (σ.inode r) t)
      (fun _ m' => ChildrenCut σ m'.store (n - 1) r t (σ.kids r).zipIdx) (fun _ _ => False) m := by
  have hStart : ChildrenCut σ m.store (n - 1) r t [] := by
    refine ⟨hDirect.congr (Set.empty_subset _) fun b => ⟨?_, Or.inl⟩,
      fun p hp => absurd hp List.not_mem_nil⟩
    rintro (hMem | ⟨p, hp, -⟩)
    · exact hMem
    · exact absurd hp List.not_mem_nil
  rw [truncateChildren]
  by_cases hSize : 100 < σ.size r
  · obtain ⟨d, rfl⟩ : ∃ d, n = d + 1 := by
      cases n with
      | zero =>
          have hLen : s.length ≤ 51200 := hHolds.1
          have hSmall := hHolds.size_eq
          rw [blocksFor_eq] at hSmall
          omega
      | succ d => exact ⟨d, rfl⟩
    have hMarked := h.used hr (Or.inr ⟨rfl, hSize⟩)
    have hData : m.store.data (σ.slot r 100) = σ.data (σ.slot r 100) :=
      (hDirect.keep _ fun hMem => h.indirect_notMem hr hSize (List.mem_of_mem_drop hMem)).2
    rw [if_pos (show (σ.inode r).size.toNat > ndirect from hSize), wp_bind]
    refine (wp_readBlock (m := m) (b := σ.slot r 100) (Or.inl hMarked.1)).mpr ?_
    rw [hData, ← kids_of_size hSize]
    refine wp_forM (fun done (m' : Machine) => ChildrenCut σ m'.store d r t done) hStart ?_
    rintro done ⟨c, j⟩ rest hKids m₁ hDone
    obtain ⟨hc, -⟩ := zipIdx_split hKids (h.forest.kids_nodup r hr)
    have hBytes : (if t > (j + 1) * directSize then t - (j + 1) * directSize else 0) % 2 ^ 32 =
        t - 51200 * (j + 1) := by
      rw [directSize_eq]
      split <;> omega
    have hChild := (hHolds.kid hc).2
    change wp (truncate c _) _ _ m₁
    rw [hBytes]
    exact wp_truncateChild h hr hKids hChild.shallow (hSpec (Nat.succ_pos d)) hChild ht hDone
  · rw [if_neg (show ¬(σ.inode r).size.toNat > ndirect from hSize), wp_pure,
      kids_of_size_le (by omega)]
    exact hStart

end Whole

/-- `truncate_file` cuts the tree at `r`. -/
theorem wp_truncateFile (stack : Nat) : ∀ n < stack, TruncateSpec (truncateFile stack) n := by
  induction stack with
  | zero => exact fun n hn => absurd hn (Nat.not_lt_zero n)
  | succ stack ih =>
      intro n hn m A r t s h hr hHolds ht
      have hMod : blocksFor t % 2 ^ 32 = blocksFor t := by
        rw [blocksFor_eq]
        omega
      rw [truncateFile, wp_bind, wp_derefInode (h.inum r hr)]
      simp only [hMod, ndirect_eq]
      rw [wp_bind]
      refine wp_mono (wp_truncateDirect_loop h hr (blocksFor t)) (fun _ m₁ hDirect => ?_)
        fun _ _ hFalse => hFalse
      rw [wp_bind]
      refine wp_mono (wp_truncateChildren h hr hHolds (fun hPos => ih (n - 1) (by omega)) ht hDirect)
        (fun _ m₂ hDone => ?_) fun _ _ hFalse => hFalse
      refine wp_ite (fun hZero => ?_) fun hPos => ?_
      · have hSame : m₂.store.inode r = m.store.inode r := by
          refine hDone.cuts.inode r ?_
          rintro ⟨p, hp, hx⟩
          have hKid := List.mem_of_getElem? (List.mem_zipIdx_iff_getElem?.mp hp)
          exact h.forest.parent_not_mem hr hKid hx
        have hAlive : m₂.store.Alive r := by
          rw [Alive, hSame]
          exact h.alive r hr
        obtain ⟨m₃, hRun, hStore⟩ := freeInode_eq hAlive
        refine wp_of_ok hRun ?_
        rw [hStore]
        refine hDone.finish h hr hHolds ⟨fun _ => rfl, fun hPos => ?_⟩
        omega
      · rw [wp_bind]
        refine wp_time fun now m₃ hm₃ => ?_
        obtain ⟨m₄, hRun, hStore⟩ := putInode_eq (m := m₃) (h.inum r hr) { m.store.inode r with
          size := UInt32.ofNat (min (blocksFor t) (100 + 1)), mtime := now }
        refine wp_of_ok hRun ?_
        rw [hStore, hm₃]
        refine hDone.finish h hr hHolds ⟨fun hZero => absurd hZero hPos, fun _ => ⟨rfl, rfl, ?_⟩⟩
        exact UInt32.toNat_ofNat_of_lt' (by rw [UInt32.size]; omega)

end Loops
section Reading

/-- The child lists of the nodes in `K` are as before. -/
structure SameLists (σ σ' : Store) (K : Set Nat) : Prop where
  inum : ∀ x ∈ K, IsInum x
  closed : ∀ x ∈ K, ∀ c ∈ σ.kids x, c ∈ K
  bare : ∀ x ∈ K, σ.size x ≤ 100 → σ.slot x 100 = 0
  list : ∀ x ∈ K, 100 < σ.size x →
    Visible (σ.slot x 100) ∧ σ'.data (σ.slot x 100) = σ.data (σ.slot x 100)

variable {σ : Store} {m' : Machine} {K : Set Nat} {r n t stack : Nat} {s : List Byte}

/-- A cleared inode lists no blocks. -/
theorem readBlockid_cleared (hInum : IsInum r) (h : m'.store.inode r = Inode.cleared) :
    readBlockid m' (stack + 1) r = .ok [] := by
  rw [readBlockid, getInode_some hInum, h]
  rfl

theorem directBlocks_take {σ' : Store} {f : Nat} (hSlot : σ'.slot r = σ.slot r)
    (hSize : min (σ'.size r) 100 = f) (hf : f ≤ min (σ.size r) 100) :
    σ'.directBlocks r = (σ.directBlocks r).take f := by
  rw [directBlocks, directBlocks, hSize, hSlot, ← List.map_take, List.take_range,
    Nat.min_eq_left hf]

/-- After a cut `read_blockid` lists the first blocks, as long as no node is asked for
more than its bytes, full nodes without children apart. Such a node gets the children
of block 0. -/
theorem readBlockid_cut (hK : SameLists σ m'.store K) (hInum : IsInum r) (hKids : ∀ c ∈ σ.kids r, c ∈ K)
    (hList : 100 < σ.size r →
      Visible (σ.slot r 100) ∧ m'.store.data (σ.slot r 100) = σ.data (σ.slot r 100))
    (hHolds : σ.Holds n r s) (hCut : Cut σ m'.store n r t)
    (hFit : t ≤ s.length ∨ s.length = 51200 ∧ σ.slot r 100 = 0)
    (hEmpty : t ≤ s.length ∧ t ≤ 102400 ∨ untilZero (inumBuf (m'.store.data 0)) = [])
    (hStack : n < stack) :
    readBlockid m' stack r = .ok ((σ.dataBlocks n r).take (blocksFor t)) := by
  induction stack generalizing n r s t with
  | zero => omega
  | succ stack ih =>
      have hOld := hHolds.size_eq
      have hBlocks := blocksFor_eq s.length
      have hCeil := blocksFor_eq t
      by_cases hZero : t = 0
      · rw [readBlockid_cleared hInum (hCut.root.cleared hZero), hZero]
        rfl
      obtain ⟨-, hSlots, hSize⟩ := hCut.root.kept (Nat.pos_of_ne_zero hZero)
      have hSlot : m'.store.slot r = σ.slot r := hSlots
      have hNew : m'.store.size r = min (blocksFor t) 101 := hSize
      have hDirect : m'.store.directBlocks r = (σ.directBlocks r).take (min (blocksFor t) 100) :=
        directBlocks_take hSlot (by omega) (by omega)
      have hLength := σ.directBlocks_length r
      rw [dataBlocks_eq hHolds.shallow, List.take_append]
      by_cases hFew : blocksFor t ≤ 100
      · have hNone : m'.store.kids r = [] := kids_of_size_le (by omega)
        rw [readBlockid_node (g := fun _ => []) hInum (by omega) (by simp [hNone]), hNone, hDirect,
          Nat.min_eq_left hFew, show blocksFor t - (σ.directBlocks r).length = 0 by omega,
          List.flatMap_nil, List.take_zero]
      · have hAll : (σ.directBlocks r).take (min (blocksFor t) 100) =
            (σ.directBlocks r).take (blocksFor t) := by
          rw [List.take_of_length_le (by omega), List.take_of_length_le (by omega)]
        by_cases hLarge : 100 < σ.size r
        · obtain ⟨hVisible, hData⟩ := hList hLarge
          have hSame : m'.store.kids r = σ.kids r := by
            rw [kids_of_size (by omega), kids_of_size hLarge, hSlot, hData]
          have hPos : 0 < n := by
            cases n with
            | zero =>
                have hFlat : s.length ≤ 51200 := hHolds.1
                omega
            | succ n => exact Nat.succ_pos n
          have hRead : ∀ j c, (σ.kids r)[j]? = some c → readBlockid m' stack c =
              .ok ((σ.dataBlocks (n - 1) c).take (blocksFor t - 100 - 100 * j)) := by
            intro j c hc
            have hcK := hKids c (List.mem_of_getElem? hc)
            have hChild := (hHolds.kid hc).2
            have hBytes : blocksFor t - 100 - 100 * j = blocksFor (t - 51200 * (j + 1)) := by
              rw [blocksFor_eq, blocksFor_eq]
              omega
            have hFitKid := hHolds.fit_kid (show t ≤ s.length by omega) hc (hK.bare c hcK)
            have hEmptyKid := hEmpty.imp_left fun hLow => fit_kid_low (j := j) hLow.1 hLow.2
            rw [hBytes]
            exact ih (hK.inum c hcK) (hK.closed c hcK) (hK.list c hcK) hChild
              (hCut.kid hHolds.shallow hc) hFitKid hEmptyKid (by omega)
          have hListed : ∀ j c, (σ.kids r)[j]? = some c →
              (readBlockid m' stack c).toOption.getD [] =
                (σ.dataBlocks (n - 1) c).take (blocksFor t - 100 - 100 * j) := fun j c hc => by
            rw [hRead j c hc]
            rfl
          rw [readBlockid_node (g := fun c => (readBlockid m' stack c).toOption.getD []) hInum
            (fun _ => by rw [hSlot]; exact hVisible) fun c hc => ?_]
          · rw [hSame, hDirect, hAll, hHolds.packed.flatMap_take hListed,
              show (σ.directBlocks r).length = 100 by omega]
          · obtain ⟨j, hj⟩ := List.mem_iff_getElem?.mp (hSame ▸ hc)
            rw [hRead j c hj]
            rfl
        · have hNoList : σ.slot r 100 = 0 := (hFit.resolve_left (by omega)).2
          have hNone : m'.store.kids r = [] := by
            rw [kids_of_size (by omega), hSlot, hNoList, hEmpty.resolve_left (by omega)]
          have hVisible : Visible (m'.store.slot r 100) := by
            rw [hSlot, hNoList]
            exact Or.inr (by omega)
          rw [readBlockid_node (g := fun _ => []) hInum (fun _ => hVisible) (by simp [hNone]), hNone,
            hDirect, hAll, kids_of_size_le (by omega), List.flatMap_nil, List.flatMap_nil,
            List.take_nil]

end Reading

end InodeFS
