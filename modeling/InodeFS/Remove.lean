import InodeFS.Growth

/-! `remove_file` clears the inodes of one tree and frees the blocks in their
direct slots. It follows the slots up to the first zero, so it frees stale
blocks too, and it never frees an indirect block. -/
namespace InodeFS

open Bytes Exec Ownership

namespace Store

variable {σ σ' σ₁ σ₂ : Store} {A B T O T' O' : Set Nat} {i b r n : Nat}

/-- Marked data blocks. -/
def Marked (σ : Store) : Set Nat := {b | IsData b ∧ σ.bit b = true}

/-- A set of trees which can be removed: they own marked blocks only. -/
structure Removable (σ : Store) (A : Set Nat) : Prop where
  forest : IsForest σ.shape maxDepth A σ.Marked
  readable : σ.Readable A
  alive : ∀ i ∈ A, σ.Alive i

theorem Sound.removable {M : Set Nat} (h : σ.Sound A M) : σ.Removable A where
  forest := h.forest.mono h.marked
  readable := h.readable
  alive := h.alive

namespace Removable

theorem subset (h : σ.Removable A) (hSub : B ⊆ A) (hClosed : ∀ i ∈ B, ∀ c ∈ σ.kids i, c ∈ B) :
    σ.Removable B where
  forest := h.forest.subset hSub hClosed
  readable :=
    { inum := fun i hi => h.readable.inum i (hSub hi)
      visible := fun i hi => h.readable.visible i (hSub hi)
      kid := hClosed }
  alive := fun i hi => h.alive i (hSub hi)

theorem congr (h : σ.Removable A) (hSame : SameOn σ σ' A)
    (hBit : ∀ i ∈ A, ∀ b ∈ σ.owns i, σ'.bit b = σ.bit b) : σ'.Removable A where
  forest :=
    { (h.forest.congr (fun i hi => hSame.owns hi) (fun i hi => hSame.kids hi) :
        IsForest σ'.shape maxDepth A σ.Marked) with
      owns_mem := fun i hi b hb => by
        have hb' : b ∈ σ.owns i := hSame.owns hi ▸ hb
        have hMarked := h.forest.owns_mem i hi b hb'
        exact ⟨hMarked.1, (hBit i hi b hb').trans hMarked.2⟩ }
  readable := h.readable.congr hSame
  alive i hi := by
    have hAlive := h.alive i hi
    rwa [Alive, ← hSame.inode i hi] at hAlive

end Removable

/-- The blocks which `remove_file` frees at one inode: the direct slots up to the
first zero. -/
def freedBlocks (σ : Store) (i : Nat) : List Nat := untilZero ((List.range 100).map (σ.slot i))

/-- The inodes `T` are cleared. Only blocks which `O` owns may have been
freed, and of the marked ones those in the direct slots were. -/
structure Removes (σ σ' : Store) (T O : Set Nat) : Prop where
  cleared : ∀ i ∈ T, σ'.inode i = Inode.cleared
  inode : ∀ i, i ∉ T → σ'.inode i = σ.inode i
  bit : ∀ b, σ'.bit b = true → σ.bit b = true
  keeps : ∀ b, (∀ i ∈ O, b ∉ σ.owns i) → σ'.bit b = σ.bit b ∧ σ'.data b = σ.data b
  freed : ∀ b, σ.bit b = true → (σ'.bit b = false ↔ ∃ i ∈ O, b ∈ σ.freedBlocks i)

namespace Removes

theorem trans (h : Removes σ σ₁ T O) (h' : Removes σ₁ σ₂ T' O')
    (hSlot : ∀ i ∈ O', σ₁.slot i = σ.slot i) : Removes σ σ₂ (T ∪ T') (O ∪ O') where
  cleared i hi := by
    by_cases hi' : i ∈ T'
    · exact h'.cleared i hi'
    · rw [h'.inode i hi']
      exact h.cleared i (hi.resolve_right hi')
  inode i hi := by
    rw [h'.inode i fun hT => hi (Or.inr hT), h.inode i fun hT => hi (Or.inl hT)]
  bit b hb := h.bit b (h'.bit b hb)
  keeps b hb := by
    have hFirst := h.keeps b fun i hi => hb i (Or.inl hi)
    have hSecond := h'.keeps b fun i hi => by
      rw [Store.owns, hSlot i hi]
      exact hb i (Or.inr hi)
    exact ⟨hSecond.1.trans hFirst.1, hSecond.2.trans hFirst.2⟩
  freed b hb := by
    have hFirst := h.freed b hb
    cases hMid : σ₁.bit b with
    | false =>
        have hGone : σ₂.bit b = false := by
          by_contra hStill
          simp [h'.bit b (by simpa using hStill)] at hMid
        obtain ⟨i, hi, hbi⟩ := hFirst.mp hMid
        exact ⟨fun _ => ⟨i, Or.inl hi, hbi⟩, fun _ => hGone⟩
    | true =>
        rw [h'.freed b hMid]
        constructor
        · rintro ⟨i, hi, hbi⟩
          rw [freedBlocks, hSlot i hi] at hbi
          exact ⟨i, Or.inr hi, hbi⟩
        · rintro ⟨i, hi | hi, hbi⟩
          · simp [hFirst.mpr ⟨i, hi, hbi⟩] at hMid
          · refine ⟨i, hi, ?_⟩
            rw [freedBlocks, hSlot i hi]
            exact hbi

theorem owns (h : Removes σ σ' T O) (hi : i ∉ T) : σ'.owns i = σ.owns i :=
  owns_congr (h.inode i hi)

/-- Trees that own other blocks stay as they are. -/
theorem sameOn (h : Removes σ σ' T O) (hNot : ∀ i ∈ A, i ∉ T)
    (hOwns : ∀ i ∈ A, ∀ b ∈ σ.owns i, ∀ j ∈ O, b ∉ σ.owns j) : SameOn σ σ' A where
  inode i hi := h.inode i (hNot i hi)
  data i hi k hk := by
    refine (h.keeps _ fun j hj hb => ?_).2
    have hne := ((mem_owns σ).mp hb).1
    exact hOwns i hi _ (mem_owns_of_used hne hk) j hj hb

end Removes

end Store

open Store

/-- Freeing distinct marked blocks. -/
theorem wp_forM_freeBlock {l : List Nat} {m : Machine} (hNodup : l.Nodup)
    (hMarked : ∀ b ∈ l, b ∈ m.store.Marked) :
    wp (l.forM freeBlock) (fun _ m' => m'.store.inode = m.store.inode ∧
      (∀ b, m'.store.bit b = true → m.store.bit b = true) ∧
      (∀ b, b ∉ l → m'.store.bit b = m.store.bit b ∧ m'.store.data b = m.store.data b) ∧
      ∀ b ∈ l, m'.store.bit b = false) (fun _ _ => False) m := by
  refine wp_forM (fun done (m' : Machine) => m'.store.inode = m.store.inode ∧
    (∀ b, m'.store.bit b = true → m.store.bit b = true) ∧
    (∀ b, b ∉ done → m'.store.bit b = m.store.bit b ∧ m'.store.data b = m.store.data b) ∧
    ∀ b ∈ done, m'.store.bit b = false)
    ⟨rfl, fun _ h => h, fun _ _ => ⟨rfl, rfl⟩, by simp⟩ ?_
  intro done b rest hl m₁ ⟨hInode, hBit, hKeep, hGone⟩
  have hNew : b ∉ done := by
    rw [hl] at hNodup
    intro hb
    exact (List.nodup_append.mp hNodup).2.2 b hb b (by simp) rfl
  have hb := hMarked b (by simp [hl])
  obtain ⟨m₂, hRun, hStore⟩ := freeBlock_marked (m := m₁) hb.1 ((hKeep b hNew).1.trans hb.2)
  refine wp_of_ok hRun ?_
  rw [hStore]
  refine ⟨hInode, fun c hc => ?_, fun c hc => ?_, fun c hc => ?_⟩
  · rw [write_bit, unmark_bit] at hc
    by_cases he : c = b
    · simp [he] at hc
    · rw [if_neg he] at hc
      exact hBit c hc
  · have hne : c ≠ b := fun he => hc (by simp [he])
    rw [write_bit, unmark_bit, if_neg hne, write_data, if_neg hne]
    exact hKeep c fun h => hc (by simp [h])
  · rw [write_bit, unmark_bit]
    split
    · rfl
    · exact hGone c (by simpa [‹c ≠ b›] using hc)

theorem mem_freedBlocks {σ : Store} {r b : Nat} (hb : b ∈ σ.freedBlocks r) :
    b ∈ σ.owns r ∧ ∃ k < 100, σ.slot r k = b := by
  have hne := mem_untilZero_ne hb
  obtain ⟨k, hk, rfl⟩ := List.mem_map.mp (( List.takeWhile_prefix _).subset hb)
  rw [List.mem_range] at hk
  exact ⟨slot_mem_owns (by omega) hne, k, hk, rfl⟩

/-- The direct slots up to the first zero. -/
theorem freedBlocks_nodup {σ : Store} {A : Set Nat} {r : Nat} (h : σ.Removable A) (hr : r ∈ A) :
    (σ.freedBlocks r).Nodup := by
  have hSub : List.Sublist (σ.freedBlocks r) ((List.range 101).map (σ.slot r)) := by
    have hRange : List.Sublist (List.range 100) (List.range 101) := by
      rw [List.range_succ]
      exact List.sublist_append_left _ _
    exact ( List.takeWhile_prefix _).sublist.trans (hRange.map _)
  have hFilter := hSub.filter (· ≠ 0)
  have hAll : (σ.freedBlocks r).filter (· ≠ 0) = σ.freedBlocks r :=
    List.filter_eq_self.mpr fun b hb => by simpa using mem_untilZero_ne hb
  rw [hAll] at hFilter
  exact (h.forest.owns_nodup r hr).sublist hFilter

/-- The nodes of the trees at the given roots. -/
def nodesOf (σ : Store) (n : Nat) (roots : List Nat) : Set Nat :=
  {x | ∃ c ∈ roots, x ∈ σ.shape.nodes n c}

theorem nodesOf_append (σ : Store) (n : Nat) (l : List Nat) (c : Nat) :
    nodesOf σ n (l ++ [c]) = nodesOf σ n l ∪ {x | x ∈ σ.shape.nodes n c} := by
  ext x
  simp [nodesOf, or_and_right, exists_or]

theorem nodes_eq {σ : Store} {n r : Nat} (h : σ.shape.Shallow n r) :
    {x | x ∈ σ.shape.nodes n r} = nodesOf σ (n - 1) (σ.kids r) ∪ {r} := by
  cases n with
  | zero =>
      have hNil : σ.kids r = [] := h
      ext x
      simp [Shape.nodes, nodesOf, hNil]
  | succ n =>
      ext x
      simp only [Shape.nodes, nodesOf, Set.mem_ofPred_eq, List.mem_cons, List.mem_flatMap,
        Set.mem_union, Set.mem_singleton_iff, Nat.add_sub_cancel]
      exact or_comm

/-- The loop over the children reads the indirect block once. -/
theorem wp_forChildren {σ : Store} {m : Machine} {r : Nat} {visit : Nat → Action Unit}
    {Q : Unit → Machine → Prop} {E : Stop → Machine → Prop}
    (hBlock : 100 < σ.size r →
      Visible (σ.slot r 100) ∧ m.store.data (σ.slot r 100) = σ.data (σ.slot r 100))
    (h : wp ((σ.kids r).forM visit) Q E m) : wp (forChildren (σ.inode r) visit) Q E m := by
  rw [forChildren]
  by_cases hSize : 100 < σ.size r
  · obtain ⟨hVisible, hData⟩ := hBlock hSize
    rw [if_pos (show (σ.inode r).size.toNat > ndirect from hSize), wp_bind]
    have hRead := (wp_readBlock (m := m) (E := E)
      (Q := fun buf m => wp ((untilZero (inumBuf buf)).forM visit) Q E m) hVisible).mpr
    refine hRead ?_
    rw [hData, ← kids_of_size hSize]
    exact h
  · rw [if_neg (show ¬(σ.inode r).size.toNat > ndirect from hSize)]
    rw [kids_of_size_le (by omega)] at h
    exact h

/-- One child is removed: its tree has been left alone so far. -/
theorem wp_removeChild {σ : Store} {A : Set Nat} {n r c : Nat} {done rest : List Nat}
    (h : σ.Removable A) (hr : r ∈ A) (hKids : σ.kids r = done ++ c :: rest)
    (hShallow : σ.shape.Shallow n c) {visit : Nat → Action Unit} {m : Machine}
    (hVisit : ∀ B, m.store.Removable B → c ∈ B → m.store.shape.Shallow n c →
      wp (visit c) (fun _ m' => Removes m.store m'.store
        {x | x ∈ m.store.shape.nodes n c} {x | x ∈ m.store.shape.nodes n c})
        (fun _ _ => False) m)
    (hDone : Removes σ m.store (nodesOf σ n done) (nodesOf σ n done ∪ {r})) :
    wp (visit c) (fun _ m' => Removes σ m'.store
      (nodesOf σ n (done ++ [c])) (nodesOf σ n (done ++ [c]) ∪ {r})) (fun _ _ => False) m := by
  have hc : c ∈ σ.kids r := by simp [hKids]
  have hcA := h.forest.kids_mem r hr c hc
  have hClosed : ∀ i ∈ {x | x ∈ σ.shape.nodes n c}, ∀ d ∈ σ.kids i,
      d ∈ {x | x ∈ σ.shape.nodes n c} := fun i hi d hd => Shape.kid_mem_nodes hShallow hi hd
  have hTree : σ.Removable {x | x ∈ σ.shape.nodes n c} :=
    h.subset (fun x hx => h.forest.nodes_mem hcA hx) hClosed
  have hApart : ∀ x ∈ σ.shape.nodes n c, x ∉ nodesOf σ n done := by
    rintro x hx ⟨d, hd, hx'⟩
    have hNodup := h.forest.kids_nodup r hr
    have hdKid : d ∈ σ.kids r := hKids ▸ List.mem_append_left _ hd
    have he : c = d := h.forest.siblings_disjoint hr hc hdKid hx hx'
    rw [show σ.shape.kids r = done ++ c :: rest from hKids] at hNodup
    exact (List.nodup_append.mp hNodup).2.2 d hd c (by simp) he.symm
  have hParent : r ∉ σ.shape.nodes n c := h.forest.parent_not_mem hr hc
  have hOther : ∀ i ∈ {x | x ∈ σ.shape.nodes n c}, ∀ b ∈ σ.owns i,
      ∀ j ∈ nodesOf σ n done ∪ {r}, b ∉ σ.owns j := by
    intro i hi b hb j hj hb'
    have hjA : j ∈ A := by
      rcases hj with ⟨d, hd, hj⟩ | rfl
      · have hdKid : d ∈ σ.kids r := hKids ▸ List.mem_append_left _ hd
        exact h.forest.nodes_mem (h.forest.kids_mem r hr d hdKid) hj
      · exact hr
    have he := h.forest.owns_unique i (h.forest.nodes_mem hcA hi) j hjA b hb hb'
    subst he
    rcases hj with hj | rfl
    · exact hApart i hi hj
    · exact hParent hi
  have hSame := hDone.sameOn hApart hOther
  have hNow : m.store.Removable {x | x ∈ σ.shape.nodes n c} :=
    hTree.congr hSame fun i hi b hb => (hDone.keeps b (hOther i hi b hb)).1
  have hSelf : c ∈ {x | x ∈ σ.shape.nodes n c} := Shape.mem_nodes_self _ n c
  have hKidsSame : ∀ i ∈ {x | x ∈ σ.shape.nodes n c}, m.store.shape.kids i = σ.shape.kids i :=
    fun i hi => hSame.kids hi
  have hNodes : m.store.shape.nodes n c = σ.shape.nodes n c :=
    Shape.nodes_congr hClosed hKidsSame n hSelf
  refine wp_mono (hVisit _ hNow hSelf (hShallow.congr hClosed hKidsSame hSelf))
    (fun _ m' hRemoves => ?_) fun _ _ hFalse => hFalse
  rw [hNodes] at hRemoves
  have hAll := hDone.trans hRemoves fun i hi => funext (hSame.slot hi)
  rwa [Set.union_right_comm, ← nodesOf_append] at hAll

/-- `remove_file` clears exactly the tree at `r`. -/
theorem wp_removeFile {n stack : Nat} {m : Machine} {A : Set Nat} {r : Nat}
    (h : m.store.Removable A) (hr : r ∈ A) (hShallow : m.store.shape.Shallow n r)
    (hStack : n < stack) :
    wp (removeFile stack r) (fun _ m' => Removes m.store m'.store
      {x | x ∈ m.store.shape.nodes n r} {x | x ∈ m.store.shape.nodes n r})
      (fun _ _ => False) m := by
  induction stack generalizing n r m A with
  | zero => omega
  | succ stack ih =>
      have hAlive : (m.store.inode r).type ≠ 0 := h.alive r hr
      have hNodup := freedBlocks_nodup h hr
      rw [removeFile, wp_bind, wp_derefInode (h.readable.inum r hr), if_neg hAlive, wp_bind]
      refine wp_mono (wp_forM_freeBlock hNodup fun b hb => h.forest.owns_mem r hr b (mem_freedBlocks hb).1)
        (fun _ m₁ hFreed => ?_) fun _ _ hFalse => hFalse
      obtain ⟨hInode, hBit, hKeep, hGone⟩ := hFreed
      have hFirst : Removes m.store m₁.store ∅ {r} := by
        refine ⟨fun _ hi => hi.elim, fun i _ => by rw [hInode], hBit,
          fun b hb => hKeep b fun hMem => hb r rfl (mem_freedBlocks hMem).1, fun b hb => ?_⟩
        by_cases hMem : b ∈ m.store.freedBlocks r
        · exact ⟨fun _ => ⟨r, rfl, hMem⟩, fun _ => hGone b hMem⟩
        · constructor
          · intro hFalse
            simp [(hKeep b hMem).1, hb] at hFalse
          · rintro ⟨i, hi, hbi⟩
            exact (hMem (hi ▸ hbi)).elim
      have hKidShallow : ∀ c ∈ m.store.kids r, m.store.shape.Shallow (n - 1) c := by
        intro c hc
        cases n with
        | zero =>
            have hNil : m.store.kids r = [] := hShallow
            simp [hNil] at hc
        | succ n => exact hShallow c hc
      rw [wp_bind]
      refine wp_forChildren (fun hSize => ⟨h.readable.visible r hr 100 (Or.inr ⟨rfl, hSize⟩), ?_⟩) ?_
      · refine (hKeep _ fun hMem => ?_).2
        obtain ⟨hOwn, k, hk, hSlot⟩ := mem_freedBlocks hMem
        have hne := ((mem_owns _).mp hOwn).1
        have he := (owns_nodup_iff _).mp (h.forest.owns_nodup r hr) k (by omega) 100 (by omega)
          hSlot (hSlot ▸ hne)
        omega
      have hStart : Removes m.store m₁.store (nodesOf m.store (n - 1) [])
          (nodesOf m.store (n - 1) [] ∪ {r}) := by
        have hNone : nodesOf m.store (n - 1) [] = ∅ := by
          ext x
          simp [nodesOf]
        rw [hNone, Set.empty_union]
        exact hFirst
      refine wp_mono (wp_forM (fun done (m' : Machine) => Removes m.store m'.store
        (nodesOf m.store (n - 1) done) (nodesOf m.store (n - 1) done ∪ {r})) hStart ?_)
        (fun _ m₂ hKids => ?_) fun _ _ hFalse => hFalse
      · intro done c rest hKids m₂ hDone
        have hc : c ∈ m.store.kids r := by simp [hKids]
        cases n with
        | zero =>
            have hNil : m.store.kids r = [] := hShallow
            simp [hNil] at hc
        | succ n =>
            exact wp_removeChild h hr hKids (hKidShallow c hc)
              (fun B hB hcB hFlat => ih hB hcB hFlat (by omega)) hDone
      · have hRoot : r ∉ nodesOf m.store (n - 1) (m.store.kids r) := by
          rintro ⟨c, hc, hx⟩
          exact h.forest.parent_not_mem hr hc hx
        have hStill : m₂.store.Alive r := by
          rw [Alive, hKids.inode r hRoot]
          exact hAlive
        obtain ⟨m₃, hRun, hStore⟩ := freeInode_eq hStill
        refine wp_of_ok hRun ?_
        have hLast : Removes m₂.store m₃.store {r} ∅ := by
          rw [hStore]
          refine ⟨fun i hi => ?_, fun i hi => ?_, fun _ hb => hb, fun _ _ => ⟨rfl, rfl⟩,
            fun b hb => ⟨fun hFalse => ?_, ?_⟩⟩
          · obtain rfl : i = r := hi
            rw [putInode_inode, if_pos rfl]
          · have hne : ¬i = r := hi
            rw [putInode_inode, if_neg hne]
          · rw [putInode_bit, hb] at hFalse
            cases hFalse
          · rintro ⟨_, hi, _⟩
            exact hi.elim
        have hAll := hKids.trans hLast fun i hi => hi.elim
        rw [Set.union_empty] at hAll
        rwa [nodes_eq hShallow]

end InodeFS
