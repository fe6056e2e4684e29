import InodeFS.Tree

/-! Ownership on the disk. A set of inodes is sound when its trees form a
forest which owns marked data blocks only. An operation that only adds to the
disk keeps every sound set as it is, and the inodes it adds are sound again. -/
namespace InodeFS

open Bytes Ownership

/-- Bound on the nesting of 128th children: every level takes 128 * 51200 bytes
of an `int` size. -/
def maxDepth : Nat := 2 ^ 31 / (nindirect * directSize) + 1

theorem maxDepth_eq : maxDepth = 328 := rfl

namespace Store

/-- The inodes `A` own blocks of `M` only, no block twice, and form trees. -/
structure Sound (σ : Store) (A M : Set Nat) : Prop where
  forest : IsForest σ.shape maxDepth A M
  inum : ∀ i ∈ A, IsInum i
  alive : ∀ i ∈ A, σ.Alive i
  marked : ∀ b ∈ M, IsData b ∧ σ.bit b = true
  size_le : ∀ i ∈ A, σ.size i ≤ 101
  slot_ne : ∀ i ∈ A, ∀ k, σ.Used i k → σ.slot i k ≠ 0
  packed : ∀ i ∈ A, 100 < σ.size i → inumBuf (σ.data (σ.slot i 100)) =
    σ.kids i ++ List.replicate (128 - (σ.kids i).length) 0

variable {σ σ' σ₁ σ₂ : Store} {A B M N : Set Nat} {i k b c : Nat}

theorem Used.lt (h : σ.Used i k) : k < 101 := by
  rcases h with h | ⟨rfl, _⟩ <;> omega

theorem slot_mem_owns (hk : k < 101) (hne : σ.slot i k ≠ 0) : σ.slot i k ∈ σ.owns i :=
  (mem_owns σ).mpr ⟨hne, k, hk, rfl⟩

theorem mem_owns_of_used (hne : σ.slot i k ≠ 0) (h : σ.Used i k) : σ.slot i k ∈ σ.owns i :=
  slot_mem_owns h.lt hne

namespace Sound

theorem slot_mem (h : σ.Sound A M) (hi : i ∈ A) (hk : σ.Used i k) : σ.slot i k ∈ M :=
  h.forest.owns_mem i hi _ (mem_owns_of_used (h.slot_ne i hi k hk) hk)

theorem readable (h : σ.Sound A M) : σ.Readable A where
  inum := h.inum
  visible _ hi _ hk := Or.inl (h.marked _ (h.slot_mem hi hk)).1
  kid := h.forest.kids_mem

theorem empty (σ : Store) : σ.Sound ∅ ∅ where
  forest := IsForest.empty _ _ _
  inum _ h := h.elim
  alive _ h := h.elim
  marked _ h := h.elim
  size_le _ h := h.elim
  slot_ne _ h := h.elim
  packed _ h := h.elim

/-- A larger pool of marked blocks. -/
theorem mono (h : σ.Sound A M) (hSub : M ⊆ N) (hN : ∀ b ∈ N, IsData b ∧ σ.bit b = true) :
    σ.Sound A N :=
  { h with forest := h.forest.mono hSub, marked := hN }

theorem congr (h : σ.Sound A M) (hSame : SameOn σ σ' A)
    (hMarked : ∀ b ∈ M, σ'.bit b = true) : σ'.Sound A M where
  forest := h.forest.congr (fun _ hi => hSame.owns hi) (fun _ hi => hSame.kids hi)
  inum := h.inum
  alive i hi := by
    have hAlive := h.alive i hi
    rwa [Alive, ← hSame.inode i hi] at hAlive
  marked b hb := ⟨(h.marked b hb).1, hMarked b hb⟩
  size_le i hi := (hSame.size hi).trans_le (h.size_le i hi)
  slot_ne i hi k hk := by
    rw [hSame.slot hi]
    exact h.slot_ne i hi k (by simpa only [Used, hSame.size hi] using hk)
  packed i hi hSize := by
    rw [hSame.size hi] at hSize
    rw [hSame.kids hi, hSame.slot hi, hSame.data i hi 100 (Or.inr ⟨rfl, hSize⟩)]
    exact h.packed i hi hSize

theorem union (h : σ.Sound A M) (h' : σ.Sound B N) (hAB : Disjoint A B) (hMN : Disjoint M N) :
    σ.Sound (A ∪ B) (M ∪ N) where
  forest := h.forest.union h'.forest hAB hMN
  inum i := Or.rec (h.inum i) (h'.inum i)
  alive i := Or.rec (h.alive i) (h'.alive i)
  marked b := Or.rec (h.marked b) (h'.marked b)
  size_le i := Or.rec (h.size_le i) (h'.size_le i)
  slot_ne i := Or.rec (h.slot_ne i) (h'.slot_ne i)
  packed i := Or.rec (h.packed i) (h'.packed i)

end Sound

/-- An inode in use in `σ'` and free in `σ`. -/
def Born (σ σ' : Store) : Set Nat := {i | σ'.Alive i ∧ ¬σ.Alive i}

/-- A data block marked in `σ'` and not in `σ`. -/
def Taken (σ σ' : Store) : Set Nat := {b | IsData b ∧ σ'.bit b = true ∧ σ.bit b = false}

/-- `σ'` is `σ` with new inodes and new blocks. -/
structure Grows (σ σ' : Store) : Prop where
  bit : ∀ b, σ.bit b = true → σ'.bit b = true
  inode : ∀ i, i ∉ Born σ σ' → σ'.inode i = σ.inode i
  data : ∀ b, b ∉ Taken σ σ' → σ'.data b = σ.data b
  sound : σ'.Sound (Born σ σ') (Taken σ σ')

theorem born_self (σ : Store) : Born σ σ = ∅ :=
  Set.eq_empty_of_forall_notMem fun _ h => h.2 h.1

theorem taken_self (σ : Store) : Taken σ σ = ∅ :=
  Set.eq_empty_of_forall_notMem fun b h => by simpa [h.2.2] using h.2.1

namespace Grows

theorem refl (σ : Store) : Grows σ σ where
  bit _ h := h
  inode _ _ := rfl
  data _ _ := rfl
  sound := by
    rw [born_self, taken_self]
    exact Sound.empty σ

theorem inode_of_alive (h : Grows σ σ') (hi : σ.Alive i) : σ'.inode i = σ.inode i :=
  h.inode i fun hBorn => hBorn.2 hi

theorem alive (h : Grows σ σ') (hi : σ.Alive i) : σ'.Alive i := by
  rw [Alive, h.inode_of_alive hi]
  exact hi

theorem data_of_marked (h : Grows σ σ') (hb : σ.bit b = true) : σ'.data b = σ.data b :=
  h.data b fun hTaken => by simp [hTaken.2.2] at hb

/-- A sound set of old inodes stays as it is. -/
theorem sameOn (h : Grows σ σ') (hS : σ.Sound A M) : SameOn σ σ' A where
  inode i hi := h.inode_of_alive (hS.alive i hi)
  data _ hi _ hk := h.data_of_marked (hS.marked _ (hS.slot_mem hi hk)).2

theorem keeps (h : Grows σ σ') (hS : σ.Sound A M) : σ'.Sound A M :=
  hS.congr (h.sameOn hS) fun b hb => h.bit b (hS.marked b hb).2

/-- The old inodes and the new ones together. -/
theorem extend (h : Grows σ σ') (hS : σ.Sound A M) :
    σ'.Sound (A ∪ Born σ σ') (M ∪ Taken σ σ') := by
  refine (h.keeps hS).union h.sound ?_ ?_
  · exact Set.disjoint_left.mpr fun i hi hBorn => hBorn.2 (hS.alive i hi)
  · refine Set.disjoint_left.mpr fun b hb hTaken => ?_
    simpa [hTaken.2.2] using (hS.marked b hb).2

theorem born_trans (h₁ : Grows σ σ₁) (h₂ : Grows σ₁ σ₂) :
    Born σ σ₂ = Born σ σ₁ ∪ Born σ₁ σ₂ := by
  ext i
  constructor
  · rintro ⟨hAlive, hDead⟩
    by_cases hMid : σ₁.Alive i
    · exact Or.inl ⟨hMid, hDead⟩
    · exact Or.inr ⟨hAlive, hMid⟩
  · rintro (⟨hMid, hDead⟩ | ⟨hAlive, hMid⟩)
    · exact ⟨h₂.alive hMid, hDead⟩
    · exact ⟨hAlive, fun hi => hMid (h₁.alive hi)⟩

theorem taken_trans (h₁ : Grows σ σ₁) (h₂ : Grows σ₁ σ₂) :
    Taken σ σ₂ = Taken σ σ₁ ∪ Taken σ₁ σ₂ := by
  ext b
  constructor
  · rintro ⟨hData, hBit, hFree⟩
    cases hMid : σ₁.bit b with
    | true => exact Or.inl ⟨hData, hMid, hFree⟩
    | false => exact Or.inr ⟨hData, hBit, hMid⟩
  · rintro (⟨hData, hMid, hFree⟩ | ⟨hData, hBit, hMid⟩)
    · exact ⟨hData, h₂.bit b hMid, hFree⟩
    · refine ⟨hData, hBit, ?_⟩
      by_contra hMarked
      simp [h₁.bit b (by simpa using hMarked)] at hMid

theorem trans (h₁ : Grows σ σ₁) (h₂ : Grows σ₁ σ₂) : Grows σ σ₂ where
  bit b hb := h₂.bit b (h₁.bit b hb)
  inode i hi := by
    rw [born_trans h₁ h₂] at hi
    rw [h₂.inode i fun h => hi (Or.inr h), h₁.inode i fun h => hi (Or.inl h)]
  data b hb := by
    rw [taken_trans h₁ h₂] at hb
    rw [h₂.data b fun h => hb (Or.inr h), h₁.data b fun h => hb (Or.inl h)]
  sound := by
    rw [born_trans h₁ h₂, taken_trans h₁ h₂]
    exact h₂.extend h₁.sound

end Grows

/-- A new block that no new inode owns yet. -/
def Fresh (σ σ' : Store) (b : Nat) : Prop := b ∈ Taken σ σ' ∧ ∀ i ∈ Born σ σ', b ∉ σ'.owns i

/-- A new inode that no new inode lists yet. -/
def FreshRoot (σ σ' : Store) (c : Nat) : Prop :=
  c ∈ Born σ σ' ∧ ∀ i ∈ Born σ σ', c ∉ σ'.kids i

theorem Fresh.mono (h : Fresh σ σ₁ b) (h₁ : Grows σ σ₁) (h₂ : Grows σ₁ σ₂) : Fresh σ σ₂ b := by
  refine ⟨(h₁.taken_trans h₂).symm ▸ Or.inl h.1, fun i hi hb => ?_⟩
  rw [h₁.born_trans h₂] at hi
  rcases hi with hi | hi
  · rw [(h₂.sameOn h₁.sound).owns hi] at hb
    exact h.2 i hi hb
  · have hTaken := h₂.sound.forest.owns_mem i hi b hb
    simpa [hTaken.2.2] using h.1.2.1

theorem Fresh.of_later (h : Fresh σ₁ σ₂ b) (h₁ : Grows σ σ₁) (h₂ : Grows σ₁ σ₂) :
    Fresh σ σ₂ b := by
  refine ⟨(h₁.taken_trans h₂).symm ▸ Or.inr h.1, fun i hi hb => ?_⟩
  rw [h₁.born_trans h₂] at hi
  rcases hi with hi | hi
  · rw [(h₂.sameOn h₁.sound).owns hi] at hb
    have hTaken := h₁.sound.forest.owns_mem i hi b hb
    simpa [hTaken.2.1] using h.1.2.2
  · exact h.2 i hi hb

theorem FreshRoot.mono (h : FreshRoot σ σ₁ c) (h₁ : Grows σ σ₁) (h₂ : Grows σ₁ σ₂) :
    FreshRoot σ σ₂ c := by
  refine ⟨(h₁.born_trans h₂).symm ▸ Or.inl h.1, fun i hi hc => ?_⟩
  rw [h₁.born_trans h₂] at hi
  rcases hi with hi | hi
  · rw [(h₂.sameOn h₁.sound).kids hi] at hc
    exact h.2 i hi hc
  · exact (h₂.sound.forest.kids_mem i hi c hc).2 h.1.1

theorem FreshRoot.of_later (h : FreshRoot σ₁ σ₂ c) (h₁ : Grows σ σ₁) (h₂ : Grows σ₁ σ₂) :
    FreshRoot σ σ₂ c := by
  refine ⟨(h₁.born_trans h₂).symm ▸ Or.inr h.1, fun i hi hc => ?_⟩
  rw [h₁.born_trans h₂] at hi
  rcases hi with hi | hi
  · rw [(h₂.sameOn h₁.sound).kids hi] at hc
    exact h.1.2 (h₁.sound.alive c (h₁.sound.forest.kids_mem i hi c hc))
  · exact h.2 i hi hc

section Steps

/-- A block is taken before anything is written to it. -/
theorem Grows.mark (σ : Store) (b : Nat) : Grows σ (σ.mark b) where
  bit c hc := by
    rw [mark_bit]
    split
    · rfl
    · exact hc
  inode _ _ := rfl
  data _ _ := rfl
  sound := by
    have hBorn : Born σ (σ.mark b) = ∅ := born_self σ
    rw [hBorn]
    exact (Sound.empty _).mono (Set.empty_subset _) fun c hc => ⟨hc.1, hc.2.1⟩

theorem Fresh.mark (hData : IsData b) (hFree : σ.bit b = false) : Fresh σ (σ.mark b) b :=
  ⟨⟨hData, by simp, hFree⟩, fun _ hi => (hi.2 hi.1).elim⟩

theorem Grows.sameOn_write (h : Grows σ σ') (hb : Fresh σ σ' b) (buf : Block) :
    SameOn σ' (σ'.write b buf) (Born σ σ') := by
  refine ⟨fun _ _ => rfl, fun i hi k hk => ?_⟩
  have hne : σ'.slot i k ≠ b := fun he =>
    hb.2 i hi (he ▸ mem_owns_of_used (h.sound.slot_ne i hi k hk) hk)
  rw [write_data, if_neg hne]

/-- A new block which nothing refers to may be written. -/
theorem Grows.write (h : Grows σ σ') (hb : Fresh σ σ' b) (buf : Block) :
    Grows σ (σ'.write b buf) where
  bit := h.bit
  inode := h.inode
  data c hc := by
    have hne : c ≠ b := fun he => hc (he ▸ hb.1)
    rw [write_data, if_neg hne, h.data c hc]
  sound := h.sound.congr (h.sameOn_write hb buf) fun _ hc => hc.2.1

theorem Fresh.write (hb : Fresh σ σ' b) (c : Nat) (buf : Block) :
    Fresh σ (σ'.write c buf) b := hb

variable {ino : Inode}

theorem size_putInode_self : (σ.putInode i ino).size i = ino.size.toNat := by simp [size]

theorem slot_putInode_self : (σ.putInode i ino).slot i k = ino.slot k := by simp [slot]

theorem kids_putInode_of_size_le (h : ino.size.toNat ≤ 100) : (σ.putInode i ino).kids i = [] :=
  kids_of_size_le (size_putInode_self.trans_le h)

theorem born_putInode (hType : ino.type ≠ 0) (hDead : ¬σ.Alive i) :
    Born σ (σ.putInode i ino) = {i} := by
  ext j
  constructor
  · rintro ⟨hAlive, hFree⟩
    by_contra hne
    have hji : ¬j = i := hne
    exact hFree (by rwa [Alive, putInode_inode, if_neg hji] at hAlive)
  · rintro rfl
    exact ⟨by rwa [Alive, putInode_inode, if_pos rfl], hDead⟩

/-- A new inode starts without blocks and without children. -/
theorem Grows.putInode (hInum : IsInum i) (hDead : ¬σ.Alive i) (hType : ino.type ≠ 0)
    (hSize : ino.size = 0) (hSlot : ∀ k, ino.slot k = 0) : Grows σ (σ.putInode i ino) := by
  have hBorn : Born σ (σ.putInode i ino) = {i} := born_putInode hType hDead
  have hTaken : Taken σ (σ.putInode i ino) = ∅ := taken_self σ
  have hKids : (σ.putInode i ino).kids i = [] := kids_putInode_of_size_le (by simp [hSize])
  have hOwns : (σ.putInode i ino).owns i = [] := by
    simp [owns, slot_putInode_self, hSlot]
  have hNone : (σ.putInode i ino).size i = 0 := by rw [size_putInode_self, hSize]; rfl
  refine ⟨fun b hb => hb, fun j hj => ?_, fun _ _ => rfl, ?_⟩
  · rw [hBorn] at hj
    have hji : ¬j = i := hj
    rw [putInode_inode, if_neg hji]
  rw [hBorn, hTaken]
  refine ⟨IsForest.singleton hOwns hKids _ _, ?_, ?_, fun _ hb => hb.elim, ?_, ?_, ?_⟩
  · rintro j rfl
    exact hInum
  · rintro j rfl
    exact (hBorn ▸ rfl : j ∈ Born σ (σ.putInode j ino)).1
  · rintro j rfl
    omega
  · rintro j rfl k hk
    simp only [Used, hNone] at hk
    omega
  · rintro j rfl hj
    omega

theorem FreshRoot.putInode (hDead : ¬σ.Alive i) (hType : ino.type ≠ 0) (hSize : ino.size = 0) :
    FreshRoot σ (σ.putInode i ino) i := by
  have hBorn : Born σ (σ.putInode i ino) = {i} := born_putInode hType hDead
  refine ⟨hBorn ▸ rfl, fun j hj => ?_⟩
  rw [hBorn] at hj
  obtain rfl : j = i := hj
  rw [kids_putInode_of_size_le (by simp [hSize])]
  exact List.not_mem_nil

end Steps

/-- What `write_file` does to an inode `r` in use: the disk grows to `σ₁`, then
`r` is put back with new blocks in some slots and with new children. -/
structure Rewrites (σ σ₁ τ : Store) (r : Nat) : Prop where
  grows : Grows σ σ₁
  old : σ.Alive r
  bit : τ.bit = σ₁.bit
  data : τ.data = σ₁.data
  inode : ∀ i, i ≠ r → τ.inode i = σ₁.inode i
  alive : τ.Alive r
  size_le : τ.size r ≤ 101
  slot : ∀ k < 101, τ.slot r k = σ.slot r k ∨ Fresh σ σ₁ (τ.slot r k)
  slot_inj : ∀ k < 101, ∀ l < 101, Fresh σ σ₁ (τ.slot r k) → τ.slot r k = τ.slot r l →
    Fresh σ σ₁ (τ.slot r l) → k = l
  slot_ne : ∀ k, τ.Used r k → τ.slot r k ≠ 0
  packed : 100 < τ.size r → inumBuf (τ.data (τ.slot r 100)) =
    τ.kids r ++ List.replicate (128 - (τ.kids r).length) 0
  kid : ∀ c ∈ τ.kids r, FreshRoot σ σ₁ c
  kids_nodup : (τ.kids r).Nodup
  shallow : ∀ c ∈ τ.kids r, σ₁.shape.Shallow (maxDepth - 1) c

namespace Rewrites

variable {τ : Store} {r : Nat}

theorem sameOn (h : Rewrites σ σ₁ τ r) {P : Set Nat} (hP : ∀ i ∈ P, i ≠ r) : SameOn σ₁ τ P where
  inode i hi := h.inode i (hP i hi)
  data _ _ _ _ := by rw [h.data]

theorem alive_iff (h : Rewrites σ σ₁ τ r) : τ.Alive i ↔ σ₁.Alive i := by
  by_cases hi : i = r
  · subst hi
    exact ⟨fun _ => h.grows.alive h.old, fun _ => h.alive⟩
  · rw [Alive, h.inode i hi, Alive]

theorem born (h : Rewrites σ σ₁ τ r) (ρ : Store) : Born ρ τ = Born ρ σ₁ := by
  ext i
  exact and_congr_left fun _ => h.alive_iff

theorem taken (h : Rewrites σ σ₁ τ r) (ρ : Store) : Taken ρ τ = Taken ρ σ₁ := by
  ext b
  simp only [Taken, Set.mem_ofPred_eq, h.bit]

/-- A sound set in which nobody lists `r` stays sound and gains the new inodes
and blocks. -/
theorem sound (h : Rewrites σ σ₁ τ r) (hS : σ.Sound A M) (hr : r ∈ A)
    (hRoot : ∀ i ∈ A, r ∉ σ.kids i) : τ.Sound (A ∪ Born σ σ₁) (M ∪ Taken σ σ₁) := by
  have hS₁ := h.grows.extend hS
  have hOld := h.grows.sameOn hS
  have hSame : SameOn σ₁ τ ((A ∪ Born σ σ₁) \ {r}) := h.sameOn fun i hi => hi.2
  have hOldSlot : ∀ k, σ₁.slot r k = σ.slot r k := hOld.slot hr
  have hRoot₁ : ∀ i ∈ A ∪ Born σ σ₁, r ∉ σ₁.kids i := by
    rintro i (hi | hi) hc
    · exact hRoot i hi (hOld.kids hi ▸ hc)
    · exact (h.grows.sound.forest.kids_mem i hi r hc).2 h.old
  have hOldMem : ∀ k < 101, σ.slot r k ≠ 0 → σ.slot r k ∈ M := fun k hk hne =>
    hS.forest.owns_mem r hr _ (slot_mem_owns hk hne)
  have hNotFresh : ∀ b ∈ M, ¬Fresh σ σ₁ b := fun b hb hFresh => by
    simpa [hFresh.1.2.2] using (hS.marked b hb).2
  have hForest : IsForest τ.shape maxDepth (A ∪ Born σ σ₁) (M ∪ Taken σ σ₁) := by
    refine hS₁.forest.replace (n := maxDepth - 1) (Or.inl hr) hRoot₁
      (fun i hi hne => hSame.owns ⟨hi, hne⟩) (fun i hi hne => hSame.kids ⟨hi, hne⟩) ?_ ?_ ?_
      h.kids_nodup h.shallow (by rw [maxDepth_eq])
    · intro b hb
      obtain ⟨hne, k, hk, rfl⟩ := (mem_owns τ).mp hb
      rcases h.slot k hk with hSlot | hFresh
      · rw [hSlot] at hne ⊢
        refine ⟨Or.inl (hOldMem k hk hne), Or.inl ?_⟩
        rw [← hOldSlot] at hne ⊢
        exact slot_mem_owns hk hne
      · refine ⟨Or.inr hFresh.1, Or.inr ?_⟩
        rintro i (hi | hi) hOwn
        · have hOwn' : τ.slot r k ∈ σ.owns i := hOld.owns hi ▸ hOwn
          exact hNotFresh _ (hS.forest.owns_mem i hi _ hOwn') hFresh
        · exact hFresh.2 i hi hOwn
    · refine (owns_nodup_iff τ).mpr fun k hk l hl he hne => ?_
      rcases h.slot k hk with hk' | hk' <;> rcases h.slot l hl with hl' | hl'
      · rw [hk', hl'] at he
        rw [hk'] at hne
        exact (owns_nodup_iff σ).mp (hS.forest.owns_nodup r hr) k hk l hl he hne
      · rw [← he, hk'] at hl'
        exact (hNotFresh _ (hOldMem k hk (hk' ▸ hne)) hl').elim
      · rw [he, hl'] at hk' hne
        exact (hNotFresh _ (hOldMem l hl hne) hk').elim
      · exact h.slot_inj k hk l hl hk' he hl'
    · intro c hc
      obtain ⟨hBorn, hNew⟩ := h.kid c hc
      refine ⟨Or.inr hBorn, fun he => hBorn.2 (he ▸ h.old), ?_⟩
      rintro i (hi | hi) _ hci
      · have hci' : c ∈ σ.kids i := hOld.kids hi ▸ hci
        exact hBorn.2 (hS.alive c (hS.forest.kids_mem i hi c hci'))
      · exact hNew i hi hci
  refine ⟨hForest, hS₁.inum, fun i hi => h.alive_iff.mpr (hS₁.alive i hi), ?_, ?_, ?_, ?_⟩
  · intro b hb
    rw [h.bit]
    exact hS₁.marked b hb
  · intro i hi
    by_cases he : i = r
    · exact he ▸ h.size_le
    · exact (hSame.size ⟨hi, he⟩).trans_le (hS₁.size_le i hi)
  · intro i hi k hk
    by_cases he : i = r
    · subst he
      exact h.slot_ne k hk
    · rw [Used, hSame.size ⟨hi, he⟩] at hk
      rw [hSame.slot ⟨hi, he⟩]
      exact hS₁.slot_ne i hi k hk
  · intro i hi hSize
    by_cases he : i = r
    · subst he
      exact h.packed hSize
    · rw [hSame.size ⟨hi, he⟩] at hSize
      rw [hSame.slot ⟨hi, he⟩, hSame.kids ⟨hi, he⟩, h.data]
      exact hS₁.packed i hi hSize

/-- A new root may be rewritten: seen from before its allocation the disk only
grows. -/
theorem grows_trans (h : Rewrites σ σ₁ τ r) {ρ : Store} (h₀ : Grows ρ σ)
    (hRoot : FreshRoot ρ σ r) : Grows ρ τ := by
  have h₁ := h₀.trans h.grows
  refine ⟨fun b hb => by rw [h.bit]; exact h₁.bit b hb, fun i hi => ?_, fun b hb => ?_, ?_⟩
  · rw [h.born] at hi
    have hne : i ≠ r := fun he => hi (he ▸ (hRoot.mono h₀ h.grows).1)
    rw [h.inode i hne]
    exact h₁.inode i hi
  · rw [h.taken] at hb
    rw [h.data]
    exact h₁.data b hb
  · rw [h.born, h.taken, h₀.born_trans h.grows, h₀.taken_trans h.grows]
    exact h.sound h₀.sound hRoot.1 hRoot.2

theorem freshRoot_trans (h : Rewrites σ σ₁ τ r) {ρ : Store} (h₀ : Grows ρ σ)
    (hRoot : FreshRoot ρ σ r) : FreshRoot ρ τ r := by
  have hMid := hRoot.mono h₀ h.grows
  refine ⟨(h.born ρ).symm ▸ hMid.1, fun i hi hc => ?_⟩
  rw [h.born] at hi
  by_cases he : i = r
  · subst he
    exact (h.kid i hc).1.2 h.old
  · have hSame : SameOn σ₁ τ {i} := h.sameOn fun j hj => hj ▸ he
    exact hMid.2 i hi (hSame.kids rfl ▸ hc)

end Rewrites

end Store
end InodeFS
