import InodeFS.Session

/-! `padding_file` on an intact disk. `set_attr` calls it to make a file
smaller: it lowers the size fields of the inode and of its first children. Where
blocks are missing it adds zero blocks, and where children are missing it
allocates inodes that nobody lists. -/
namespace InodeFS

open Bytes Exec Ownership

namespace Store

variable {σ σ' σ₁ : Store} {live A : Set Nat} {r b : Nat} {ino : Inode}

/-- A marked block that no inode of `A` has in a slot. -/
def Spare (σ : Store) (A : Set Nat) (b : Nat) : Prop := b ∈ σ.Marked ∧ ∀ i ∈ A, b ∉ σ.owns i

/-- `ino` may replace the inode `r`: its slots are old or hold spare blocks, and
it lists the old children or none. -/
structure Refits (σ : Store) (A : Set Nat) (r : Nat) (ino : Inode) : Prop where
  type : ino.type = (σ.inode r).type
  size_le : ino.size.toNat ≤ 101
  slot : ∀ k < 101, ino.slot k = σ.slot r k ∨ σ.Spare A (ino.slot k)
  slot_inj : ∀ k < 101, ∀ l < 101, ino.slot k = ino.slot l → ino.slot k ≠ 0 → k = l
  slot_ne : ∀ k < min ino.size.toNat 100, ino.slot k ≠ 0
  kids : 100 < ino.size.toNat → 100 < σ.size r ∧ ino.slot 100 = σ.slot r 100

theorem alive_putInode_iff (hType : ino.type = (σ.inode r).type) (i : Nat) :
    (σ.putInode r ino).Alive i ↔ σ.Alive i := by
  rw [Alive, putInode_inode]
  by_cases hi : i = r
  · rw [if_pos hi, hType, hi, Alive]
  · rw [if_neg hi, Alive]

theorem size_putInode_ne {i : Nat} (h : i ≠ r) : (σ.putInode r ino).size i = σ.size i := by
  rw [size, putInode_inode, if_neg h, size]

theorem slot_putInode_ne {i : Nat} (h : i ≠ r) (k : Nat) :
    (σ.putInode r ino).slot i k = σ.slot i k := by
  rw [Store.slot, putInode_inode, if_neg h, Store.slot]

theorem kids_putInode_ne {i : Nat} (h : i ≠ r) : (σ.putInode r ino).kids i = σ.kids i := by
  unfold Store.kids
  rw [size_putInode_ne h, slot_putInode_ne h, putInode_data]

theorem owns_putInode_ne {i : Nat} (h : i ≠ r) : (σ.putInode r ino).owns i = σ.owns i := by
  refine owns_congr ?_
  rw [putInode_inode, if_neg h]

namespace Refits

theorem kids_eq (h : Refits σ A r ino) (hSize : 100 < ino.size.toNat) :
    (σ.putInode r ino).kids r = σ.kids r := by
  obtain ⟨hOld, hSlot⟩ := h.kids hSize
  rw [kids_of_size (by rwa [size_putInode_self]), kids_of_size hOld, slot_putInode_self, hSlot,
    putInode_data]

theorem kids_sublist (h : Refits σ A r ino) (i : Nat) :
    List.Sublist ((σ.putInode r ino).kids i) (σ.kids i) := by
  by_cases hi : i = r
  · subst hi
    by_cases hSize : 100 < ino.size.toNat
    · rw [h.kids_eq hSize]
    · rw [kids_putInode_of_size_le (by omega)]
      exact List.nil_sublist _
  · rw [kids_putInode_ne hi]

theorem sound (h : Refits σ A r ino) (hS : σ.Sound A σ.Marked) (hr : r ∈ A) :
    (σ.putInode r ino).Sound A σ.Marked := by
  have hForest : IsForest (σ.putInode r ino).shape maxDepth A σ.Marked := by
    refine hS.forest.refit (fun i _ hi => owns_putInode_ne hi) (fun b hb => ?_) ?_
      (fun i _ => h.kids_sublist i) hr
    · obtain ⟨hne, k, hk, rfl⟩ := (mem_owns _).mp hb
      rw [slot_putInode_self] at hne ⊢
      cases h.slot k hk with
      | inl hOld =>
          rw [hOld] at hne ⊢
          have hMem := slot_mem_owns hk hne
          exact ⟨hS.forest.owns_mem r hr _ hMem, Or.inl hMem⟩
      | inr hSpare => exact ⟨hSpare.1, Or.inr hSpare.2⟩
    · refine (owns_nodup_iff _).mpr fun k hk l hl he hne => ?_
      rw [slot_putInode_self] at he hne
      rw [slot_putInode_self] at he
      exact h.slot_inj k hk l hl he hne
  refine ⟨hForest, hS.inum, fun i hi => (alive_putInode_iff h.type i).mpr (hS.alive i hi),
    fun b hb => hb, fun i hi => ?_, fun i hi k hk => ?_, fun i hi hSize => ?_⟩
  · by_cases he : i = r
    · rw [he, size_putInode_self]
      exact h.size_le
    · rw [size_putInode_ne he]
      exact hS.size_le i hi
  · by_cases he : i = r
    · subst he
      rw [Used, size_putInode_self] at hk
      rw [slot_putInode_self]
      rcases hk with hk | ⟨rfl, hk⟩
      · exact h.slot_ne k hk
      · obtain ⟨hOld, hSlot⟩ := h.kids hk
        rw [hSlot]
        exact hS.slot_ne i hi 100 (Or.inr ⟨rfl, hOld⟩)
    · rw [slot_putInode_ne he]
      exact hS.slot_ne i hi k (by rwa [Used, size_putInode_ne he] at hk)
  · by_cases he : i = r
    · subst he
      rw [size_putInode_self] at hSize
      rw [h.kids_eq hSize, slot_putInode_self, (h.kids hSize).2, putInode_data]
      exact hS.packed i hi (h.kids hSize).1
    · rw [size_putInode_ne he] at hSize
      rw [kids_putInode_ne he, slot_putInode_ne he, putInode_data]
      exact hS.packed i hi hSize

theorem intact (h : Refits σ {i | σ.Alive i} r ino) (hI : σ.Intact live) (hr : σ.Alive r) :
    (σ.putInode r ino).Intact live := by
  have hAlive : {i | (σ.putInode r ino).Alive i} = {i | σ.Alive i} :=
    Set.ext (alive_putInode_iff h.type)
  refine ⟨?_, fun i hi => (alive_putInode_iff h.type i).mpr (hI.alive i hi),
    fun i hi j hj hMem => ?_⟩
  · rw [hAlive]
    exact h.sound hI.sound hr
  · exact hI.root i hi j ((alive_putInode_iff h.type j).mp hj) ((h.kids_sublist j).subset hMem)

end Refits

/-- A new inode or another version of `r` leaves a block spare that it does not
use. -/
theorem Spare.putInode (h : σ.Spare {i | σ.Alive i} b) (hType : ino.type = (σ.inode r).type)
    (hSlot : ∀ k < 101, ino.slot k ≠ b) :
    (σ.putInode r ino).Spare {i | (σ.putInode r ino).Alive i} b := by
  refine ⟨h.1, fun i hi hb => ?_⟩
  by_cases he : i = r
  · subst he
    obtain ⟨-, k, hk, hEq⟩ := (mem_owns _).mp hb
    rw [slot_putInode_self] at hEq
    exact hSlot k hk hEq
  · rw [owns_putInode_ne he] at hb
    exact h.2 i ((alive_putInode_iff hType i).mp hi) hb

/-- New inodes own new blocks only. -/
theorem Spare.grows (h : σ.Spare {i | σ.Alive i} b) (hI : σ.Intact live) (hGrows : Grows σ σ') :
    σ'.Spare {i | σ'.Alive i} b := by
  refine ⟨⟨h.1.1, hGrows.bit b h.1.2⟩, fun i hi hb => ?_⟩
  by_cases hOld : σ.Alive i
  · rw [(hGrows.sameOn hI.sound).owns hOld] at hb
    exact h.2 i hOld hb
  · have hTaken := hGrows.sound.forest.owns_mem i ⟨hi, hOld⟩ b hb
    simpa [hTaken.2.2] using h.1.2

end Store

open Store

section Direct

/-- After `n` rounds of the direct loop: the slots from the old size on hold new
blocks. -/
structure DirectPadded (σ σ' : Store) (old ino : Inode) (n : Nat) : Prop where
  grows : Grows σ σ'
  inode : σ'.inode = σ.inode
  type : ino.type = old.type
  size : ino.size = old.size
  keep : ∀ k, ¬(old.size.toNat ≤ k ∧ k < n) → ino.slot k = old.slot k
  taken : ∀ k, old.size.toNat ≤ k → k < n → ino.slot k ∈ Taken σ σ'
  inj : ∀ k l, old.size.toNat ≤ k → k < n → old.size.toNat ≤ l → l < n →
    ino.slot k = ino.slot l → k = l
  zeros : ∀ k, old.size.toNat ≤ k → k < n → σ'.data (ino.slot k) = Block.zeros
  blocks : σ'.freeBlocks + (n - old.size.toNat) = σ.freeBlocks

theorem DirectPadded.refl (σ : Store) (old : Inode) : DirectPadded σ σ old old 0 where
  grows := Grows.refl σ
  inode := rfl
  type := rfl
  size := rfl
  keep _ _ := rfl
  taken _ _ h := absurd h (Nat.not_lt_zero _)
  inj _ _ _ h := absurd h (Nat.not_lt_zero _)
  zeros _ _ h := absurd h (Nat.not_lt_zero _)
  blocks := by omega

theorem DirectPadded.skip {σ σ' : Store} {old ino : Inode} {n : Nat}
    (h : DirectPadded σ σ' old ino n) (hn : n < old.size.toNat) :
    DirectPadded σ σ' old ino (n + 1) :=
  { h with
    keep := fun k hk => h.keep k fun hk' => hk ⟨hk'.1, by omega⟩
    taken := fun k hk hlt => by omega
    inj := fun k l hk hlt => by omega
    zeros := fun k hk hlt => by omega
    blocks := by
      have := h.blocks
      omega }

theorem DirectPadded.add {σ σ' : Store} {old ino : Inode} {n b : Nat}
    (h : DirectPadded σ σ' old ino n) (hn : old.size.toNat ≤ n) (hSlot : n < 100)
    (hData : IsData b) (hFree : σ'.bit b = false) :
    DirectPadded σ ((σ'.mark b).write b Block.zeros) old (ino.setSlot n b) (n + 1) := by
  have hOld : σ.bit b = false := by
    cases hBit : σ.bit b with
    | false => rfl
    | true => simpa [hFree] using h.grows.bit b hBit
  have hStep : Grows σ' ((σ'.mark b).write b Block.zeros) :=
    (Grows.mark σ' b).write (Fresh.mark hData hFree) Block.zeros
  have hSet : ∀ k, (ino.setSlot n b).slot k = if k = n then b else ino.slot k := by
    have := isData_iff.mp hData
    exact ino.setSlot_slot (by omega) (by omega)
  have hNew : ∀ k, old.size.toNat ≤ k → k < n → ino.slot k ≠ b := by
    intro k hk hlt he
    have hTaken := h.taken k hk hlt
    rw [he] at hTaken
    simpa [hFree] using hTaken.2.1
  refine ⟨h.grows.trans hStep, h.inode, h.type, h.size, fun k hk => ?_, fun k hk hlt => ?_,
    fun k l hk hkn hl hln he => ?_, fun k hk hlt => ?_, ?_⟩
  · rw [hSet, if_neg fun (he : k = n) => hk ⟨by omega, by omega⟩]
    exact h.keep k fun hk' => hk ⟨hk'.1, by omega⟩
  · rw [hSet]
    by_cases he : k = n
    · rw [if_pos he]
      exact ⟨hData, by simp, hOld⟩
    · rw [if_neg he]
      have hTaken := h.taken k hk (by omega)
      exact ⟨hTaken.1, hStep.bit _ hTaken.2.1, hTaken.2.2⟩
  · rw [hSet, hSet] at he
    by_cases hkn' : k = n <;> by_cases hln' : l = n
    · rw [hkn', hln']
    · rw [if_pos hkn', if_neg hln'] at he
      exact (hNew l hl (by omega) he.symm).elim
    · rw [if_neg hkn', if_pos hln'] at he
      exact (hNew k hk (by omega) he).elim
    · rw [if_neg hkn', if_neg hln'] at he
      exact h.inj k l hk (by omega) hl (by omega) he
  · rw [hSet, write_data]
    by_cases he : k = n
    · rw [if_pos he, if_pos rfl]
    · rw [if_neg he, if_neg (hNew k hk (by omega))]
      exact h.zeros k hk (by omega)
  · have hCount : ((σ'.mark b).write b Block.zeros).freeBlocks + 1 = σ'.freeBlocks :=
      freeBlocks_mark hData hFree
    have := h.blocks
    omega

/-- The direct loop of `padding_file`. With blocks enough no id is 0. -/
theorem wp_padDirect_loop {m : Machine} (old : Inode) {n : Nat} (hn : n ≤ 100)
    (hEnough : n - old.size.toNat ≤ m.store.freeBlocks) :
    wp ((List.range n).foldlM padDirect old)
      (fun ino m' => DirectPadded m.store m'.store old ino n) (fun _ _ => False) m := by
  suffices h : wp ((List.range n).foldlM padDirect old)
      (fun ino m' => DirectPadded m.store m'.store old ino (List.range n).length)
      (fun _ _ => False) m by simpa using h
  apply wp_foldlM (fun done ino (m' : Machine) =>
    DirectPadded m.store m'.store old ino done.length) (DirectPadded.refl m.store old)
  intro done i rest hl ino m₁ hDone
  obtain ⟨rfl, hlt⟩ := index_of_range_eq hl
  have hBlocks := hDone.blocks
  rw [List.length_append, List.length_singleton, padDirect]
  apply wp_ite
  · intro hGe
    rw [hDone.size] at hGe
    rw [wp_bind]
    apply wp_allocBlock
    · intro b m₂ hData hFree _ hStore
      obtain ⟨m₃, hRun, hWritten⟩ := writeBlock_data (m := m₂) (Or.inl hData) Block.zeros
      rw [wp_bind]
      refine wp_of_ok hRun ?_
      rw [wp_pure, hWritten, hStore]
      exact hDone.add hGe (by omega) hData hFree
    · intro hFull
      have hNone := freeBlocks_eq_zero hFull
      omega
  · intro hLt
    rw [hDone.size] at hLt
    exact hDone.skip (by omega)

end Direct

section Leaf

variable {σ σ₁ σ₂ : Store} {live : Set Nat} {r : Nat}

/-- A new block is spare as long as no inode was changed. -/
theorem spare_of_taken {b : Nat} (hI : σ.Intact live) (hInode : σ₁.inode = σ.inode)
    (hb : b ∈ Taken σ σ₁) : σ₁.Spare {i | σ₁.Alive i} b := by
  refine ⟨⟨hb.1, hb.2.1⟩, fun i hi hOwn => ?_⟩
  have hOwns : σ₁.owns i = σ.owns i := owns_congr (congrFun hInode i)
  have hAlive : σ.Alive i := by
    have hSame : σ₁.Alive i := hi
    rwa [Alive, hInode] at hSame
  rw [hOwns] at hOwn
  have hMarked := hI.sound.forest.owns_mem i hAlive b hOwn
  simpa [hb.2.2] using hMarked.2

/-- The inode which `padding_file` puts back. -/
def resized (ino : Inode) (n : Nat) (now : UInt32) : Inode :=
  { ino with size := UInt32.ofNat (min n 101), mtime := now }

theorem resized_size (ino : Inode) (n : Nat) (now : UInt32) :
    (resized ino n now).size.toNat = min n 101 :=
  UInt32.toNat_ofNat_of_lt' (show min n 101 < 2 ^ 32 by omega)

theorem resized_slot (ino : Inode) (n : Nat) (now : UInt32) (k : Nat) :
    (resized ino n now).slot k = ino.slot k := rfl

theorem DirectPadded.refits {ino : Inode} {n : Nat}
    (h : DirectPadded σ σ₁ (σ.inode r) ino (min n 100)) (hI : σ.Intact live) (hr : σ.Alive r)
    (hSpare : ∀ b, σ₁.Spare {i | σ₁.Alive i} b → σ₂.Spare {i | σ₂.Alive i} b)
    (hSame : σ₂.inode r = σ.inode r) (hKids : n ≤ 100 ∨ 100 < σ.size r) (now : UInt32) :
    Refits σ₂ {i | σ₂.Alive i} r (resized ino n now) := by
  have hSlot : ∀ k, σ₂.slot r k = σ.slot r k := fun k => by rw [slot, hSame, slot]
  have hOld : (σ.inode r).size.toNat = σ.size r := rfl
  have hApart : ∀ k < 101, ∀ l, σ.size r ≤ l → l < min n 100 → ino.slot l ≠ 0 →
      σ.slot r k ≠ ino.slot l := by
    intro k hk l hl hln hne he
    have hTaken := h.taken l hl hln
    rw [← he] at hTaken hne
    have hMarked := hI.sound.forest.owns_mem r hr _ (slot_mem_owns hk hne)
    simpa [hTaken.2.2] using hMarked.2
  refine ⟨?_, ?_, fun k hk => ?_, fun k hk l hl he hne => ?_, fun k hk => ?_, fun hSize => ?_⟩
  · rw [hSame]
    exact h.type
  · rw [resized_size]
    omega
  · rw [resized_slot, hSlot]
    by_cases hNew : σ.size r ≤ k ∧ k < min n 100
    · exact Or.inr (hSpare _ (spare_of_taken hI h.inode (h.taken k hNew.1 hNew.2)))
    · exact Or.inl (h.keep k hNew)
  · rw [resized_slot] at he hne
    rw [resized_slot] at he
    by_cases hk' : σ.size r ≤ k ∧ k < min n 100 <;> by_cases hl' : σ.size r ≤ l ∧ l < min n 100
    · exact h.inj k l hk'.1 hk'.2 hl'.1 hl'.2 he
    · exact (hApart l hl k hk'.1 hk'.2 hne ((h.keep l hl').symm.trans he.symm)).elim
    · exact (hApart k hk l hl'.1 hl'.2 (he ▸ hne) ((h.keep k hk').symm.trans he)).elim
    · rw [h.keep k hk'] at he hne
      rw [h.keep l hl'] at he
      exact (owns_nodup_iff σ).mp (hI.sound.forest.owns_nodup r hr) k hk l hl he hne
  · rw [resized_size] at hk
    rw [resized_slot]
    by_cases hNew : σ.size r ≤ k ∧ k < min n 100
    · have hData := isData_iff.mp (h.taken k hNew.1 hNew.2).1
      omega
    · rw [h.keep k hNew]
      exact hI.sound.slot_ne r hr k (Or.inl (by omega))
  · rw [resized_size] at hSize
    have hBig : 100 < σ.size r := by omega
    rw [Store.size, hSame, resized_slot, hSlot]
    exact ⟨hBig, h.keep 100 (by omega)⟩

/-- `padding_file` gave the inode `r` exactly `n` blocks, at most 100. -/
structure Padded (σ σ' : Store) (r n : Nat) : Prop where
  inode : ∀ i, i ≠ r → σ'.inode i = σ.inode i
  type : (σ'.inode r).type = (σ.inode r).type
  size : σ'.size r = n
  slot : ∀ k, ¬(σ.size r ≤ k ∧ k < n) → σ'.slot r k = σ.slot r k
  bit : ∀ b, σ.bit b = true → σ'.bit b = true
  data : ∀ b, σ.bit b = true → σ'.data b = σ.data b
  spare : ∀ b, σ.Spare {i | σ.Alive i} b → σ'.Spare {i | σ'.Alive i} b
  blocks : σ'.freeBlocks + (n - σ.size r) = σ.freeBlocks

theorem Padded.alive_iff {σ' : Store} {n : Nat} (h : Padded σ σ' r n) (i : Nat) :
    σ'.Alive i ↔ σ.Alive i := by
  by_cases hi : i = r
  · rw [hi, Alive, h.type, Alive]
  · rw [Alive, h.inode i hi, Alive]

/-- An inode that ends with at most 100 blocks. Its children are not visited. -/
theorem wp_padLeaf {m : Machine} {n stack : Nat} (hI : m.store.Intact live)
    (hr : m.store.Alive r) (hn : blocksFor n ≤ 100)
    (hEnough : blocksFor n - m.store.size r ≤ m.store.freeBlocks) (hStack : 0 < stack) :
    wp (paddingFile stack r n)
      (fun _ m' => m'.store.Intact live ∧ Padded m.store m'.store r (blocksFor n))
      (fun _ _ => False) m := by
  obtain ⟨stack, rfl⟩ := Nat.exists_eq_add_of_lt hStack
  have hMod : blocksFor n % 2 ^ 32 = blocksFor n := Nat.mod_eq_of_lt (by omega)
  have hInum := isInum_of_alive hr
  rw [Nat.zero_add, paddingFile, wp_bind, wp_derefInode hInum]
  simp only [hMod, ndirect_eq]
  rw [wp_bind]
  refine wp_mono (wp_padDirect_loop _ (n := min (blocksFor n) 100) (by omega) ?_)
    (fun ino m₁ hDirect => ?_) fun _ _ hFalse => hFalse
  · have hOld : (m.store.inode r).size.toNat = m.store.size r := rfl
    omega
  rw [wp_bind, padIndirect, if_neg (by rw [ndirect_eq]; omega), wp_pure, wp_bind]
  refine wp_time fun now m₂ hm₂ => ?_
  obtain ⟨m₃, hRun, hStore⟩ := putInode_eq (m := m₂) hInum (resized ino (blocksFor n) now)
  refine wp_of_ok hRun ?_
  rw [hStore, hm₂]
  have hSame : m₁.store.inode r = m.store.inode r := by rw [hDirect.inode]
  have hRefits := hDirect.refits hI hr (fun b hb => hb) hSame (Or.inl hn) now
  have hAlive : m₁.store.Alive r := hDirect.grows.alive hr
  have hI₁ := hI.grows hDirect.grows
  refine ⟨hRefits.intact hI₁ hAlive, ?_⟩
  have hBlocks := hDirect.blocks
  refine ⟨fun i hi => ?_, ?_, ?_, fun k hk => ?_, hDirect.grows.bit, fun b hb => ?_,
    fun b hb => ?_, ?_⟩
  · rw [putInode_inode, if_neg hi, hDirect.inode]
  · rw [putInode_inode, if_pos rfl]
    exact hDirect.type
  · rw [size_putInode_self, resized_size]
    omega
  · rw [slot_putInode_self, resized_slot]
    exact hDirect.keep k fun hk' => hk ⟨hk'.1, by omega⟩
  · exact hDirect.grows.data_of_marked hb
  · refine (hb.grows hI hDirect.grows).putInode hRefits.type fun k hk he => ?_
    rw [resized_slot] at he
    by_cases hNew : m.store.size r ≤ k ∧ k < min (blocksFor n) 100
    · have hTaken := hDirect.taken k hNew.1 hNew.2
      rw [he] at hTaken
      simpa [hTaken.2.2] using hb.1.2
    · have hne := isData_iff.mp hb.1.1
      have hOld := hDirect.keep k hNew
      have hMem : m.store.slot r k ∈ m.store.owns r :=
        slot_mem_owns hk (by rw [slot, ← hOld, he]; omega)
      rw [slot, ← hOld, he] at hMem
      exact hb.2 r hr hMem
  · have hFree : (m₁.store.putInode r (resized ino (blocksFor n) now)).freeBlocks =
        m₁.store.freeBlocks := freeBlocks_congr rfl
    have hOld : (m.store.inode r).size.toNat = m.store.size r := rfl
    omega

end Leaf
end InodeFS
