import InodeFS.Isolation
import InodeFS.Padding

/-! `set_attr` on a live id. The loop over the children gives each of the first
ones its share of the blocks; the others keep theirs. -/
namespace InodeFS

open Bytes Exec Ownership Store

namespace Store

variable {σ σ' σ₁ : Store} {live : Set Nat} {r final i : Nat}

/-- Blocks of the child at index `k`, of `final` blocks in all. -/
def share (final k : Nat) : Nat := min (final - 100 * (k + 1)) 100

/-- Blocks which `padding_file` adds to the child at index `k`. -/
def missing (σ : Store) (r final k : Nat) : Nat :=
  share final k - ((σ.kids r)[k]?.map σ.size).getD 0

/-- Blocks which `padding_file` takes to bring `r` to `final` blocks. -/
def missingBlocks (σ : Store) (r final : Nat) : Nat :=
  (min final 100 - σ.size r) + ((List.range' 0 128).map (σ.missing r final)).sum

/-- The child at index `k` of `r` got its share. -/
def SharePadded (σ σ' : Store) (r final k : Nat) : Prop :=
  ∀ c, (σ.kids r)[k]? = some c → σ'.size c = share final k ∧
    ∀ l, ¬(σ.size c ≤ l ∧ l < share final k) → σ'.slot c l = σ.slot c l

/-- The loop of `padding_file` over the children, at index `i`. -/
structure LoopPadded (σ σ' : Store) (live : Set Nat) (r final i : Nat) : Prop where
  intact : σ'.Intact live
  spare : ∀ b, σ.Spare {j | σ.Alive j} b → σ'.Spare {j | σ'.Alive j} b
  bit : ∀ b, σ.bit b = true → σ'.bit b = true
  data : ∀ b, σ.bit b = true → σ'.data b = σ.data b
  alive : ∀ j, σ.Alive j → σ'.Alive j
  inode : ∀ j, σ.Alive j → j ∉ (σ.kids r).take i → σ'.inode j = σ.inode j
  more : ∀ k < i, 100 * (k + 1) < final
  kid : ∀ k < i, σ.SharePadded σ' r final k
  enough : ((List.range' i (128 - i)).map (σ.missing r final)).sum ≤ σ'.freeBlocks

theorem LoopPadded.refl (hI : σ.Intact live)
    (hEnough : ((List.range' 0 128).map (σ.missing r final)).sum ≤ σ.freeBlocks) :
    LoopPadded σ σ live r final 0 where
  intact := hI
  spare _ h := h
  bit _ h := h
  data _ _ := rfl
  alive _ h := h
  inode _ _ _ := rfl
  more _ h := absurd h (Nat.not_lt_zero _)
  kid _ h := absurd h (Nat.not_lt_zero _)
  enough := hEnough

theorem LoopPadded.enough_here (h : LoopPadded σ σ' live r final i) (hi : i < 128) :
    σ.missing r final i + ((List.range' (i + 1) (128 - (i + 1))).map (σ.missing r final)).sum ≤
      σ'.freeBlocks := by
  have hSum := h.enough
  rwa [show 128 - i = (128 - (i + 1)) + 1 by omega, List.range'_succ, List.map_cons,
    List.sum_cons] at hSum

/-- One listed child is padded. -/
theorem LoopPadded.listed {c : Nat} (h : LoopPadded σ σ₁ live r final i) (hi : i < 128)
    (hMore : 100 * (i + 1) < final) (hSound : σ.Intact live) (hr : σ.Alive r) (hc : (σ.kids r)[i]? = some c)
    (hI : σ'.Intact live) (hPad : Padded σ₁ σ' c (share final i)) :
    LoopPadded σ σ' live r final (i + 1) := by
  have hMem : c ∈ σ.kids r := List.mem_of_getElem? hc
  have hAlive : σ.Alive c := hSound.sound.forest.kids_mem r hr c hMem
  have hTake : (σ.kids r).take (i + 1) = (σ.kids r).take i ++ [c] := by
    rw [List.take_add_one, hc]
    rfl
  have hNodup : ((σ.kids r).take (i + 1)).Nodup :=
    (hSound.sound.forest.kids_nodup r hr).sublist (List.take_sublist _ _)
  rw [hTake] at hNodup
  have hNew : c ∉ (σ.kids r).take i := fun hOld =>
    (List.nodup_append.mp hNodup).2.2 c hOld c (by simp) rfl
  have hSame : σ₁.inode c = σ.inode c := h.inode c hAlive hNew
  have hSize : σ₁.size c = σ.size c := by rw [size, hSame, size]
  refine ⟨hI, fun b hb => hPad.spare b (h.spare b hb), fun b hb => hPad.bit b (h.bit b hb),
    fun b hb => (hPad.data b (h.bit b hb)).trans (h.data b hb),
    fun j hj => (hPad.alive_iff j).mpr (h.alive j hj), fun j hj hOut => ?_, fun k hk => ?_,
    fun k hk d hd => ?_, ?_⟩
  · rw [hTake, List.mem_append, List.mem_singleton, not_or] at hOut
    rw [hPad.inode j hOut.2]
    exact h.inode j hj hOut.1
  · by_cases he : k = i
    · rwa [he]
    · exact h.more k (by omega)
  · by_cases he : k = i
    · subst he
      obtain rfl : c = d := Option.some.inj (hc.symm.trans hd)
      refine ⟨hPad.size, fun l hl => ?_⟩
      rw [hPad.slot l (by rwa [hSize]), slot, hSame, slot]
    · have hlt : k < i := by omega
      have hne : d ≠ c := by
        rintro rfl
        have hAt : d ∈ (σ.kids r).take i := by
          apply List.mem_of_getElem? (i := k)
          rw [List.getElem?_take_of_lt hlt, hd]
        exact hNew hAt
      obtain ⟨hDone, hSlot⟩ := h.kid k hlt d hd
      rw [size, hPad.inode d hne]
      refine ⟨hDone, fun l hl => ?_⟩
      rw [slot, hPad.inode d hne]
      exact hSlot l hl
  · have hSum := h.enough_here hi
    have hBlocks := hPad.blocks
    rw [missing, hc, Option.map_some, Option.getD_some, ← hSize] at hSum
    omega

/-- A new child is allocated and padded. Nobody lists it. -/
theorem LoopPadded.unlisted {c : Nat} {ino : Inode} (h : LoopPadded σ σ₁ live r final i)
    (hi : i < 128) (hMore : 100 * (i + 1) < final) (hSound : σ.Intact live) (hr : σ.Alive r)
    (hNone : (σ.kids r)[i]? = none)
    (hc : ¬σ₁.Alive c) (hGrows : Grows σ₁ (σ₁.putInode c ino)) (hSize : ino.size = 0)
    (hI : σ'.Intact live) (hPad : Padded (σ₁.putInode c ino) σ' c (share final i)) :
    LoopPadded σ σ' live r final (i + 1) := by
  have hLen : (σ.kids r).length ≤ i := List.getElem?_eq_none_iff.mp hNone
  have hTake : ∀ k, i ≤ k → (σ.kids r).take k = σ.kids r := fun k hk =>
    List.take_of_length_le (by omega)
  have hInode : ∀ j, σ.Alive j → σ'.inode j = σ₁.inode j := fun j hj => by
    have hne : j ≠ c := fun he => hc (he ▸ h.alive j hj)
    rw [hPad.inode j hne, putInode_inode, if_neg hne]
  refine ⟨hI, fun b hb => hPad.spare b ((h.spare b hb).grows h.intact hGrows),
    fun b hb => hPad.bit b (h.bit b hb), fun b hb => (hPad.data b (h.bit b hb)).trans (h.data b hb),
    fun j hj => ?_, fun j hj hOut => ?_, fun k hk => ?_, fun k hk d hd => ?_, ?_⟩
  · rw [Alive, hInode j hj]
    exact h.alive j hj
  · rw [hTake _ (by omega)] at hOut
    rw [hInode j hj]
    exact h.inode j hj (by rwa [hTake i (le_refl i)])
  · by_cases he : k = i
    · rwa [he]
    · exact h.more k (by omega)
  · have hlt : k < (σ.kids r).length := (List.getElem?_eq_some_iff.mp hd).choose
    have hAlive := hSound.sound.forest.kids_mem r hr d (List.mem_of_getElem? hd)
    obtain ⟨hDone, hSlot⟩ := h.kid k (by omega) d hd
    rw [size, hInode d hAlive]
    refine ⟨hDone, fun l hl => ?_⟩
    rw [slot, hInode d hAlive]
    exact hSlot l hl
  · have hSum := h.enough_here hi
    have hBlocks := hPad.blocks
    have hFree : (σ₁.putInode c ino).freeBlocks = σ₁.freeBlocks := freeBlocks_congr rfl
    have hZero : (σ₁.putInode c ino).size c = 0 := by rw [size_putInode_self, hSize]; rfl
    rw [missing, hNone, Option.map_none, Option.getD_none] at hSum
    omega

end Store

theorem blocksFor_share {final i : Nat} (h : 100 * (i + 1) < final) :
    blocksFor ((if final > (i + 2) * ndirect then ndirect
      else final - (i + 1) * ndirect) * blockSize) = share final i := by
  rw [ndirect_eq, blockSize_eq, share, blocksFor_eq]
  split <;> omega

/-- `alloc_inode` returns 0 for a type that is none of the three. -/
theorem allocInode_invalid {type : Nat} (h : ∀ t : FileType, t.code ≠ type) :
    allocInode type = pure 0 := by
  have hDir : type ≠ FileType.T_DIR.code := (h .T_DIR).symm
  have hFile : type ≠ FileType.T_FILE.code := (h .T_FILE).symm
  have hLink : type ≠ FileType.T_LNK.code := (h .T_LNK).symm
  rw [allocInode, if_pos ⟨hDir, hFile, hLink⟩]

theorem paddingFile_null (stack n : Nat) (m : Machine) :
    ∃ e, paddingFile stack 0 n m = .error e m := by
  cases stack with
  | zero => exact ⟨.stackOverflow, rfl⟩
  | succ stack =>
      have hNull : derefInode m 0 = .error .segfault :=
        derefInode_null fun h => absurd (isInum_iff.mp h).1 (by omega)
      refine ⟨.segfault, ?_⟩
      rw [paddingFile]
      simp only [bind, EStateM.bind, query, hNull]

section Children

variable {σ : Store} {live : Set Nat} {r final stack : Nat}

/-- One round of the loop over the children. -/
theorem wp_padChild {m : Machine} {i type : Nat} (hSound : σ.Intact live) (hr : σ.Alive r)
    (hi : i < 128) (hMore : 100 * (i + 1) < final) (hStack : 0 < stack)
    (h : LoopPadded σ m.store live r final i) :
    wp (childOrNew type ((σ.kids r)[i]?.getD 0)) (fun c m' =>
      wp (paddingFile stack c ((if final > (i + 2) * ndirect then ndirect
        else final - (i + 1) * ndirect) * blockSize))
        (fun _ m'' => LoopPadded σ m''.store live r final (i + 1)) (fun _ _ => True) m')
      (fun _ _ => True) m := by
  have hShare := blocksFor_share hMore
  have hFit : share final i ≤ 100 := Nat.min_le_right _ _
  have hEnough := h.enough_here hi
  cases hc : (σ.kids r)[i]? with
  | some c =>
      have hMem : c ∈ σ.kids r := List.mem_of_getElem? hc
      have hne : c ≠ 0 := kids_ne_zero hMem
      have hAlive : σ.Alive c := hSound.sound.forest.kids_mem r hr c hMem
      have hNodup := hSound.sound.forest.kids_nodup r hr
      have hNew : c ∉ (σ.kids r).take i := by
        intro hOld
        obtain ⟨k, hk, hkc⟩ := List.mem_iff_getElem.mp hOld
        rw [List.length_take] at hk
        rw [List.getElem_take] at hkc
        obtain ⟨hiLt, hic⟩ := List.getElem?_eq_some_iff.mp hc
        have hSame := (hNodup.getElem_inj_iff).mp (hkc.trans hic.symm)
        omega
      have hSize : m.store.size c = σ.size c := by rw [size, h.inode c hAlive hNew, size]
      rw [missing, hc, Option.map_some, Option.getD_some, ← hSize] at hEnough
      rw [Option.getD_some, childOrNew, if_neg hne, wp_pure]
      refine wp_mono (wp_padLeaf h.intact (h.alive c hAlive) (by omega) (by omega) hStack)
        (fun _ m' hPost => ?_) fun _ _ _ => trivial
      rw [hShare] at hPost
      exact h.listed hi hMore hSound hr hc hPost.1 hPost.2
  | none =>
      rw [missing, hc, Option.map_none, Option.getD_none] at hEnough
      rw [Option.getD_none, childOrNew, if_pos rfl]
      by_cases hType : ∃ t : FileType, t.code = type
      · obtain ⟨t, rfl⟩ := hType
        apply wp_allocInode
        · intro c now m₁ hInum hDead _ hStore
          obtain ⟨hGrows, hRoot⟩ := grows_freshInode t now hInum hDead
          have hI := h.intact.grows hGrows
          rw [← hStore] at hI
          have hAlive : m₁.store.Alive c := hStore ▸ hRoot.1.1
          have hFree : m₁.store.freeBlocks = m.store.freeBlocks :=
            freeBlocks_congr (by rw [hStore]; rfl)
          refine wp_mono (wp_padLeaf hI hAlive (by omega) (by omega) hStack)
            (fun _ m' hPost => ?_) fun _ _ _ => trivial
          rw [hShare, hStore] at hPost
          exact h.unlisted hi hMore hSound hr hc hDead hGrows rfl hPost.1 hPost.2
        · intro _
          trivial
      · rw [allocInode_invalid fun t ht => hType ⟨t, ht⟩, wp_pure]
        obtain ⟨e, hRun⟩ := paddingFile_null stack ((if final > (i + 2) * ndirect then ndirect
          else final - (i + 1) * ndirect) * blockSize) m
        unfold wp
        rw [hRun]
        trivial

/-- The loop over the children, with `rest` entries of the array left. -/
theorem wp_padChildren {type : Nat} (hSound : σ.Intact live) (hr : σ.Alive r)
    (hStack : 0 < stack) (rest : List Nat) {m : Machine} {i : Nat}
    (hi : i + rest.length = 128) (hRest : ∀ k, i ≤ k → k < 128 →
      rest[k - i]? = some ((σ.kids r)[k]?.getD 0))
    (h : LoopPadded σ m.store live r final i) :
    wp (padChildren (paddingFile stack) type final i rest)
      (fun _ m' => ∃ j, LoopPadded σ m'.store live r final j ∧ (j = 128 ∨ final ≤ 100 * (j + 1)))
      (fun _ _ => True) m := by
  induction rest generalizing m i with
  | nil =>
      have hEnd : i = 128 := by simpa using hi
      exact ⟨i, h, Or.inl hEnd⟩
  | cons child rest ih =>
      rw [List.length_cons] at hi
      rw [padChildren]
      apply wp_ite
      · intro hStop
        rw [ndirect_eq] at hStop
        exact ⟨i, h, Or.inr (by omega)⟩
      · intro hMore
        rw [ndirect_eq] at hMore
        have hChild : child = (σ.kids r)[i]?.getD 0 := by
          have hAt := hRest i (le_refl i) (by omega)
          rw [Nat.sub_self, List.getElem?_cons_zero] at hAt
          exact Option.some.inj hAt
        rw [hChild, wp_bind]
        refine wp_mono (wp_padChild hSound hr (by omega) (by omega) hStack h)
          (fun c m₁ hPad => ?_) fun _ _ _ => trivial
        rw [wp_bind]
        refine wp_mono hPad (fun _ m₂ hNext => ?_) fun _ _ _ => trivial
        refine ih (by omega) (fun k hk hlt => ?_) hNext
        have hAt := hRest k (by omega) hlt
        rwa [show k - i = k - (i + 1) + 1 by omega, List.getElem?_cons_succ] at hAt

end Children

/-- What `padding_file` did to the inode `r`, now of `final` blocks. -/
structure Resized (σ σ' : Store) (r final : Nat) : Prop where
  size : σ'.size r = min final 101
  slot : ∀ k, ¬(σ.size r ≤ k ∧ k < min final 100) → σ'.slot r k = σ.slot r k
  data : ∀ b, σ.bit b = true → σ'.data b = σ.data b
  kid : ∀ k, 100 * (k + 1) < final → k < 128 → σ.SharePadded σ' r final k
  rest : ∀ k c, (σ.kids r)[k]? = some c → final ≤ 100 * (k + 1) → σ'.inode c = σ.inode c

/-- The array of child inums, with zeros behind the children. -/
theorem entries_of_kids {l : List Nat} (h : l.length ≤ 128) :
    (l ++ List.replicate (128 - l.length) 0).length = 128 ∧
      ∀ k < 128, (l ++ List.replicate (128 - l.length) 0)[k - 0]? = some (l[k]?.getD 0) := by
  constructor
  · rw [List.length_append, List.length_replicate]
    omega
  · intro k hk
    rw [Nat.sub_zero, List.getElem?_append]
    split
    · rename_i hLt
      rw [List.getElem?_eq_getElem hLt, Option.getD_some]
    · rename_i hGe
      rw [List.getElem?_eq_none (Nat.le_of_not_lt hGe), Option.getD_none, List.getElem?_replicate,
        if_pos (by omega)]

section Root

variable {live : Set Nat} {r n stack : Nat} {m : Machine}

/-- A file that ends with at most 100 blocks. -/
theorem wp_paddingFile_small (hI : m.store.Intact live) (hr : r ∈ live) (hn : blocksFor n ≤ 100)
    (hEnough : m.store.missingBlocks r (blocksFor n) ≤ m.store.freeBlocks) (hStack : 0 < stack) :
    wp (paddingFile stack r n) (fun _ m' => m'.store.Intact live ∧
      Resized m.store m'.store r (blocksFor n)) (fun _ _ => False) m := by
  have hAlive := hI.alive r hr
  rw [missingBlocks] at hEnough
  refine wp_mono (wp_padLeaf hI hAlive hn (by omega) hStack) (fun _ m' hPost => ?_)
    fun _ _ hFalse => hFalse
  obtain ⟨hI', hPad⟩ := hPost
  refine ⟨hI', ?_, fun k hk => ?_, hPad.data, fun k hk => by omega, fun k c hc _ => ?_⟩
  · rw [hPad.size]
    omega
  · exact hPad.slot k fun hk' => hk ⟨hk'.1, by omega⟩
  · have hne : c ≠ r := by
      rintro rfl
      exact hI.root c hr c hAlive (List.mem_of_getElem? hc)
    exact hPad.inode c hne

/-- A file that keeps an indirect block. -/
theorem wp_paddingFile_large (hI : m.store.Intact live) (hr : r ∈ live) (hn : 100 < blocksFor n)
    (hLt : blocksFor n < 2 ^ 32) (hSize : 100 < m.store.size r)
    (hEnough : m.store.missingBlocks r (blocksFor n) ≤ m.store.freeBlocks) (hStack : 1 < stack) :
    wp (paddingFile stack r n) (fun _ m' => m'.store.Intact live ∧
      Resized m.store m'.store r (blocksFor n)) (fun _ _ => True) m := by
  have hAlive := hI.alive r hr
  have hInum := isInum_of_alive hAlive
  have hOld : (m.store.inode r).size.toNat = m.store.size r := rfl
  obtain ⟨stack, rfl⟩ := Nat.exists_eq_add_of_lt hStack
  rw [missingBlocks] at hEnough
  rw [paddingFile, wp_bind, wp_derefInode hInum]
  simp only [Nat.mod_eq_of_lt hLt, ndirect_eq]
  generalize blocksFor n = final at *
  rw [wp_bind]
  refine wp_mono (wp_padDirect_loop _ (n := min final 100) (by omega) (by omega))
    (fun ino m₁ hDirect => ?_) fun _ _ hFalse => hFalse.elim
  have hGrows := hDirect.grows
  have hI₁ := hI.grows hGrows
  have hAlive₁ := hGrows.alive hAlive
  have hSame := hGrows.sameOn hI.sound
  have hKids : m₁.store.kids r = m.store.kids r := hSame.kids hAlive
  have hSize₁ : 100 < m₁.store.size r := hSize.trans_eq (hSame.size hAlive).symm
  have hBlocks := hDirect.blocks
  have hMissing : m₁.store.missing r final = m.store.missing r final := by
    funext k
    have hSizes : m₁.store.size = m.store.size := funext fun c => by
      rw [Store.size, hDirect.inode, Store.size]
    rw [missing, missing, hKids, hSizes]
  have hStart : LoopPadded m₁.store m₁.store live r final 0 := by
    have hRest : ∀ sum, min final 100 - m.store.size r + sum ≤ m.store.freeBlocks →
        sum ≤ m₁.store.freeBlocks := fun sum hSum => by omega
    apply LoopPadded.refl hI₁
    rw [hMissing]
    exact hRest _ hEnough
  have hSlot : ino.slot 100 = m₁.store.slot r 100 := by
    rw [hDirect.keep 100 (by omega), Store.slot, hDirect.inode]
  have hVisible : Visible (m₁.store.slot r 100) :=
    hI₁.sound.readable.visible r hAlive₁ 100 (Or.inr ⟨rfl, hSize₁⟩)
  obtain ⟨hLen, hEntry⟩ := entries_of_kids (m₁.store.kids_length_le r)
  rw [wp_bind, padIndirect, if_pos (show final > ndirect from hn), ndirect_eq, hSlot, wp_bind,
    wp_readBlock hVisible, hI₁.sound.packed r hAlive₁ hSize₁]
  refine wp_mono (wp_padChildren hI₁ hAlive₁ (by omega) _ ((Nat.zero_add _).trans hLen)
    (fun k _ hk => hEntry k hk) hStart) (fun _ m₂ hLoop => ?_) fun _ _ _ => trivial
  obtain ⟨j, hDone, hEnd⟩ := hLoop
  rw [wp_bind]
  refine wp_time fun now m₃ hm₃ => ?_
  obtain ⟨m₄, hRun, hStore⟩ := putInode_eq (m := m₃) hInum (resized ino final now)
  refine wp_of_ok hRun ?_
  rw [hStore, hm₃]
  have hRoot : r ∉ (m₁.store.kids r).take j := fun hMem =>
    hI₁.root r hr r hAlive₁ (List.mem_of_mem_take hMem)
  have hInode : m₂.store.inode r = m.store.inode r := by
    rw [hDone.inode r hAlive₁ hRoot, hDirect.inode]
  have hRefits := hDirect.refits hI hAlive hDone.spare hInode (Or.inr hSize) now
  refine ⟨hRefits.intact hDone.intact (hDone.alive r hAlive₁), ?_⟩
  have hne : ∀ (k c : Nat), (m.store.kids r)[k]? = some c → m.store.Alive c ∧ c ≠ r := by
    intro k c hc
    have hMem := List.mem_of_getElem? hc
    refine ⟨hI.sound.forest.kids_mem r hAlive c hMem, ?_⟩
    rintro rfl
    exact hI.root c hr c hAlive hMem
  have hStill : ∀ c, m₁.store.inode c = m.store.inode c := fun c => by rw [hDirect.inode]
  refine ⟨?_, fun k hk => ?_, fun b hb => ?_, fun k hk hlt c hc => ?_, fun k c hc hk => ?_⟩
  · rw [size_putInode_self, resized_size]
  · rw [slot_putInode_self, resized_slot]
    exact hDirect.keep k hk
  · exact (hDone.data b (hGrows.bit b hb)).trans (hGrows.data_of_marked hb)
  · obtain ⟨hAliveC, hneC⟩ := hne k c hc
    have hShare := hDone.kid k (by omega) c (by rwa [hKids])
    rw [size_putInode_ne hneC, hShare.1]
    refine ⟨rfl, fun l hl => ?_⟩
    rw [slot_putInode_ne hneC, hShare.2 l (by rwa [Store.size, hStill]), Store.slot, hStill,
      Store.slot]
  · obtain ⟨hAliveC, hneC⟩ := hne k c hc
    have hOut : c ∉ (m₁.store.kids r).take j := by
      rw [hKids]
      intro hMem
      obtain ⟨l, hl, hlc⟩ := List.mem_iff_getElem.mp hMem
      rw [List.length_take] at hl
      rw [List.getElem_take] at hlc
      obtain ⟨hkLt, hkc⟩ := List.getElem?_eq_some_iff.mp hc
      have hSameIndex := (hI.sound.forest.kids_nodup r hAlive).getElem_inj_iff.mp (hlc.trans hkc.symm)
      have hMore := hDone.more l (by omega)
      omega
    rw [putInode_inode, if_neg hneC, hDone.inode c (hGrows.alive hAliveC) hOut, hStill]

end Root
end InodeFS
