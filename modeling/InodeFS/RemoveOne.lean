import InodeFS.Creation

/-! What one `unlink` takes out of its directory. The last entry moves into the place of the
one that goes, except at index 100, the first of the first child, which no update finds. -/
namespace InodeFS

open Bytes Exec Paging Store

namespace Store

/-- The block in a slot of a directory is freed, and the slot gets another one that holds an
entry. -/
theorem Row.refill {σ σ' : Store} {p k b : Nat} {l : List Entry} {large : Bool} {d : Entry}
    (h : σ.Row p l large) (hA : σ.Apart) (hk : k < l.length) (hHolds : σ.HoldsEntry b d)
    (hNe : b ≠ σ.slot p k) (hStore : σ' = ((σ.unmark (σ.slot p k)).write (σ.slot p k) Block.zeros).putInode p
      ((σ.inode p).withSlot k b)) :
    σ'.Row p (l.set k d) large ∧
      ∀ {c : Nat} {l' : List Entry}, c ≠ p → σ.Row c l' false → σ'.Row c l' false := by
  obtain ⟨hData, hBit, hEntry⟩ := hHolds
  have hFew := h.few
  have hCovered := h.covered
  have hLt : b < 2 ^ 32 := by
    have := isData_iff.mp hData
    omega
  have hNonzero : b ≠ 0 := by
    have := isData_iff.mp hData
    omega
  have hSlot : ∀ i j, σ'.slot i j = if i = p ∧ j = k then b else σ.slot i j := fun i j => by
    rw [hStore]
    exact slot_withSlot (by omega) hLt i j
  have hSize : ∀ i, σ'.size i = σ.size i := fun i => by
    rw [hStore]
    exact size_withSlot hNonzero i
  have hType : (σ'.inode p).type = (σ.inode p).type := by
    rw [hStore]
    exact type_withSlot p
  have hKept : ∀ a, a ≠ σ.slot p k → σ'.bit a = σ.bit a ∧ σ'.data a = σ.data a := fun a ha => by
    rw [hStore, putInode_bit, write_bit, unmark_bit, if_neg ha, putInode_data, write_data, if_neg ha]
    exact ⟨rfl, rfl⟩
  constructor
  · refine ⟨⟨h.lists.inum, ?_, fun j hj => ?_⟩, ?_, fun hLarge => ?_, ?_, fun j hj => ?_⟩
    · rw [Inode.isDir, hType]
      exact h.lists.dir
    · rw [List.length_set] at hj
      rw [hSlot, List.getElem_set]
      by_cases he : j = k
      · obtain ⟨hBit', hData'⟩ := hKept b hNe
        rw [if_pos ⟨rfl, he⟩, if_pos he.symm, hBit', hData']
        exact ⟨hData, hBit, hEntry⟩
      · have hOther : σ.slot p j ≠ σ.slot p k := fun hSame =>
          he (hA.inj p p h.alive h.alive j (by omega) k (by omega) hSame).2
        obtain ⟨hBit', hData'⟩ := hKept _ hOther
        rw [if_neg fun hBoth => he hBoth.2, if_neg (Ne.symm he), hBit', hData']
        exact h.lists.entry j hj
    · rw [List.length_set]
      exact h.few
    · rw [List.length_set]
      exact h.full hLarge
    · rw [hSize, List.length_set]
      exact h.size
    · rw [List.length_set] at hj
      rw [hSlot, if_neg (by omega)]
      exact h.rest j hj
  · intro c l' hc hChild
    have hSame : σ'.inode c = σ.inode c := by
      rw [hStore, putInode_inode, if_neg hc]
      rfl
    have hChildCovered := hChild.covered
    refine hChild.congr hSame fun j hj => ?_
    have hOther : σ.slot c j ≠ σ.slot p k := fun he =>
      hc (hA.inj c p hChild.alive h.alive j (by omega) k (by omega) he).1
    obtain ⟨hBit', hData'⟩ := hKept _ hOther
    exact ⟨hBit'.trans (hChild.lists.entry j hj).2.1, hData'⟩

end Store

namespace ChfsClient

/-- The entry is gone, and the others are still there, in blocks that are in use. -/
def RemovesOne (stack : Nat) (m : Machine) (p : Nat) (name : CString) : Prop :=
  wp (unlink stack p name) (fun status m' => status = .OK ∧
    ∃ l e l' ids, readdir m stack p = .ok l ∧ (l.find? fun file => file.2 == name) = some e ∧
      readdir m' stack p = .ok l' ∧ l'.Perm (l.erase e) ∧
      readBlockid m' stack p = .ok ids ∧ ids.map m'.store.entryIn = l' ∧
      ∀ b ∈ ids, IsData b ∧ m'.store.bit b = true)
    (fun _ _ => False) m

section Calls

variable {m : Machine} {N : Entries} {C : List Nat} {p k : Nat} {name : CString} {e : Entry}

/-- An `unlink` that finds both places. The last child may go with its only entry. -/
theorem OnlyEntries.unlink_lists (h : OnlyEntries m.store N C) (hp : p ∈ N.dirs)
    (hFind : ((N.listing p).find? fun file => file.2 == name) = some e)
    (hFile : (m.store.inode e.1).isDir = false) (hk : (N.listing p)[k]? = some e)
    (hRoom : N.large p = true → k ≠ 100 ∧ 1 < N.shared.length) (stack : Nat) :
    ∃ m' ids, ChfsClient.unlink (stack + 2) p name m = .ok .OK m' ∧
      readdir m' (stack + 2) p = .ok (swapOut (N.listing p) k) ∧
      readBlockid m' (stack + 2) p = .ok ids ∧ ids.map m'.store.entryIn = swapOut (N.listing p) k ∧
      ∀ b ∈ ids, IsData b ∧ m'.store.bit b = true := by
  have hS := h.inUse
  have hHas : N.Has e := Entries.has_of_listing (List.mem_of_getElem? hk)
  obtain ⟨m₁, hRemove, -, hOn₁, hApart₁⟩ := h.remove_file hHas hFile (stack + 1)
  have hRow := hOn₁.row p hp
  have hBlankChildren := hOn₁.childEntries.blankChildren
  have hpC : p ∉ C ++ [] := by
    rw [List.append_nil]
    exact fun hc => hOn₁.kids p hc hp
  have hFirst := h.distinct.firstAt hk
  obtain ⟨m', l, s, C', D, hEntry, hRow', hChildren', hList⟩ : ∃ m' l s C' D,
      removeFromDir (stack + 2) p e.1 m₁ = .ok () m' ∧ m'.store.Row p l (N.large p) ∧
      m'.store.BlankChildren C' D s ∧
      (l ++ if N.large p = true then s else []) = swapOut (N.listing p) k := by
    cases hLarge : N.large p with
    | false =>
        rw [hLarge] at hRow
        rw [Entries.listing_small hLarge] at hFirst ⊢
        obtain ⟨m', hRun, -, -, hRow', hChildren'⟩ :=
          hBlankChildren.removed_small hApart₁ hRow hpC hFirst stack
        exact ⟨m', _, _, _, _, hRun, hRow', hChildren', List.append_nil _⟩
    | true =>
        obtain ⟨hNot, hMore⟩ := hRoom hLarge
        rw [hLarge] at hRow
        rw [Entries.listing_large hLarge] at hFirst ⊢
        obtain ⟨m', x, i, y, j, hRun, -, -, -, -, hRow', hChildren'⟩ :=
          hBlankChildren.removed_large hApart₁ hRow hpC hFirst hMore hNot stack
        exact ⟨m', _, _, _, _, hRun, hRow', hChildren', List.take_append_drop 100 _⟩
  rw [← h.removeFromDir_ids hp hHas] at hEntry
  have hRead : readdir m' (stack + 2) p = _ :=
    (ExtentServer.readDir_of_isInum hRow'.lists.inum m' (stack + 2)).trans (hChildren'.readDir_eq hRow' stack)
  refine ⟨m', _, unlink_steps (hS.readdir_eq hp) hFind hRemove hEntry, hList ▸ hRead,
    hChildren'.readBlockid_eq hRow' stack, ?_, fun b hb => hChildren'.mem_entryBlocks hRow' hb⟩
  rw [hChildren'.map_entryBlocks hRow', hList]

/-- A large directory with one entry behind its slots: the entry moves to the hole, and stays
where it was. -/
theorem EntriesOn.remove_doubles (h : EntriesOn m.store N C) (hA : m.store.Apart) (hp : p ∈ N.dirs)
    (hLarge : N.large p = true) {d : Entry} (hOne : N.shared = [d]) {inum : Nat}
    (hFirst : FirstAt (N.listing p) inum k) (hk : k < 100) (stack : Nat) :
    ∃ m', removeFromDir (stack + 2) p inum m = .ok () m' ∧
      readDir m' (stack + 2) p = .ok ((N.own p).set k d ++ [d]) := by
  have hRow := h.row p hp
  have hFull := hRow.full hLarge
  have hCount := h.childEntries.count
  have hBlankChildren := h.childEntries.blankChildren
  have hLength : N.shared.length = 0 + 1 := by rw [hOne, List.length_singleton]
  have hj : 0 / 100 < C.length := by omega
  rw [hLarge] at hRow
  rw [Entries.listing_large hLarge] at hFirst
  have hSize : m.store.size p = (N.own p).length + 1 := hRow.size
  obtain ⟨hMany, hEnd⟩ := hBlankChildren.getLast?_entryBlocks hRow hLength hj
  have hHole : (m.store.entryBlocks C true p)[k]? = some (m.store.slot p k) := by
    rw [entryBlocks, List.getElem?_append_left (by rw [hRow.directBlocks_length]; omega),
      hRow.getElem?_directBlocks (by omega)]
  have hHolds : m.store.HoldsEntry (m.store.slot C[0 / 100] (0 % 100)) d := by
    obtain ⟨hData, hBit, hEntry⟩ := hBlankChildren.holds (t := 0) (by omega) hj
    exact ⟨hData, hBit, hEntry.trans (by simp only [hOne, List.getElem_cons_zero])⟩
  have hChildSize := h.childEntries.child_size hj
  have hMem := List.getElem_mem hj
  have hNe : m.store.slot C[0 / 100] (0 % 100) ≠ m.store.slot p k := fun he => by
    have hSame := (hA.inj _ p (h.childEntries.alive hMem) hRow.alive _ (by omega) k (by omega) he).1
    exact h.kids _ hMem (hSame ▸ hp)
  -- the search, the first update and the second one, which misses
  obtain ⟨m₁, hFind, hStore₁⟩ := hBlankChildren.freeFirst_eq hRow hFirst hHole
  have hInode₁ : m₁.store.inode = m.store.inode := by rw [hStore₁]; rfl
  obtain ⟨m₂, hSet, hStore₂⟩ := setInoBlockId_slot (m := m₁) (k := k)
    (b := m.store.slot C[0 / 100] (0 % 100)) hRow.lists.inum (by rw [hInode₁]; exact hRow.lists.dir)
    (by rw [size_congr (congrFun hInode₁ p)]; omega) (Or.inr rfl) (stack + 1)
  have hMiss : setInoBlockId (stack + 2) p ((m.store.entryBlocks C true p).length - 1) 0 false m₂ =
      .ok (false, p) m₂ :=
    setInoBlockId_miss (by omega) (Or.inr (by omega))
  obtain ⟨m', mtime, ctime, hRun, hStore⟩ := removeFromDir_steps hRow.lists.inum hRow.lists.dir
    (hBlankChildren.readBlockid_eq hRow stack) hEnd hFind hSet hMiss
  rw [hStore₁] at hStore₂
  obtain ⟨hRow₂, hOther⟩ := hRow.refill hA (by omega) hHolds hNe hStore₂
  have hNotKid : ∀ c ∈ C, c ≠ p := fun c hc he => h.kids c hc (he ▸ hp)
  have hZero : m₂.store.data 0 = m.store.data 0 := by
    have hRange := isData_iff.mp (hRow.lists.entry k (by omega)).1
    rw [hStore₂, putInode_data, write_data, if_neg (by omega)]
    rfl
  have hChildren : m₂.store.ChildEntries C [d] :=
    hOne ▸ h.childEntries.congr hZero fun c hc l hChild => hOther (hNotKid c hc) hChild
  have hChildren' : m'.store.ChildEntries C [d] := hStore ▸ hChildren.carry carries_retimed hNotKid rfl
  exact ⟨m', hRun, readDir_childEntries hChildren' (hStore ▸ hRow₂.retimed)⟩

/-- The last place in use is cleared, and the first child still has its first slot. -/
theorem EntriesOn.cut_last {m₁ : Machine} (h : EntriesOn m.store N C) (hp : p ∈ N.dirs)
    (hLarge : N.large p = true) (hInode₁ : m₁.store.inode = m.store.inode)
    (hZero₁ : m₁.store.data 0 = m.store.data 0) (hHead : 0 / 100 < C.length) (stack : Nat) :
    ∃ r m₂, setInoBlockId (stack + 2) p (99 + N.shared.length) 0 false m₁ = .ok (r, p) m₂ ∧
      m₂.store.bit = m₁.store.bit ∧ m₂.store.data 0 = m₁.store.data 0 ∧
      m₂.store.inode p = m₁.store.inode p ∧ (∀ c, m₂.store.size c ≤ m.store.size c) ∧
      0 < m₂.store.size C[0 / 100] ∧
      m₂.store.slot C[0 / 100] (0 % 100) = m.store.slot C[0 / 100] (0 % 100) := by
  have hRow := h.row p hp
  have hFull := hRow.full hLarge
  have hCount := h.childEntries.count
  have hSome := List.length_pos_of_ne_nil (h.used.mpr ⟨p, hLarge⟩)
  have hFew := h.childEntries.length_le
  have hNotKid : ∀ c ∈ C, c ≠ p := fun c hc he => h.kids c hc (he ▸ hp)
  have hSize₁ : ∀ i, m₁.store.size i = m.store.size i := fun i => size_congr (congrFun hInode₁ i)
  have hSlot₁ : ∀ i k, m₁.store.slot i k = m.store.slot i k := fun i k => slot_congr (congrFun hInode₁ i) k
  have hHeadSize := h.childEntries.child_size hHead
  rw [hLarge] at hRow
  have hSize : m.store.size p = (N.own p).length + 1 := hRow.size
  obtain ⟨q, hq⟩ : ∃ q, N.shared.length = q + 1 := ⟨N.shared.length - 1, by omega⟩
  have hIndex : 99 + N.shared.length = 100 + q := by omega
  rw [hIndex]
  by_cases hPos : q = 0
  · -- index 100 is in no child
    subst hPos
    refine ⟨false, m₁, setInoBlockId_miss (Nat.min_le_right _ 100) (Or.inr (Nat.le_refl 100)), rfl, rfl, rfl,
      fun c => (hSize₁ c).le, ?_, hSlot₁ _ _⟩
    rw [hSize₁]
    omega
  · have hj : q / 100 < C.length := by omega
    have hLastSize := h.childEntries.child_size hj
    have hChildSizes := h.childEntries.childSizes.congr hZero₁ hSize₁ fun i => by rw [hInode₁]
    obtain ⟨m₂, hCut, hStore₂⟩ := hChildSizes.cut_behind (p := p) hRow.lists.inum
      (by rw [hInode₁]; exact hRow.lists.dir) (by rw [hSize₁]; omega)
      ((hSlot₁ p 100).trans hRow.indirect) stack (by omega) hq hj
    have hTop : m₁.store.size C[q / 100] = q % 100 + 1 := (hSize₁ C[q / 100]).trans (by omega)
    have hSize₂ : ∀ c, m₂.store.size c = if c = C[q / 100] then q % 100 else m₁.store.size c := fun c => by
      rw [hStore₂]
      by_cases he : c = C[q / 100]
      · rw [if_pos he, he, size_putInode_self, Inode.cut_size hTop]
      · rw [if_neg he]
        exact size_congr (by rw [putInode_inode, if_neg he])
    have hSame : C[0 / 100] = C[q / 100] → 0 / 100 = q / 100 :=
      (List.Nodup.getElem_inj_iff h.childEntries.nodup).mp
    refine ⟨true, m₂, hCut, hStore₂ ▸ rfl, hStore₂ ▸ rfl, ?_, fun c => ?_, ?_, ?_⟩
    · rw [hStore₂, putInode_inode, if_neg (Ne.symm (hNotKid _ (List.getElem_mem hj)))]
    · rw [hSize₂, ← hSize₁]
      split
      · rename_i he
        rw [he]
        omega
      · exact Nat.le_refl _
    · rw [hSize₂]
      split
      · rename_i he
        have := hSame he
        omega
      · rw [hSize₁]
        omega
    · rw [← hSlot₁, hStore₂]
      by_cases he : C[0 / 100] = C[q / 100]
      · have hChild := h.childEntries.child _ hj
        have hPage := page_length 100 N.shared (q / 100)
        have := hSame he
        rw [he, slot_putInode_self, Inode.cut_slot hTop (by omega) fun i hi => ?_, if_neg (by omega)]
        · rfl
        · exact (hSlot₁ _ i).trans (hChild.rest i (by omega))
      · exact slot_congr (by rw [putInode_inode, if_neg he]) _

/-- Index 100 is not found, so that its block goes and stays listed. -/
theorem EntriesOn.remove_hundred (h : EntriesOn m.store N C) (hp : p ∈ N.dirs) (hLarge : N.large p = true)
    {inum : Nat} (hFirst : FirstAt (N.listing p) inum 100) (stack : Nat) :
    ∃ m' ids b, removeFromDir (stack + 2) p inum m = .ok () m' ∧
      readBlockid m' (stack + 2) p = .ok ids ∧ b ∈ ids ∧ m'.store.bit b = false := by
  have hRow := h.row p hp
  have hFull := hRow.full hLarge
  have hCount := h.childEntries.count
  have hBlankChildren := h.childEntries.blankChildren
  have hSome := List.length_pos_of_ne_nil (h.used.mpr ⟨p, hLarge⟩)
  obtain ⟨q, hq⟩ : ∃ q, N.shared.length = q + 1 := ⟨N.shared.length - 1, by omega⟩
  rw [hLarge] at hRow
  rw [Entries.listing_large hLarge] at hFirst
  have hSize : m.store.size p = (N.own p).length + 1 := hRow.size
  obtain ⟨hMany, hEnd⟩ := hBlankChildren.getLast?_entryBlocks hRow hq (by omega)
  have hHead : 0 / 100 < C.length := by omega
  have hHole : (m.store.entryBlocks C true p)[100]? = some (m.store.slot C[0 / 100] (0 % 100)) := by
    rw [entryBlocks, if_pos rfl, List.getElem?_append_right (by rw [hRow.directBlocks_length]; omega),
      hRow.directBlocks_length, hFull, Nat.sub_self, hBlankChildren.getElem?_blocks (by omega) hHead]
  have hRange := isData_iff.mp (hBlankChildren.mem_entryBlocks hRow (List.mem_of_getElem? hHole)).1
  -- the search, the first update, which misses, and the second one
  obtain ⟨m₁, hFind, hStore₁⟩ := hBlankChildren.freeFirst_eq hRow hFirst hHole
  have hInode₁ : m₁.store.inode = m.store.inode := by rw [hStore₁]; rfl
  have hZero₁ : m₁.store.data 0 = m.store.data 0 := by
    rw [hStore₁, write_data, if_neg (by omega)]
    rfl
  obtain ⟨r, m₂, hCut, hBit₂, hZero₂, hInode₂, hLess, hFirstSize, hFirstSlot⟩ :=
    h.cut_last hp hLarge hInode₁ hZero₁ hHead stack
  have hIndex : (m.store.entryBlocks C true p).length - 1 = 99 + N.shared.length := by omega
  rw [← hIndex] at hCut
  obtain ⟨m', mtime, ctime, hRun, hStore⟩ := removeFromDir_steps hRow.lists.inum hRow.lists.dir
    (hBlankChildren.readBlockid_eq hRow stack) hEnd hFind
    (setInoBlockId_miss (Nat.min_le_right _ 100) (Or.inr (Nat.le_refl 100))) hCut
  -- the block is still the first one of the first child
  have hSize' : ∀ i, m'.store.size i = m₂.store.size i := fun i => hStore ▸ size_retimed _ _ _ _ i
  have hSlot' : ∀ i k, m'.store.slot i k = m₂.store.slot i k := fun i k => hStore ▸ slot_retimed _ _ _ _ i k
  have hOwn : m₂.store.inode p = m.store.inode p := hInode₂.trans (congrFun hInode₁ p)
  have hTable : m'.store.Table C := by
    rw [Table, hStore, putInode_data, hZero₂, hZero₁]
    exact h.childEntries.table
  have hRead : readBlockid m' (stack + 2) p = _ := readBlockid_large hRow.lists.inum
    (by rw [hSize', size_congr hOwn]; omega) (by rw [hSlot', slot_congr hOwn]; exact hRow.indirect) hTable
    fun c hc => by
      obtain ⟨l, hChild⟩ := h.childEntries.mem hc
      have hChildSize : m.store.size c = l.length + 0 := hChild.size
      have hChildFew := hChild.few
      have := hLess c
      have := hSize' c
      exact ⟨hChild.lists.inum, by omega⟩
  refine ⟨m', _, m.store.slot C[0 / 100] (0 % 100), hRun, hRead, List.mem_append_right _ ?_, ?_⟩
  · refine List.mem_flatMap.mpr ⟨_, List.getElem_mem hHead, ?_⟩
    rw [directBlocks, hSize', ← hFirstSlot, ← hSlot']
    exact List.mem_map_of_mem (List.mem_range.mpr (by omega))
  · rw [hStore, putInode_bit, hBit₂, hStore₁, write_bit, unmark_bit, if_pos rfl]

end Calls

section Runs

variable {stack k p : Nat} {clock : Nat → UInt32} {h : History} {m : Machine} {name : CString} {l : List Entry}

/-- Removing the entry at an index removes one occurrence of it. -/
theorem eraseIdx_perm_erase {l : List Entry} {e : Entry} (hk : l[k]? = some e) :
    (l.eraseIdx k).Perm (l.erase e) := by
  obtain ⟨hLt, rfl⟩ := List.getElem?_eq_some_iff.mp hk
  have hFront := List.getElem_cons_eraseIdx_perm hLt
  exact (hFront.trans (List.perm_cons_erase (List.getElem_mem hLt))).cons_inv

/-- In runs whose calls of `unlink` spare the children, an `unlink` removes exactly one entry unless the
directory has 101 of them, or the one that goes is at index 100. -/
theorem unlink_removes_one_iff (hStack : 2 ≤ stack)
    (hRun : Run stack clock (fun h m call => Links stack h m call ∧ SparesChildren stack m call) h m)
    (hCall : Links stack h m (.unlink p name)) (hRead : readdir m stack p = .ok l)
    (hIndex : (l.findIdx? fun file => file.2 == name) = some k) :
    RemovesOne stack m p name ↔ l.length ≤ 100 ∨ l.length ≠ 101 ∧ k ≠ 100 := by
  obtain ⟨d, rfl⟩ := Nat.exists_eq_add_of_le' hStack
  obtain ⟨N, C, hOnlyEntries, hDirs⟩ := hRun.onlyEntries_links
  have hS := hOnlyEntries.inUse
  have hp : p ∈ N.dirs := hDirs ▸ hCall.1
  have hListing : readdir m (d + 2) p = .ok (N.listing p) := hS.readdir_eq hp
  obtain rfl := Except.ok.inj (hListing.symm.trans hRead)
  obtain ⟨k', e, hk, hFind, hGet, hFile⟩ := hOnlyEntries.exists_named hDirs hCall
  obtain rfl := Option.some.inj (hk.symm.trans hIndex)
  have hHas : N.Has e := Entries.has_of_listing (List.mem_of_getElem? hGet)
  have hLt := (List.getElem?_eq_some_iff.mp hGet).1
  have hSplit : N.large p = true → (N.listing p).length = 100 + N.shared.length ∧ N.shared ≠ [] :=
    fun hLarge => by
      rw [Entries.listing_large hLarge, List.length_append, (hS.row p hp).full hLarge]
      exact ⟨rfl, hS.used.mpr ⟨p, hLarge⟩⟩
  constructor
  · intro hOne
    by_contra hNot
    have hLarge : N.large p = true := (hS.length_listing hp).mpr (by omega)
    obtain ⟨hLength, hSome⟩ := hSplit hLarge
    obtain ⟨m₁, hRemove, -, hOn₁, hApart₁⟩ := hOnlyEntries.remove_file hHas hFile (d + 1)
    have hFirst := hOnlyEntries.distinct.firstAt hGet
    by_cases hHundred : k' = 100
    · subst hHundred
      obtain ⟨m', ids, b, hEntry, hIds, hb, hFree⟩ := hOn₁.remove_hundred hp hLarge hFirst d
      rw [← hOnlyEntries.removeFromDir_ids hp hHas] at hEntry
      obtain ⟨-, l, e', l', ids', -, -, -, -, hIds', -, hUse⟩ :=
        wp_ok hOne (unlink_steps hListing hFind hRemove hEntry)
      obtain rfl := Except.ok.inj (hIds.symm.trans hIds')
      rw [(hUse b hb).2] at hFree
      cases hFree
    · obtain ⟨d', hSingle⟩ := List.length_eq_one_iff.mp (show N.shared.length = 1 by omega)
      obtain ⟨m', hEntry, hRead'⟩ :=
        hOn₁.remove_doubles hApart₁ hp hLarge hSingle hFirst (by omega) d
      rw [← hOnlyEntries.removeFromDir_ids hp hHas] at hEntry
      obtain ⟨-, l, e', l', ids, hBefore, hFind', hAfter, hPerm, -⟩ :=
        wp_ok hOne (unlink_steps hListing hFind hRemove hEntry)
      obtain rfl := Except.ok.inj (hListing.symm.trans hBefore)
      rw [readdir, ExtentServer.readDir_of_isInum (hS.row p hp).lists.inum, hRead'] at hAfter
      obtain rfl := Except.ok.inj hAfter
      have hFull := (hS.row p hp).full hLarge
      have hCount := hPerm.length_eq
      rw [List.length_erase_of_mem (List.mem_of_find?_eq_some hFind'), List.length_append,
        List.length_set, hFull, List.length_singleton] at hCount
      omega
  · intro hRoom
    obtain ⟨m', ids, hRun', hRead', hIds, hMap, hUse⟩ := hOnlyEntries.unlink_lists hp hFind hFile hGet
      (fun hLarge => by
        obtain ⟨hLength, hSome⟩ := hSplit hLarge
        have := List.length_pos_of_ne_nil hSome
        omega) d
    exact wp_of_ok hRun' ⟨rfl, _, e, _, ids, hListing, hFind, hRead',
      (swapOut_perm hLt).trans (eraseIdx_perm_erase hGet), hIds, hMap, hUse⟩

/-- Two of 150 files go, one after the other. -/
theorem unlink_removes_one_again : ∃ (h : History) (m : Machine) (d e : Entry) (l : List Entry),
    Run 2 (fun _ => 0) (fun h m call => Links 2 h m call ∧ SparesChildren 2 m call)
      (h ++ [(.unlink 1 d.2, .unlink .OK)]) m ∧
    readdir m 2 1 = .ok l ∧ l.length = 149 ∧ l.head? = some e ∧ RemovesOne 2 m 1 e.2 := by
  obtain ⟨h, m₀, N, C, hRoot⟩ := exists_root_files 0 (n := 150) (by omega)
  obtain ⟨d, m, hRemoved⟩ := hRoot.exists_removed (by omega) (by omega)
  have hOnlyEntries := hRemoved.onlyEntries
  have hDirs : (N.cut 1 0).dirs = (nameMap (h ++ [(.unlink 1 d.2, .unlink .OK)])).dirs := by
    rw [Entries.cut_dirs, hRoot.dirs, hRoot.map_unlink]
  have hp : 1 ∈ (N.cut 1 0).dirs := by rw [Entries.cut_dirs, hRoot.dirs]; rfl
  have hLength := hRemoved.length
  obtain ⟨e, rest, hFirst⟩ := List.exists_cons_of_length_pos
    (show 0 < ((N.cut 1 0).listing 1).length by omega)
  have hHas : (N.cut 1 0).Has e := Entries.has_of_listing (p := 1) (hFirst ▸ List.mem_cons_self)
  have hFile : (m.store.inode e.1).isDir = false := by
    rw [Inode.isDir, hRemoved.frees.type e.1 (hOnlyEntries.inUse.alive e hHas)]
    exact (hRoot.entry e (hRemoved.rest e hHas).1).1
  have hIndex : ((N.cut 1 0).listing 1).findIdx? (fun file => file.2 == e.2) = some 0 := by
    rw [hFirst, List.findIdx?_cons, if_pos (beq_self_eq_true e.2)]
  refine ⟨h, m, d, e, _, hRemoved.run, hRemoved.listed, hLength, by rw [hFirst]; rfl, ?_⟩
  exact (unlink_removes_one_iff (Nat.le_refl 2) hRemoved.run
    (hOnlyEntries.links_first hDirs hp hFirst hFile 0) hRemoved.listed hIndex).mpr
    (Or.inr ⟨by omega, by omega⟩)

/-- The first of 101 files is removed, and the last one is listed twice. -/
theorem unlink_doubles_last : ∃ (h : History) (m m' : Machine) (d e : Entry) (l : List Entry),
    Run 2 (fun _ => 0) (fun h _ call => call.Names h) h m ∧ (∀ call, (call, .badAlloc) ∉ h) ∧
    Links 2 h m (.unlink 1 e.2) ∧ readdir m 2 1 = .ok l ∧ l.length = 101 ∧ l.head? = some e ∧
    l.getLast? = some d ∧ unlink 2 1 e.2 m = .ok .OK m' ∧ readdir m' 2 1 = .ok (l.set 0 d) := by
  obtain ⟨h, m, N, C, hRoot⟩ := exists_root_files 0 (n := 101) (by omega)
  have hOnlyEntries := hRoot.onlyEntries
  have hS := hOnlyEntries.inUse
  have hp : 1 ∈ N.dirs := hRoot.dirs ▸ rfl
  have hLength := hRoot.length
  have hLarge : N.large 1 = true := (hS.length_listing hp).mpr (by omega)
  have hFull := (hS.row 1 hp).full hLarge
  obtain ⟨e, rest, hFirst⟩ := List.exists_cons_of_length_pos (show 0 < (N.listing 1).length by omega)
  have hHas : N.Has e := Entries.has_of_listing (p := 1) (hFirst ▸ List.mem_cons_self)
  have hFile := (hRoot.entry e hHas).1
  have hCall := hOnlyEntries.links_first (hRoot.dirs.trans hRoot.map.symm) hp hFirst hFile 0
  have hGet : (N.listing 1)[0]? = some e := by rw [hFirst, List.getElem?_cons_zero]
  have hFind : (N.listing 1).find? (fun file => file.2 == e.2) = some e := by
    rw [hFirst]
    exact List.find?_cons_of_pos (beq_self_eq_true e.2)
  obtain ⟨d, hSingle⟩ : ∃ d, N.shared = [d] := by
    rw [Entries.listing_large hLarge, List.length_append] at hLength
    exact List.length_eq_one_iff.mp (by omega)
  have hList : N.listing 1 = N.own 1 ++ [d] := by rw [Entries.listing_large hLarge, hSingle]
  -- the file goes, and the last entry moves to its place
  obtain ⟨m₁, hRemove, -, hOn₁, hApart₁⟩ := hOnlyEntries.remove_file hHas hFile 1
  obtain ⟨m', hEntry, hRead⟩ := hOn₁.remove_doubles hApart₁ hp hLarge hSingle
    (hOnlyEntries.distinct.firstAt hGet) (by omega) 0
  rw [← hOnlyEntries.removeFromDir_ids hp hHas] at hEntry
  have hUnlink := unlink_steps (hS.readdir_eq hp) hFind hRemove hEntry
  refine ⟨h, m, m', d, e, _, hRoot.run, hRoot.room, hCall, hS.readdir_eq hp, hLength, by rw [hFirst]; rfl,
    by rw [hList, List.getLast?_concat], hUnlink, ?_⟩
  rw [hList, List.set_append_left _ _ (by omega)]
  exact (ExtentServer.readDir_of_isInum (hS.row 1 hp).lists.inum m' 2).trans hRead

end Runs
end ChfsClient
end InodeFS
