import InodeFS.SetBlockId
import InodeFS.NameMap
import InodeFS.CleanRun

/-! `remove_from_dir` for an inum that the directory does not list. The search ends
one index behind the last entry, and the two updates run all the same. -/
namespace InodeFS

open Bytes Exec Paging Store Relation

/-- The inode with new times. -/
def Inode.retimed (ino : Inode) (mtime ctime : UInt32) : Inode :=
  { ino with mtime := mtime, ctime := ctime }

section Search

variable {m m₁ m₂ : Machine} {stack p inum : Nat} {ids : List Nat}

theorem freeFirst_absent (h : ∀ b ∈ ids, Visible b ∧ (m.store.entryIn b).1 ≠ inum) (k : Nat) :
    freeFirst inum ids k m = .ok (k + ids.length) m := by
  induction ids generalizing k with
  | nil => rfl
  | cons b rest ih =>
      obtain ⟨hVisible, hNe⟩ := h b List.mem_cons_self
      have hOther : ¬(u32At (m.store.data b).bytes 0).toNat = inum := hNe
      have hRest := ih (fun c hc => h c (List.mem_cons_of_mem b hc)) (k + 1)
      simp only [freeFirst, bind, EStateM.bind, query, readBlock_data hVisible, if_neg hOther]
      rw [hRest, List.length_cons, Nat.add_assoc, Nat.add_comm 1]

/-- The search, the two updates and the new times. -/
theorem removeFromDir_steps (hInum : IsInum p) (hDir : (m.store.inode p).isDir = true)
    (hIds : readBlockid m stack p = .ok ids) {last index : Nat} (hLast : ids.getLast? = some last)
    {m₀ m₁ m₂ : Machine} {r₁ r₂ : Bool} (hFind : freeFirst inum ids 0 m = .ok index m₀)
    (hFirst : setInoBlockId stack p index last false m₀ = .ok (r₁, p) m₁)
    (hSecond : setInoBlockId stack p (ids.length - 1) 0 false m₁ = .ok (r₂, p) m₂) :
    ∃ m' mtime ctime, removeFromDir stack p inum m = .ok () m' ∧
      m'.store = m₂.store.putInode p ((m₂.store.inode p).retimed mtime ctime) := by
  have hSearch : freeAndFindLast stack p inum m = .ok
      { index := index, lastBlockId := last, lastBlockIndex := ids.length - 1 } m₀ := by
    simp only [freeAndFindLast, bind, EStateM.bind, query, getInode_some hInum, hDir, if_true, hIds,
      hFind, hLast]
    rfl
  have hRun : wp (removeFromDir stack p inum) (fun _ m' => ∃ mtime ctime,
      m'.store = m₂.store.putInode p ((m₂.store.inode p).retimed mtime ctime))
      (fun _ _ => False) m := by
    rw [removeFromDir, wp_bind]
    refine wp_of_ok hSearch ?_
    rw [wp_bind]
    refine wp_of_ok hFirst ?_
    rw [wp_bind]
    refine wp_of_ok hSecond ?_
    rw [wp_bind, wp_getInode hInum, wp_bind]
    refine wp_time fun mtime m₃ hm₃ => ?_
    rw [wp_bind]
    refine wp_time fun ctime m₄ hm₄ => ?_
    obtain ⟨m₅, hRun₅, hStore₅⟩ := putInode_eq (m := m₄) hInum
      ((m₂.store.inode p).retimed mtime ctime)
    exact wp_of_ok hRun₅ ⟨mtime, ctime, by rw [hStore₅, hm₄, hm₃]⟩
  obtain ⟨_, m', hCall, mtime, ctime, hStore⟩ := exists_ok_of_wp hRun
  exact ⟨m', mtime, ctime, hCall, hStore⟩

/-- Both updates run with an index behind the search. -/
theorem removeFromDir_absent (hInum : IsInum p) (hDir : (m.store.inode p).isDir = true)
    (hIds : readBlockid m stack p = .ok ids) (hNe : ids ≠ [])
    (hNone : ∀ b ∈ ids, Visible b ∧ (m.store.entryIn b).1 ≠ inum) (m₁ : Machine) (r₁ r₂ : Bool)
    (hFirst : ∀ b, setInoBlockId stack p ids.length b false m = .ok (r₁, p) m₁)
    (hSecond : setInoBlockId stack p (ids.length - 1) 0 false m₁ = .ok (r₂, p) m₂) :
    ∃ m' mtime ctime, removeFromDir stack p inum m = .ok () m' ∧
      m'.store = m₂.store.putInode p ((m₂.store.inode p).retimed mtime ctime) := by
  obtain ⟨last, hLast⟩ := Option.ne_none_iff_exists'.mp fun hNil =>
    hNe (List.getLast?_eq_none_iff.mp hNil)
  have hFind : freeFirst inum ids 0 m = .ok ids.length m := by
    rw [freeFirst_absent hNone, Nat.zero_add]
  exact removeFromDir_steps hInum hDir hIds hLast hFind (hFirst last) hSecond

/-- The last element of an empty list is taken. -/
theorem removeFromDir_empty (hInum : IsInum p) (hDir : (m.store.inode p).isDir = true)
    (hIds : readBlockid m stack p = .ok []) : removeFromDir stack p inum m = .error .segfault m := by
  have hFind : freeAndFindLast stack p inum m = .error .segfault m := by
    simp only [freeAndFindLast, bind, EStateM.bind, query, getInode_some hInum, hDir, if_true, hIds]
    rfl
  simp only [removeFromDir, bind, EStateM.bind, hFind]

end Search

namespace Store

variable {σ : Store} {p : Nat} {l s : List Entry} {large : Bool} {C : List Nat} {mtime ctime : UInt32}

theorem carries_retimed : Carries σ (σ.putInode p ((σ.inode p).retimed mtime ctime)) {p} :=
  Carries.putInode rfl

theorem Row.retimed (h : σ.Row p l large) :
    (σ.putInode p ((σ.inode p).retimed mtime ctime)).Row p l large := by
  have hSlot : ∀ k, (σ.putInode p ((σ.inode p).retimed mtime ctime)).slot p k = σ.slot p k :=
    fun k => slot_putInode_self
  refine ⟨h.lists.carry carries_retimed ?_ fun k _ => hSlot k, h.few, h.full, ?_, fun k hk => ?_⟩
  · rw [putInode_inode, if_pos rfl]
    rfl
  · rw [size_putInode_self]
    exact h.size
  · rw [hSlot]
    exact h.rest k hk

/-- The directory without its last entry. -/
theorem Row.dropLast (h : σ.Row p l false) (hne : l ≠ []) :
    (σ.putInode p ((σ.inode p).withSlot (l.length - 1) 0)).Row p l.dropLast false := by
  have hPos := List.length_pos_of_ne_nil hne
  have hFew := h.few
  have hSize : σ.size p = l.length + 0 := h.size
  have hLength : l.dropLast.length = l.length - 1 := List.length_dropLast
  have hSlot : ∀ k, (σ.putInode p ((σ.inode p).withSlot (l.length - 1) 0)).slot p k =
      if k = l.length - 1 then 0 else σ.slot p k := fun k => by
    rw [slot_putInode_self, Inode.withSlot_slot _ (by omega) (by omega)]
    rfl
  have hType : ((σ.putInode p ((σ.inode p).withSlot (l.length - 1) 0)).inode p).type =
      (σ.inode p).type := by
    rw [putInode_inode, if_pos rfl, Inode.withSlot_type]
  have hShort : σ.Lists p l.dropLast := ⟨h.lists.inum, h.lists.dir, fun k hk => by
    rw [List.getElem_dropLast]
    exact h.lists.entry k (by omega)⟩
  refine ⟨hShort.congr hType (fun k hk => ?_) fun k hk => ?_, by omega, nofun, ?_, fun k hk => ?_⟩
  · rw [hSlot, if_neg (by omega)]
  · exact ⟨(hShort.entry k hk).2.1, rfl⟩
  · rw [size_putInode_self, Inode.withSlot_size_zero _ _ (show 0 < (σ.inode p).size.toNat by
      rw [Store.size] at hSize; omega), hLength]
    exact congrArg (· - 1) hSize
  · rw [hSlot]
    split
    · rfl
    · exact h.rest k (by omega)

/-- A child that lists `l`, or one that was freed with its last entry. -/
def Left (σ : Store) (c : Nat) (l : List Entry) : Prop :=
  σ.Row c l false ∨ IsInum c ∧ σ.inode c = Inode.cleared ∧ l = []

theorem Left.congr {σ' : Store} {c : Nat} (h : σ.Left c l) (hSame : σ'.inode c = σ.inode c)
    (hMarked : ∀ b, σ.bit b = true → σ'.bit b = true ∧ σ'.data b = σ.data b) : σ'.Left c l := by
  rcases h with hRow | ⟨hInum, hCleared, hNil⟩
  · exact Or.inl (hRow.congr hSame fun k hk => hMarked _ (hRow.lists.entry k hk).2.1)
  · exact Or.inr ⟨hInum, hSame.trans hCleared, hNil⟩

end Store

theorem readDir_left {m : Machine} {c stack : Nat} {l : List Entry} (h : m.store.Left c l) :
    readDir m (stack + 1) c = .ok l := by
  rcases h with hRow | ⟨hInum, hCleared, rfl⟩
  · exact readDir_row hRow
  · rw [readDir, getInode_some hInum, hCleared]
    rfl

/-- The last slot of a child was cleared. -/
theorem Store.Row.cut {σ : Store} {c : Nat} {l : List Entry} (h : σ.Row c l false) (hne : l ≠ []) :
    (σ.putInode c ((σ.inode c).cut (l.length - 1))).Left c l.dropLast := by
  have hPos := List.length_pos_of_ne_nil hne
  have hSize : (σ.inode c).size.toNat = l.length + 0 := h.size
  have hNew := Inode.withSlot_size_zero (σ.inode c) (l.length - 1) (by omega)
  rw [Inode.cut]
  by_cases hGone : ((σ.inode c).withSlot (l.length - 1) 0).size = 0
  · rw [hGone, hSize] at hNew
    change 0 = l.length - 1 at hNew
    rw [if_pos hGone]
    refine Or.inr ⟨h.lists.inum, ?_, ?_⟩
    · rw [putInode_inode, if_pos rfl]
    · rw [← List.length_eq_zero_iff, List.length_dropLast, ← hNew]
  · rw [if_neg hGone]
    exact Or.inl (h.dropLast hne)

namespace ChfsClient.EntriesOn

variable {m : Machine} {N : Entries} {C : List Nat} {p inum : Nat}

theorem no_block (h : EntriesOn m.store N C) (hp : p ∈ N.dirs)
    (hAbsent : ∀ e ∈ N.listing p, e.1 ≠ inum) :
    ∀ b ∈ m.store.entryBlocks C (N.large p) p, Visible b ∧ (m.store.entryIn b).1 ≠ inum := by
  intro b hb
  refine ⟨Or.inl (h.mem_entryBlocks hp hb).1, hAbsent _ ?_⟩
  rw [← h.map_entryIn hp]
  exact List.mem_map_of_mem hb

theorem length_entryBlocks (h : EntriesOn m.store N C) (hp : p ∈ N.dirs) :
    (m.store.entryBlocks C (N.large p) p).length = (N.listing p).length := by
  have hLength := congrArg List.length (h.map_entryIn hp)
  rwa [List.length_map] at hLength

variable (h : EntriesOn m.store N C) (hp : p ∈ N.dirs) (hAbsent : ∀ e ∈ N.listing p, e.1 ≠ inum)
  (stack : Nat)
include h hp hAbsent

/-- Up to 100 entries: the last one goes. -/
theorem remove_small (hSmall : N.large p = false) (hNe : N.own p ≠ []) :
    ∃ m', removeFromDir (stack + 2) p inum m = .ok () m' ∧
      readDir m' (stack + 2) p = .ok (N.own p).dropLast := by
  have hRow := h.row p hp
  have hLength := h.length_entryBlocks hp
  rw [Entries.listing_small hSmall] at hLength
  have hPos := List.length_pos_of_ne_nil hNe
  have hFew := hRow.few
  have hCovered := hRow.covered
  rw [hSmall] at hRow
  have hSize : m.store.size p = (N.own p).length + 0 := hRow.size
  obtain ⟨m₁, hRun₁, hStore₁⟩ := setInoBlockId_slot (m := m) (b := 0)
    hRow.lists.inum hRow.lists.dir (show (N.own p).length - 1 < min (m.store.size p) 100 by omega)
    (Or.inr rfl) (stack + 1)
  obtain ⟨m', mtime, ctime, hRun, hStore⟩ := removeFromDir_absent hRow.lists.inum hRow.lists.dir
    (h.readBlockid_eq hp stack) (List.ne_nil_of_length_pos (by omega)) (h.no_block hp hAbsent)
    m false true (fun b => setInoBlockId_miss (by omega) (Or.inl (by omega)))
    (by rw [hLength]; exact hRun₁)
  refine ⟨m', hRun, readDir_row ?_⟩
  rw [hStore, hStore₁]
  exact (hRow.dropLast hNe).retimed

/-- Exactly 101 entries: the index 101 is not found, and 100 is not looked for. -/
theorem remove_one (hLarge : N.large p = true) (hOne : N.shared.length = 1) :
    ∃ m' mtime ctime, removeFromDir (stack + 2) p inum m = .ok () m' ∧
      m'.store = m.store.putInode p ((m.store.inode p).retimed mtime ctime) := by
  have hRow := h.row p hp
  have hFull := hRow.full hLarge
  have hLength := h.length_entryBlocks hp
  rw [Entries.listing_large hLarge, List.length_append, hFull, hOne] at hLength
  rw [hLarge] at hRow
  have hSize : m.store.size p = (N.own p).length + 1 := hRow.size
  refine removeFromDir_absent hRow.lists.inum hRow.lists.dir (h.readBlockid_eq hp stack)
    (List.ne_nil_of_length_pos (by omega)) (h.no_block hp hAbsent) m false false
    (fun b => ?_) ?_
  · rw [hLength]
    exact setInoBlockId_behind hRow.lists.inum hRow.lists.dir (by omega) hRow.indirect (by omega)
      (h.childEntries.childSizes.setInChild_none (q := 1) (by omega) (by omega)) nofun
  · rw [hLength]
    exact setInoBlockId_miss (Nat.min_le_right _ 100) (Or.inr (Nat.le_refl 100))

/-- More than 101 entries: the last one goes, and its child with it when it was the
only one there. -/
theorem remove_more (hLarge : N.large p = true) (hMore : 1 < N.shared.length) :
    ∃ m', removeFromDir (stack + 2) p inum m = .ok () m' ∧
      readDir m' (stack + 2) p = .ok (N.own p ++ N.shared.dropLast) := by
  have hRow := h.row p hp
  have hFull := hRow.full hLarge
  have hLength := h.length_entryBlocks hp
  have hCount := h.childEntries.count
  have hMost := h.childEntries.length_le
  rw [Entries.listing_large hLarge, List.length_append, hFull] at hLength
  rw [hLarge] at hRow
  have hSize : m.store.size p = (N.own p).length + 1 := hRow.size
  have hNe : ∀ c ∈ C, p ≠ c := fun c hc he => h.kids c hc (he ▸ hp)
  obtain ⟨q, hq⟩ : ∃ q, N.shared.length = q + 1 := ⟨N.shared.length - 1, by omega⟩
  have hj : q / 100 < C.length := by omega
  obtain ⟨m₁, hSecond, hStore₁⟩ := h.childEntries.childSizes.cut_behind hRow.lists.inum hRow.lists.dir
    (by omega) hRow.indirect stack (by omega) hq hj
  have hPage : (page 100 N.shared (q / 100)).length = q % 100 + 1 := by
    rw [page_length]
    omega
  have hLeft := (h.childEntries.child _ hj).cut (List.ne_nil_of_length_pos (by omega))
  rw [hPage, Nat.add_sub_cancel] at hLeft
  obtain ⟨m', mtime, ctime, hRun, hStore⟩ := removeFromDir_absent hRow.lists.inum hRow.lists.dir
    (h.readBlockid_eq hp stack) (List.ne_nil_of_length_pos (by omega)) (h.no_block hp hAbsent)
    m false _ (fun b => by
      rw [hLength]
      exact setInoBlockId_behind hRow.lists.inum hRow.lists.dir (by omega) hRow.indirect (by omega)
        (h.childEntries.childSizes.setInChild_none (Nat.le_refl _) (by omega)) nofun)
    (by rw [hLength, hq]; exact hSecond)
  have hSame : m₁.store.inode p = m.store.inode p := by
    rw [hStore₁, putInode_inode, if_neg (hNe _ (List.getElem_mem hj))]
  have hOther : ∀ i, i ≠ p → i ≠ C[q / 100] → m'.store.inode i = m.store.inode i := by
    intro i hip hic
    rw [hStore, putInode_inode, if_neg hip, hStore₁, putInode_inode, if_neg hic]
  have hBlocks : ∀ b, m'.store.bit b = m.store.bit b ∧ m'.store.data b = m.store.data b := by
    intro b
    rw [hStore, hStore₁]
    exact ⟨rfl, rfl⟩
  have hMid : m₁.store.Row p (N.own p) true := by
    refine hRow.congr hSame fun k hk => ?_
    rw [hStore₁]
    exact ⟨(hRow.lists.entry k hk).2.1, rfl⟩
  have hTable : m'.store.Table C := by
    rw [Table, (hBlocks 0).2]
    exact h.childEntries.table
  have hShort : N.shared.dropLast.length = q := by
    rw [List.length_dropLast, hq, Nat.add_sub_cancel]
  refine ⟨m', hRun, readDir_pages (hStore ▸ hMid.retimed) hTable
    (fun c hc => h.childEntries.ne_zero hc) (by omega) fun j hj' => ?_⟩
  by_cases he : j = q / 100
  · subst he
    rw [page_dropLast_last (by omega) (by omega)]
    refine readDir_left (hLeft.congr ?_ fun b hb => ?_)
    · rw [hStore, putInode_inode, if_neg (Ne.symm (hNe _ (List.getElem_mem hj))), hStore₁]
    · rw [hStore, hStore₁]
      exact ⟨hb, rfl⟩
  · have hDiff : C[j] ≠ C[q / 100] := fun hEq =>
      he ((List.Nodup.getElem_inj_iff h.childEntries.nodup).mp hEq)
    rw [page_dropLast_of_lt (by omega)]
    refine readDir_row ((h.childEntries.child j hj').congr
      (hOther _ (Ne.symm (hNe _ (List.getElem_mem hj'))) hDiff) fun k hk => ?_)
    rw [(hBlocks _).1, (hBlocks _).2]
    exact ⟨((h.childEntries.child j hj').lists.entry k hk).2.1, rfl⟩

end ChfsClient.EntriesOn

section Clean

variable {m m' : Machine} {stack p inum : Nat} {ids : List Nat}

/-- Only the times of one inode differ, and no slot leaves the disk: every listing is
as before. -/
theorem readDir_retimed (hm : m.Clean ∅ ∅) {mtime ctime : UInt32}
    (hStore : m'.store = m.store.putInode p ((m.store.inode p).retimed mtime ctime))
    (stack i : Nat) : readDir m' stack i = readDir m stack i := by
  induction stack generalizing i with
  | zero => rfl
  | succ stack ih =>
      by_cases hInum : IsInum i
      · have hRead : ∀ b, Addressable b → readBlock m' b = readBlock m b := fun b hb => by
          rw [readBlock_data hb.visible, readBlock_data hb.visible, hStore]
          rfl
        obtain ⟨hDir, hSize, hSlot⟩ : (m'.store.inode i).isDir = (m.store.inode i).isDir ∧
            (m'.store.inode i).size = (m.store.inode i).size ∧
            (m'.store.inode i).slot = (m.store.inode i).slot := by
          rw [hStore, putInode_inode]
          by_cases he : i = p
          · rw [if_pos he, he]
            exact ⟨rfl, rfl, rfl⟩
          · rw [if_neg he]
            exact ⟨rfl, rfl, rfl⟩
        have hDirect : readDirect m' (m'.store.inode i) = readDirect m (m.store.inode i) := by
          rw [readDirect, readDirect, hSize, hSlot]
          exact mapM_congr fun k _ => hRead _ ((hm.tidy i).slot k)
        have hChildren : mapChildren m' (m'.store.inode i) (readDir m' stack) =
            mapChildren m (m.store.inode i) (readDir m stack) := by
          rw [mapChildren, mapChildren, hSize, hSlot, hRead _ ((hm.tidy i).slot _), funext ih]
        rw [readDir, readDir, getInode_some hInum, getInode_some hInum]
        simp only [bind, Except.bind, hDir, hDirect, hChildren]
      · rw [readDir, readDir, getInode_none hInum, getInode_none hInum]
        rfl

/-- The direct blocks of an inode are among the blocks that `read_blockid` lists. -/
theorem size_le_of_readBlockid {c : Nat} {l : List Nat} (hIds : readBlockid m stack c = .ok l) :
    min (m.store.size c) 100 ≤ l.length := by
  cases stack with
  | zero => cases hIds
  | succ stack =>
      by_cases hInum : IsInum c
      · rw [readBlockid, getInode_some hInum] at hIds
        cases hChildren : mapChildren m (m.store.inode c) (readBlockid m stack) with
        | error e =>
            simp only [bind, Except.bind, hChildren] at hIds
            cases hIds
        | ok children =>
            simp only [bind, Except.bind, hChildren] at hIds
            obtain rfl := Except.ok.inj hIds
            rw [List.length_append, List.length_map, List.length_range]
            exact Nat.le_add_right _ _
      · have hZero : m.store.size c = 0 := by
          rw [Store.size, Machine.store]
          simp only [if_neg hInum]
          rfl
        omega

/-- With 101 blocks there is one block behind the slots, so no child has two. -/
theorem children_of_hundred_one (hm : m.Clean ∅ ∅) (hDir : (m.store.inode p).isDir = true)
    (hIds : readBlockid m stack p = .ok ids) (hCount : ids.length = 101) :
    ∃ depth, stack = depth + 2 ∧ IsInum p ∧ 100 < m.store.size p ∧ m.store.slot p 100 = 0 ∧
      ∀ c ∈ untilZero (inumBuf (m.store.data 0)), m.store.size c ≤ 1 := by
  have hInum := isInum_of_alive (alive_of_isDir hDir)
  have hSlot : m.store.slot p 100 = 0 := (hm.tidy p).dir hDir
  cases stack with
  | zero => cases hIds
  | succ stack =>
      have hLarge : 100 < m.store.size p := by
        by_contra hSmall
        rw [readBlockid_flat hInum (by omega)] at hIds
        have hLength := congrArg List.length (Except.ok.inj hIds)
        rw [directBlocks, List.length_map, List.length_range] at hLength
        omega
      have hIndirect : (m.store.inode p).slot ndirect = 0 := hSlot
      have hLarge' : (m.store.inode p).size.toNat > ndirect := hLarge
      have hBlock : readBlock m 0 = .ok (m.store.data 0) := readBlock_data (Or.inr (by omega))
      rw [readBlockid, getInode_some hInum] at hIds
      simp only [bind, Except.bind, mapChildren, if_pos hLarge', hIndirect, hBlock] at hIds
      cases hChildren : (untilZero (inumBuf (m.store.data 0))).mapM (readBlockid m stack) with
      | error e =>
          rw [hChildren] at hIds
          cases hIds
      | ok children =>
          rw [hChildren] at hIds
          obtain rfl := Except.ok.inj hIds
          have hMin : min (m.store.inode p).size.toNat 100 = 100 := Nat.min_eq_right hLarge.le
          rw [List.length_append, List.length_map, List.length_range, ndirect_eq, hMin] at hCount
          have hChild : ∀ c ∈ untilZero (inumBuf (m.store.data 0)), m.store.size c ≤ 1 := by
            intro c hc
            obtain ⟨l, hl, hRead⟩ := exists_of_mapM hChildren hc
            have hSize := size_le_of_readBlockid hRead
            have hSub := (List.sublist_flatten_of_mem hl).length_le
            omega
          cases stack with
          | zero =>
              cases hList : untilZero (inumBuf (m.store.data 0)) with
              | nil =>
                  rw [hList] at hChildren
                  obtain rfl := Except.ok.inj hChildren
                  simp at hCount
              | cons c rest =>
                  rw [hList, List.mapM_cons] at hChildren
                  cases hChildren
          | succ depth => exact ⟨depth, rfl, hInum, hLarge, hSlot, hChild⟩

theorem setInChild_end {set : Nat → Nat → Action (Bool × Nat)} {k i : Nat} (l : List Nat) :
    setInChild set k i (l.dropWhile (· != 0)) m = .ok none m := by
  induction l with
  | nil => rfl
  | cons c rest ih =>
      by_cases hc : c = 0
      · rw [List.dropWhile_cons_of_neg (by simpa using hc), setInChild, if_pos hc]
        rfl
      · rw [List.dropWhile_cons_of_pos (by simpa using hc)]
        exact ih

/-- Index 101 is the second of the first child, and further behind for the others. -/
theorem setInChild_ones {b : Nat}
    (hChild : ∀ c ∈ untilZero (inumBuf (m.store.data 0)), m.store.size c ≤ 1) :
    setInChild (fun child k => setInoBlockId (stack + 1) child k b true) 101 0
      (inumBuf (m.store.data 0)) m = .ok none m := by
  have hMost : (untilZero (inumBuf (m.store.data 0))).length ≤ 128 := by
    have hSub := (List.takeWhile_sublist (· != 0) (l := inumBuf (m.store.data 0))).length_le
    rwa [inumBuf_length] at hSub
  have hSplit : untilZero (inumBuf (m.store.data 0)) ++
      (inumBuf (m.store.data 0)).dropWhile (· != 0) = inumBuf (m.store.data 0) :=
    List.takeWhile_append_dropWhile
  rw [← hSplit, setInChild_pass fun j hj => ?_]
  · exact setInChild_end _
  · have hMem := List.getElem_mem hj
    have hSize := hChild _ hMem
    have hIndex := childIndex_eq (q := 1) (i := 0 + j) (by omega) (by omega)
    refine ⟨mem_untilZero_ne hMem, _, setInoBlockId_miss ?_ (Or.inl (by omega))⟩
    rw [hIndex]
    split <;> omega

/-- With 101 blocks neither update finds its index. -/
theorem Machine.Clean.remove_hundred_one (hm : m.Clean ∅ ∅) (hDir : (m.store.inode p).isDir = true)
    (hIds : readBlockid m stack p = .ok ids) (hCount : ids.length = 101)
    (hNone : ∀ b ∈ ids, (m.store.entryIn b).1 ≠ inum) :
    ∃ m' mtime ctime, removeFromDir stack p inum m = .ok () m' ∧
      m'.store = m.store.putInode p ((m.store.inode p).retimed mtime ctime) := by
  obtain ⟨depth, rfl, hInum, hLarge, hSlot, hChild⟩ := children_of_hundred_one hm hDir hIds hCount
  have hSeen := hm.yields_readBlockid (depth + 2) p
  rw [hIds] at hSeen
  refine removeFromDir_absent hInum hDir hIds (List.ne_nil_of_length_pos (by omega))
    (fun b hb => ⟨(hSeen b hb).visible, hNone b hb⟩) m false false
    (fun b => ?_) ?_
  · rw [hCount]
    exact setInoBlockId_behind hInum hDir hLarge hSlot (by omega) (setInChild_ones hChild) nofun
  · rw [hCount]
    exact setInoBlockId_miss (Nat.min_le_right _ 100) (Or.inr (Nat.le_refl 100))

end Clean

/-- Names that fit are valid, and nothing else is called. -/
theorem ChfsClient.Run.valid {stack : Nat} {clock : Nat → UInt32} {h : ChfsClient.History}
    {m : Machine} (hRun : Run stack clock (fun h _ call => call.Names h) h m) :
    Run stack clock (fun _ m call => call.Valid m) h m := by
  have hValid : ∀ {h : History} {m : Machine} {call : Call}, call.Names h → call.Valid m := by
    intro h m call hCall
    cases call with
    | node type parent name inoOut =>
        have hName := hCall.2
        exact (show 4 + name.bytes.length ≤ 512 by omega)
    | lookup => trivial
    | readdir => trivial
    | _ => exact hCall.elim
  induction hRun with
  | start hInit => exact .start hInit
  | step _ hAllowed hLast ih => exact ih.step (hValid hAllowed) hLast
  | failed _ hAllowed hLast ih => exact ih.failed (hValid hAllowed) hLast

namespace ExtentServer

open ChfsClient

/-- The entry in block `b` is one for `inum`. -/
def Names (m : Machine) (b inum : Nat) : Prop :=
  ∃ buf, readBlock m b = .ok buf ∧ (u32At buf.bytes 0).toNat = inum

/-- `remove_from_dir` returns, and the listing, the bitmap and all data blocks are as
before. -/
def LeavesAll (stack p inum : Nat) (m : Machine) : Prop :=
  wp (removeFromDir stack p inum)
    (fun _ m' => readDir m' stack p = readDir m stack p ∧
      (∀ b < blockNum, isFree m' b = isFree m b) ∧
      ∀ b, IsData b → readBlock m' b = readBlock m b)
    (fun _ _ => False) m

/-- The directory has one block more than an inode has slots, and none of them names
`inum`. -/
def Spared (stack p inum : Nat) (m : Machine) : Prop :=
  ∃ ids, readBlockid m stack p = .ok ids ∧ ids.length = ndirect + 1 ∧
    ∀ b ∈ ids, ¬Names m b (inum % 2 ^ 32)

section Removal

variable {stack p inum : Nat} {clock : Nat → UInt32} {m m' : Machine}

theorem removeFromDir_of_isInum (hInum : IsInum p) (stack inum : Nat) :
    removeFromDir stack p inum = InodeFS.removeFromDir stack p (inum % 2 ^ 32) := by
  have hLe := (isInum_iff.mp hInum).2
  rw [removeFromDir, Nat.mod_eq_of_lt (show p < 2 ^ 32 by omega)]

theorem readDir_of_isInum (hInum : IsInum p) (m : Machine) (stack : Nat) :
    readDir m stack p = InodeFS.readDir m stack p := by
  have hLe := (isInum_iff.mp hInum).2
  rw [readDir, Nat.mod_eq_of_lt (show p < 2 ^ 32 by omega)]

theorem LeavesAll.of_retimed (hInum : IsInum p) {mtime ctime : UInt32}
    (hRun : InodeFS.removeFromDir stack p (inum % 2 ^ 32) m = .ok () m')
    (hStore : m'.store = m.store.putInode p ((m.store.inode p).retimed mtime ctime))
    (hListing : InodeFS.readDir m' stack p = InodeFS.readDir m stack p) :
    LeavesAll stack p inum m := by
  rw [LeavesAll, removeFromDir_of_isInum hInum]
  refine wp_of_ok hRun ⟨?_, fun b hb => ?_, fun b hb => ?_⟩
  · rw [readDir_of_isInum hInum, readDir_of_isInum hInum, hListing]
  · rw [isFree_eq hb, isFree_eq hb, hStore]
    rfl
  · rw [readBlock_data (Or.inl hb), readBlock_data (Or.inl hb), hStore]
    rfl

/-- The listing that `remove_from_dir` left shows whether it left all. -/
theorem LeavesAll.readDir_eq (h : LeavesAll stack p inum m) (hInum : IsInum p)
    (hRun : InodeFS.removeFromDir stack p (inum % 2 ^ 32) m = .ok () m') :
    InodeFS.readDir m' stack p = InodeFS.readDir m stack p := by
  rw [LeavesAll, removeFromDir_of_isInum hInum] at h
  have hSame := (wp_ok h hRun).1
  rwa [readDir_of_isInum hInum, readDir_of_isInum hInum] at hSame

theorem names_iff {b : Nat} (hVisible : Visible b) :
    Names m b inum ↔ (m.store.entryIn b).1 = inum := by
  rw [Names, readBlock_data hVisible]
  constructor
  · rintro ⟨buf, hBuf, hEq⟩
    obtain rfl := Except.ok.inj hBuf
    exact hEq
  · exact fun hEq => ⟨_, rfl, hEq⟩

theorem Spared.leavesAll (hm : m.Clean ∅ ∅) (hDir : (m.store.inode p).isDir = true)
    (h : Spared stack p inum m) : LeavesAll stack p inum m := by
  obtain ⟨ids, hIds, hCount, hNone⟩ := h
  have hSeen := hm.yields_readBlockid stack p
  rw [hIds] at hSeen
  obtain ⟨m', mtime, ctime, hRun, hStore⟩ := hm.remove_hundred_one hDir hIds hCount
    fun b hb hEq => hNone b hb ((names_iff (hSeen b hb).visible).mpr hEq)
  exact .of_retimed (isInum_of_alive (alive_of_isDir hDir)) hRun hStore
    (readDir_retimed hm hStore stack p)

/-- In a tree that was only added to, nothing but 101 blocks will do. -/
theorem leavesAll_iff_length {N : Entries} {C : List Nat} (h : EntriesOn m.store N C) (hp : p ∈ N.dirs)
    (hAbsent : ∀ e ∈ N.listing p, e.1 ≠ inum % 2 ^ 32) (depth : Nat) :
    LeavesAll (depth + 2) p inum m ↔ (N.listing p).length = 101 := by
  have hRow := h.row p hp
  have hInum := hRow.lists.inum
  have hListing : ExtentServer.readDir m (depth + 2) p = .ok (N.listing p) := h.readDir_eq hp
  rw [readDir_of_isInum hInum] at hListing
  cases hLarge : N.large p with
  | false =>
      have hFew := hRow.few
      rw [Entries.listing_small hLarge] at hListing ⊢
      refine ⟨fun hLeaves => ?_, fun hMany => absurd hFew (by omega)⟩
      by_cases hNe : N.own p = []
      · have hBlocks := h.length_entryBlocks hp
        rw [Entries.listing_small hLarge, hNe, List.length_nil, List.length_eq_zero_iff] at hBlocks
        have hFails : InodeFS.removeFromDir (depth + 2) p (inum % 2 ^ 32) m = .error .segfault m :=
          removeFromDir_empty hInum hRow.lists.dir (hBlocks ▸ h.readBlockid_eq hp depth)
        rw [LeavesAll, removeFromDir_of_isInum hInum] at hLeaves
        exact (wp_error hLeaves hFails).elim
      · obtain ⟨m', hRun, hAfter⟩ := h.remove_small hp hAbsent depth hLarge hNe
        have hSame := hLeaves.readDir_eq hInum hRun
        rw [hAfter, hListing] at hSame
        have hLength := congrArg List.length (Except.ok.inj hSame)
        have hPos := List.length_pos_of_ne_nil hNe
        rw [List.length_dropLast] at hLength
        omega
  | true =>
      have hFull := hRow.full hLarge
      have hSome := List.length_pos_of_ne_nil (h.used.mpr ⟨p, hLarge⟩)
      rw [Entries.listing_large hLarge] at hListing ⊢
      rw [List.length_append, hFull]
      constructor
      · intro hLeaves
        by_contra hMore
        obtain ⟨m', hRun, hAfter⟩ := h.remove_more hp hAbsent depth hLarge (by omega)
        have hSame := hLeaves.readDir_eq hInum hRun
        rw [hAfter, hListing] at hSame
        have hLength := congrArg List.length (Except.ok.inj hSame)
        rw [List.length_append, List.length_append, List.length_dropLast] at hLength
        omega
      · intro hOne
        obtain ⟨m', mtime, ctime, hRun, hStore⟩ := h.remove_one hp hAbsent depth hLarge (by omega)
        refine .of_retimed hInum hRun hStore ?_
        rw [hListing, ← readDir_of_isInum hInum, readDir_entriesOn (l := N.own p)
          (hStore ▸ h.childEntries.carry carries_retimed (fun c hc he => h.kids c hc (he ▸ hp)) rfl)
          (hStore ▸ Row.retimed (hLarge ▸ hRow))]
        rfl

theorem spared_iff_length {N : Entries} {C : List Nat} (h : EntriesOn m.store N C) (hp : p ∈ N.dirs)
    (hAbsent : ∀ e ∈ N.listing p, e.1 ≠ inum % 2 ^ 32) (depth : Nat) :
    Spared (depth + 2) p inum m ↔ (N.listing p).length = 101 := by
  have hIds := h.readBlockid_eq hp depth
  have hLength := h.length_entryBlocks hp
  constructor
  · rintro ⟨ids, hRead, hCount, -⟩
    obtain rfl := Except.ok.inj (hIds.symm.trans hRead)
    exact hLength.symm.trans hCount
  · intro hCount
    refine ⟨_, hIds, hLength.trans hCount, fun b hb hNames => ?_⟩
    obtain ⟨hVisible, hNe⟩ := h.no_block hp hAbsent b hb
    exact hNe ((names_iff hVisible).mp hNames)

/-- In every state of a client, a directory with exactly 101 blocks is left alone. Where
entries were only added, no other directory is. -/
theorem remove_absent_iff (hStack : maxDepth < stack) :
    (∀ h m p inum, ChfsClient.Run stack clock (fun _ m call => call.Valid m) h m →
      (∃ ino, getInode m p = .ok (some ino) ∧ ino.isDir = true) →
      Spared stack p inum m → LeavesAll stack p inum m) ∧
    ∀ v p inum l, Reached stack clock v → p ∈ v.dirs → readDir v.machine stack p = .ok l →
      (∀ e ∈ l, e.1 ≠ inum % 2 ^ 32) →
      (LeavesAll stack p inum v.machine ↔ Spared stack p inum v.machine) := by
  constructor
  · rintro h m p inum hRun ⟨ino, hIno, hDir⟩ hSpared
    refine hSpared.leavesAll hRun.clean ?_
    by_cases hInum : IsInum p
    · rw [getInode_some hInum] at hIno
      exact Option.some.inj (Except.ok.inj hIno) ▸ hDir
    · rw [getInode_none hInum] at hIno
      cases hIno
  · intro v p inum l hReach hp hRead hAbsent
    obtain ⟨N, C, h⟩ := hReach.arranged hStack
    obtain ⟨depth, rfl⟩ : ∃ depth, stack = depth + 2 :=
      ⟨stack - 2, by rw [maxDepth_eq] at hStack; omega⟩
    have hp' : p ∈ N.dirs := h.dirs.symm ▸ hp
    obtain rfl := Except.ok.inj ((h.entriesOn.readDir_eq hp').symm.trans hRead)
    exact (leavesAll_iff_length h.entriesOn hp' hAbsent depth).trans
      (spared_iff_length h.entriesOn hp' hAbsent depth).symm

/-- The root with 101 names, made by a client, and with 101 entries for inode 2. -/
theorem remove_absent_hundred_one : (∃ h m,
      ChfsClient.Run 330 (fun _ => 0) (fun _ m call => call.Valid m) h m ∧ LeavesAll 330 1 0 m) ∧
    ∃ v, Reached 330 (fun _ => 0) v ∧ LeavesAll 330 1 3 v.machine := by
  have hStack : maxDepth < 330 := by rw [maxDepth_eq]; omega
  have hIff := @remove_absent_iff _ (fun _ => 0) hStack
  constructor
  · obtain ⟨m₀, hStart, hInodes, hBlocks⟩ := exists_reached_start 328
    obtain ⟨h, m, N, hReached, hFilled, -⟩ := hStart.fill (p := 1) rfl 0 101
      (fun e he => (Entries.not_has_start e he).elim) (by omega) (by omega) (by omega)
    obtain ⟨C, hOnlyEntries⟩ := hReached.onlyEntries
    have hS := hOnlyEntries.inUse
    have hp : 1 ∈ N.dirs := hFilled.dirs ▸ rfl
    have hLarge : N.large 1 = true := hFilled.self.mpr (Or.inr (by decide))
    have hLength : (N.listing 1).length = 101 := by
      rw [Entries.listing_large hLarge, List.length_append, hFilled.length, hFilled.shared]
      rfl
    have hAbsent : ∀ e ∈ N.listing 1, e.1 ≠ 0 % 2 ^ 32 := by
      intro e he
      have hInum := isInum_iff.mp (isInum_of_alive (hS.alive e (Entries.has_of_listing he)))
      omega
    refine ⟨h, m, hReached.run.valid, hIff.1 h m 1 0 hReached.run.valid ⟨_, getInode_some
      (hS.row 1 hp).lists.inum, (hS.row 1 hp).lists.dir⟩ ?_⟩
    exact (spared_iff_length hS.entriesOn hp hAbsent 328).mpr hLength
  · obtain ⟨v, N, C, hReach, h, hDirs, hLength, hInums, -⟩ :=
      exists_root_entries 328 (show 101 ≤ 1000 by omega)
    have hp : 1 ∈ v.dirs := hDirs ▸ rfl
    have hp' : 1 ∈ N.dirs := h.dirs.symm ▸ hp
    have hAbsent : ∀ e ∈ N.listing 1, e.1 ≠ 3 % 2 ^ 32 := fun e he => by
      rw [hInums e he]
      omega
    exact ⟨v, hReach, (hIff.2 v 1 3 _ hReach hp (h.entriesOn.readDir_eq hp') hAbsent).mpr
      ((spared_iff_length h.entriesOn hp' hAbsent 328).mpr hLength)⟩

/-- The fresh root lists nothing, and the last element of its block list is taken. -/
theorem remove_absent_fails : ∃ m, initInodeManager (Machine.zeroed fun _ => 0) = .ok () m ∧
    readDir m 330 1 = .ok [] ∧ ¬LeavesAll 330 1 2 m := by
  obtain ⟨m, hInit, -⟩ := exists_start fun _ => 0
  have hStart : EntriesOn m.store Entries.start [] := EntriesOn.start hInit
  have hListing : Entries.start.listing 1 = [] := Entries.listing_small rfl
  have hAbsent : ∀ e ∈ Entries.start.listing 1, e.1 ≠ 2 % 2 ^ 32 := fun e he => by
    rw [hListing] at he
    exact absurd he List.not_mem_nil
  refine ⟨m, hInit, (hStart.readDir_eq rfl).trans (congrArg Except.ok hListing), fun hLeaves => ?_⟩
  have hLength := (leavesAll_iff_length hStart rfl hAbsent 328).mp hLeaves
  rw [hListing] at hLength
  cases hLength

end Removal

end ExtentServer
end InodeFS
