import InodeFS.NameMap
import InodeFS.SetAttr

/-! A file is resized and then removed. `truncate_file` raises the size field
without an indirect block, and `remove_file` follows slot 100 to block 0, where
the children of the large directories are listed. -/
namespace InodeFS

open Bytes Exec Store

section Blank

variable {m : Machine} {f n stack : Nat} {C : List Nat} {Q : Unit → Machine → Prop}
  {E : Stop → Machine → Prop}

theorem Store.putInode_self (σ : Store) (i : Nat) : σ.putInode i (σ.inode i) = σ := by
  rw [putInode, Function.update_eq_self]

/-- A file without blocks and slots gets a size field and nothing else. -/
theorem wp_setAttr_blank (hAlive : m.store.Alive f) (hSize : m.store.size f = 0) (n stack : Nat) :
    wp (ExtentServer.setAttr (stack + 1) f n) (fun _ m' => ∃ ino,
      m'.store = m.store.putInode f ino ∧ ino.type = (m.store.inode f).type ∧
      (∀ k, ino.slot k = m.store.slot f k) ∧ ino.size.toNat = min (blocksFor n % 2 ^ 32) 101)
      (fun _ _ => False) m := by
  have hInum := isInum_of_alive hAlive
  have hRange := isInum_iff.mp hInum
  have hOld : (m.store.inode f).size.toNat = 0 := hSize
  have hGet : getFileSize m (stack + 1) f = .ok 0 := by
    rw [getFileSize, derefInode_ok hInum]
    exact if_pos hOld
  rw [ExtentServer.setAttr, Nat.mod_eq_of_lt (show f < 2 ^ 32 by omega), InodeFS.setAttr, wp_bind,
    wp_query_ok (f := (getFileSize · (stack + 1) f)) hGet]
  by_cases hZero : n = 0
  · subst hZero
    rw [if_neg (Nat.lt_irrefl 0), if_neg (Nat.lt_irrefl 0)]
    exact ⟨m.store.inode f, (m.store.putInode_self f).symm, rfl, fun _ => rfl, hOld⟩
  · rw [if_pos (Nat.pos_of_ne_zero hZero)]
    refine wp_mono (wp_truncateFile_grow hInum (by omega) (by omega) (Nat.pos_of_ne_zero hZero)
      (Nat.succ_pos stack)) (fun _ m' hPost => ?_) fun _ _ hFalse => hFalse
    obtain ⟨now, hStore⟩ := hPost
    exact ⟨_, hStore, rfl, fun _ => rfl, resized_size _ _ now⟩

theorem untilZero_zeros {α : Type} {f : α → Nat} (h : ∀ a, f a = 0) (l : List α) :
    untilZero (l.map f) = [] := by
  cases l with
  | nil => rfl
  | cons a rest => simp [untilZero, h]

/-- `remove_file` on an inode whose slots are all 0 visits what block 0 lists. -/
theorem wp_removeFile_blank (hAlive : m.store.Alive f) (hSlot : ∀ k, m.store.slot f k = 0)
    (h : wp ((if 100 < m.store.size f then untilZero (inumBuf (m.store.data 0)) else []).forM
      (removeFile stack)) (fun _ m' => wp (freeInode f) Q E m') E m) :
    wp (removeFile (stack + 1) f) Q E m := by
  have hType : (m.store.inode f).type ≠ 0 := hAlive
  have hNone : untilZero ((List.range ndirect).map (m.store.inode f).slot) = [] :=
    untilZero_zeros hSlot _
  have hIndirect : (m.store.inode f).slot ndirect = 0 := hSlot 100
  rw [removeFile, wp_bind, wp_derefInode (isInum_of_alive hAlive), if_neg hType, hNone, wp_bind]
  change wp (forChildren (m.store.inode f) (removeFile stack) >>= fun _ => freeInode f) Q E m
  rw [wp_bind, forChildren]
  by_cases hLarge : 100 < m.store.size f
  · rw [if_pos hLarge] at h
    rw [if_pos (show (m.store.inode f).size.toNat > ndirect from hLarge), hIndirect, wp_bind,
      wp_readBlock (Or.inr (by omega : 0 < 2))]
    exact h
  · rw [if_neg hLarge] at h
    rw [if_neg (show ¬(m.store.inode f).size.toNat > ndirect from hLarge)]
    exact h

/-- A file that needs no indirect block, or meets an empty block 0, is cleared. -/
theorem wp_removeFile_harmless (hAlive : m.store.Alive f) (hSlot : ∀ k, m.store.slot f k = 0)
    (hNone : m.store.size f ≤ 100 ∨ untilZero (inumBuf (m.store.data 0)) = []) :
    wp (removeFile (stack + 1) f) (fun _ m' => m'.store = m.store.putInode f Inode.cleared)
      (fun _ _ => False) m := by
  have hNil : (if 100 < m.store.size f then untilZero (inumBuf (m.store.data 0)) else []) = [] := by
    split
    · exact hNone.resolve_left (by omega)
    · rfl
  apply wp_removeFile_blank hAlive hSlot
  rw [hNil]
  change wp (freeInode f) _ _ m
  obtain ⟨m', hRun, hStore⟩ := freeInode_eq hAlive
  exact wp_of_ok hRun hStore

/-- Inodes of `T` were cleared, and the other inodes and block 0 are as before. -/
structure Store.Wiped (σ σ' : Store) (T : Set Nat) : Prop where
  cleared : ∀ i ∈ T, σ'.inode i = Inode.cleared
  inode : ∀ i, i ∉ T → σ'.inode i = σ.inode i
  zero : σ'.data 0 = σ.data 0

theorem Store.Wiped.trans {σ σ₁ σ' : Store} {T U : Set Nat} (h₁ : Wiped σ σ₁ T)
    (h₂ : Wiped σ₁ σ' U) : Wiped σ σ' (T ∪ U) where
  cleared i hi := by
    by_cases hU : i ∈ U
    · exact h₂.cleared i hU
    · rw [h₂.inode i hU]
      exact h₁.cleared i (hi.resolve_right hU)
  inode i hi := by
    rw [h₂.inode i fun hU => hi (Or.inr hU), h₁.inode i fun hT => hi (Or.inl hT)]
  zero := h₂.zero.trans h₁.zero

theorem wp_freeInode_wiped (hAlive : m.store.Alive f) : wp (freeInode f)
    (fun _ m' => Wiped m.store m'.store {f}) (fun _ _ => False) m := by
  obtain ⟨m', hRun, hStore⟩ := freeInode_eq hAlive
  refine wp_of_ok hRun ?_
  rw [hStore]
  refine ⟨fun i hi => ?_, fun i hi => ?_, rfl⟩
  · have hSelf : i = f := hi
    rw [putInode_inode, if_pos hSelf]
  · have hne : i ≠ f := hi
    rw [putInode_inode, if_neg hne]

/-- The first loop of `remove_file` touches no inode and not block 0. -/
theorem wp_freeSlots {c : Nat}
    (hSlot : ∀ k < 100, m.store.slot c k = 0 ∨ IsData (m.store.slot c k)) :
    wp ((untilZero ((List.range ndirect).map (m.store.inode c).slot)).forM freeBlock)
      (fun _ m' => m'.store.inode = m.store.inode ∧ m'.store.data 0 = m.store.data 0)
      (fun _ _ => False) m := by
  refine wp_forM (fun _ (m' : Machine) => m'.store.inode = m.store.inode ∧
    m'.store.data 0 = m.store.data 0) ⟨rfl, rfl⟩ fun done b rest hl m₁ hm₁ => ?_
  have hb : b ∈ m.store.freedBlocks c := by
    change b ∈ untilZero ((List.range ndirect).map (m.store.inode c).slot)
    rw [hl]
    simp
  obtain ⟨k, hk, hbk⟩ := (mem_freedBlocks hb).2
  have hData : IsData b := hbk ▸ (hSlot k hk).resolve_left (hbk ▸ mem_untilZero_ne hb)
  have hRange := isData_iff.mp hData
  cases hBit : m₁.store.bit b with
  | false => exact wp_of_ok (freeBlock_unmarked hData hBit) hm₁
  | true =>
      obtain ⟨m₂, hRun, hStore⟩ := freeBlock_marked hData hBit
      refine wp_of_ok hRun ?_
      rw [hStore, write_data, if_neg (by omega)]
      exact hm₁

/-- An inode in use without an indirect block, whose slots hold data blocks. -/
structure Store.Leaf (σ : Store) (c : Nat) : Prop where
  alive : σ.Alive c
  size : σ.size c ≤ 100
  slot : ∀ k < 100, σ.slot c k = 0 ∨ IsData (σ.slot c k)

theorem Store.Leaf.congr {σ σ' : Store} {c : Nat} (h : σ.Leaf c) (hSame : σ'.inode c = σ.inode c) :
    σ'.Leaf c where
  alive := by
    rw [Alive, hSame]
    exact h.alive
  size := (size_congr hSame).trans_le h.size
  slot k hk := by
    rw [slot_congr hSame]
    exact h.slot k hk

/-- `remove_file` on such an inode. -/
theorem wp_removeFile_leaf {c : Nat} (h : m.store.Leaf c) (stack : Nat) :
    wp (removeFile (stack + 1) c) (fun _ m' => Wiped m.store m'.store {c}) (fun _ _ => False) m := by
  have hType : (m.store.inode c).type ≠ 0 := h.alive
  rw [removeFile, wp_bind, wp_derefInode (isInum_of_alive h.alive), if_neg hType, wp_bind]
  refine wp_mono (wp_freeSlots h.slot) (fun _ m₁ hm₁ => ?_) fun _ _ hFalse => hFalse
  have hAlive₁ : m₁.store.Alive c := (h.congr (congrFun hm₁.1 c)).alive
  have hSmall : ¬(m.store.inode c).size.toNat > ndirect := Nat.not_lt.mpr h.size
  rw [wp_bind, forChildren, if_neg hSmall, wp_pure]
  refine wp_mono (wp_freeInode_wiped hAlive₁) (fun _ m₂ hm₂ => ?_) fun _ _ hFalse => hFalse
  exact ⟨hm₂.cleared, fun i hi => by rw [hm₂.inode i hi, hm₁.1], hm₂.zero.trans hm₁.2⟩

/-- A loop over such inodes clears them all. -/
theorem wp_removeFile_leaves {σ : Store} (hNodup : C.Nodup) (hLeaf : ∀ c ∈ C, σ.Leaf c)
    (hSame : m.store.inode = σ.inode) (hZero : m.store.data 0 = σ.data 0) (stack : Nat) :
    wp (C.forM (removeFile (stack + 1))) (fun _ m' => Wiped σ m'.store {c | c ∈ C})
      (fun _ _ => False) m := by
  refine wp_forM (fun done (m' : Machine) => Wiped σ m'.store {c | c ∈ done})
    ⟨fun i hi => absurd hi List.not_mem_nil, fun i _ => by rw [hSame], hZero⟩
    fun done c rest hl m₁ hm₁ => ?_
  have hc : c ∈ C := by simp [hl]
  have hNew : c ∉ done := by
    rw [hl] at hNodup
    exact fun hMem => (List.nodup_append.mp hNodup).2.2 c hMem c List.mem_cons_self rfl
  refine wp_mono (wp_removeFile_leaf ((hLeaf c hc).congr (hm₁.inode c hNew)) stack)
    (fun _ m₂ hm₂ => ?_) fun _ _ hFalse => hFalse
  have hBoth := hm₁.trans hm₂
  have hSet : ({d | d ∈ done} ∪ {c} : Set Nat) = {d | d ∈ done ++ [c]} := by
    ext d
    simp [or_comm]
  rwa [hSet] at hBoth

theorem Store.ChildEntries.leaf {σ : Store} {s : List Entry} {c : Nat} (h : σ.ChildEntries C s) (hc : c ∈ C) :
    σ.Leaf c := by
  obtain ⟨l, hRow⟩ := h.mem hc
  have hSize : σ.size c = l.length := hRow.size
  have hFew := hRow.few
  refine ⟨hRow.alive, by omega, fun k _ => ?_⟩
  by_cases hk : k < l.length
  · exact Or.inr (hRow.lists.entry k hk).1
  · exact Or.inl (hRow.rest k (by omega))

end Blank

namespace ChfsClient

section Discard

variable {stack n f q : Nat} {m m' : Machine} {N : Entries} {C : List Nat}

theorem readFile_blank (hInum : IsInum f) (hSize : m.store.size f = 0) (stack : Nat) :
    ExtentServer.get m (stack + 1) f = .ok [] := by
  have hZero : (m.store.inode f).size.toNat = 0 := hSize
  have hDirect : readDirect m (m.store.inode f) = .ok [] := by
    rw [readDirect, hZero]
    rfl
  have hChildren : mapChildren m (m.store.inode f) (readFile m stack) = .ok [] :=
    if_neg (by rw [hZero, ndirect_eq]; omega)
  rw [ExtentServer.get, ExtentServer.maskId_of_isInum hInum, readFile, getInode_some hInum]
  simp only [bind, Except.bind, hDirect, hChildren]
  rfl

/-- A cleared child lists nothing, so a large directory shows its own entries only. -/
theorem readdir_wiped {σ : Store} (hS : EntriesInUse σ N C) (hq : q ∈ N.dirs) (hLarge : N.large q = true)
    (hWiped : Wiped σ m.store ({c | c ∈ C} ∪ {f})) (hqf : q ≠ f) {l : List (Nat × CString)}
    (hRead : readdir m (stack + 2) q = .ok l) : l.length ≤ 100 := by
  have hRow := hS.row q hq
  have hSame : m.store.inode q = σ.inode q := hWiped.inode q (by
    rintro (hc | hEq)
    · exact hS.kids q hc hq
    · exact hqf hEq)
  have hSize : (m.store.inode q).size.toNat = 101 := by
    have hOld := hRow.size
    rw [hRow.full hLarge, hLarge] at hOld
    rw [hSame]
    exact hOld
  have hIndirect : (m.store.inode q).slot ndirect = 0 := by
    rw [hSame]
    exact hRow.indirect
  have hTable : untilZero (inumBuf (m.store.data 0)) = C := by
    rw [hWiped.zero]
    exact untilZero_table hS.childEntries.table fun c hc => hS.childEntries.ne_zero hc
  have hNone : ∀ c ∈ C, readDir m (stack + 1) c = .ok [] := by
    intro c hc
    obtain ⟨r, hRowC⟩ := hS.childEntries.mem hc
    have hCleared := hWiped.cleared c (Or.inl hc)
    rw [readDir, getInode_some hRowC.lists.inum, hCleared]
    rfl
  have hChildren : mapChildren m (m.store.inode q) (readDir m (stack + 1)) =
      .ok (C.map fun _ => []) := by
    rw [mapChildren, if_pos (by rw [hSize, ndirect_eq]; omega), hIndirect,
      readBlock_data (Or.inr (by omega : 0 < 2))]
    simp only [bind, Except.bind, hTable]
    exact mapM_ok hNone
  have hDir : (m.store.inode q).isDir = true := by
    rw [hSame]
    exact hRow.lists.dir
  have hRange := isInum_iff.mp hRow.lists.inum
  rw [readdir, ExtentServer.readDir, Nat.mod_eq_of_lt (by omega), readDir_eq hRow.lists.inum hDir,
    hChildren] at hRead
  have hDirect : readDirect m (m.store.inode q) =
      .ok ((List.range (min (m.store.inode q).size.toNat 100)).map fun k =>
        m.store.data (m.store.slot q k)) := by
    refine mapM_ok fun k hk => readBlock_data (Or.inl ?_)
    have hFull := hRow.full hLarge
    rw [List.mem_range, hSize, ndirect_eq] at hk
    have hSlot : (m.store.inode q).slot k = σ.slot q k := slot_congr hSame k
    rw [hSlot]
    exact (hRow.lists.entry k (by omega)).1
  rw [hDirect] at hRead
  have hList := Except.ok.inj hRead
  rw [← hList]
  simp [hSize]

/-- The file was cleared, and nothing else changed. -/
theorem readdir_cleared {σ : Store} (hS : EntriesInUse σ N C) (hf : Plain σ N C f)
    (hStore : m.store = σ.putInode f Inode.cleared) (hq : q ∈ N.dirs) :
    readdir m (stack + 2) q = .ok (N.listing q) := by
  have hSame : ∀ i, i ≠ f → m.store.inode i = σ.inode i := fun i hi => by
    rw [hStore, putInode_inode, if_neg hi]
  have hRow : ∀ i ≠ f, ∀ l large, σ.Row i l large → m.store.Row i l large := by
    intro i hi l large hRow
    refine hRow.congr (hSame i hi) fun k hk => ?_
    rw [hStore]
    exact ⟨(hRow.lists.entry k hk).2.1, rfl⟩
  refine readdir_row (hS.childEntries.congr (by rw [hStore]; rfl) fun c hc l => ?_)
    (hRow q (fun he => hf.dirs (he ▸ hq)) _ _ (hS.row q hq))
  exact hRow c (fun he => hf.kids (he ▸ hc)) l false

/-- What `setattr` followed by `remove` of a file does to the rest. -/
def Harmless (h : History) (stack f n : Nat) (m : Machine) : Prop :=
  ∃ m₁ m₂, setattr stack f n m = .ok .OK m₁ ∧ ExtentServer.remove stack f m₁ = .ok () m₂ ∧
    (∀ q ∈ (nameMap h).dirs, readdir m₂ stack q = readdir m stack q) ∧
    ∀ g ∈ files h, g ≠ f → ExtentServer.get m₂ stack g = ExtentServer.get m stack g

variable {clock : Nat → UInt32} {h : History}

theorem setattr_ok {m₁ : Machine} (hRun : ExtentServer.setAttr stack f n m = .ok () m₁) :
    setattr stack f n m = .ok .OK m₁ := by
  simp only [setattr, bind, EStateM.bind, hRun]
  rfl

/-- Children hold entries of a large directory. -/
theorem EntriesInUse.exists_large {σ : Store} (hS : EntriesInUse σ N C) (hne : C ≠ []) :
    ∃ q, N.large q = true := by
  have hCount := hS.childEntries.count
  have hPos := List.length_pos_of_ne_nil hne
  refine hS.used.mp fun hNone => ?_
  rw [hNone, List.length_nil] at hCount
  omega

theorem no_large_iff (hS : EntriesInUse m.store N C) (stack : Nat) :
    (∀ q ∈ N.dirs, ∀ l, readdir m (stack + 2) q = .ok l → l.length ≤ 100) ↔ C = [] := by
  constructor
  · intro hFew
    by_contra hne
    obtain ⟨q, hLarge⟩ := hS.exists_large hne
    have hq := hS.mem_dirs hLarge
    have hMany := (hS.length_listing hq).mp hLarge
    have hLe := hFew q hq _ (hS.readdir_eq hq)
    omega
  · intro hNil q hq l hRead
    rw [hS.readdir_eq hq] at hRead
    obtain rfl := Except.ok.inj hRead
    by_contra hMany
    have hLarge := (hS.length_listing hq).mpr (by omega)
    have hPos := List.length_pos_of_ne_nil (hS.used.mpr ⟨q, hLarge⟩)
    have hCount := hS.childEntries.count
    rw [hNil, List.length_nil] at hCount
    omega

/-- With an indirect block by its size field, the file takes the children with it. -/
theorem wp_remove_harmful (hS : EntriesInUse m.store N C) (hf : Plain m.store N C f)
    (hSlot : ∀ k, m.store.slot f k = 0) (hLarge : 100 < m.store.size f) :
    wp (removeFile (stack + 2) f) (fun _ m' => Wiped m.store m'.store ({c | c ∈ C} ∪ {f}))
      (fun _ _ => False) m := by
  apply wp_removeFile_blank hf.alive hSlot
  rw [if_pos hLarge, untilZero_table hS.childEntries.table fun c hc => hS.childEntries.ne_zero hc]
  refine wp_mono (wp_removeFile_leaves hS.childEntries.nodup (fun _ hc => hS.childEntries.leaf hc) rfl rfl stack)
    (fun _ m₁ hWiped => ?_) fun _ _ hFalse => hFalse
  have hAlive : m₁.store.Alive f := by
    rw [Alive, hWiped.inode f hf.kids]
    exact hf.alive
  exact wp_mono (wp_freeInode_wiped hAlive) (fun _ _ hCleared => hWiped.trans hCleared)
    fun _ _ hFalse => hFalse

theorem OnlyEntries.harmless_iff (hOnlyEntries : OnlyEntries m.store N C) (hDirs : N.dirs = (nameMap h).dirs)
    (hFiles : ∀ i ∈ files h, Plain m.store N C i) (hf : f ∈ files h) (d n : Nat) :
    Harmless h (d + 2) f n m ↔ blocksFor n % 2 ^ 32 ≤ 100 ∨ C = [] := by
  have hS := hOnlyEntries.inUse
  have hPlain := hFiles f hf
  obtain ⟨hSize, hSlot⟩ := hOnlyEntries.blank f hPlain.dirs hPlain.kids
  obtain ⟨_, m₁, hSet, ino, hStore₁, hType, hSlots, hBlocks⟩ :=
    exists_ok_of_wp (wp_setAttr_blank hPlain.alive hSize n (d + 1))
  have hPut : Carries m.store m₁.store {f} := hStore₁ ▸ Carries.putInode hType
  have hS₁ : EntriesInUse m₁.store N C := hS.carry hPut (fun p hp he => hPlain.dirs (he ▸ hp))
    (fun c hc he => hPlain.kids (he ▸ hc)) (by rw [hStore₁]; rfl)
  have hPlain₁ : Plain m₁.store N C f := ⟨hPut.alive f hPlain.alive, hPlain.dirs, hPlain.kids⟩
  have hSlot₁ : ∀ k, m₁.store.slot f k = 0 := fun k => by
    rw [hStore₁, slot_putInode_self, hSlots, hSlot]
  have hSize₁ : m₁.store.size f = min (blocksFor n % 2 ^ 32) 101 := by
    rw [hStore₁, size_putInode_self, hBlocks]
  rw [Harmless, ← hDirs, ExtentServer.remove,
    ExtentServer.maskId_of_isInum (isInum_of_alive hPlain.alive)]
  constructor
  · rintro ⟨m₁', m₂, hSet', hRemove, hSame, -⟩
    rw [setattr_ok hSet] at hSet'
    injection hSet' with _ hMachine
    subst hMachine
    by_contra hNot
    rw [not_or] at hNot
    obtain ⟨q, hLarge⟩ := hS.exists_large hNot.2
    have hq := hS.mem_dirs hLarge
    have hWiped := wp_ok (wp_remove_harmful hS₁ hPlain₁ hSlot₁ (by omega)) hRemove
    have hMany := (hS.length_listing hq).mp hLarge
    have hFew := readdir_wiped hS₁ hq hLarge hWiped (fun he => hPlain.dirs (he ▸ hq))
      ((hSame q hq).trans (hS.readdir_eq hq))
    omega
  · intro hCond
    obtain ⟨_, m₂, hRemove, hStore₂⟩ := exists_ok_of_wp
      (wp_removeFile_harmless hPlain₁.alive hSlot₁ (by
        rw [untilZero_table hS₁.childEntries.table fun c hc => hS₁.childEntries.ne_zero hc, hSize₁]
        exact hCond.imp (fun hSmall => by omega) id))
    refine ⟨m₁, m₂, setattr_ok hSet, hRemove, fun q hq => ?_, fun g hg hne => ?_⟩
    · rw [readdir_cleared hS₁ hPlain₁ hStore₂ hq, hS.readdir_eq hq]
    · have hOther := hFiles g hg
      have hInum := isInum_of_alive hOther.alive
      have hBlank := (hOnlyEntries.blank g hOther.dirs hOther.kids).1
      have hSame : m₂.store.inode g = m.store.inode g := by
        rw [hStore₂, hStore₁, putInode_inode, if_neg hne, putInode_inode, if_neg hne]
      rw [readFile_blank hInum ((size_congr hSame).trans hBlank),
        readFile_blank hInum hBlank]

/-- Resizing and removing a file leaves everything else alone exactly when the new
size needs at most 100 blocks or no directory has more than 100 entries. -/
theorem resize_remove_iff (hStack : 2 ≤ stack)
    (hRun : Run stack clock (fun h _ call => call.Names h) h m) (hf : f ∈ files h) (n : Nat) :
    Harmless h stack f n m ↔ blocksFor n % 2 ^ 32 ≤ 100 ∨
      ∀ q ∈ (nameMap h).dirs, ∀ l, readdir m stack q = .ok l → l.length ≤ 100 := by
  obtain ⟨d, rfl⟩ := Nat.exists_eq_add_of_le' hStack
  obtain ⟨N, C, hOnlyEntries, hDirs, hFiles⟩ := hRun.onlyEntries
  rw [← hDirs, no_large_iff hOnlyEntries.inUse d]
  exact hOnlyEntries.harmless_iff hDirs hFiles hf d n

/-- A file in a root that lists 101 entries. -/
theorem exists_file_in_large_root : ∃ (h : History) (m : Machine) (f : Nat)
    (l : List (Nat × CString)), Run 2 (fun _ => 0) (fun h _ call => call.Names h) h m ∧
      f ∈ files h ∧ 1 ∈ (nameMap h).dirs ∧ readdir m 2 1 = .ok l ∧ l.length = 101 := by
  obtain ⟨m₀, hStart, hInodes₀, hBlocks₀⟩ := exists_reached_start 0
  obtain ⟨f, m₁, -, -, hReached₁, hBlocks₁, hInodes₁⟩ := hStart.create .T_FILE (row 0)
    (p := 1) rfl List.not_mem_nil (Nat.zero_le _) (by omega) (by omega)
  generalize hN₁ : (Entries.start.grow .T_FILE f).enter 1 (f, row 0) = N₁ at hReached₁
  have hRoot : 1 ∈ N₁.dirs := hN₁ ▸ rfl
  have hOwn : (N₁.own 1).length = 1 := hN₁ ▸ rfl
  have hShared : N₁.shared.length = 0 := hN₁ ▸ rfl
  have hNames : ∀ e, N₁.Has e → e.2.bytes.length < 1 := by
    intro e he
    rw [← hN₁] at he
    rcases Entries.has_enter he with hOld | rfl
    · exact (Entries.not_has_start e hOld).elim
    · rw [row_length]
      omega
  obtain ⟨h₂, m₂, N₂, hReached₂, hFilled, -, -, -, hKeep, -⟩ :=
    hReached₁.fill hRoot 1 100 hNames (by omega) (by omega) (by omega)
  obtain ⟨C, hOnlyEntries⟩ := hReached₂.onlyEntries
  have hRoot₂ : 1 ∈ N₂.dirs := hFilled.dirs ▸ hRoot
  have hLarge : N₂.large 1 = true := hFilled.self.mpr (Or.inr (by omega))
  have hLength := hFilled.length
  have hBehind := hFilled.shared
  refine ⟨h₂, m₂, f, N₂.listing 1, hReached₂.run, ?_, hReached₂.dirs ▸ hRoot₂,
    hOnlyEntries.inUse.readdir_eq hRoot₂, ?_⟩
  · exact ⟨.T_FILE, 1, row 0, 0, nofun, hKeep _ (List.mem_append_right _ List.mem_cons_self)⟩
  · rw [Entries.listing_large hLarge, List.length_append]
    omega

/-- A file of one byte more than 100 blocks takes the entries of the root with it. -/
theorem resize_remove_empties_root : ∃ (h : History) (m : Machine) (f : Nat),
    Run 2 (fun _ => 0) (fun h _ call => call.Names h) h m ∧ f ∈ files h ∧
      ¬Harmless h 2 f 51201 m := by
  obtain ⟨h, m, f, l, hRun, hf, hRoot, hRead, hLength⟩ := exists_file_in_large_root
  obtain ⟨N, C, hOnlyEntries, hDirs, hFiles⟩ := hRun.onlyEntries
  refine ⟨h, m, f, hRun, hf, fun hHarmless => ?_⟩
  rcases (hOnlyEntries.harmless_iff hDirs hFiles hf 0 51201).mp hHarmless with hFew | hNil
  · rw [blocksFor_eq] at hFew
    omega
  · have := (no_large_iff hOnlyEntries.inUse 0).mpr hNil 1 (hDirs ▸ hRoot) l hRead
    omega

/-- The same file, resized within 100 blocks. -/
theorem resize_remove_small : ∃ (h : History) (m : Machine) (f : Nat),
    Run 2 (fun _ => 0) (fun h _ call => call.Names h) h m ∧ f ∈ files h ∧
      (Harmless h 2 f 51200 m ↔ blocksFor 51200 % 2 ^ 32 ≤ 100 ∨
        ∀ q ∈ (nameMap h).dirs, ∀ l, readdir m 2 q = .ok l → l.length ≤ 100) := by
  obtain ⟨h, m, f, l, hRun, hf, -⟩ := exists_file_in_large_root
  exact ⟨h, m, f, hRun, hf, resize_remove_iff (Nat.le_refl 2) hRun hf 51200⟩

end Discard
end ChfsClient
end InodeFS
