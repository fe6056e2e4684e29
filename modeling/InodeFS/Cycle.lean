import InodeFS.Descent

/-! Where the tree ends. A child that lost its last entry is freed and stays listed in
block 0: when `mkdir` gets its inode and the new directory becomes large, it lists itself
among its children. -/
namespace InodeFS

open Bytes Exec Paging Store

namespace Store

variable {σ σ' σ₁ : Store} {C D : List Nat} {n x i : Nat} {e : Entry} {type : FileType} {now : UInt32}

/-- The inodes in use are the first ones. -/
def Low (σ : Store) : Prop := ∀ i, σ.Alive i → ∀ j, IsInum j → j < i → σ.Alive j

theorem alive_freshInode (h : σ.Alive i) (j : Nat) : (σ.putInode j (freshInode type now)).Alive i := by
  rw [Alive, putInode_inode]
  split
  · exact FileType.code_toUInt16_ne_zero type
  · exact h

theorem Took.alive (hTook : Took σ σ' C D n e) (h : σ.Alive i) : σ'.Alive i := by
  cases hTook with
  | last hC hRoom hAdd => exact (hAdd.alive_iff i).mpr h
  | again hD hFull hDir hAdd => exact (hAdd.alive_iff i).mpr h
  | dropped hD hFull hDir hSame => exact hSame ▸ h
  | new hD hFull hFew hInum hDead hFirst hAdd hWrite =>
      rw [hWrite]
      exact (hAdd.alive_iff i).mpr (alive_freshInode h _)

namespace Low

theorem congr (h : σ.Low) (hAlive : ∀ i, σ'.Alive i ↔ σ.Alive i) : σ'.Low := fun i hi j hj hLt =>
  (hAlive j).mpr (h i ((hAlive i).mp hi) j hj hLt)

theorem added (h : σ.Low) (hAdd : Added σ σ' x e) : σ'.Low := h.congr hAdd.alive_iff

/-- The first free inode is allocated. -/
theorem alloc (h : σ.Low) (hFirst : ∀ j, IsInum j → j < i → σ.Alive j) :
    (σ.putInode i (freshInode type now)).Low := by
  intro k hk j hj hLt
  by_cases he : k = i
  · exact alive_freshInode (hFirst j hj (he ▸ hLt)) i
  · rw [Alive, putInode_inode, if_neg he] at hk
    exact alive_freshInode (h k hk j hj hLt) i

theorem took (h : σ.Low) (hTook : Took σ σ' C D n e) : σ'.Low := by
  cases hTook with
  | last hC hRoom hAdd => exact h.added hAdd
  | again hD hFull hDir hAdd => exact h.added hAdd
  | dropped hD hFull hDir hSame => exact hSame ▸ h
  | new hD hFull hFew hInum hDead hFirst hAdd hWrite =>
      exact ((h.alloc hFirst).added hAdd).congr fun i => by rw [hWrite, Alive, write_inode, Alive]

end Low
end Store

/-- A short name is not refused where a block and a place are left. -/
theorem Store.Refused.false {σ σ' : Store} {name : CString} {e : Stop} (h : Refused σ σ' True name e)
    (hBlock : 0 < σ.freeBlocks) (hName : name.bytes.length ≤ 508) : False := by
  cases h with
  | overflow _ _ hLong => omega
  | full hNone _ _ => omega
  | crash _ hNowhere _ => exact hNowhere trivial

namespace ChfsClient

section Lowest

variable {m : Machine} {N : Entries} {C : List Nat} {p stack : Nat} {name : CString}

/-- What `create`, `mkdir` and `ln` allocate are the first free inodes. -/
theorem EntriesInUse.wp_createNode_low (h : EntriesInUse m.store N C) (hLow : m.store.Low) (type : FileType)
    (stack inoOut : Nat) (hp : p ∈ N.dirs) (hNew : name ∉ (N.listing p).map Prod.snd) :
    wp (createNode type (stack + 2) p name inoOut) (fun _ m' => m'.store.Low) (fun _ _ => True) m := by
  have hRow := h.row p hp
  refine wp_createNode_absent type inoOut hRow.lists.inum (h.readdir_eq hp) hNew
    (fun i now m₁ hInum hDead hFirst hStore => ?_) fun _ => trivial
  have hRange := isInum_iff.mp hInum
  have hLow₁ : m₁.store.Low := hStore ▸ hLow.alloc hFirst
  have hGrown : EntriesInUse m₁.store (N.grow type i) C := hStore ▸ h.grow hInum hDead
  have hRow₁ := hGrown.row p (Entries.mem_grow_dirs hp type i)
  rcases Nat.lt_or_ge (m₁.store.size p) 100 with hSmall | hLarge
  · exact wp_mono (wp_addToDir_small hRow₁.lists.inum hRow₁.lists.dir hSmall (by omega))
      (fun _ _ hPost => hLow₁.added hPost.2) fun _ _ _ => trivial
  · refine wp_mono (wp_addToDir_took hGrown.childEntries.childSizes (fun c hc => ?_) hRow₁.lists.inum
      hRow₁.lists.dir hLarge hRow₁.indirect (by omega) stack) (fun _ m₂ hPost => ?_) fun _ _ _ => trivial
    · obtain ⟨l, hChild⟩ := hGrown.childEntries.mem hc
      exact hChild.indirect
    · obtain ⟨σ₁, mtime, ctime, hTook, hStore₂⟩ := hPost
      have hTouch : (touchedInode (m₁.store.inode p) mtime ctime).type ≠ 0 := hRow₁.alive
      refine (hLow₁.took hTook).congr fun j => ?_
      rw [hStore₂, Alive, putInode_inode]
      split
      · rename_i he
        exact iff_of_true hTouch (he ▸ hTook.alive hRow₁.alive)
      · rfl

theorem exists_root_low {n : Nat} (hn : n ≤ 301) : ∃ h m N C, RootFiles 0 h m N C n ∧ m.store.Low := by
  induction n with
  | zero =>
      obtain ⟨m, hInit, hInodes, hBlocks⟩ := ExtentServer.exists_start fun _ => 0
      refine ⟨[], m, _, _, .start 0 hInit hInodes hBlocks, ?_⟩
      obtain ⟨now, hStore⟩ := wp_ok (wp_initInodeManager fun _ => 0) hInit
      have hBlank : Store.blank.Low := fun i hi => absurd rfl hi
      exact hStore ▸ hBlank.alloc fun j hj hLt => absurd (isInum_iff.mp hj).1 (by omega)
  | succ n ih =>
      obtain ⟨h, m, N, C, hRoot, hLow⟩ := ih (by omega)
      have hS := hRoot.onlyEntries.inUse
      have hp : 1 ∈ N.dirs := hRoot.dirs ▸ rfl
      have hNew : row n ∉ (N.listing 1).map Prod.snd := row_notMem (fun e he => (hRoot.entry e he).2) 1
      obtain ⟨i, m', N', C', hCreate, -, hNext⟩ :=
        hRoot.next (by omega) (fun he : FileType.T_FILE = .T_DIR => by cases he)
      exact ⟨_, m', N', C', hNext, wp_ok (hS.wp_createNode_low hLow .T_FILE 0 0 hp hNew) hCreate⟩

end Lowest

section Reuse

variable {h : History} {m m' : Machine} {C : List Nat} {d i p : Nat} {l s r : List Entry} {name : CString}
  {type : FileType}

theorem perform_create (hCreate : createNode type 2 p name 0 m = .ok (.OK, i) m') :
    perform 2 (.node type p name 0) m = .ok (.node .OK i) m' := by
  simp only [perform, bind, EStateM.bind, hCreate]
  rfl

theorem room_create (hRoom : ∀ call, (call, .badAlloc) ∉ h) (call : Call) :
    (call, Reply.badAlloc) ∉ h ++ [(.node type p name 0, .node .OK i)] := by
  intro hMem
  rcases List.mem_append.mp hMem with hMem | hMem
  · exact hRoom call hMem
  · cases List.mem_singleton.mp hMem

theorem dirs_create : (nameMap (h ++ [(.node type p name 0, .node .OK i)])).dirs =
    if type = .T_DIR then insert i (nameMap h).dirs else (nameMap h).dirs := by
  rw [nameMap_append]
  rfl

/-- Block 0 lists the directory `d` with the entries `r`, behind children that are full. -/
structure Relisted (σ : Store) (C : List Nat) (d : Nat) (r : List Entry) : Prop where
  row : σ.Row d r false
  table : σ.Table (C ++ [d])
  child : ∀ c ∈ C, IsInum c ∧ σ.Alive c ∧ σ.size c = 100
  notChild : d ∉ C
  few : C.length ≤ 126

namespace Relisted

variable {σ σ' : Store} {X : Set Nat} {e : Entry}

theorem carry (h : Relisted σ C d r) (hC : Carries σ σ' X) (hd : d ∉ X) (hKids : ∀ c ∈ C, c ∉ X)
    (hZero : σ'.data 0 = σ.data 0) : Relisted σ' C d r where
  row := h.row.carry hC hd
  table := by
    rw [Table, hZero]
    exact h.table
  child c hc := by
    obtain ⟨hInum, hAlive, hSize⟩ := h.child c hc
    have hSame := hC.inode c hAlive (hKids c hc)
    rw [Alive, hSame, size_congr hSame]
    exact ⟨hInum, hAlive, hSize⟩
  notChild := h.notChild
  few := h.few

theorem add (h : Relisted σ C d r) (hSmall : r.length < 100) (hAdd : Added σ σ' d e) :
    Relisted σ' C d (r ++ [e]) where
  row := h.row.add hSmall hAdd
  table := by
    rw [Table, hAdd.zero]
    exact h.table
  child c hc := by
    obtain ⟨hInum, hAlive, hSize⟩ := h.child c hc
    have hSame := hAdd.inode c fun he => h.notChild (he ▸ hc)
    rw [Alive, hSame, size_congr hSame]
    exact ⟨hInum, hAlive, hSize⟩
  notChild := h.notChild
  few := h.few

/-- The numbers in block 0. -/
theorem inumBuf_eq (h : Relisted σ C d r) :
    inumBuf (σ.data 0) = C ++ d :: List.replicate (128 - (C ++ [d]).length) 0 := by
  have hTable : inumBuf (σ.data 0) = C ++ [d] ++ _ := h.table
  rw [hTable, List.append_assoc, List.singleton_append]

end Relisted

/-- In a run, with room for more entries in `d`. -/
structure Reused (h : History) (m : Machine) (C : List Nat) (d : Nat) (r : List Entry) : Prop where
  run : Run 2 (fun _ => 0) (Links 2) h m
  room : ∀ call, (call, .badAlloc) ∉ h
  dir : d ∈ (nameMap h).dirs
  relisted : Relisted m.store C d r
  short : ∀ e ∈ r, e.2.bytes.length < 300 + r.length
  blocks : 1000 ≤ m.store.freeBlocks + r.length
  inodes : 500 ≤ m.store.freeInodes + r.length

/-- The directory got the inode of the child that lost its last entry, and the new entry goes to it. -/
theorem Dangling.wp_addToDir_again {now : UInt32} {m₁ : Machine} (hDangling : Dangling h m C d l s)
    (hBlocks : 0 < m.store.freeBlocks) (hName : name.bytes.length ≤ 508)
    (hStore : m₁.store = m.store.putInode d (freshInode .T_DIR now)) :
    wp (addToDir 2 1 d name) (fun _ m' => Relisted m'.store C d [(d, name)] ∧
      m'.store.freeBlocks + 1 = m.store.freeBlocks ∧ m'.store.freeInodes + 1 = m.store.freeInodes)
      (fun _ _ => False) m₁ := by
  have hChildSizes := hDangling.blankChildren.childSizes
  have hDead := hDangling.dead
  have hFull := hDangling.full
  have hCount := hChildSizes.count
  have hInum : IsInum d := (hChildSizes.empty d List.mem_cons_self).1
  have hRange := isInum_iff.mp hInum
  have hNotRoot : d ≠ 1 := fun he => hDead (he ▸ hDangling.row.alive)
  have hNotChild : d ∉ C := fun hc => hDead (alive_of_isDir (hChildSizes.child d hc).2)
  have hStray : Strayed m.store m₁.store := hStore ▸ Strayed.freshInode hDead .T_DIR now
  have hRow := hDangling.row.carry hStray.carries (Set.notMem_empty 1)
  have hNew : Relisted m₁.store C d [] := by
    refine ⟨hStore ▸ Row.empty hInum rfl, ?_, fun c hc => ?_, hNotChild, by omega⟩
    · rw [Table, hStray.data]
      exact hChildSizes.table
    · have hAlive := alive_of_isDir (hChildSizes.child c hc).2
      obtain ⟨hKid, hSize⟩ := hChildSizes.full_size (by omega) hc
      rw [Alive, hStray.old c hAlive, size_congr (hStray.old c hAlive)]
      exact ⟨hKid, hAlive, hSize⟩
  have hSize := hRow.size
  have hLength := hRow.full rfl
  have hRoom := wp_addToChild_room name 0 0 (inumBuf (m₁.store.data 0))
    (List.replicate (128 - (C ++ [d]).length) 0) (fun c hc => ⟨(hNew.child c hc).1, (hNew.child c hc).2.2⟩)
    (by omega) (show d < 2 ^ 32 by omega) hInum hNew.row.lists.dir (hNew.row.size.trans_lt (by decide))
  rw [← hNew.inumBuf_eq] at hRoom
  refine wp_addToDir_behind hRow.lists.inum hRow.lists.dir (by omega) hRow.indirect ?_
  refine wp_mono hRoom (fun _ m₂ hPost mtime ctime m' hStore' => ?_) fun e m₂ hStop => ?_
  · obtain ⟨-, hAdd⟩ := hPost
    have hRoot : m₂.store.inode 1 = m₁.store.inode 1 := hAdd.inode 1 hNotRoot.symm
    have hTouch : (touchedInode (m₁.store.inode 1) mtime ctime).type = (m₂.store.inode 1).type := by
      rw [hRoot]
      rfl
    have hBlocks₂ := hAdd.blocks
    have hBlocks₁ : m₁.store.freeBlocks = m.store.freeBlocks := freeBlocks_congr hStray.bit
    have hBlocks' : m'.store.freeBlocks = m₂.store.freeBlocks := freeBlocks_congr (hStore' ▸ rfl)
    have hInodes₁ : m₁.store.freeInodes + 1 = m.store.freeInodes := by
      rw [hStore]
      exact freeInodes_putInode hInum hDead (FileType.code_toUInt16_ne_zero .T_DIR)
    have hInodes' : m'.store.freeInodes = m₁.store.freeInodes := freeInodes_congr fun i => by
      rw [hStore', alive_putInode_iff hTouch, hAdd.alive_iff]
    refine ⟨?_, by omega, by omega⟩
    refine (hNew.add (by decide) hAdd).carry (X := {1}) (hStore' ▸ Carries.putInode hTouch) hNotRoot
      (fun c hc he => hDangling.notChild (he ▸ hc)) (hStore' ▸ rfl)
  · exact hStop.false (freeBlocks_congr hStray.bit ▸ hBlocks) hName

/-- Another inode was allocated: the entry is dropped. -/
theorem Dangling.wp_addToDir_other {now : UInt32} {m₁ : Machine} (hDangling : Dangling h m C d l s)
    (hInum : IsInum i) (hDead : ¬m.store.Alive i) (hOther : i ≠ d)
    (hStore : m₁.store = m.store.putInode i (freshInode .T_DIR now)) :
    wp (addToDir 2 1 i name) (fun _ m' => m'.store.Row 1 l true ∧ m'.store.BlankChildren C [d] s ∧
      (∀ j, m'.store.Alive j ↔ m.store.Alive j ∨ j = i) ∧ m'.store.bit = m.store.bit ∧
      m'.store.freeInodes + 1 = m.store.freeInodes) (fun _ _ => False) m₁ := by
  have hFull := hDangling.full
  have hStray : Strayed m.store m₁.store := hStore ▸ Strayed.freshInode hDead .T_DIR now
  have hNone : (m₁.store.inode d).isDir = false := by
    have hType : (m.store.inode d).type = 0 := not_not.mp hDangling.dead
    rw [hStore, putInode_inode, if_neg hOther.symm, Inode.isDir, hType]
    rfl
  refine wp_mono (wp_addToDir_stays (hDangling.blankChildren.stray_alloc hStray)
    (hDangling.row.carry hStray.carries (Set.notMem_empty 1)) (by omega) hNone hDangling.notChild 0)
    (fun _ m' hPost => ?_) fun _ _ hFalse => hFalse
  obtain ⟨hRow, hBlankChildren, hAlive, hBit⟩ := hPost
  refine ⟨hRow, hBlankChildren, fun j => ?_, hBit.trans hStray.bit, ?_⟩
  · rw [hAlive, hStore]
    by_cases he : j = i
    · refine iff_of_true ?_ (Or.inr he)
      rw [Alive, putInode_inode, if_pos he]
      exact FileType.code_toUInt16_ne_zero .T_DIR
    · rw [Alive, putInode_inode, if_neg he]
      exact (or_iff_left he).symm
  · rw [freeInodes_congr hAlive, hStore]
    exact freeInodes_putInode hInum hDead (FileType.code_toUInt16_ne_zero .T_DIR)

/-- `mkdir` in the root takes the inode of the child, or the free inodes below it become fewer. -/
theorem Dangling.mkdir (hDangling : Dangling h m C d l s) (hBlocks : 1000 ≤ m.store.freeBlocks)
    (hInodes : 500 ≤ m.store.freeInodes) : ∃ h' m' i, IsInum i ∧ ¬m.store.Alive i ∧
      (∀ j, IsInum j → j < i → m.store.Alive j) ∧
      (i ≠ d ∧ Dangling h' m' C d l s ∧ (∀ j, m'.store.Alive j ↔ m.store.Alive j ∨ j = i) ∧
          m'.store.bit = m.store.bit ∧ m'.store.freeInodes + 1 = m.store.freeInodes ∨
        ∃ r, r.length = 1 ∧ Reused h' m' C d r) := by
  have hName : (ChfsClient.row 300).bytes.length ≤ 508 := by rw [row_length]; omega
  have hAll : wp (createNode .T_DIR 2 1 (ChfsClient.row 300) 0) (fun r m' => ∃ i, r = (.OK, i) ∧
      IsInum i ∧ ¬m.store.Alive i ∧ (∀ j, IsInum j → j < i → m.store.Alive j) ∧
      (i ≠ d ∧ (m'.store.Row 1 l true ∧ m'.store.BlankChildren C [d] s ∧
          (∀ j, m'.store.Alive j ↔ m.store.Alive j ∨ j = i) ∧ m'.store.bit = m.store.bit ∧
          m'.store.freeInodes + 1 = m.store.freeInodes) ∨
        i = d ∧ Relisted m'.store C d [(d, ChfsClient.row 300)] ∧
          m'.store.freeBlocks + 1 = m.store.freeBlocks ∧ m'.store.freeInodes + 1 = m.store.freeInodes))
      (fun _ _ => False) m := by
    refine wp_createNode_absent .T_DIR 0 hDangling.row.lists.inum
      (readdir_blankChildren hDangling.blankChildren hDangling.row 0) hDangling.absent
      (fun i now m₁ hInum hDead hFirst hStore => ?_) fun hAlive => ?_
    · by_cases hOther : i = d
      · subst hOther
        exact wp_mono (hDangling.wp_addToDir_again (by omega) hName hStore)
          (fun _ _ hPost => ⟨i, rfl, hInum, hDead, hFirst, Or.inr ⟨rfl, hPost⟩⟩) fun _ _ hFalse => hFalse
      · exact wp_mono (hDangling.wp_addToDir_other hInum hDead hOther hStore)
          (fun _ _ hPost => ⟨i, rfl, hInum, hDead, hFirst, Or.inl ⟨hOther, hPost⟩⟩) fun _ _ hFalse => hFalse
    · have hNone := freeInodes_eq_zero hAlive
      omega
  obtain ⟨_, m', hCreate, i, rfl, hInum, hDead, hFirst, hPost⟩ := exists_ok_of_wp hAll
  have hCall : Links 2 h m (.node .T_DIR 1 (ChfsClient.row 300) 0) := ⟨hDangling.root, hName⟩
  have hRun := hDangling.run.step hCall (perform_create hCreate)
  refine ⟨h ++ [(.node .T_DIR 1 (ChfsClient.row 300) 0, .node .OK i)], m', i, hInum, hDead, hFirst, ?_⟩
  rcases hPost with ⟨hOther, hRow, hBlankChildren, hAlive, hSame⟩ | ⟨rfl, hRelisted, hBlocks', hInodes'⟩
  · refine Or.inl ⟨hOther, ⟨hRun, room_create hDangling.room, ?_, hRow, hBlankChildren, hDangling.full,
      fun hd => ?_, hDangling.notChild, hDangling.short⟩, hAlive, hSame⟩
    · rw [dirs_create, if_pos rfl]
      exact Or.inr hDangling.root
    · exact ((hAlive d).mp hd).elim hDangling.dead fun he => hOther he.symm
  · refine Or.inr ⟨_, rfl, hRun, room_create hDangling.room, ?_, hRelisted, fun e he => ?_, ?_, ?_⟩
    · rw [dirs_create, if_pos rfl]
      exact Or.inl rfl
    · rw [List.mem_singleton.mp he, row_length]
      exact Nat.lt_succ_self 300
    · rw [List.length_singleton]
      omega
    · rw [List.length_singleton]
      omega

/-- The second `mkdir` at the latest takes the inode of the child. -/
theorem exists_reused : ∃ h m C d r, r.length = 1 ∧ Reused h m C d r := by
  obtain ⟨h₀, m₀, N, C₀, hRoot, hLow⟩ := exists_root_low (n := 201) (by omega)
  have hBlocks₀ := hRoot.blocks
  have hInodes₀ := hRoot.inodes
  obtain ⟨h, m, C, d, a, l, s, hDangling, hAlive, hOld, hBit⟩ := hRoot.exists_dangling
  have hBlocks := freeBlocks_mono hBit
  have hInodes := freeInodes_mono fun i hi => ((hAlive i).mp hi).1
  have hInum : IsInum d := (hDangling.blankChildren.childSizes.empty d List.mem_cons_self).1
  -- below the child only the inode of the file is free
  have hGap : ∀ j, IsInum j → j < d → m.store.Alive j ∨ j = a := by
    intro j hj hLt
    by_cases he : j = a
    · exact Or.inr he
    · exact Or.inl ((hAlive j).mpr ⟨hLow d hOld j hj hLt, he, Nat.ne_of_lt hLt⟩)
  obtain ⟨h₁, m₁, i, hi, hDead, hFirst, hPost⟩ := hDangling.mkdir (by omega) (by omega)
  rcases hPost with ⟨hOther, hDangling₁, hAlive₁, hBit₁, hInodes₁⟩ | ⟨r, hReused⟩
  · have hBlocks₁ : m₁.store.freeBlocks = m.store.freeBlocks := freeBlocks_congr hBit₁
    obtain ⟨h₂, m₂, j, hj, hDead₂, hFirst₂, hPost₂⟩ := hDangling₁.mkdir (by omega) (by omega)
    rcases hPost₂ with ⟨hOther₂, -⟩ | ⟨r, hReused⟩
    · have hLt : i < d := lt_of_le_of_ne (not_lt.mp fun hLt => hDangling.dead (hFirst d hInum hLt)) hOther
      have hLt₂ : j < d := lt_of_le_of_ne (not_lt.mp fun hLt => hDangling₁.dead (hFirst₂ d hInum hLt)) hOther₂
      have hOnly := (hGap i hi hLt).resolve_left hDead
      have hOnly₂ := (hGap j hj hLt₂).resolve_left fun hj => hDead₂ ((hAlive₁ j).mpr (Or.inl hj))
      exact absurd ((hAlive₁ j).mpr (Or.inr (hOnly₂.trans hOnly.symm))) hDead₂
    · exact ⟨h₂, m₂, C, d, r, hReused⟩
  · exact ⟨h₁, m₁, C, d, r, hReused⟩

/-- A new name in the directory: an inode is allocated, and then the entry is added. -/
theorem Reused.wp_create {Q : Nat → Machine → Prop} (hReused : Reused h m C d r) (name : CString)
    (hFew : r.length ≤ 100) (hLong : 300 + r.length ≤ name.bytes.length)
    (hNext : ∀ i m₁, i < 2 ^ 32 → Relisted m₁.store C d r → m₁.store.freeBlocks = m.store.freeBlocks →
      m₁.store.freeInodes + 1 = m.store.freeInodes →
        wp (addToDir 2 d i name) (fun _ m₂ => Q i m₂) (fun _ _ => False) m₁) :
    wp (createNode .T_FILE 2 d name 0) (fun reply m' => ∃ i, reply = (.OK, i) ∧ Q i m')
      (fun _ _ => False) m := by
  have hRow := hReused.relisted.row
  have hInodes := hReused.inodes
  have hInumD := isInum_iff.mp hRow.lists.inum
  have hRead : readdir m 2 d = .ok r := by
    rw [readdir, ExtentServer.readDir, Nat.mod_eq_of_lt (by omega)]
    exact readDir_row hRow
  refine wp_createNode_absent .T_FILE 0 hRow.lists.inum hRead (fun hMem => ?_)
    (fun i now m₁ hInum hDead _ hStore => ?_) fun hAlive => ?_
  · obtain ⟨e, he, hEq⟩ := List.mem_map.mp hMem
    have hLt := hReused.short e he
    rw [hEq] at hLt
    omega
  · have hRange := isInum_iff.mp hInum
    have hStray : Strayed m.store m₁.store := hStore ▸ Strayed.freshInode hDead .T_FILE now
    have hRelisted := hReused.relisted.carry hStray.carries (Set.notMem_empty d)
      (fun c _ => Set.notMem_empty c) (by rw [hStray.data])
    refine wp_mono (hNext i m₁ (by omega) hRelisted (freeBlocks_congr hStray.bit) ?_)
      (fun _ m₂ hPost => ⟨i, rfl, hPost⟩) fun _ _ hFalse => hFalse
    rw [hStore]
    exact freeInodes_putInode hInum hDead (FileType.code_toUInt16_ne_zero .T_FILE)
  · have hNone := freeInodes_eq_zero hAlive
    omega

/-- A new file in the directory. -/
theorem Reused.create (hReused : Reused h m C d r) (hSmall : r.length < 100) :
    ∃ h' m' e, Reused h' m' C d (r ++ [e]) := by
  have hBlocks := hReused.blocks
  have hInodes := hReused.inodes
  have hName : (row (300 + r.length)).bytes.length ≤ 508 := by rw [row_length]; omega
  have hAll : wp (createNode .T_FILE 2 d (row (300 + r.length)) 0) (fun reply m' => ∃ i, reply = (.OK, i) ∧
      Relisted m'.store C d (r ++ [(i, row (300 + r.length))]) ∧
      m'.store.freeBlocks + 1 = m.store.freeBlocks ∧ m'.store.freeInodes + 1 = m.store.freeInodes)
      (fun _ _ => False) m := by
    refine hReused.wp_create _ (by omega) (row_length _).ge fun i m₁ hi hRelisted hBlocks₁ hInodes₁ => ?_
    have hRow := hRelisted.row
    refine wp_mono (wp_addToDir_small hRow.lists.inum hRow.lists.dir
      (hRow.size.trans_lt (by simpa using hSmall)) hi) (fun _ m₂ hPost => ?_)
      fun e m₂ hStop => hStop.false (by omega) hName
    obtain ⟨-, hAdd⟩ := hPost
    have hBlocks₂ := hAdd.blocks
    have hInodes₂ : m₂.store.freeInodes = m₁.store.freeInodes := freeInodes_congr hAdd.alive_iff
    exact ⟨hRelisted.add hSmall hAdd, by omega, by omega⟩
  obtain ⟨_, m', hCreate, i, rfl, hRelisted, hBlocks', hInodes'⟩ := exists_ok_of_wp hAll
  have hCall : Links 2 h m (.node .T_FILE d (row (300 + r.length)) 0) := ⟨hReused.dir, hName⟩
  have hLength : (r ++ [(i, row (300 + r.length))]).length = r.length + 1 := by simp
  refine ⟨_, m', _, hReused.run.step hCall (perform_create hCreate), room_create hReused.room, ?_, hRelisted,
    fun e he => ?_, by omega, by omega⟩
  · rw [dirs_create]
    exact hReused.dir
  · rw [hLength]
    rcases List.mem_append.mp he with he | he
    · have := hReused.short e he
      omega
    · rw [List.mem_singleton.mp he, row_length]
      omega

/-- The directory is full. -/
theorem exists_reused_full : ∃ h m C d r, r.length = 100 ∧ Reused h m C d r := by
  have hAll : ∀ n, n < 100 → ∃ h m C d r, r.length = n + 1 ∧ Reused h m C d r := by
    intro n hn
    induction n with
    | zero => exact exists_reused
    | succ n ih =>
        obtain ⟨h, m, C, d, r, hLength, hReused⟩ := ih (by omega)
        obtain ⟨h', m', e, hNext⟩ := hReused.create (by omega)
        exact ⟨h', m', C, d, _, by rw [List.length_append, hLength, List.length_singleton], hNext⟩
  exact hAll 99 (by omega)

/-- The directory gets a child, and block 0 lists it behind the directory. -/
theorem Relisted.wp_addToDir_new (h : Relisted m.store C d r) (hFull : r.length = 100) (hi : i < 2 ^ 32)
    (hBlock : 0 < m.store.freeBlocks) (hInode : 0 < m.store.freeInodes) (hName : name.bytes.length ≤ 508) :
    wp (addToDir 2 d i name) (fun _ m' => ∃ c, m'.store.Table (C ++ [d] ++ [c]) ∧
      m'.store.size d = 101 ∧ m'.store.slot d 100 = 0 ∧
      ∀ x ∈ C ++ [d] ++ [c], IsInum x ∧ (x = d ∨ m'.store.size x ≤ 100)) (fun _ _ => False) m := by
  have hRow := h.row
  have hFew := h.few
  have hSize : m.store.size d = r.length + 0 := hRow.size
  have hKids : ∀ x ∈ C ++ [d], IsInum x ∧ m.store.size x = 100 := by
    intro x hx
    rcases List.mem_append.mp hx with hx | hx
    · exact ⟨(h.child x hx).1, (h.child x hx).2.2⟩
    · rw [List.mem_singleton.mp hx]
      exact ⟨hRow.lists.inum, hSize.trans hFull⟩
  have hLength : (C ++ [d]).length = C.length + 1 := List.length_append
  have hZeros : 128 - (C ++ [d]).length = 127 - (C ++ [d]).length + 1 := by omega
  have hTable : inumBuf (m.store.data 0) = (C ++ [d]) ++ 0 :: List.replicate (127 - (C ++ [d]).length) 0 := by
    have hOld : inumBuf (m.store.data 0) = C ++ [d] ++ _ := h.table
    rw [hOld, hZeros, List.replicate_succ]
  have hNew := wp_addToChild_new name 0 (inumBuf (m.store.data 0))
    (List.replicate (127 - (C ++ [d]).length) 0) hKids (by omega) hi
  rw [← hTable] at hNew
  refine wp_addToDir_behind hRow.lists.inum hRow.lists.dir (by omega) hRow.indirect ?_
  refine wp_mono hNew (fun _ m₁ hPost mtime ctime m' hStore' => ?_) fun e m₁ hStop =>
    (hStop.mono (iff_true_intro hInode)).false hBlock hName
  obtain ⟨-, c, now, σ₁, hInum, hDead, -, hAdd, hStore⟩ := hPost
  have hRange := isInum_iff.mp hInum
  have hcd : c ≠ d := fun he => hDead (he ▸ hRow.alive)
  have hChild : m'.store.size c = 1 := by
    rw [hStore', size_putInode_ne hcd, hStore]
    change σ₁.size c = 1
    rw [hAdd.size, size_putInode_self]
    rfl
  refine ⟨c, ?_, ?_, ?_, fun x hx => ?_⟩
  · rw [Table, hStore', putInode_data, hStore, write_data, if_pos rfl]
    exact table_set h.table (by omega) (by omega)
  · rw [hStore', size_putInode_self]
    exact touchedInode_size (Or.inl (hSize.trans hFull)) mtime ctime
  · rw [hStore', slot_putInode_self]
    exact hRow.indirect
  · rcases List.mem_append.mp hx with hx | hx
    · refine ⟨(hKids x hx).1, ?_⟩
      by_cases he : x = d
      · exact Or.inl he
      · have hOld : x ∈ C := (List.mem_append.mp hx).resolve_right fun hd => he (List.mem_singleton.mp hd)
        have hAlive := (h.child x hOld).2.1
        have hxc : x ≠ c := fun hxc => hDead (hxc ▸ hAlive)
        have hSame : σ₁.inode x = m.store.inode x := by rw [hAdd.inode x hxc, putInode_inode, if_neg hxc]
        refine Or.inr ?_
        rw [hStore', size_putInode_ne he, hStore]
        exact ((size_congr hSame).trans (hKids x hx).2).le
    · rw [List.mem_singleton.mp hx]
      exact ⟨hInum, Or.inr (by omega)⟩

/-- A directory among its own children: `read_blockid` never returns. -/
theorem readBlockid_overflow {T : List Nat} (hInum : IsInum d) (hLarge : 100 < m.store.size d)
    (hSlot : m.store.slot d 100 = 0) (hTable : m.store.Table T) (hSelf : d ∈ T)
    (hOther : ∀ x ∈ T, IsInum x ∧ (x = d ∨ m.store.size x ≤ 100)) (stack : Nat) :
    readBlockid m stack d = .error .stackOverflow := by
  have hNe : ∀ x ∈ T, x ≠ 0 := fun x hx => by
    have := isInum_iff.mp (hOther x hx).1
    omega
  have hIndirect : (m.store.inode d).slot ndirect = 0 := hSlot
  induction stack with
  | zero => rfl
  | succ stack ih =>
      have hVisit : T.mapM (readBlockid m stack) = .error .stackOverflow := by
        refine mapM_error hSelf ih fun x hx => ?_
        obtain ⟨hKid, rfl | hSmall⟩ := hOther x hx
        · exact Or.inl ih
        · cases stack with
          | zero => exact Or.inl rfl
          | succ stack => exact Or.inr ⟨_, readBlockid_flat hKid hSmall⟩
      rw [readBlockid, getInode_some hInum]
      simp only [bind, Except.bind, mapChildren, hIndirect, readBlock_data (Or.inr (by omega : 0 < 2)),
        if_pos (show (m.store.inode d).size.toNat > ndirect from hLarge), untilZero_table hTable hNe, hVisit]

/-- 201 files in the root, of which the first is removed, then `mkdir` until the inode of the second
child is taken again, and 100 files more in that directory. -/
theorem directory_lists_itself : ∃ (h : History) (m : Machine) (d : Nat),
    Run 2 (fun _ => 0) (Links 2) h m ∧ (∀ call, (call, .badAlloc) ∉ h) ∧ d ∈ (nameMap h).dirs ∧
    m.store.HasChild d d ∧ ∀ stack, readBlockid m stack d = .error .stackOverflow := by
  obtain ⟨h, m, C, d, r, hFull, hReused⟩ := exists_reused_full
  have hRelisted := hReused.relisted
  have hRow := hRelisted.row
  have hBlocks := hReused.blocks
  have hInodes := hReused.inodes
  have hName : (row 400).bytes.length ≤ 508 := by rw [row_length]; omega
  have hAll : wp (createNode .T_FILE 2 d (row 400) 0) (fun reply m' => ∃ i, reply = (.OK, i) ∧
      ∃ c, m'.store.Table (C ++ [d] ++ [c]) ∧ m'.store.size d = 101 ∧ m'.store.slot d 100 = 0 ∧
        ∀ x ∈ C ++ [d] ++ [c], IsInum x ∧ (x = d ∨ m'.store.size x ≤ 100)) (fun _ _ => False) m := by
    refine hReused.wp_create _ hFull.le (by rw [row_length]; omega) fun i m₁ hi hNext hBlocks₁ hInodes₁ => ?_
    exact hNext.wp_addToDir_new hFull hi (by omega) (by omega) hName
  obtain ⟨_, m', hCreate, i, rfl, c, hTable, hSize, hSlot, hOther⟩ := exists_ok_of_wp hAll
  have hCall : Links 2 h m (.node .T_FILE d (row 400) 0) := ⟨hReused.dir, hName⟩
  have hSelf : d ∈ C ++ [d] ++ [c] := by simp
  have hNe : ∀ x ∈ C ++ [d] ++ [c], x ≠ 0 := fun x hx => by
    have := isInum_iff.mp (hOther x hx).1
    omega
  refine ⟨_, m', d, hReused.run.step hCall (perform_create hCreate), room_create hReused.room, ?_,
    ⟨hRow.lists.inum, ?_⟩, readBlockid_overflow hRow.lists.inum (by omega) hSlot hTable hSelf hOther⟩
  · rw [dirs_create]
    exact hReused.dir
  · rw [kids_of_size (by omega), hSlot, untilZero_table hTable hNe]
    exact hSelf

end Reuse
end ChfsClient
end InodeFS
