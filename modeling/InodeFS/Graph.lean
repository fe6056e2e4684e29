import InodeFS.Deposit
import InodeFS.Removal

/-! Which inodes list which children. Only sizes and slots matter here, not what the
blocks hold: a directory has the children of block 0 when its size field exceeds 100, and
the children have none. -/
namespace InodeFS

open Bytes Exec Paging Store

/-- The slots hold data blocks, those in use hold one, and there is no indirect block. -/
structure Inode.Neat (ino : Inode) : Prop where
  data : ∀ k, ino.slot k = 0 ∨ IsData (ino.slot k)
  used : ∀ k, k < min ino.size.toNat 100 → ino.slot k ≠ 0
  indirect : ino.slot 100 = 0

namespace Inode.Neat

variable {ino ino' : Inode} {k b : Nat}

theorem of_blank (hSize : ino.size.toNat = 0) (hSlot : ∀ k, ino.slot k = 0) : ino.Neat where
  data k := Or.inl (hSlot k)
  used k hk := absurd hk (by omega)
  indirect := hSlot 100

theorem of_slots (h : ino.Neat) (hSlot : ∀ k, ino'.slot k = ino.slot k)
    (hSize : min ino'.size.toNat 100 ≤ min ino.size.toNat 100) : ino'.Neat where
  data k := by
    rw [hSlot]
    exact h.data k
  used k hk := by
    rw [hSlot]
    exact h.used k (by omega)
  indirect := (hSlot 100).trans h.indirect

theorem withSlot (h : ino.Neat) (hk : k < 100) (hb : IsData b) : (ino.withSlot k b).Neat := by
  have hRange := isData_iff.mp hb
  have hSlot := ino.withSlot_slot (k := k) (b := b) (by omega) (by omega)
  refine ⟨fun l => ?_, fun l hl => ?_, ?_⟩
  · rw [hSlot]
    split
    · exact Or.inr hb
    · exact h.data l
  · rw [Inode.withSlot_size _ _ (by omega)] at hl
    rw [hSlot]
    split
    · omega
    · exact h.used l hl
  · rw [hSlot, if_neg (by omega)]
    exact h.indirect

/-- The last slot in use is cleared. -/
theorem withSlot_last (h : ino.Neat) (hk : k < 100) (hSize : ino.size.toNat = k + 1) :
    (ino.withSlot k 0).Neat := by
  have hSlot := ino.withSlot_slot (k := k) (b := 0) (by omega) (by omega)
  refine ⟨fun l => ?_, fun l hl => ?_, ?_⟩
  · rw [hSlot]
    split
    · exact Or.inl rfl
    · exact h.data l
  · rw [Inode.withSlot_size_pred hSize] at hl
    rw [hSlot, if_neg (by omega)]
    exact h.used l (by omega)
  · rw [hSlot, if_neg (by omega)]
    exact h.indirect

end Inode.Neat

namespace Store

/-- All inodes are like that, and the entries name 31-bit numbers. -/
structure Neat (σ : Store) : Prop where
  inode : ∀ i, (σ.inode i).Neat
  entry : ∀ b, IsData b → (σ.entryIn b).1 < 2 ^ 31

variable {σ σ' : Store} {i x b : Nat} {ino : Inode} {e : Entry}

namespace Neat

theorem putInode (h : σ.Neat) (hIno : ino.Neat) : (σ.putInode i ino).Neat where
  inode j := by
    rw [putInode_inode]
    split
    · exact hIno
    · exact h.inode j
  entry := h.entry

theorem write_zero (h : σ.Neat) (B : Block) : (σ.write 0 B).Neat where
  inode := h.inode
  entry b hb := by
    have := isData_iff.mp hb
    rw [entryIn, write_data, if_neg (by omega)]
    exact h.entry b hb

/-- A block is freed. -/
theorem zeroed (h : σ.Neat) (b : Nat) : ((σ.unmark b).write b Block.zeros).Neat where
  inode := h.inode
  entry c hc := by
    rw [entryIn, write_data]
    split
    · exact Nat.two_pow_pos 31
    · exact h.entry c hc

theorem strayed (h : σ.Neat) (hStray : Strayed σ σ') : σ'.Neat where
  inode i := by
    by_cases hAlive : σ.Alive i
    · rw [hStray.old i hAlive]
      exact h.inode i
    · rcases hStray.new i hAlive with hSame | hBlank
      · rw [hSame]
        exact h.inode i
      · exact Inode.Neat.of_blank hBlank.1 hBlank.2
  entry b hb := by
    rw [entryIn, hStray.data]
    exact h.entry b hb

theorem added (h : σ.Neat) (hAdd : Added σ σ' x e) (hSmall : σ.size x < 100) (he : e.1 < 2 ^ 31) :
    σ'.Neat := by
  obtain ⟨b, hTakes, hEntry, hSlot⟩ := hAdd.slot
  have hRange := isData_iff.mp hTakes.data
  refine ⟨fun i => ?_, fun c hc => ?_⟩
  · by_cases hi : i = x
    · subst hi
      have hOld := h.inode i
      refine ⟨fun k => ?_, fun k hk => ?_, ?_⟩
      · rw [← Store.slot, hSlot]
        split
        · exact Or.inr hTakes.data
        · exact hOld.data k
      · rw [← Store.size, hAdd.size] at hk
        rw [← Store.slot, hSlot]
        split
        · omega
        · exact hOld.used k (by rw [← Store.size]; omega)
      · rw [← Store.slot, hSlot, if_neg (by omega)]
        exact hOld.indirect
    · rw [hAdd.inode i hi]
      exact h.inode i
  · by_cases hcb : c = b
    · rw [hcb, entryIn, hEntry]
      exact he
    · rw [entryIn, (hTakes.other c hc hcb).2]
      exact h.entry c hc

end Neat

/-- The directories `dirs` and the children `C`, with `n` entries in the children. Every
other inode is empty. -/
structure Grounded (σ : Store) (dirs : Set Nat) (C : List Nat) (n : Nat) : Prop where
  neat : σ.Neat
  childSizes : σ.ChildSizes C [] n
  dir : ∀ p ∈ dirs, IsInum p ∧ (σ.inode p).isDir = true ∧ σ.size p ≤ 101
  large : ∀ p ∈ dirs, σ.size p = 101 → n ≠ 0
  kids : ∀ c ∈ C, c ∉ dirs
  blank : ∀ i, i ∉ dirs → i ∉ C → σ.size i = 0 ∧ ∀ k, σ.slot i k = 0

namespace Grounded

variable {dirs : Set Nat} {C : List Nat} {n p c : Nat}

theorem start {clock : Nat → UInt32} {m : Machine}
    (hInit : initInodeManager (Machine.zeroed clock) = .ok () m) :
    m.store.Grounded {1} [] 0 := by
  obtain ⟨now, hStore⟩ := wp_ok (wp_initInodeManager clock) hInit
  have hDead : ¬Store.blank.Alive 1 := fun hAlive => hAlive rfl
  have hStray : Strayed Store.blank m.store := hStore ▸ Strayed.freshInode hDead .T_DIR now
  have hBlank : ∀ i, m.store.size i = 0 ∧ ∀ k, m.store.slot i k = 0 := fun i =>
    hStray.blank ⟨rfl, Inode.cleared_slot⟩
  have hNeat : Store.blank.Neat :=
    ⟨fun _ => Inode.Neat.of_blank rfl Inode.cleared_slot, fun _ _ => Nat.two_pow_pos 31⟩
  refine ⟨hNeat.strayed hStray, (ChfsClient.EntriesOn.start hInit).childEntries.childSizes,
    fun p hp => ?_, fun p _ hSize => ?_, fun c hc => absurd hc List.not_mem_nil, fun i _ _ => hBlank i⟩
  · obtain rfl : p = 1 := hp
    refine ⟨isInum_iff.mpr (by omega), ?_, by rw [(hBlank 1).1]; exact Nat.zero_le _⟩
    rw [hStore, putInode_inode, if_pos rfl]
    rfl
  · rw [(hBlank p).1] at hSize
    cases hSize

theorem alive_dir (h : σ.Grounded dirs C n) (hp : p ∈ dirs) : σ.Alive p :=
  alive_of_isDir (h.dir p hp).2.1

theorem alive_child (h : σ.Grounded dirs C n) (hc : c ∈ C) : σ.Alive c :=
  alive_of_isDir (h.childSizes.child c hc).2

theorem child_size (h : σ.Grounded dirs C n) (hc : c ∈ C) : σ.size c ≤ 100 :=
  h.childSizes.size_le (List.mem_append_left _ hc)

/-- The directories and the children are as before, and the other inodes are empty. -/
theorem update {dirs' : Set Nat} (h : σ.Grounded dirs C n) (hNeat : σ'.Neat)
    (hZero : σ'.data 0 = σ.data 0) (hDirs : ∀ p ∈ dirs, σ'.inode p = σ.inode p)
    (hKids : ∀ c ∈ C, σ'.inode c = σ.inode c)
    (hNew : ∀ p ∈ dirs', p ∈ dirs ∨ p ∉ C ∧ IsInum p ∧ (σ'.inode p).isDir = true ∧ σ'.size p = 0)
    (hSub : dirs ⊆ dirs')
    (hBlank : ∀ i, i ∉ dirs → i ∉ C → σ'.size i = 0 ∧ ∀ k, σ'.slot i k = 0) :
    σ'.Grounded dirs' C n where
  neat := hNeat
  childSizes := by
    refine h.childSizes.congr_on hZero (fun c hc => ?_) fun c hc => by rw [hKids c hc]
    rw [List.append_nil] at hc
    exact size_congr (hKids c hc)
  dir p hp := by
    rcases hNew p hp with hOld | ⟨-, hInum, hDir, hSize⟩
    · rw [hDirs p hOld, size_congr (hDirs p hOld)]
      exact h.dir p hOld
    · exact ⟨hInum, hDir, by omega⟩
  large p hp hSize := by
    rcases hNew p hp with hOld | ⟨-, -, -, hEmpty⟩
    · rw [size_congr (hDirs p hOld)] at hSize
      exact h.large p hOld hSize
    · omega
  kids c hc hp := by
    rcases hNew c hp with hOld | ⟨hNot, -⟩
    · exact h.kids c hc hOld
    · exact hNot hc
  blank i hi hc := hBlank i (fun hOld => hi (hSub hOld)) hc

/-- Inodes were allocated which nobody lists. -/
theorem stray_alloc (h : σ.Grounded dirs C n) (hStray : Strayed σ σ') : σ'.Grounded dirs C n := by
  refine h.update (h.neat.strayed hStray) (by rw [hStray.data])
    (fun p hp => hStray.old p (h.alive_dir hp)) (fun c hc => hStray.old c (h.alive_child hc))
    (fun p hp => Or.inl hp) subset_rfl fun i hi hc => hStray.blank (h.blank i hi hc)

/-- A new directory. -/
theorem grow {now : UInt32} (h : σ.Grounded dirs C n) (hInum : IsInum i) (hDead : ¬σ.Alive i) :
    (σ.putInode i (freshInode .T_DIR now)).Grounded (insert i dirs) C n := by
  have hStray := Strayed.freshInode hDead .T_DIR now
  refine h.update (h.neat.strayed hStray) rfl
    (fun p hp => hStray.old p (h.alive_dir hp)) (fun c hc => hStray.old c (h.alive_child hc))
    (fun p hp => ?_) (Set.subset_insert i dirs) fun j hj hc => hStray.blank (h.blank j hj hc)
  rcases hp with rfl | hp
  · refine Or.inr ⟨fun hc => hDead (h.alive_child hc), hInum, ?_, size_putInode_self⟩
    rw [putInode_inode, if_pos rfl]
    rfl
  · exact Or.inl hp

/-- An inode that is no directory and no child is cleared. -/
theorem clear (h : σ.Grounded dirs C n) (hi : i ∉ dirs) (hC : i ∉ C) :
    (σ.putInode i Inode.cleared).Grounded dirs C n := by
  have hOther : ∀ j, j ≠ i → (σ.putInode i Inode.cleared).inode j = σ.inode j := fun j hj => by
    rw [putInode_inode, if_neg hj]
  refine h.update (h.neat.putInode (Inode.Neat.of_blank rfl Inode.cleared_slot)) rfl
    (fun p hp => hOther p fun he => hi (he ▸ hp)) (fun c hc => hOther c fun he => hC (he ▸ hc))
    (fun p hp => Or.inl hp) subset_rfl fun j hj hc => ?_
  by_cases he : j = i
  · rw [he, size_putInode_self]
    simp only [slot_putInode_self]
    exact ⟨rfl, Inode.cleared_slot⟩
  · rw [size_congr (hOther j he)]
    simp only [slot_congr (hOther j he)]
    exact h.blank j hj hc

/-- One directory changed. -/
theorem set_dir (h : σ.Grounded dirs C n) (hp : p ∈ dirs) (hNeat : σ'.Neat)
    (hZero : σ'.data 0 = σ.data 0) (hOther : ∀ i, i ≠ p → σ'.inode i = σ.inode i)
    (hDir : (σ'.inode p).isDir = true) (hSize : σ'.size p ≤ 101)
    (hLarge : σ'.size p = 101 → n ≠ 0) : σ'.Grounded dirs C n where
  neat := hNeat
  childSizes := by
    have hKids : ∀ c ∈ C, σ'.inode c = σ.inode c := fun c hc =>
      hOther c fun he => h.kids c hc (he ▸ hp)
    refine h.childSizes.congr_on hZero (fun c hc => ?_) fun c hc => by rw [hKids c hc]
    rw [List.append_nil] at hc
    exact size_congr (hKids c hc)
  dir q hq := by
    by_cases he : q = p
    · rw [he]
      exact ⟨(h.dir p hp).1, hDir, hSize⟩
    · rw [hOther q he, size_congr (hOther q he)]
      exact h.dir q hq
  large q hq hFull := by
    by_cases he : q = p
    · exact hLarge (he ▸ hFull)
    · rw [size_congr (hOther q he)] at hFull
      exact h.large q hq hFull
  kids := h.kids
  blank i hi hc := by
    have hSame := hOther i fun he => hi (he ▸ hp)
    rw [size_congr hSame]
    simp only [slot_congr hSame]
    exact h.blank i hi hc

/-- One child changed. -/
theorem set_child {n' : Nat} (h : σ.Grounded dirs C n) (hc : c ∈ C) (hNeat : σ'.Neat)
    (hChildSizes : σ'.ChildSizes C [] n') (hOther : ∀ i, i ≠ c → σ'.inode i = σ.inode i)
    (hSome : n ≠ 0 → n' ≠ 0) : σ'.Grounded dirs C n' where
  neat := hNeat
  childSizes := hChildSizes
  dir p hp := by
    have hSame := hOther p fun he => h.kids c hc (he ▸ hp)
    rw [hSame, size_congr hSame]
    exact h.dir p hp
  large p hp hFull := by
    rw [size_congr (hOther p fun he => h.kids c hc (he ▸ hp))] at hFull
    exact hSome (h.large p hp hFull)
  kids := h.kids
  blank i hi hC := by
    have hSame := hOther i fun he => hC (he ▸ hc)
    rw [size_congr hSame]
    simp only [slot_congr hSame]
    exact h.blank i hi hC

/-- An entry in the slots of a directory. -/
theorem added (h : σ.Grounded dirs C n) (hp : p ∈ dirs) (hAdd : Added σ σ' p e)
    (hSmall : σ.size p < 100) (he : e.1 < 2 ^ 31) : σ'.Grounded dirs C n := by
  have hSize := hAdd.size
  refine h.set_dir hp (h.neat.added hAdd hSmall he) hAdd.zero hAdd.inode ?_ (by omega) (by omega)
  rw [Inode.isDir, hAdd.type]
  exact (h.dir p hp).2.1

/-- An entry in a child. -/
theorem took (h : σ.Grounded dirs C n) (hTook : Took σ σ' C [] n e) (he : e.1 < 2 ^ 31) :
    ∃ C', σ'.Grounded dirs C' (n + 1) ∧ ∀ p ∈ dirs, σ'.inode p = σ.inode p := by
  have hCount := h.childSizes.count
  cases hTook with
  | @last F c hC hRoom hAdd =>
      subst hC
      have hc : c ∈ F ++ [c] := by simp
      have hLt : F.length < (F ++ [c]).length := by simp
      have hGet : (F ++ [c])[F.length] = c := List.getElem_concat_length rfl _
      have hSize := h.childSizes.size F.length hLt
      rw [List.length_append, List.length_singleton] at hCount
      rw [hGet] at hSize
      refine ⟨F ++ [c], h.set_child hc (h.neat.added hAdd (by omega) he) ?_ hAdd.inode (by omega),
        fun p hp => hAdd.inode p fun hEq => h.kids c hc (hEq ▸ hp)⟩
      refine ⟨?_, h.childSizes.nodup, by simp; omega, fun d hd => ?_, fun j hj => ?_,
        fun d hd => absurd hd List.not_mem_nil⟩
      · rw [Table, hAdd.zero]
        exact h.childSizes.table
      · refine ⟨(h.childSizes.child d hd).1, ?_⟩
        by_cases hdc : d = c
        · rw [hdc, Inode.isDir, hAdd.type]
          exact (h.childSizes.child c hc).2
        · rw [hAdd.inode d hdc]
          exact (h.childSizes.child d hd).2
      · have hOld := h.childSizes.size j hj
        rw [List.length_append, List.length_singleton] at hj
        by_cases hLast : j = F.length
        · subst hLast
          rw [hGet, hAdd.size, hSize]
          omega
        · have hne : (F ++ [c])[j] ≠ c := fun hEq => by
            have hNodup := h.childSizes.nodup
            rw [List.append_nil] at hNodup
            exact hLast ((List.Nodup.getElem_inj_iff hNodup).mp (hEq.trans hGet.symm))
          rw [size_congr (hAdd.inode _ hne), hOld]
          omega
  | @again d rest hD => cases hD
  | @dropped d rest hD => cases hD
  | @new c now σ₁ hD hFull hFew hInum hDead hFirst hAdd hWrite =>
      subst hWrite
      have hRange := isInum_iff.mp hInum
      have hEmpty : (σ.putInode c (freshInode .T_DIR now)).size c = 0 := size_putInode_self
      have hOther : ∀ i, i ≠ c → σ₁.inode i = σ.inode i := fun i hi => by
        rw [hAdd.inode i hi, putInode_inode, if_neg hi]
      have hcC : c ∉ C := fun hc => hDead (h.alive_child hc)
      have hcD : c ∉ dirs := fun hc => hDead (h.alive_dir hc)
      have hSize : σ₁.size c = 1 := by rw [hAdd.size, hEmpty]
      have hNeat := (h.neat.strayed (Strayed.freshInode hDead .T_DIR now)).added hAdd (by omega) he
      have hTable : σ.Table C := by
        have hOld := h.childSizes.table
        rwa [List.append_nil] at hOld
      have hNe : ∀ d ∈ C, d ≠ c := fun d hd hEq => hcC (hEq ▸ hd)
      refine ⟨C ++ [c], ⟨hNeat.write_zero _, ⟨?_, ?_, by simp; omega, fun d hd => ?_, fun j hj => ?_,
        fun d hd => absurd hd List.not_mem_nil⟩, fun p hp => ?_, fun _ _ _ => Nat.succ_ne_zero n,
        fun d hd => ?_, fun i hi hC => ?_⟩, fun p hp => hOther p fun hEq => hcD (hEq ▸ hp)⟩
      · rw [Table, write_data, if_pos rfl, List.append_nil]
        exact table_set hTable hFew (by omega)
      · have hNodup := h.childSizes.nodup
        rw [List.append_nil] at hNodup ⊢
        refine List.nodup_append.mpr ⟨hNodup, List.nodup_singleton c, fun a ha b hb => ?_⟩
        rw [List.mem_singleton.mp hb]
        exact hNe a ha
      · rw [write_inode]
        rcases List.mem_append.mp hd with hd | hd
        · rw [hOther d (hNe d hd)]
          exact h.childSizes.child d hd
        · rw [List.mem_singleton.mp hd, Inode.isDir, hAdd.type, putInode_inode, if_pos rfl]
          exact ⟨hInum, rfl⟩
      · rw [List.length_append, List.length_singleton] at hj
        change σ₁.size _ = _
        by_cases hLast : j = C.length
        · subst hLast
          have hGet : (C ++ [c])[C.length] = c := List.getElem_concat_length rfl _
          rw [hGet, hSize]
          omega
        · have hLt : j < C.length := by omega
          have hOld := h.childSizes.size j hLt
          rw [List.getElem_append_left hLt, size_congr (hOther _ (hNe _ (List.getElem_mem hLt))), hOld]
          omega
      · change IsInum p ∧ (σ₁.inode p).isDir = true ∧ σ₁.size p ≤ 101
        have hSame := hOther p fun hEq => hcD (hEq ▸ hp)
        rw [hSame, size_congr hSame]
        exact h.dir p hp
      · rcases List.mem_append.mp hd with hd | hd
        · exact h.kids d hd
        · rw [List.mem_singleton.mp hd]
          exact hcD
      · change σ₁.size i = 0 ∧ ∀ k, σ₁.slot i k = 0
        have hSame := hOther i fun hEq => hC (hEq ▸ by simp)
        rw [size_congr hSame]
        simp only [slot_congr hSame]
        exact h.blank i hi fun hMem => hC (List.mem_append_left _ hMem)

theorem touched (h : σ.Grounded dirs C n) (hp : p ∈ dirs) (hSize : 100 ≤ σ.size p) (hn : n ≠ 0)
    (mtime ctime : UInt32) :
    (σ.putInode p (touchedInode (σ.inode p) mtime ctime)).Grounded dirs C n := by
  obtain ⟨-, hDir, hMost⟩ := h.dir p hp
  have hOld : (σ.inode p).size.toNat = 100 ∨ (σ.inode p).size.toNat = 101 := by
    rw [← Store.size]
    omega
  have hNew := touchedInode_size hOld mtime ctime
  refine h.set_dir hp (h.neat.putInode ((h.neat.inode p).of_slots (fun _ => rfl) ?_)) rfl
    (fun i hi => by rw [putInode_inode, if_neg hi]) ?_ ?_ fun _ => hn
  · rw [hNew, ← Store.size]
    omega
  · rw [putInode_inode, if_pos rfl]
    exact hDir
  · rw [size_putInode_self, hNew]

/-- `add_to_dir` in a directory. -/
theorem wp_addToDir {m : Machine} {name : CString} (h : m.store.Grounded dirs C n) (hp : p ∈ dirs)
    (hi : i < 2 ^ 31) (stack : Nat) :
    wp (addToDir (stack + 2) p i name) (fun _ m' => ∃ C' n', m'.store.Grounded dirs C' n')
      (fun e m' => e = .badAlloc → Strayed m.store m'.store) m := by
  obtain ⟨hInum, hDir, hMost⟩ := h.dir p hp
  rcases Nat.lt_or_ge (m.store.size p) 100 with hSmall | hFull
  · refine wp_mono (wp_addToDir_small hInum hDir hSmall (by omega))
      (fun _ m' hPost => ⟨C, n, h.added hp hPost.2 hSmall hi⟩) fun e m' hStop he => hStop.stray he
  · refine wp_mono (wp_addToDir_took h.childSizes (fun c _ => (h.neat.inode c).indirect) hInum hDir hFull
      (h.neat.inode p).indirect (by omega) stack) (fun _ m' hPost => ?_) fun _ _ hStop => hStop
    obtain ⟨σ₁, mtime, ctime, hTook, hStore⟩ := hPost
    obtain ⟨C', hNext, hSame⟩ := h.took hTook hi
    rw [hStore, ← hSame p hp]
    exact ⟨C', n + 1, hNext.touched hp (by rw [size_congr (hSame p hp)]; exact hFull)
      (Nat.succ_ne_zero n) mtime ctime⟩

end Grounded

theorem ChildSizes.length_blocks {C D : List Nat} {n : Nat} (h : σ.ChildSizes C D n) :
    (C.flatMap σ.directBlocks).length = n := by
  have hCount := h.count
  have hLengths : C.map (fun c => (σ.directBlocks c).length) =
      (List.range C.length).map fun j => (page 100 (List.range n) j).length := by
    refine List.ext_getElem (by simp) fun j hj _ => ?_
    rw [List.length_map] at hj
    rw [List.getElem_map, List.getElem_map, List.getElem_range, directBlocks_length, h.size j hj,
      page_length, List.length_range]
    omega
  rw [List.length_flatMap, hLengths, ← List.length_flatMap, flatMap_page, List.length_take,
    List.length_range]
  omega

end Store

section Removal

variable {m : Machine} {inum i p k b n stack : Nat} {ids C : List Nat} {dirs : Set Nat}

/-- The search frees one data block at most. -/
theorem freeFirst_any (hIds : ∀ b ∈ ids, IsData b) (i : Nat) :
    ∃ m' j, freeFirst inum ids i m = .ok (i + j) m' ∧ j ≤ ids.length ∧
      (m'.store = m.store ∨ ∃ b, IsData b ∧ m'.store = (m.store.unmark b).write b Block.zeros) := by
  induction ids generalizing i with
  | nil => exact ⟨m, 0, rfl, Nat.le_refl 0, Or.inl rfl⟩
  | cons b rest ih =>
      have hData := hIds b List.mem_cons_self
      have hHead : readBlock m b = .ok (m.store.data b) := readBlock_data (Or.inl hData)
      by_cases hHit : (u32At (m.store.data b).bytes 0).toNat = inum
      · obtain ⟨m', hFree, hStore⟩ : ∃ m', freeBlock b m = .ok () m' ∧
            (m'.store = m.store ∨ m'.store = (m.store.unmark b).write b Block.zeros) := by
          cases hBit : m.store.bit b with
          | false => exact ⟨m, freeBlock_unmarked hData hBit, Or.inl rfl⟩
          | true =>
              obtain ⟨m', hRun, hStore⟩ := freeBlock_marked hData hBit
              exact ⟨m', hRun, Or.inr hStore⟩
        refine ⟨m', 0, ?_, Nat.zero_le _, hStore.imp id fun hEq => ⟨b, hData, hEq⟩⟩
        simp only [freeFirst, bind, EStateM.bind, query, hHead, if_pos hHit, hFree]
        rfl
      · obtain ⟨m', j, hRun, hj, hStore⟩ :=
          ih (fun c hc => hIds c (List.mem_cons_of_mem b hc)) (i + 1)
        refine ⟨m', j + 1, ?_, Nat.succ_le_succ hj, hStore⟩
        simp only [freeFirst, bind, EStateM.bind, query, hHead, if_neg hHit]
        rw [hRun, Nat.add_assoc, Nat.add_comm 1]

namespace Store.Grounded

/-- The number of entries behind the slots of a directory. -/
theorem readBlockid_dir (h : m.store.Grounded dirs C n) (hp : p ∈ dirs) (stack : Nat) :
    ∃ ids, readBlockid m (stack + 2) p = .ok ids ∧ (∀ b ∈ ids, IsData b) ∧
      ids.length = min (m.store.size p) 100 + if m.store.size p = 101 then n else 0 := by
  obtain ⟨hInum, -, hMost⟩ := h.dir p hp
  have hData : ∀ i, ∀ b ∈ m.store.directBlocks i, IsData b := by
    intro i b hb
    obtain ⟨k, hk, rfl⟩ := List.mem_map.mp hb
    rw [List.mem_range] at hk
    exact ((h.neat.inode i).data k).resolve_left ((h.neat.inode i).used k hk)
  by_cases hLarge : m.store.size p = 101
  · have hTable : m.store.Table C := by
      have hOld := h.childSizes.table
      rwa [List.append_nil] at hOld
    refine ⟨_, readBlockid_large hInum (by omega) (h.neat.inode p).indirect hTable
      (fun c hc => ⟨(h.childSizes.child c hc).1, h.child_size hc⟩), fun b hb => ?_, ?_⟩
    · rcases List.mem_append.mp hb with hOwn | hBehind
      · exact hData p b hOwn
      · obtain ⟨c, -, hc⟩ := List.mem_flatMap.mp hBehind
        exact hData c b hc
    · rw [List.length_append, directBlocks_length, h.childSizes.length_blocks, if_pos hLarge]
  · refine ⟨_, readBlockid_flat hInum (by omega), hData p, ?_⟩
    rw [directBlocks_length, if_neg hLarge, Nat.add_zero]

/-- A block number goes to a slot, or nowhere. -/
theorem set_block (h : m.store.Grounded dirs C n) (hp : p ∈ dirs) (hb : IsData b)
    (hk : k ≤ 12900) (stack : Nat) :
    ∃ m' r, setInoBlockId (stack + 2) p k b false m = .ok (r, p) m' ∧
      m'.store.Grounded dirs C n ∧ m'.store.size p = m.store.size p := by
  obtain ⟨hInum, hDir, hMost⟩ := h.dir p hp
  have hRange := isData_iff.mp hb
  rcases Nat.lt_or_ge k (min (m.store.size p) 100) with hSlot | hBehind
  · obtain ⟨m', hRun, hStore⟩ := setInoBlockId_slot (b := b) hInum hDir hSlot (Or.inr rfl) (stack + 1)
    have hSize : m'.store.size p = m.store.size p := by
      rw [hStore, size_putInode_self, Inode.withSlot_size _ _ (by omega)]
      rfl
    refine ⟨m', true, hRun, h.set_dir hp ?_ (by rw [hStore]; rfl) (fun i hi => ?_) ?_ (by omega)
      fun hFull => h.large p hp (hSize ▸ hFull), hSize⟩
    · rw [hStore]
      exact h.neat.putInode ((h.neat.inode p).withSlot (by omega) hb)
    · rw [hStore, putInode_inode, if_neg hi]
    · rw [hStore, putInode_inode, if_pos rfl, Inode.isDir, Inode.withSlot_type]
      exact hDir
  · by_cases hNone : m.store.size p ≤ 100 ∨ k ≤ 100
    · exact ⟨m, false, setInoBlockId_miss hBehind hNone, h, rfl⟩
    · obtain ⟨q, rfl⟩ : ∃ q, k = 100 + q := ⟨k - 100, by omega⟩
      have hIndirect : m.store.slot p 100 = 0 := (h.neat.inode p).indirect
      rcases Nat.lt_or_ge q n with hIn | hOut
      · have hCount := h.childSizes.count
        have hj : q / 100 < C.length := by omega
        have hMem := List.getElem_mem hj
        have hne : p ≠ C[q / 100] := fun he => h.kids _ hMem (he ▸ hp)
        obtain ⟨m', hRun, hStore⟩ := h.childSizes.set_behind (b := b) hInum hDir (by omega) hIndirect
          stack (by omega) hIn hj (by omega)
        have hOther : ∀ i, i ≠ C[q / 100] → m'.store.inode i = m.store.inode i := fun i hi => by
          rw [hStore, putInode_inode, if_neg hi]
        have hSelf : m'.store.inode C[q / 100] =
            (m.store.inode C[q / 100]).withSlot (q % 100) b := by
          rw [hStore, putInode_inode, if_pos rfl]
        refine ⟨m', true, hRun, h.set_child hMem ?_ ?_ hOther id, size_congr (hOther p hne)⟩
        · rw [hStore]
          exact h.neat.putInode ((h.neat.inode _).withSlot (by omega) hb)
        · refine h.childSizes.congr_on (by rw [hStore]; rfl) (fun c _ => ?_) fun c _ => ?_
          · by_cases he : c = C[q / 100]
            · rw [he, Store.size, hSelf, Inode.withSlot_size _ _ (by omega)]
              rfl
            · exact size_congr (hOther c he)
          · by_cases he : c = C[q / 100]
            · rw [he, hSelf, Inode.isDir, Inode.withSlot_type]
              rfl
            · rw [hOther c he]
      · exact ⟨m, false, setInoBlockId_behind hInum hDir (by omega) hIndirect (by omega)
          (h.childSizes.setInChild_none hOut (by omega)) (fun he => by cases he), h, rfl⟩

/-- The last place is cleared. The child that loses its only entry is excluded, and with
101 entries nothing happens. -/
theorem clear_last (h : m.store.Grounded dirs C n) (hp : p ∈ dirs) (hSome : m.store.size p ≠ 0)
    (hRoom : m.store.size p = 101 → n % 100 = 1 → n = 1) (stack : Nat) :
    ∃ m' r n', setInoBlockId (stack + 2) p
        (min (m.store.size p) 100 + (if m.store.size p = 101 then n else 0) - 1) 0 false m =
          .ok (r, p) m' ∧ m'.store.Grounded dirs C n' := by
  obtain ⟨hInum, hDir, hMost⟩ := h.dir p hp
  by_cases hLarge : m.store.size p = 101
  · have hPos := h.large p hp hLarge
    rw [if_pos hLarge, hLarge]
    by_cases hOne : n = 1
    · subst hOne
      exact ⟨m, false, 1, setInoBlockId_miss (by omega) (Or.inr (by omega)), h⟩
    · obtain ⟨q, rfl⟩ : ∃ q, n = q + 1 := ⟨n - 1, by omega⟩
      have hCount := h.childSizes.count
      have hj : q / 100 < C.length := by omega
      have hMem := List.getElem_mem hj
      have hSize := h.childSizes.size _ hj
      have hChild : (m.store.inode C[q / 100]).size.toNat = q % 100 + 1 := by
        rw [← Store.size]
        omega
      have hCut : (m.store.inode C[q / 100]).cut (q % 100) =
          (m.store.inode C[q / 100]).withSlot (q % 100) 0 := by
        have hNew := Inode.withSlot_size_pred hChild
        refine if_neg fun hGone => ?_
        rw [hGone] at hNew
        change 0 = q % 100 at hNew
        exact hOne (hRoom hLarge (by omega))
      obtain ⟨m', hRun, hStore⟩ := h.childSizes.cut_behind hInum hDir (by omega)
        (h.neat.inode p).indirect stack (by omega) rfl hj
      rw [hCut] at hStore
      have hOther : ∀ i, i ≠ C[q / 100] → m'.store.inode i = m.store.inode i := fun i hi => by
        rw [hStore, putInode_inode, if_neg hi]
      have hSelf : m'.store.inode C[q / 100] =
          (m.store.inode C[q / 100]).withSlot (q % 100) 0 := by
        rw [hStore, putInode_inode, if_pos rfl]
      have hNodup := h.childSizes.nodup
      rw [List.append_nil] at hNodup
      refine ⟨m', true, q, ?_, h.set_child hMem ?_ ⟨?_, h.childSizes.nodup, by omega, fun c hc => ?_,
        fun j hj' => ?_, fun d hd => absurd hd List.not_mem_nil⟩ hOther (by omega)⟩
      · exact hRun
      · rw [hStore]
        exact h.neat.putInode ((h.neat.inode _).withSlot_last (by omega) hChild)
      · rw [hStore]
        exact h.childSizes.table
      · refine ⟨(h.childSizes.child c hc).1, ?_⟩
        by_cases he : c = C[q / 100]
        · rw [he, hSelf, Inode.isDir, Inode.withSlot_type]
          exact (h.childSizes.child _ hMem).2
        · rw [hOther c he]
          exact (h.childSizes.child c hc).2
      · have hOld := h.childSizes.size j hj'
        by_cases he : C[j] = C[q / 100]
        · have hEq := (List.Nodup.getElem_inj_iff hNodup).mp he
          rw [he, Store.size, hSelf, Inode.withSlot_size_pred hChild]
          omega
        · have hne : j ≠ q / 100 := fun hEq => he (by simp only [hEq])
          rw [size_congr (hOther _ he), hOld]
          omega
  · obtain ⟨k, hk⟩ : ∃ k, m.store.size p = k + 1 := ⟨m.store.size p - 1, by omega⟩
    have hLast : min (m.store.size p) 100 + 0 - 1 = k := by omega
    rw [if_neg hLarge, hLast]
    obtain ⟨m', hRun, hStore⟩ := setInoBlockId_slot (k := k) (b := 0) hInum hDir (by omega)
      (Or.inr rfl) (stack + 1)
    have hSize : m'.store.size p = k := by
      rw [hStore, size_putInode_self]
      exact Inode.withSlot_size_pred hk
    refine ⟨m', true, n, hRun, h.set_dir hp ?_ (by rw [hStore]; rfl) (fun i hi => ?_) ?_ (by omega)
      (by omega)⟩
    · rw [hStore]
      exact h.neat.putInode ((h.neat.inode p).withSlot_last (by omega) hk)
    · rw [hStore, putInode_inode, if_neg hi]
    · rw [hStore, putInode_inode, if_pos rfl, Inode.isDir, Inode.withSlot_type]
      exact hDir

/-- `remove_from_dir`, whatever entry it is asked for. -/
theorem removeFromDir (h : m.store.Grounded dirs C n) (hp : p ∈ dirs) (hSome : m.store.size p ≠ 0)
    (hRoom : m.store.size p = 101 → n % 100 = 1 → n = 1) (stack : Nat) :
    ∃ m' n', InodeFS.removeFromDir (stack + 2) p inum m = .ok () m' ∧
      m'.store.Grounded dirs C n' := by
  obtain ⟨hInum, hDir, hMost⟩ := h.dir p hp
  have hCount := h.childSizes.length_le
  obtain ⟨ids, hIds, hData, hLength⟩ := h.readBlockid_dir hp stack
  have hBound : ids.length ≤ 12900 := by
    rw [hLength]
    split <;> omega
  have hNe : ids ≠ [] := List.ne_nil_of_length_pos (by omega)
  obtain ⟨last, hLast⟩ := Option.ne_none_iff_exists'.mp fun hNil =>
    hNe (List.getLast?_eq_none_iff.mp hNil)
  obtain ⟨m₁, j, hFind, hj, hStore₁⟩ : ∃ m₁ j, freeFirst inum ids 0 m = .ok (0 + j) m₁ ∧
      j ≤ ids.length ∧ (m₁.store = m.store ∨
        ∃ b, IsData b ∧ m₁.store = (m.store.unmark b).write b Block.zeros) := freeFirst_any hData 0
  rw [Nat.zero_add] at hFind
  have h₁ : m₁.store.Grounded dirs C n ∧ m₁.store.size p = m.store.size p := by
    rcases hStore₁ with hSame | ⟨b, hb, hZeroed⟩
    · rw [hSame]
      exact ⟨h, rfl⟩
    · have hRange := isData_iff.mp hb
      rw [hZeroed]
      refine ⟨h.update (h.neat.zeroed b) ?_ (fun _ _ => rfl) (fun _ _ => rfl) (fun _ hq => Or.inl hq)
        subset_rfl fun i hi hc => h.blank i hi hc, rfl⟩
      rw [write_data, if_neg (by omega)]
      rfl
  obtain ⟨m₂, r, hSet, h₂, hSize₂⟩ := h₁.1.set_block hp
    (hData last (List.mem_of_getLast? hLast)) (hj.trans hBound) stack
  rw [h₁.2] at hSize₂
  obtain ⟨m₃, r', n', hClear, h₃⟩ := h₂.clear_last hp (by omega)
    (fun hLarge => hRoom (hSize₂ ▸ hLarge)) stack
  rw [hSize₂, ← hLength] at hClear
  obtain ⟨m', mtime, ctime, hRun, hStore⟩ := removeFromDir_steps hInum hDir hIds hLast hFind hSet hClear
  obtain ⟨-, hDir₃, hMost₃⟩ := h₃.dir p hp
  refine ⟨m', n', hRun, hStore ▸ h₃.set_dir hp ?_ rfl (fun i hi => ?_) ?_ ?_ ?_⟩
  · exact h₃.neat.putInode ((h₃.neat.inode p).of_slots (fun _ => rfl) (Nat.le_refl _))
  · rw [putInode_inode, if_neg hi]
  · rw [putInode_inode, if_pos rfl]
    exact hDir₃
  · rw [size_putInode_self]
    exact hMost₃
  · rw [size_putInode_self]
    exact h₃.large p hp

end Store.Grounded

end Removal
end InodeFS
