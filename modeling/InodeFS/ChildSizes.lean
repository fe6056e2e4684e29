import InodeFS.ChildEntries

/-! The search of `set_ino_block_id` for a flat index. Only the sizes of the children
matter: the index is in the slots of the directory, or behind them in the child that its
distance from 100 points to. -/
namespace InodeFS

open Bytes Exec Paging Store

namespace Inode

/-- The inode after slot `k` was set: setting it to 0 makes the size smaller. -/
def withSlot (ino : Inode) (k b : Nat) : Inode :=
  if b = 0 then { ino.setSlot k b with size := ino.size - 1 } else ino.setSlot k b

theorem withSlot_type (ino : Inode) (k b : Nat) : (ino.withSlot k b).type = ino.type := by
  rw [withSlot]
  split <;> rfl

theorem withSlot_slot (ino : Inode) {k b : Nat} (hk : k < 101) (hb : b < 2 ^ 32) (l : Nat) :
    (ino.withSlot k b).slot l = if l = k then b else ino.slot l := by
  rw [← ino.setSlot_slot hk hb l, withSlot]
  split <;> rfl

theorem withSlot_size_zero (ino : Inode) (k : Nat) (h : 0 < ino.size.toNat) :
    (ino.withSlot k 0).size.toNat = ino.size.toNat - 1 := by
  have hLe : (1 : UInt32) ≤ ino.size := UInt32.le_iff_toNat_le.mpr h
  rw [withSlot, if_pos rfl]
  exact UInt32.toNat_sub_of_le _ _ hLe

theorem withSlot_size (ino : Inode) (k : Nat) {b : Nat} (hb : b ≠ 0) :
    (ino.withSlot k b).size = ino.size := by
  rw [withSlot, if_neg hb]
  rfl

/-- The inode after slot `k` was cleared. Without any slot in use it is freed. -/
def cut (ino : Inode) (k : Nat) : Inode :=
  if (ino.withSlot k 0).size = 0 then cleared else ino.withSlot k 0

section Cut

variable {ino : Inode} {l : Nat} (h : ino.size.toNat = l + 1)
include h

theorem withSlot_size_pred : (ino.withSlot l 0).size.toNat = l := by
  rw [withSlot_size_zero _ _ (by omega), h, Nat.add_sub_cancel]

theorem cut_size : (ino.cut l).size.toNat = l := by
  have hSize := withSlot_size_pred h
  rw [cut]
  split
  · rename_i hGone
    rw [hGone] at hSize
    exact hSize
  · exact hSize

theorem cut_slot (hl : l < 101) (hRest : ∀ j, l < j → ino.slot j = 0) (j : Nat) :
    (ino.cut l).slot j = if j = l then 0 else ino.slot j := by
  have hSize := withSlot_size_pred h
  rw [cut]
  split
  · rename_i hGone
    rw [hGone] at hSize
    obtain rfl : 0 = l := hSize
    rw [cleared_slot]
    split
    · rfl
    · exact (hRest j (by omega)).symm
  · exact ino.withSlot_slot hl (by omega) j

theorem cut_type (hl : l ≠ 0) : (ino.cut l).type = ino.type := by
  have hSize := withSlot_size_pred h
  rw [cut, if_neg fun hGone => hl (by rw [hGone] at hSize; exact hSize.symm), withSlot_type]

theorem cut_type_zero (hl : l = 0) : (ino.cut l).type = 0 := by
  have hSize : (ino.withSlot l 0).size.toNat = (0 : UInt32).toNat :=
    (withSlot_size_pred h).trans hl
  rw [cut, if_pos (UInt32.toNat_inj.mp hSize), cleared_type]

end Cut

end Inode

section WithSlot

variable {σ : Store} {x k b : Nat}

/-- A block number other than 0 in one slot leaves all sizes alone. -/
theorem Store.size_withSlot (hb : b ≠ 0) (i : Nat) :
    (σ.putInode x ((σ.inode x).withSlot k b)).size i = σ.size i := by
  by_cases he : i = x
  · subst he
    rw [size_putInode_self, Inode.withSlot_size _ _ hb]
    rfl
  · exact size_congr (by rw [putInode_inode, if_neg he])

theorem Store.type_withSlot (i : Nat) :
    ((σ.putInode x ((σ.inode x).withSlot k b)).inode i).type = (σ.inode i).type := by
  rw [putInode_inode]
  split
  · rename_i he
    rw [Inode.withSlot_type, he]
  · rfl

theorem Store.slot_withSlot (hk : k < 101) (hb : b < 2 ^ 32) (i j : Nat) :
    (σ.putInode x ((σ.inode x).withSlot k b)).slot i j = if i = x ∧ j = k then b else σ.slot i j := by
  by_cases he : i = x
  · subst he
    rw [slot_putInode_self, Inode.withSlot_slot _ hk hb]
    simp only [true_and]
    rfl
  · rw [if_neg fun h => he h.1]
    exact slot_congr (by rw [putInode_inode, if_neg he]) j

end WithSlot

section Single

variable {m : Machine} {x k b stack : Nat} {autoFree : Bool}

/-- The index is neither in the slots nor behind them: nothing happens. -/
theorem setInoBlockId_miss (hSlots : min (m.store.size x) 100 ≤ k)
    (hKids : m.store.size x ≤ 100 ∨ k ≤ 100) :
    setInoBlockId (stack + 1) x k b autoFree m = .ok (false, x) m := by
  by_cases hInum : IsInum x
  · have hNot : ¬k < min (m.store.inode x).size.toNat ndirect := Nat.not_lt.mpr hSlots
    have hNone : ¬((m.store.inode x).size.toNat > ndirect ∧ k > ndirect) := by
      rw [Store.size] at hKids
      rw [ndirect_eq]
      omega
    cases hDir : (m.store.inode x).isDir with
    | false =>
        simp only [setInoBlockId, bind, EStateM.bind, query, getInode_some hInum, hDir]
        rfl
    | true =>
        simp only [setInoBlockId, bind, EStateM.bind, query, getInode_some hInum, hDir, if_true,
          if_neg hNot, if_neg hNone]
        rfl
  · simp only [setInoBlockId, bind, EStateM.bind, query, getInode_none hInum]
    rfl

/-- The index is in the slots of a directory that stays in use. -/
theorem setInoBlockId_slot (hInum : IsInum x) (hDir : (m.store.inode x).isDir = true)
    (hk : k < min (m.store.size x) 100)
    (hStays : ((m.store.inode x).withSlot k b).size ≠ 0 ∨ autoFree = false) (stack : Nat) :
    ∃ m', setInoBlockId (stack + 1) x k b autoFree m = .ok (true, x) m' ∧
      m'.store = m.store.putInode x ((m.store.inode x).withSlot k b) := by
  have hLow : k < min (m.store.inode x).size.toNat ndirect := hk
  have hStays' : ¬(((m.store.inode x).withSlot k b).size = 0 ∧ autoFree = true) := by
    rintro ⟨hZero, hFree⟩
    rcases hStays with hSize | hKeep
    · exact hSize hZero
    · rw [hKeep] at hFree
      cases hFree
  obtain ⟨m', hRun, hStore⟩ := putInode_eq (m := m) hInum ((m.store.inode x).withSlot k b)
  refine ⟨m', ?_, hStore⟩
  have hIno : (if b = 0 then { (m.store.inode x).setSlot k b with
      size := ((m.store.inode x).setSlot k b).size - 1 } else (m.store.inode x).setSlot k b) =
      (m.store.inode x).withSlot k b := rfl
  simp only [setInoBlockId, bind, EStateM.bind, query, getInode_some hInum, hDir, if_true,
    if_pos hLow, hIno, if_neg hStays', hRun]
  rfl

/-- The last slot in use was cleared, and the child is freed. -/
theorem setInoBlockId_free (hInum : IsInum x) (hDir : (m.store.inode x).isDir = true)
    (hk : k < min (m.store.size x) 100) (hGone : ((m.store.inode x).withSlot k b).size = 0)
    (stack : Nat) : ∃ m', setInoBlockId (stack + 1) x k b true m = .ok (true, 0) m' ∧
      m'.store = m.store.putInode x Inode.cleared := by
  have hLow : k < min (m.store.inode x).size.toNat ndirect := hk
  obtain ⟨m', hRun, hStore⟩ := freeInode_eq (alive_of_isDir hDir)
  refine ⟨m', ?_, hStore⟩
  have hIno : (if b = 0 then { (m.store.inode x).setSlot k b with
      size := ((m.store.inode x).setSlot k b).size - 1 } else (m.store.inode x).setSlot k b) =
      (m.store.inode x).withSlot k b := rfl
  simp only [setInoBlockId, bind, EStateM.bind, query, getInode_some hInum, hDir, if_true,
    if_pos hLow, hIno, hGone, and_self, hRun]
  rfl

end Single

section Scan

/-- Block 0 lists the children `C`, which have `n` slots in use and are full but for the
last, and then the children `D`, which have none. -/
structure Store.ChildSizes (σ : Store) (C D : List Nat) (n : Nat) : Prop where
  table : σ.Table (C ++ D)
  nodup : (C ++ D).Nodup
  count : C.length = (n + 99) / 100
  child : ∀ c ∈ C, IsInum c ∧ (σ.inode c).isDir = true
  size : ∀ j (hj : j < C.length), σ.size C[j] = min 100 (n - 100 * j)
  empty : ∀ d ∈ D, IsInum d ∧ σ.size d = 0

variable {m : Machine} {stack b q i n : Nat} {C D F : List Nat} {s : List Entry}
  {set : Nat → Nat → Action (Bool × Nat)}

theorem Store.ChildEntries.childSizes {σ : Store} (h : σ.ChildEntries C s) : σ.ChildSizes C [] s.length where
  table := by
    rw [List.append_nil]
    exact h.table
  nodup := by
    rw [List.append_nil]
    exact h.nodup
  count := h.count
  child c hc := by
    obtain ⟨l, hRow⟩ := h.mem hc
    exact ⟨hRow.lists.inum, hRow.lists.dir⟩
  size _ hj := h.child_size hj
  empty _ hd := absurd hd List.not_mem_nil

namespace Store.ChildSizes

variable {σ : Store}

theorem isInum (h : σ.ChildSizes C D n) {c : Nat} (hc : c ∈ C ++ D) : IsInum c :=
  (List.mem_append.mp hc).elim (fun hC => (h.child c hC).1) fun hD => (h.empty c hD).1

theorem ne_zero (h : σ.ChildSizes C D n) {c : Nat} (hc : c ∈ C ++ D) : c ≠ 0 := by
  have := isInum_iff.mp (h.isInum hc)
  omega

theorem length_le (h : σ.ChildSizes C D n) : n ≤ 12800 := by
  have hCount := h.count
  have hLength := congrArg List.length h.table
  rw [inumBuf_length, List.length_append, List.length_append] at hLength
  omega

theorem congr_on {σ' : Store} (h : σ.ChildSizes C D n) (hZero : σ'.data 0 = σ.data 0)
    (hSize : ∀ c ∈ C ++ D, σ'.size c = σ.size c)
    (hDir : ∀ c ∈ C, (σ'.inode c).isDir = (σ.inode c).isDir) : σ'.ChildSizes C D n where
  table := by
    rw [Table, hZero]
    exact h.table
  nodup := h.nodup
  count := h.count
  child c hc := ⟨(h.child c hc).1, (hDir c hc).trans (h.child c hc).2⟩
  size j hj := (hSize _ (List.mem_append_left _ (List.getElem_mem hj))).trans (h.size j hj)
  empty d hd := ⟨(h.empty d hd).1, (hSize d (List.mem_append_right _ hd)).trans (h.empty d hd).2⟩

theorem congr {σ' : Store} (h : σ.ChildSizes C D n) (hZero : σ'.data 0 = σ.data 0)
    (hSize : ∀ i, σ'.size i = σ.size i)
    (hDir : ∀ i, (σ'.inode i).isDir = (σ.inode i).isDir) : σ'.ChildSizes C D n :=
  h.congr_on hZero (fun c _ => hSize c) fun c _ => hDir c

theorem untilZero (h : σ.ChildSizes C D n) : InodeFS.untilZero (inumBuf (σ.data 0)) = C ++ D :=
  untilZero_table h.table fun _ hc => h.ne_zero hc

theorem size_le (h : σ.ChildSizes C D n) {c : Nat} (hc : c ∈ C ++ D) : σ.size c ≤ 100 := by
  rcases List.mem_append.mp hc with hC | hD
  · obtain ⟨j, hj, rfl⟩ := List.getElem_of_mem hC
    rw [h.size j hj]
    exact Nat.min_le_left _ _
  · rw [(h.empty c hD).2]
    exact Nat.zero_le 100

end Store.ChildSizes

/-- The index which the child at `i` is asked for. -/
def childIndex (k i : Nat) : Nat := (k + 2 ^ 32 - (i + 1) * ndirect) % 2 ^ 32

theorem childIndex_eq (hq : q < 2 ^ 31) (hi : i < 128) :
    childIndex (100 + q) i = if 100 * i ≤ q then q - 100 * i else 2 ^ 32 + q - 100 * i := by
  rw [childIndex, ndirect_eq]
  split <;> omega

theorem setInChild_cons {k c : Nat} {rest : List Nat} (hNe : c ≠ 0) :
    setInChild set k i (c :: rest) = set c (childIndex k i) >>= fun r =>
      if r.1 then pure (some (i, r.2)) else setInChild set k (i + 1) rest := by
  rw [setInChild, if_neg hNe]
  rfl

/-- The scan passes over children that do not have the index. -/
theorem setInChild_pass {k : Nat} {rest : List Nat}
    (hF : ∀ j (hj : j < F.length), F[j] ≠ 0 ∧
      ∃ c, set F[j] (childIndex k (i + j)) m = .ok (false, c) m) :
    setInChild set k i (F ++ rest) m = setInChild set k (i + F.length) rest m := by
  induction F generalizing i with
  | nil => rfl
  | cons c F ih =>
      obtain ⟨hNe, c', hMiss⟩ := hF 0 (Nat.succ_pos _)
      have hRest := ih (i := i + 1) fun j hj => by
        rw [Nat.add_assoc, Nat.add_comm 1 j]
        exact hF (j + 1) (Nat.succ_lt_succ hj)
      have hFirst : set c (childIndex k i) m = .ok (false, c') m := hMiss
      rw [List.cons_append, setInChild_cons (show c ≠ 0 from hNe)]
      simp only [bind, EStateM.bind, hFirst, Bool.false_eq_true, if_false]
      rw [hRest, List.length_cons, Nat.add_assoc, Nat.add_comm 1]

theorem setInChild_zeros {k : Nat} (n : Nat) : setInChild set k i (List.replicate n 0) m =
    .ok none m := by
  cases n with
  | zero => rfl
  | succ n =>
      rw [List.replicate_succ, setInChild, if_pos rfl]
      rfl

/-- A child with all its slots in use before the index. -/
theorem Store.ChildSizes.miss (h : m.store.ChildSizes C D n) (stack b : Nat) {j k : Nat}
    (hj : j < (C ++ D).length) (hk : min 100 (n - 100 * j) ≤ k) : (C ++ D)[j] ≠ 0 ∧
      ∃ c, setInoBlockId (stack + 1) (C ++ D)[j] k b true m = .ok (false, c) m := by
  have hMem := List.getElem_mem hj
  refine ⟨h.ne_zero hMem, _, setInoBlockId_miss ?_ (Or.inl (h.size_le hMem))⟩
  by_cases hC : j < C.length
  · have hGet : (C ++ D)[j] = C[j] := List.getElem_append_left hC
    rw [hGet, h.size j hC]
    omega
  · have hD : (C ++ D)[j] ∈ D := by
      rw [List.getElem_append_right (Nat.le_of_not_lt hC)]
      exact List.getElem_mem _
    rw [(h.empty _ hD).2]
    omega

/-- An index behind all slots in use is in no child. -/
theorem Store.ChildSizes.setInChild_none (h : m.store.ChildSizes C D n) (hq : n ≤ q) (hLt : q < 2 ^ 31) :
    setInChild (fun child k => setInoBlockId (stack + 1) child k b true) (100 + q) 0
      (inumBuf (m.store.data 0)) m = .ok none m := by
  have hLength := congrArg List.length h.table
  rw [inumBuf_length, List.length_append] at hLength
  rw [h.table, setInChild_pass fun j hj => ?_]
  · exact setInChild_zeros _
  · rw [Nat.zero_add, childIndex_eq hLt (by omega)]
    refine h.miss stack b hj ?_
    split <;> omega

/-- An index in use is in the child that holds it. -/
theorem Store.ChildSizes.setInChild_some (h : m.store.ChildSizes C D n) (hq : q < n) {c' : Nat}
    {m' : Machine} (hj : q / 100 < C.length)
    (hRun : setInoBlockId (stack + 1) C[q / 100] (q % 100) b true m = .ok (true, c') m') :
    setInChild (fun child k => setInoBlockId (stack + 1) child k b true) (100 + q) 0
      (inumBuf (m.store.data 0)) m = .ok (some (q / 100, c')) m' := by
  have hLength := h.length_le
  have hCount := h.count
  have hTake : (C.take (q / 100)).length = q / 100 := by
    rw [List.length_take]
    omega
  have hTable : inumBuf (m.store.data 0) = C.take (q / 100) ++ (C[q / 100] ::
      (C.drop (q / 100 + 1) ++ (D ++ List.replicate (128 - (C ++ D).length) 0))) := by
    rw [h.table, List.append_assoc, ← List.cons_append, ← List.drop_eq_getElem_cons hj,
      ← List.append_assoc (C.take _), List.take_append_drop]
  have hIndex : childIndex (100 + q) (q / 100) = q % 100 := by
    rw [childIndex_eq (by omega) (by omega), if_pos (by omega)]
    omega
  rw [hTable, setInChild_pass fun j hj' => ?_]
  · rw [hTake, Nat.zero_add,
      setInChild_cons (h.ne_zero (List.mem_append_left _ (List.getElem_mem hj))), hIndex]
    simp only [bind, EStateM.bind, hRun, if_true]
    rfl
  · rw [hTake] at hj'
    have hFront : j < C.length := by omega
    have hBehind : min 100 (n - 100 * j) ≤ childIndex (100 + q) (0 + j) := by
      rw [Nat.zero_add, childIndex_eq (by omega) (by omega), if_pos (by omega)]
      omega
    have hMiss := h.miss stack b (by rw [List.length_append]; omega) hBehind
    rw [List.getElem_append_left hFront] at hMiss
    rw [List.getElem_take]
    exact hMiss

end Scan

section Large

variable {m m' : Machine} {stack p k b : Nat} (hInum : IsInum p)
  (hDir : (m.store.inode p).isDir = true) (hSize : 100 < m.store.size p)
  (hSlot : m.store.slot p 100 = 0)
include hInum hDir hSize hSlot

/-- Behind the slots the answer of the scan counts. -/
theorem setInoBlockId_behind (hk : 100 < k) {found : Option (Nat × Nat)}
    (hScan : setInChild (fun child k => setInoBlockId (stack + 1) child k b true) k 0
      (inumBuf (m.store.data 0)) m = .ok found m') (hFound : found ≠ some (0, 0)) :
    setInoBlockId (stack + 2) p k b false m = .ok (found.isSome, p) m' := by
  have hNot : ¬k < min (m.store.inode p).size.toNat ndirect := by
    rw [ndirect_eq]
    omega
  have hBehind : (m.store.inode p).size.toNat > ndirect ∧ k > ndirect := ⟨hSize, hk⟩
  have hIndirect : (m.store.inode p).slot ndirect = 0 := hSlot
  have hBlock : readBlock m 0 = .ok (m.store.data 0) := readBlock_data (Or.inr (by omega))
  rw [setInoBlockId]
  simp only [bind, EStateM.bind, query, getInode_some hInum, hDir, if_true, if_neg hNot,
    if_pos hBehind, hIndirect, hBlock, hScan]
  cases found with
  | none => rfl
  | some place =>
      obtain ⟨i, child⟩ := place
      have hKept : ¬(i = 0 ∧ child = 0) := by
        rintro ⟨rfl, rfl⟩
        exact hFound rfl
      simp only [if_neg hKept]
      rfl

namespace Store.ChildSizes

variable {n q : Nat} {C D : List Nat} (h : m.store.ChildSizes C D n) (stack : Nat)
include h

/-- A block number other than 0 goes to the slot with the index. Index 100, the first of
the first child, is not looked for there. -/
theorem set_behind (hPos : 0 < q) (hq : q < n) (hj : q / 100 < C.length) (hb : b ≠ 0) :
    ∃ m', setInoBlockId (stack + 2) p (100 + q) b false m = .ok (true, p) m' ∧
      m'.store = m.store.putInode C[q / 100] ((m.store.inode C[q / 100]).withSlot (q % 100) b) := by
  have hMem := List.getElem_mem hj
  have hChild := h.child _ hMem
  have hIn : q % 100 < min (m.store.size C[q / 100]) 100 := by
    rw [h.size _ hj]
    omega
  have hStays : ((m.store.inode C[q / 100]).withSlot (q % 100) b).size ≠ 0 := by
    rw [Inode.withSlot_size _ _ hb]
    intro hZero
    rw [Store.size, hZero] at hIn
    exact absurd hIn (Nat.not_lt_zero _)
  obtain ⟨m', hRun, hStore⟩ := setInoBlockId_slot hChild.1 hChild.2 hIn
    (show _ ∨ true = false from Or.inl hStays) stack
  refine ⟨m', setInoBlockId_behind hInum hDir hSize hSlot (by omega)
    (h.setInChild_some hq hj hRun) fun he => ?_, hStore⟩
  exact h.ne_zero (List.mem_append_left _ hMem) (Prod.mk.inj (Option.some.inj he)).2

/-- The last slot in use is cleared. -/
theorem cut_behind (hPos : 0 < q) (hq : n = q + 1) (hj : q / 100 < C.length) :
    ∃ m', setInoBlockId (stack + 2) p (100 + q) 0 false m = .ok (true, p) m' ∧
      m'.store = m.store.putInode C[q / 100] ((m.store.inode C[q / 100]).cut (q % 100)) := by
  have hMem := List.getElem_mem hj
  have hChild := h.child _ hMem
  have hChildSize := h.size _ hj
  have hIn : q % 100 < min (m.store.size C[q / 100]) 100 := by omega
  have hNew : ((m.store.inode C[q / 100]).withSlot (q % 100) 0).size.toNat = q % 100 := by
    have hSum : (m.store.inode C[q / 100]).size.toNat = q % 100 + 1 := by
      rw [Store.size] at hChildSize
      omega
    rw [Inode.withSlot_size_zero _ _ (by omega), hSum, Nat.add_sub_cancel]
  rw [Inode.cut]
  by_cases hGone : ((m.store.inode C[q / 100]).withSlot (q % 100) 0).size = 0
  · obtain ⟨m', hRun, hStore⟩ := setInoBlockId_free hChild.1 hChild.2 hIn hGone stack
    refine ⟨m', setInoBlockId_behind hInum hDir hSize hSlot (by omega)
      (h.setInChild_some (by omega) hj hRun) fun he => ?_, ?_⟩
    · have hZero : q / 100 = 0 := (Prod.mk.inj (Option.some.inj he)).1
      rw [hGone] at hNew
      change 0 = q % 100 at hNew
      omega
    · rw [if_pos hGone]
      exact hStore
  · obtain ⟨m', hRun, hStore⟩ := setInoBlockId_slot hChild.1 hChild.2 hIn
      (show _ ∨ true = false from Or.inl hGone) stack
    refine ⟨m', setInoBlockId_behind hInum hDir hSize hSlot (by omega)
      (h.setInChild_some (by omega) hj hRun) fun he => ?_, ?_⟩
    · exact h.ne_zero (List.mem_append_left _ hMem) (Prod.mk.inj (Option.some.inj he)).2
    · rw [if_neg hGone]
      exact hStore

end Store.ChildSizes

end Large
end InodeFS
