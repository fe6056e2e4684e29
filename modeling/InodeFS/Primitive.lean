import InodeFS.Store

/-! The block layer and the inode layer act on the abstract store. Everything
above these layers is proved from the statements of this file; the bitmap
arithmetic and the layout of an inode are not looked at again. -/
namespace InodeFS

open Bytes Exec

theorem readBlock_ok {m : Machine} {b : Nat} (h : b < 2097152) :
    readBlock m b = .ok (m.disk b) := by
  simp [readBlock, h]

theorem readBlock_data {m : Machine} {b : Nat} (h : Visible b) :
    readBlock m b = .ok (m.store.data b) := by
  have hlt : b < 2097152 := by
    rcases h with h | h
    · exact h.2
    · omega
  rw [readBlock_ok hlt]
  simp [Machine.store, h]

theorem writeBlock_ok {m : Machine} {b : Nat} (h : b < 2097152) (buf : Block) :
    writeBlock b buf m = .ok () (m.setBlock b buf) := by
  have hw : writeBlock b buf = modify fun m => m.setBlock b buf := if_pos h
  rw [hw]
  rfl

/-- A write to a data block or to block 0 does not touch the other regions. -/
theorem writeBlock_data {m : Machine} {b : Nat} (h : Visible b) (buf : Block) :
    ∃ m', writeBlock b buf m = .ok () m' ∧ m'.store = m.store.write b buf := by
  have hb : 1540 ≤ b ∧ b < 2097152 ∨ b < 2 := h
  refine ⟨_, writeBlock_ok (by omega) buf, ?_⟩
  apply Store.ext
  · funext c
    by_cases hc : c < 2097152
    · have hne : c / 4096 + 2 ≠ b := by omega
      simp [Machine.store, rawBit, hne]
    · simp [Machine.store, hc]
  · funext i
    by_cases hi : IsInum i
    · have hne : 515 + i ≠ b := by
        have := isInum_iff.mp hi
        omega
      simp [Machine.store, hne]
    · simp [Machine.store, hi]
  · funext c
    by_cases hc : c = b
    · subst hc
      simp [Machine.store, h]
    · simp [Machine.store, hc]

theorem byteAt_setByte (b : Block) {i : Nat} (h : i < 512) (v : Byte) (j : Nat) :
    byteAt (b.setByte i v).bytes j = if j = i then v.toNat else byteAt b.bytes j := by
  have hi : i < b.bytes.length := by simpa [b.bytes_length] using h
  by_cases hj : j = i
  · subst hj
    simp [byteAt, Block.setByte, hi]
  · simp [byteAt, Block.setByte, hj, List.getElem?_set_ne (Ne.symm hj)]

/-- The block, the byte and the bit of an id in the bitmap determine the id. -/
theorem rawBit_setByte {m : Machine} {id : Nat} (v : Byte) (val : Bool)
    (hv : ∀ j < 8, v.toNat.testBit j = if j = id % 4096 % 8 then val
      else (byteAt (m.disk (id / 4096 + 2)).bytes (id % 4096 / 8)).testBit j) (b : Nat) :
    rawBit (m.setBlock (id / 4096 + 2) ((m.disk (id / 4096 + 2)).setByte (id % 4096 / 8) v)) b =
      if b = id then val else rawBit m b := by
  unfold rawBit
  by_cases hGroup : b / 4096 + 2 = id / 4096 + 2
  · rw [Machine.setBlock_disk, if_pos hGroup, byteAt_setByte _ (by omega), hGroup]
    by_cases hByte : b % 4096 / 8 = id % 4096 / 8
    · have hBit : b % 4096 % 8 = id % 4096 % 8 ↔ b = id := by omega
      rw [if_pos hByte, hv _ (Nat.mod_lt _ (by omega)), hByte]
      simp only [hBit]
    · have hne : b ≠ id := by
        rintro rfl
        exact hByte rfl
      rw [if_neg hByte, if_neg hne]
  · have hne : b ≠ id := by
      rintro rfl
      exact hGroup rfl
    rw [Machine.setBlock_disk, if_neg hGroup, if_neg hne]

/-- A change of one bit in the bitmap region is a change of one entry of the
bitmap. -/
theorem store_setBit {m : Machine} {id : Nat} (hid : id < 2097152) (v : Byte) (val : Bool)
    (hv : ∀ j < 8, v.toNat.testBit j = if j = id % 4096 % 8 then val
      else (byteAt (m.disk (id / 4096 + 2)).bytes (id % 4096 / 8)).testBit j) :
    (m.setBlock (id / 4096 + 2) ((m.disk (id / 4096 + 2)).setByte (id % 4096 / 8) v)).store =
      { m.store with bit := Function.update m.store.bit id val } := by
  apply Store.ext
  · funext b
    simp only [Machine.store, rawBit_setByte v val hv, Function.update_apply]
    by_cases hb : b = id
    · simp [hb, hid]
    · simp only [if_neg hb]
  · funext i
    by_cases hi : IsInum i
    · have hne : 515 + i ≠ id / 4096 + 2 := by
        have := isInum_iff.mp hi
        omega
      simp [Machine.store, hne]
    · simp [Machine.store, hi]
  · funext c
    by_cases hc : Visible c
    · have hne : c ≠ id / 4096 + 2 := by
        have hRange : (1540 ≤ c ∧ c < 2097152) ∨ c < 2 := hc
        omega
      simp [Machine.store, hne]
    · simp [Machine.store, hc]

private theorem and_bit (x k : Nat) : (x &&& 1 <<< k == 0) = !x.testBit k := by
  rw [Nat.one_shiftLeft]
  cases h : x.testBit k with
  | false =>
      have hZero : x &&& 2 ^ k = 0 := by
        apply Nat.eq_of_testBit_eq
        intro j
        rw [Nat.testBit_and, Nat.testBit_two_pow]
        by_cases hj : k = j
        · simp [← hj, h]
        · simp [hj]
      simp [hZero]
  | true =>
      have hBit : (x &&& 2 ^ k).testBit k = true := by
        rw [Nat.testBit_and, Nat.testBit_two_pow, h]
        simp
      have hne : x &&& 2 ^ k ≠ 0 := by
        intro hZero
        simp [hZero] at hBit
      simp [hne]

theorem isFree_eq {m : Machine} {id : Nat} (h : id < 2097152) :
    isFree m id = .ok (!m.store.bit id) := by
  have hRead : readBlock m (id / bpb + 2) = .ok (m.disk (id / 4096 + 2)) :=
    readBlock_ok (by simp only [bpb_eq]; omega)
  rw [isFree, hRead]
  simp only [bpb_eq, and_bit, Machine.store, rawBit, h, decide_true, Bool.true_and]
  rfl

theorem markBit_eq {m : Machine} {id : Nat} (h : id < 2097152) :
    ∃ m', markBit id m = .ok () m' ∧ m'.store = m.store.mark id := by
  have hRead : readBlock m (id / bpb + 2) = .ok (m.disk (id / 4096 + 2)) :=
    readBlock_ok (by simp only [bpb_eq]; omega)
  refine ⟨_, ?_, store_setBit (m := m.noteBitmapWrite (id / 4096 + 2)) h (UInt8.ofNat
    (byteAt (m.disk (id / 4096 + 2)).bytes (id % 4096 / 8) ||| 1 <<< (id % 4096 % 8))) true ?_⟩
  · simp only [markBit, bind, EStateM.bind, query, hRead]
    simp only [bpb_eq]
    exact writeBlock_ok (by omega) _
  · intro j hj
    generalize id % 4096 % 8 = k
    rw [UInt8.toNat_ofNat', Nat.testBit_mod_two_pow, Nat.testBit_or, Nat.one_shiftLeft,
      Nat.testBit_two_pow]
    by_cases he : j = k
    · subst he
      simp [hj]
    · simp [hj, he, Ne.symm he]

theorem unmarkBit_eq {m : Machine} {id : Nat} (h : id < 2097152) :
    ∃ m', unmarkBit id m = .ok () m' ∧ m'.store = m.store.unmark id := by
  have hRead : readBlock m (id / bpb + 2) = .ok (m.disk (id / 4096 + 2)) :=
    readBlock_ok (by simp only [bpb_eq]; omega)
  refine ⟨_, ?_, store_setBit (m := m.noteBitmapWrite (id / 4096 + 2)) h (UInt8.ofNat
    (byteAt (m.disk (id / 4096 + 2)).bytes (id % 4096 / 8) &&&
      (255 ^^^ 1 <<< (id % 4096 % 8)))) false ?_⟩
  · simp only [unmarkBit, bind, EStateM.bind, query, hRead]
    simp only [bpb_eq]
    exact writeBlock_ok (by omega) _
  · intro j hj
    generalize id % 4096 % 8 = k
    rw [UInt8.toNat_ofNat', Nat.testBit_mod_two_pow, Nat.testBit_and, Nat.testBit_xor,
      show 255 = 2 ^ 8 - 1 from rfl, Nat.testBit_two_pow_sub_one, Nat.one_shiftLeft,
      Nat.testBit_two_pow]
    by_cases he : j = k
    · subst he
      simp [hj]
    · simp [hj, he, Ne.symm he]

/-- `alloc_block` returns the first free block and marks it, or returns 0 and
changes nothing when no block is free. -/
theorem wp_allocBlock {m : Machine} {Q : Nat → Machine → Prop} {E : Stop → Machine → Prop}
    (hOk : ∀ b m', IsData b → m.store.bit b = false →
      (∀ c, IsData c → c < b → m.store.bit c = true) → m'.store = m.store.mark b → Q b m')
    (hFull : (∀ c, IsData c → m.store.bit c = true) → Q 0 m) :
    wp allocBlock Q E m := by
  suffices h : ∀ count id, 1540 ≤ id → id + count = 2097152 →
      (∀ c, 1540 ≤ c → c < id → m.store.bit c = true) → wp (allocFrom count id) Q E m by
    refine h _ _ (by simp) ?_ ?_
    · simp
    · intro c hc hlt
      simp only [dataStart_eq] at hlt
      omega
  intro count
  induction count with
  | zero =>
      intro id _ hEnd hAll
      refine hFull fun c hc => hAll c hc.1 ?_
      have := hc.2
      simp only [sb_nblocks] at this
      omega
  | succ count ih =>
      intro id hStart hEnd hAll
      have hlt : id < 2097152 := by omega
      simp only [allocFrom, wp_bind, wp_query, isFree_eq hlt]
      cases hBit : m.store.bit id with
      | false =>
          obtain ⟨m', hRun, hStore⟩ := markBit_eq (m := m) hlt
          simp only [Bool.not_false, if_true]
          rw [wp_bind]
          exact wp_of_ok hRun (hOk id m' ⟨hStart, hlt⟩ hBit (fun c hc => hAll c hc.1) hStore)
      | true =>
          simp only [Bool.not_true, Bool.false_eq_true, if_false]
          refine ih (id + 1) (by omega) (by omega) fun c hc hcid => ?_
          by_cases he : c = id
          · rw [he, hBit]
          · exact hAll c hc (by omega)

/-- Freeing a marked data block clears its bit and its contents. -/
theorem freeBlock_marked {m : Machine} {b : Nat} (h : IsData b) (hBit : m.store.bit b = true) :
    ∃ m', freeBlock b m = .ok () m' ∧
      m'.store = (m.store.unmark b).write b Block.zeros := by
  obtain ⟨m₁, hRun₁, hStore₁⟩ := unmarkBit_eq (m := m) h.2
  obtain ⟨m₂, hRun₂, hStore₂⟩ := writeBlock_data (m := m₁) (Or.inl h) Block.zeros
  refine ⟨m₂, ?_, by rw [hStore₂, hStore₁]⟩
  have hGt : b > iblock sb.ninodes sb.nblocks := h.1
  have hFree : isFree m b = .ok false := by rw [isFree_eq h.2, hBit]; rfl
  rw [freeBlock, if_pos hGt]
  simp only [bind, EStateM.bind, query, hFree, Bool.false_eq_true, if_false, hRun₁, hRun₂]

/-- Freeing a block that is already free changes nothing. -/
theorem freeBlock_unmarked {m : Machine} {b : Nat} (h : IsData b) (hBit : m.store.bit b = false) :
    freeBlock b m = .ok () m := by
  have hGt : b > iblock sb.ninodes sb.nblocks := h.1
  have hFree : isFree m b = .ok true := by rw [isFree_eq h.2, hBit]; rfl
  rw [freeBlock, if_pos hGt]
  simp only [bind, EStateM.bind, query, hFree, if_true]
  rfl

/-- An id below the data area is not freed. -/
theorem freeBlock_low {m : Machine} {b : Nat} (h : b < 1540) : freeBlock b m = .ok () m := by
  have hle : ¬b > iblock sb.ninodes sb.nblocks := by
    simp only [sb_ninodes, sb_nblocks, iblock_eq]
    omega
  rw [freeBlock, if_neg hle]
  rfl

theorem getInode_some {m : Machine} {i : Nat} (h : IsInum i) :
    getInode m i = .ok (some (m.store.inode i)) := by
  have hi := isInum_iff.mp h
  have hRange : ¬(i > inodeNum ∨ i < 1) := by simp only [inodeNum_eq]; omega
  have hRead : readBlock m (iblock i sb.nblocks) = .ok (m.disk (515 + i)) := by
    rw [sb_nblocks, iblock_eq]
    exact readBlock_ok (by omega)
  rw [getInode, if_neg hRange, hRead]
  simp only [Machine.store, h, if_true]
  rfl

theorem getInode_none {m : Machine} {i : Nat} (h : ¬IsInum i) : getInode m i = .ok none := by
  have hi : ¬(1 ≤ i ∧ i ≤ 1024) := h
  have hRange : i > inodeNum ∨ i < 1 := by simp only [inodeNum_eq]; omega
  rw [getInode, if_pos hRange]

theorem derefInode_ok {m : Machine} {i : Nat} (h : IsInum i) :
    derefInode m i = .ok (m.store.inode i) := by
  rw [derefInode, getInode_some h]
  rfl

theorem derefInode_null {m : Machine} {i : Nat} (h : ¬IsInum i) :
    derefInode m i = .error .segfault := by
  rw [derefInode, getInode_none h]
  rfl

theorem Store.isInum_of_alive {m : Machine} {i : Nat} (h : m.store.Alive i) : IsInum i := by
  by_contra hi
  simp [Store.Alive, Machine.store, hi] at h

theorem putInode_eq {m : Machine} {i : Nat} (h : IsInum i) (ino : Inode) :
    ∃ m', putInode i ino m = .ok () m' ∧ m'.store = m.store.putInode i ino := by
  have hi := isInum_iff.mp h
  have hRange : ¬(i > inodeNum ∨ i < 1) := by simp only [inodeNum_eq]; omega
  have hRead : readBlock m (515 + i) = .ok (m.disk (515 + i)) := readBlock_ok (by omega)
  refine ⟨m.setBlock (515 + i) ((m.disk (515 + i)).overlay ino.encode), ?_, ?_⟩
  · rw [putInode, if_neg hRange, sb_nblocks, iblock_eq]
    simp only [bind, EStateM.bind, query, hRead]
    exact writeBlock_ok (by omega) _
  apply Store.ext
  · funext b
    by_cases hb : b < 2097152
    · have hne : b / 4096 + 2 ≠ 515 + i := by omega
      simp [Machine.store, rawBit, hne]
    · simp [Machine.store, hb]
  · funext j
    by_cases hj : j = i
    · subst hj
      simp [Machine.store, h, Block.overlay_bytes _ (show ino.encode.length ≤ blockSize by
        simp [Inode.encode_length]), Inode.decode_encode]
    · simp [Machine.store, hj]
  · funext c
    by_cases hc : Visible c
    · have hne : c ≠ 515 + i := by
        have hRange : (1540 ≤ c ∧ c < 2097152) ∨ c < 2 := hc
        omega
      simp [Machine.store, hne]
    · simp [Machine.store, hc]

section Queries

variable {m : Machine} {i b : Nat} {E : Stop → Machine → Prop}

theorem wp_getInode {Q : Option Inode → Machine → Prop} (h : IsInum i) :
    wp (query (getInode · i)) Q E m ↔ Q (some (m.store.inode i)) m :=
  wp_query_ok (f := (getInode · i)) (getInode_some h)

theorem wp_derefInode {Q : Inode → Machine → Prop} (h : IsInum i) :
    wp (query (derefInode · i)) Q E m ↔ Q (m.store.inode i) m :=
  wp_query_ok (f := (derefInode · i)) (derefInode_ok h)

theorem wp_readBlock {Q : Block → Machine → Prop} (h : Visible b) :
    wp (query (readBlock · b)) Q E m ↔ Q (m.store.data b) m :=
  wp_query_ok (f := (readBlock · b)) (readBlock_data h)

end Queries

theorem wp_time {m : Machine} {Q : UInt32 → Machine → Prop} {E : Stop → Machine → Prop}
    (h : ∀ t m', m'.store = m.store → Q t m') : wp time Q E m :=
  h _ _ (Machine.store_congr rfl)

/-- The search stops at the first inode of type 0. With a full table it goes
on to id 1025 and dereferences a null pointer. -/
theorem findFreeInode_eq (m : Machine) :
    (∃ i, IsInum i ∧ ¬m.store.Alive i ∧ (∀ j, IsInum j → j < i → m.store.Alive j) ∧
      findFreeInode m = .ok i) ∨
    ((∀ j, IsInum j → m.store.Alive j) ∧ findFreeInode m = .error .segfault) := by
  suffices h : ∀ count id, 1 ≤ id → id ≤ 1025 → id + count = 2097153 →
      (∀ j, 1 ≤ j → j < id → m.store.Alive j) →
      (∃ i, IsInum i ∧ ¬m.store.Alive i ∧ (∀ j, IsInum j → j < i → m.store.Alive j) ∧
        findFreeFrom m count id = .ok i) ∨
      ((∀ j, IsInum j → m.store.Alive j) ∧ findFreeFrom m count id = .error .segfault) by
    refine h sb.nblocks 1 (by omega) (by omega) (by simp) fun j h₁ h₂ => ?_
    omega
  intro count
  induction count with
  | zero =>
      intro id _ hle hEnd _
      omega
  | succ count ih =>
      intro id hStart hle hEnd hAll
      by_cases hid : IsInum id
      · rw [findFreeFrom, derefInode_ok hid]
        by_cases hAlive : m.store.Alive id
        · have hType : (m.store.inode id).type ≠ 0 := hAlive
          have hLast := isInum_iff.mp hid
          simp only [bind, Except.bind, hType, if_false]
          refine ih (id + 1) (by omega) (by omega) (by omega) fun j h₁ h₂ => ?_
          by_cases he : j = id
          · rwa [he]
          · exact hAll j h₁ (by omega)
        · have hType : (m.store.inode id).type = 0 := not_not.mp hAlive
          refine Or.inl ⟨id, hid, hAlive, fun j hj => hAll j (isInum_iff.mp hj).1, ?_⟩
          simp only [bind, Except.bind, hType, if_true]
          rfl
      · have hLast : ¬(1 ≤ id ∧ id ≤ 1024) := hid
        refine Or.inr ⟨fun j hj => hAll j (isInum_iff.mp hj).1 ?_, ?_⟩
        · have := isInum_iff.mp hj
          omega
        · rw [findFreeFrom, derefInode_null hid]
          rfl

/-- A newly allocated inode: empty, with one time in all three stamps. -/
def freshInode (type : FileType) (now : UInt32) : Inode :=
  { Inode.cleared with
    type := UInt16.ofNat type.code, atime := now, mtime := now, ctime := now }

theorem FileType.code_toUInt16_ne_zero (type : FileType) : UInt16.ofNat type.code ≠ 0 := by
  cases type <;> decide

theorem freshInode_slot (type : FileType) (now : UInt32) (k : Nat) :
    (freshInode type now).slot k = 0 := Inode.cleared_slot k

theorem freshInode_size (type : FileType) (now : UInt32) : (freshInode type now).size = 0 := rfl

theorem freshInode_type (type : FileType) (now : UInt32) :
    (freshInode type now).type = UInt16.ofNat type.code := rfl

/-- `alloc_inode` for a valid type takes the first free inode, or ends the
process when there is none. -/
theorem wp_allocInode {m : Machine} {Q : Nat → Machine → Prop} {E : Stop → Machine → Prop}
    (type : FileType)
    (hOk : ∀ i now m', IsInum i → ¬m.store.Alive i →
      (∀ j, IsInum j → j < i → m.store.Alive j) →
      m'.store = m.store.putInode i (freshInode type now) → Q i m')
    (hFull : (∀ j, IsInum j → m.store.Alive j) → E .segfault m) :
    wp (allocInode type.code) Q E m := by
  have hValid : ¬(type.code ≠ FileType.T_DIR.code ∧ type.code ≠ FileType.T_FILE.code ∧
      type.code ≠ FileType.T_LNK.code) := by cases type <;> decide
  rw [allocInode, if_neg hValid, wp_bind, wp_query]
  rcases findFreeInode_eq m with ⟨i, hi, hDead, hFirst, hFind⟩ | ⟨hAll, hFind⟩
  · have hne : i ≠ 0 := by
      have := isInum_iff.mp hi
      omega
    rw [hFind]
    simp only [hne, if_false]
    rw [wp_bind]
    refine wp_time fun now m₁ hm₁ => ?_
    obtain ⟨m₂, hRun, hStore⟩ := putInode_eq (m := m₁) hi (freshInode type now)
    rw [wp_bind]
    exact wp_of_ok hRun (hOk i now m₂ hi hDead hFirst (by rw [hStore, hm₁]))
  · rw [hFind]
    exact hFull hAll

theorem freeInode_eq {m : Machine} {i : Nat} (h : m.store.Alive i) :
    ∃ m', freeInode i m = .ok () m' ∧ m'.store = m.store.putInode i Inode.cleared := by
  have hi := Store.isInum_of_alive h
  have hType : (m.store.inode i).type ≠ 0 := h
  obtain ⟨m', hRun, hStore⟩ := putInode_eq (m := m) hi Inode.cleared
  refine ⟨m', ?_, hStore⟩
  simp only [freeInode, bind, EStateM.bind, query, derefInode_ok hi, hType, ne_eq, not_false_eq_true,
    if_true, hRun]

end InodeFS
