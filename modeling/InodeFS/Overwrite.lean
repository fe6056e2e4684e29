import InodeFS.FileSize
import InodeFS.Client
import InodeFS.Library.Invariant

/-! `write` of `chfs_client` on any disk. The file is emptied first, then the new string is
built, and then `put` is called. -/
namespace InodeFS

open Bytes Exec Store

/-- An exception, which a caller can catch. All other stops end the process. -/
def Stop.Thrown (e : Stop) : Prop := e = .badAlloc ∨ e = .lengthError

section Sizes

variable {m : Machine} {α : Type}

/-- Reading the disk throws nothing. -/
abbrev Unthrown (r : Except Stop α) : Prop := Yields (fun e => ¬e.Thrown) r fun _ => True

theorem unthrown_readBlock (m : Machine) (b : Nat) : Unthrown (readBlock m b) := by
  unfold readBlock
  split
  · exact Yields.pure trivial
  · exact Yields.throw (by simp [Stop.Thrown])

theorem unthrown_derefInode (m : Machine) (i : Nat) : Unthrown (derefInode m i) := by
  by_cases hInum : IsInum i
  · rw [derefInode_ok hInum]
    exact Yields.pure trivial
  · rw [derefInode, getInode_none hInum]
    exact Yields.throw (by simp [Stop.Thrown])

theorem unthrown_getFileSize (m : Machine) (stack i : Nat) : Unthrown (getFileSize m stack i) := by
  induction stack generalizing i with
  | zero => exact Yields.throw (by simp [Stop.Thrown])
  | succ stack ih =>
      refine (unthrown_derefInode m i).bind fun ino _ => ?_
      dsimp only
      split
      · exact Yields.pure trivial
      · split
        · refine Yields.bind (?_ : Unthrown _) fun _ _ => Yields.pure trivial
          exact (unthrown_readBlock m _).bind fun _ _ => Yields.pure trivial
        · refine Yields.bind (?_ : Unthrown _) fun _ _ => Yields.pure trivial
          unfold mapChildren
          split
          · refine (unthrown_readBlock m _).bind fun _ _ => ?_
            exact (Yields.mapM fun c _ => ih c).mono fun _ _ => trivial
          · exact Yields.pure trivial

/-- An inode without blocks holds the empty string. -/
theorem readFile_empty {stack i : Nat} (hInum : IsInum i) (hSize : m.store.size i = 0) :
    readFile m (stack + 1) i = .ok [] := by
  have hZero : (m.store.inode i).size.toNat = 0 := hSize
  simp only [readFile, getInode_some hInum, readDirect, mapChildren, hZero, Nat.zero_min, List.range_zero,
    List.mapM_nil, bind, Except.bind, pure, Except.pure]
  rfl

theorem getFileSize_empty {stack i : Nat} (hInum : IsInum i) (hSize : m.store.size i = 0) :
    getFileSize m (stack + 1) i = .ok 0 := by
  rw [getFileSize, derefInode_ok hInum]
  exact if_pos hSize

end Sizes

namespace ChfsClient

section Programs

variable {m : Machine} {f stack off size : Nat} {c data : List Byte}

/-- What a file holds after a write: zeros up to the end of the data, and the data
in place. -/
def written (c : List Byte) (off : Nat) (data : List Byte) : List Byte :=
  (padTo (max c.length (off + data.length)) c).take off ++ data ++
    (padTo (max c.length (off + data.length)) c).drop (off + data.length)

theorem written_length (c : List Byte) (off : Nat) (data : List Byte) :
    (written c off data).length = max c.length (off + data.length) := by
  rw [written, List.length_append, List.length_append, List.length_take, List.length_drop,
    padTo_length]
  omega

theorem written_nil (data : List Byte) : written [] 0 data = data := by
  have hDrop : (padTo (max ([] : List Byte).length (0 + data.length)) []).drop (0 + data.length) = [] :=
    List.drop_eq_nil_of_le (by rw [padTo_length, List.length_nil]; omega)
  rw [written, hDrop, List.take_zero, List.nil_append, List.append_nil]

/-- Behind the end the gap is filled with zeros. -/
theorem written_behind {c : List Byte} (h : c.length ≤ off) (data : List Byte) :
    written c off data = c ++ List.replicate (off - c.length) 0 ++ data := by
  have hSplit : padTo (off + data.length) c =
      c ++ List.replicate (off - c.length) 0 ++ List.replicate data.length 0 := by
    rw [padTo_of_length_le (by omega), Nat.sub_add_comm h, List.replicate_add, List.append_assoc]
  have hFront : (c ++ List.replicate (off - c.length) 0).length = off := by
    rw [List.length_append, List.length_replicate]
    omega
  rw [written, Nat.max_eq_right (by omega), hSplit, List.take_left' hFront, List.drop_eq_nil_of_le,
    List.append_nil]
  rw [List.length_append, hFront, List.length_replicate]

/-- The string is extended only when the data ends behind it. -/
theorem overwrite_eq (c : List Byte) (hEnd : off + data.length < 2 ^ 32) :
    overwrite c off data = .ok (written c off data) := by
  rw [overwrite, written]
  split_ifs with hMore
  · have hFits : off + data.length ≤ maxStringSize := hEnd.le.trans (by decide)
    rw [resize, if_pos hFits, Nat.max_eq_right (by omega)]
    exact if_pos hEnd
  · rw [Nat.max_eq_left (by omega), padTo_of_length_eq rfl]
    exact if_pos hEnd

/-- From 2^32 on there is no new string. -/
theorem overwrite_far (c : List Byte) (hFar : 2 ^ 32 ≤ off + data.length) :
    ∃ e, overwrite c off data = .error e ∧
      (e.Thrown ↔ c.length < off + data.length ∧ maxStringSize < off + data.length) := by
  have hLoop : ∀ str, ∃ e, copyLoop str off data = .error e ∧ ¬e.Thrown := by
    intro str
    rw [copyLoop, if_neg (Nat.not_lt.mpr hFar)]
    by_cases hZero : off = 0
    · exact ⟨.endlessLoop, if_pos hZero, by simp [Stop.Thrown]⟩
    · exact ⟨.wildRead, if_neg hZero, by simp [Stop.Thrown]⟩
  rw [overwrite]
  by_cases hMore : off + data.length > c.length
  · rw [if_pos hMore, resize]
    by_cases hFits : off + data.length ≤ maxStringSize
    · obtain ⟨e, hError, hNot⟩ := hLoop (padTo (off + data.length) c)
      rw [if_pos hFits]
      exact ⟨e, hError, iff_of_false hNot fun hLong => by omega⟩
    · rw [if_neg hFits]
      exact ⟨.lengthError, rfl, iff_of_true (Or.inr rfl) ⟨hMore, by omega⟩⟩
  · obtain ⟨e, hError, hNot⟩ := hLoop c
    rw [if_neg hMore]
    exact ⟨e, hError, iff_of_false hNot fun hLong => hMore hLong.1⟩

theorem overwrite_ne_badAlloc : overwrite c off data ≠ .error .badAlloc := by
  have hLoop : ∀ str, copyLoop str off data ≠ .error .badAlloc := by
    intro str
    rw [copyLoop]
    split_ifs <;> simp
  rw [overwrite, resize]
  split_ifs
  · exact hLoop _
  · simp [bind, Except.bind]
  · exact hLoop c

/-- The disk after `set_attr` to 0: the file keeps its slots, and no longer uses them. A
file whose computed size is 0 stays as it is. -/
def Emptied (σ σ₁ : Store) (f size : Nat) : Prop :=
  if size = 0 then σ₁ = σ else ∃ now, σ₁ = σ.putInode f (resized (σ.inode f) 0 now)

theorem Emptied.cases {σ σ₁ : Store} (h : Emptied σ σ₁ f size) :
    size = 0 ∧ σ₁ = σ ∨ ∃ now, σ₁ = σ.putInode f (resized (σ.inode f) 0 now) := by
  by_cases hZero : size = 0
  · exact Or.inl ⟨hZero, by rwa [Emptied, if_pos hZero] at h⟩
  · exact Or.inr (by rwa [Emptied, if_neg hZero] at h)

theorem Emptied.alive {σ σ₁ : Store} (h : Emptied σ σ₁ f size) (i : Nat) :
    σ₁.Alive i ↔ σ.Alive i := by
  obtain ⟨-, rfl⟩ | ⟨now, rfl⟩ := h.cases
  · exact Iff.rfl
  · exact alive_putInode_iff (rfl : (resized (σ.inode f) 0 now).type = _) i

theorem Emptied.bit {σ σ₁ : Store} (h : Emptied σ σ₁ f size) : σ₁.bit = σ.bit := by
  obtain ⟨-, rfl⟩ | ⟨now, rfl⟩ := h.cases
  · rfl
  · rfl

theorem Emptied.size_eq {σ σ₁ : Store} (h : Emptied σ σ₁ f size) (hSize : size = 0 → σ.size f = 0) :
    σ₁.size f = 0 := by
  obtain ⟨hZero, rfl⟩ | ⟨now, rfl⟩ := h.cases
  · exact hSize hZero
  · exact size_putInode_self.trans (resized_size _ 0 now)

theorem wp_setAttr_empty (hInum : IsInum f) (hSize : getFileSize m stack f = .ok size) :
    wp (ExtentServer.setAttr stack f 0) (fun _ m' => Emptied m.store m'.store f size)
      (fun _ _ => False) m := by
  have hRange := isInum_iff.mp hInum
  cases stack with
  | zero => cases hSize
  | succ d =>
  rw [ExtentServer.setAttr, Nat.mod_eq_of_lt (by omega), setAttr, wp_bind,
    wp_query_ok (f := (getFileSize · (d + 1) f)) hSize, if_neg (Nat.not_lt_zero _)]
  split_ifs with hPos
  · have hNone : blocksFor 0 % 2 ^ 32 = 0 := rfl
    rw [paddingFile, wp_bind, wp_derefInode hInum]
    simp only [hNone, Nat.zero_min, List.range_zero, List.foldlM_nil]
    rw [wp_bind, wp_pure, wp_bind, padIndirect, if_neg (Nat.not_lt_zero _), wp_pure, wp_bind]
    refine wp_time fun now m₁ hm₁ => ?_
    obtain ⟨m₂, hRun, hStore⟩ := putInode_eq (m := m₁) hInum (resized (m.store.inode f) 0 now)
    rw [hm₁] at hStore
    refine wp_of_ok hRun ?_
    rw [Emptied, if_neg (by omega), hStore]
    exact ⟨now, rfl⟩
  · have hZero : size = 0 := by omega
    rw [wp_pure, Emptied, if_pos hZero]

/-- What `write` does to any file. A length that is negative as an `int` stores nothing. -/
theorem wp_write (hAlive : m.store.Alive f) (hStack : maxDepth < stack)
    (hGet : ExtentServer.get m stack f = .ok c) (hSize : getFileSize m stack f = .ok size)
    (off : Nat) (data : List Byte) :
    wp (write stack f off data)
      (fun r m' => r = (.OK, data.length) ∧ off + data.length < 2 ^ 32 ∧
        ∃ σ₁, Emptied m.store σ₁ f size ∧
          if toInt (written c off data).length < 0 then m'.store = σ₁ else
          ∃ σ₂ new inodes, m'.store = σ₂.putInode f new ∧
            Placed σ₁ σ₂ f ((written c off data).take (toInt (written c off data).length).toNat)
              new inodes)
      (fun e m' => ∃ σ₁, Emptied m.store σ₁ f size ∧
        (m'.store = σ₁ ∧ overwrite c off data = .error e ∨
          off + data.length < 2 ^ 32 ∧
            Failed σ₁ m'.store (toInt (written c off data).length).toNat 0 0 e)) m := by
  have hInum := isInum_of_alive hAlive
  rw [write, wp_bind, wp_query_ok (f := (ExtentServer.get · stack f)) hGet, setattr, wp_bind, wp_bind]
  refine wp_mono (wp_setAttr_empty hInum hSize) (fun _ m₁ hEmptied => ?_) fun _ _ hFalse => hFalse.elim
  rw [wp_pure, wp_bind, wp_query]
  by_cases hLoop : off + data.length < 2 ^ 32
  · simp only [overwrite_eq c hLoop]
    generalize written c off data = str
    rw [wp_bind, ExtentServer.put, ExtentServer.maskId_of_isInum hInum]
    obtain ⟨d, rfl⟩ : ∃ d, stack = d + 1 := ⟨stack - 1, by omega⟩
    by_cases hNeg : toInt str.length < 0
    · rw [writeFile, if_pos hNeg, wp_pure, wp_pure]
      exact ⟨rfl, hLoop, m₁.store, hEmptied, by rw [if_pos hNeg]⟩
    · obtain ⟨hLe, hLt⟩ := ExtentServer.toInt_toNat_le str.length
      have hDepth := levels_lt_maxDepth hLt
      have hWrite := wp_writeFile_step (wp_writeFile d) ((hEmptied.alive f).mpr hAlive) hLe (by omega)
        hDepth
      rw [Int.toNat_of_nonneg (Int.not_lt.mp hNeg)] at hWrite
      refine wp_mono hWrite (fun _ m' hPost => ?_) fun e m' hFail =>
        ⟨m₁.store, hEmptied, Or.inr ⟨hLoop, hFail⟩⟩
      obtain ⟨σ₂, new, inodes, hPlaced, hStore⟩ := hPost
      refine ⟨rfl, hLoop, m₁.store, hEmptied, ?_⟩
      rw [if_neg hNeg]
      exact ⟨σ₂, new, inodes, hStore, hPlaced⟩
  · obtain ⟨e, hError, -⟩ := overwrite_far c (Nat.le_of_not_lt hLoop)
    simp only [hError]
    exact ⟨m₁.store, hEmptied, Or.inl ⟨rfl, trivial⟩⟩

end Programs

end ChfsClient
end InodeFS
