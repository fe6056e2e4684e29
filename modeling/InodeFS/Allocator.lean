import InodeFS.Session

/-! Runs of the block allocator from a fresh `block_manager`. The bitmap is the
set of the ids which were handed out and not freed since. -/
namespace InodeFS

open Exec Store Transition

namespace BlockManager

/-- A call of `alloc_block` or `free_block`. The second component are the ids handed out and
not freed since. An id that is freed was handed out before, or is free, or lies below the
data area. -/
inductive Step : Machine × Set Nat → Machine × Set Nat → Prop where
  | alloc {m m' : Machine} {out : Set Nat} {id : Nat} (hRun : allocBlock m = .ok id m') :
      Step (m, out) (m', if id = 0 then out else insert id out)
  | free {m m' : Machine} {out : Set Nat} {id : Nat} (hId : id < sb.nblocks)
      (hRun : freeBlock id m = .ok () m') : Step (m, out) (m', out \ {id})

/-- Such calls in any order, from a fresh `block_manager`. -/
def Run (clock : Nat → UInt32) (m : Machine) (out : Set Nat) : Prop :=
  Reach (fun s => s = (Machine.zeroed clock, ∅)) Step (m, out)

/-- What a call on block `id` leaves alone: every other bit, the contents of
every other data block, and every inode. -/
structure Frame (m m' : Machine) (id : Nat) : Prop where
  bit : ∀ b < sb.nblocks, b ≠ id → isFree m' b = isFree m b
  data : ∀ b, IsData b → b ≠ id → readBlock m' b = readBlock m b
  inode : ∀ i, getInode m' i = getInode m i

variable {clock : Nat → UInt32} {m m' : Machine} {out : Set Nat} {id : Nat}

theorem isFree_congr (h : m'.store.bit id = m.store.bit id) (hId : id < sb.nblocks) :
    isFree m' id = isFree m id := by
  rw [isFree_eq hId, isFree_eq hId, h]

theorem readBlock_congr (h : m'.store.data id = m.store.data id) (hId : IsData id) :
    readBlock m' id = readBlock m id := by
  rw [readBlock_data (Or.inl hId), readBlock_data (Or.inl hId), h]

theorem getInode_congr (h : m'.store.inode = m.store.inode) (i : Nat) :
    getInode m' i = getInode m i := by
  by_cases hi : IsInum i
  · rw [getInode_some hi, getInode_some hi, h]
  · rw [getInode_none hi, getInode_none hi]

theorem frame_of_store (hBit : ∀ b, b ≠ id → m'.store.bit b = m.store.bit b)
    (hData : ∀ b, b ≠ id → m'.store.data b = m.store.data b)
    (hInode : m'.store.inode = m.store.inode) : Frame m m' id where
  bit b hb hne := isFree_congr (hBit b hne) hb
  data b hb hne := readBlock_congr (hData b hne) hb
  inode := getInode_congr hInode

theorem isFree_false_iff (h : id < sb.nblocks) :
    isFree m id = .ok false ↔ m.store.bit id = true := by
  rw [isFree_eq h, Except.ok.injEq, Bool.not_eq_false']

/-- What one call of `alloc_block` does, in any state. -/
theorem alloc_spec (m : Machine) :
    (∃ id m', allocBlock m = .ok id m' ∧ IsLeast {b | IsData b ∧ b ∉ m.store.Marked} id ∧
      m'.store = m.store.mark id) ∨
    ((∀ b, IsData b → b ∈ m.store.Marked) ∧ allocBlock m = .ok 0 m) := by
  have hCall : wp allocBlock (fun id m' =>
      (IsLeast {b | IsData b ∧ b ∉ m.store.Marked} id ∧ m'.store = m.store.mark id) ∨
      ((∀ b, IsData b → b ∈ m.store.Marked) ∧ id = 0 ∧ m' = m)) (fun _ _ => False) m := by
    apply wp_allocBlock
    · intro id m' hData hFree hFirst hStore
      refine Or.inl ⟨⟨⟨hData, fun hMem => ?_⟩, fun b hb => ?_⟩, hStore⟩
      · simp [hMem.2] at hFree
      · by_contra hLt
        exact hb.2 ⟨hb.1, hFirst b hb.1 (by omega)⟩
    · intro hFull
      exact Or.inr ⟨fun b hb => ⟨hb, hFull b hb⟩, rfl, rfl⟩
  obtain ⟨id, m', hRun, hPost⟩ := exists_ok_of_wp hCall
  rcases hPost with ⟨hLeast, hStore⟩ | ⟨hFull, rfl, rfl⟩
  · exact Or.inl ⟨id, m', hRun, hLeast, hStore⟩
  · exact Or.inr ⟨hFull, hRun⟩

theorem marked_mark (σ : Store) (h : IsData id) : (σ.mark id).Marked = insert id σ.Marked := by
  ext b
  by_cases hb : b = id
  · simp [Marked, hb, h]
  · simp [Marked, hb]

theorem marked_unmark (σ : Store) (buf : Block) :
    ((σ.unmark id).write id buf).Marked = σ.Marked \ {id} := by
  ext b
  by_cases hb : b = id
  · simp [Marked, hb]
  · simp [Marked, hb]

/-- An id that is not outstanding is free or lies below the data area. -/
theorem freeBlock_idle (hId : id < sb.nblocks) (h : id ∉ m.store.Marked) :
    freeBlock id m = .ok () m := by
  by_cases hLow : id < dataStart
  · exact freeBlock_low hLow
  · have hData : IsData id := ⟨Nat.le_of_not_lt hLow, hId⟩
    cases hBit : m.store.bit id with
    | false => exact freeBlock_unmarked hData hBit
    | true => exact (h ⟨hData, hBit⟩).elim

theorem Step.marked {s s' : Machine × Set Nat} (hStep : Step s s') (h : s.1.store.Marked = s.2) :
    s'.1.store.Marked = s'.2 := by
  cases hStep with
  | @alloc m m' out id hRun =>
      rcases alloc_spec m with ⟨id', m₁, hCall, hLeast, hStore⟩ | ⟨-, hCall⟩
      · obtain ⟨rfl, rfl⟩ := EStateM.Result.ok.inj (hCall.symm.trans hRun)
        have hRange := isData_iff.mp hLeast.1.1
        rw [hStore, marked_mark _ hLeast.1.1, h, if_neg (by omega)]
      · obtain ⟨rfl, rfl⟩ := EStateM.Result.ok.inj (hCall.symm.trans hRun)
        rw [if_pos rfl, h]
  | @free m m' out id hId hRun =>
      by_cases hOut : id ∈ m.store.Marked
      · obtain ⟨m₁, hCall, hStore⟩ := freeBlock_marked hOut.1 hOut.2
        obtain ⟨-, rfl⟩ := EStateM.Result.ok.inj (hCall.symm.trans hRun)
        rw [hStore, marked_unmark, h]
      · obtain ⟨-, rfl⟩ := EStateM.Result.ok.inj ((freeBlock_idle hId hOut).symm.trans hRun)
        rw [h] at hOut
        rw [h, Set.sdiff_singleton_eq_self hOut]

/-- The bitmap is the set of the outstanding ids. -/
theorem Run.marked (hRun : Run clock m out) : m.store.Marked = out := by
  refine Reach.invariant (I := fun s => s.1.store.Marked = s.2) hRun ?_ fun _ _ h hStep => hStep.marked h
  rintro _ rfl
  rw [zeroed_store]
  exact Set.eq_empty_of_forall_notMem fun b hb => Bool.false_ne_true hb.2

theorem Run.exists_alloc (hRun : Run clock m out) (hLeast : IsLeast {b | IsData b ∧ b ∉ out} id) :
    ∃ m', allocBlock m = .ok id m' ∧ Run clock m' (insert id out) := by
  have hRange := isData_iff.mp hLeast.1.1
  rcases alloc_spec m with ⟨id', m', hCall, hFirst, -⟩ | ⟨hFull, -⟩
  · rw [hRun.marked] at hFirst
    obtain rfl := hFirst.unique hLeast
    have hNext := Reach.next hRun (.alloc hCall)
    rw [if_neg (by omega)] at hNext
    exact ⟨m', hCall, hNext⟩
  · exact absurd (hRun.marked ▸ hFull id hLeast.1.1) hLeast.1.2

theorem Run.exists_free (hRun : Run clock m out) (hOut : id ∈ out) :
    ∃ m', freeBlock id m = .ok () m' ∧ Run clock m' (out \ {id}) := by
  have hMarked : id ∈ m.store.Marked := hRun.marked ▸ hOut
  obtain ⟨m', hCall, -⟩ := freeBlock_marked hMarked.1 hMarked.2
  exact ⟨m', hCall, Reach.next hRun (.free hMarked.1.2 hCall)⟩

/-- In every state of a run the bitmap is the set of the outstanding ids.
`alloc_block` returns the smallest other id, `free_block` takes back exactly an
outstanding id, and neither touches anything else. -/
theorem allocator (hRun : Run clock m out) :
    {b | IsData b ∧ isFree m b = .ok false} = out ∧
    ((∃ id m', allocBlock m = .ok id m' ∧ IsLeast {b | IsData b ∧ b ∉ out} id ∧
        isFree m' id = .ok false ∧ readBlock m' id = readBlock m id ∧ Frame m m' id) ∨
      ((∀ b, IsData b → b ∈ out) ∧ allocBlock m = .ok 0 m)) ∧
    (∀ id ∈ out, ∃ m', freeBlock id m = .ok () m' ∧ isFree m' id = .ok true ∧
      readBlock m' id = .ok Block.zeros ∧ Frame m m' id) ∧
    (∀ id < sb.nblocks, id ∉ out → freeBlock id m = .ok () m) ∧
    ∀ (m₀ : Machine) (i : Nat) (ino : Inode), IsInum i → ∃ m', putInode i ino m₀ = .ok () m' ∧
      (∀ b < sb.nblocks, isFree m' b = isFree m₀ b) ∧
      ∀ b, IsData b → readBlock m' b = readBlock m₀ b := by
  have hMarked := hRun.marked
  refine ⟨?_, ?_, fun id hOut => ?_, fun id hId hOut => ?_, fun m₀ i ino hi => ?_⟩
  · rw [← hMarked]
    ext b
    exact and_congr_right fun hData => isFree_false_iff hData.2
  · rw [← hMarked]
    rcases alloc_spec m with ⟨id, m', hCall, hLeast, hStore⟩ | hFull
    · refine Or.inl ⟨id, m', hCall, hLeast, ?_, ?_, frame_of_store ?_ ?_ ?_⟩
      · rw [isFree_false_iff hLeast.1.1.2, hStore]
        simp
      · exact readBlock_congr (by rw [hStore]; rfl) hLeast.1.1
      · intro b hne
        rw [hStore, mark_bit, if_neg hne]
      · intro b _
        rw [hStore]
        rfl
      · rw [hStore]
        rfl
    · exact Or.inr hFull
  · rw [← hMarked] at hOut
    obtain ⟨m', hCall, hStore⟩ := freeBlock_marked hOut.1 hOut.2
    refine ⟨m', hCall, ?_, ?_, frame_of_store ?_ ?_ ?_⟩
    · rw [isFree_eq hOut.1.2, hStore]
      simp
    · rw [readBlock_data (Or.inl hOut.1), hStore]
      simp
    · intro b hne
      rw [hStore, write_bit, unmark_bit, if_neg hne]
    · intro b hne
      rw [hStore, write_data, if_neg hne]
      rfl
    · rw [hStore]
      rfl
  · exact freeBlock_idle hId (hMarked ▸ hOut)
  · obtain ⟨m', hCall, hStore⟩ := putInode_eq (m := m₀) hi ino
    refine ⟨m', hCall, fun b hb => isFree_congr ?_ hb, fun b hb => readBlock_congr ?_ hb⟩
    · rw [hStore]
      rfl
    · rw [hStore]
      rfl

/-- Two ids are handed out, the first one is freed and handed out again, and the second
one is free after a call that takes it back. -/
theorem allocator_again : ∃ m₁ m₂ m₃ m₄ m₅, allocBlock (Machine.zeroed fun _ => 0) = .ok 1540 m₁ ∧
    allocBlock m₁ = .ok 1541 m₂ ∧ freeBlock 1540 m₂ = .ok () m₃ ∧
    {b | IsData b ∧ isFree m₃ b = .ok false} = {1541} ∧
    allocBlock m₃ = .ok 1540 m₄ ∧ isFree m₄ 1540 = .ok false ∧ Frame m₃ m₄ 1540 ∧
    freeBlock 1541 m₃ = .ok () m₅ ∧ isFree m₅ 1541 = .ok true ∧ Frame m₃ m₅ 1541 ∧
    freeBlock 1540 m₃ = .ok () m₃ := by
  have hStart : Run (fun _ => 0) (Machine.zeroed fun _ => 0) ∅ := Reach.start rfl
  have hLeast : IsLeast {b | IsData b ∧ b ∉ (∅ : Set Nat)} 1540 :=
    ⟨⟨isData_iff.mpr (by omega), Set.notMem_empty _⟩, fun b hb => (isData_iff.mp hb.1).1⟩
  obtain ⟨m₁, hFirst, hRun₁⟩ := hStart.exists_alloc hLeast
  have hLeast₁ : IsLeast {b | IsData b ∧ b ∉ insert 1540 (∅ : Set Nat)} 1541 := by
    refine ⟨⟨isData_iff.mpr (by omega), by simp⟩, fun b hb => ?_⟩
    have hRange := isData_iff.mp hb.1
    have hne : b ≠ 1540 := fun he => hb.2 (Or.inl he)
    omega
  obtain ⟨m₂, hSecond, hRun₂⟩ := hRun₁.exists_alloc hLeast₁
  obtain ⟨m₃, hFree, hRun₃⟩ := hRun₂.exists_free (Or.inr (Or.inl rfl))
  have hOut : insert 1541 (insert 1540 (∅ : Set Nat)) \ {1540} = {1541} := by
    ext b
    simp
  rw [hOut] at hRun₃
  obtain ⟨hMarked, hAlloc, hTake, hIdle, -⟩ := allocator hRun₃
  have hLeast₃ : IsLeast {b | IsData b ∧ b ∉ ({1541} : Set Nat)} 1540 :=
    ⟨⟨isData_iff.mpr (by omega), by simp⟩, fun b hb => (isData_iff.mp hb.1).1⟩
  obtain ⟨m₅, hBack, hBit, -, hFrame⟩ := hTake 1541 rfl
  rcases hAlloc with ⟨id, m₄, hAgain, hId, hBit₄, -, hFrame₄⟩ | ⟨hFull, -⟩
  · obtain rfl := hId.unique hLeast₃
    exact ⟨m₁, m₂, m₃, m₄, m₅, hFirst, hSecond, hFree, hMarked, hAgain, hBit₄, hFrame₄, hBack, hBit,
      hFrame, hIdle 1540 (by decide) (by simp)⟩
  · exact absurd (hFull 1540 hLeast₃.1.1) hLeast₃.1.2

end BlockManager
end InodeFS
