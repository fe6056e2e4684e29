import InodeFS.ChildSizes
import InodeFS.Volume

/-! The children in block 0 when some of them may be empty. A child that lost its last
entry is freed and stays listed, so its inode can come back as a file or a directory. -/
namespace InodeFS

open Bytes Exec Paging Store

namespace Store

variable {σ σ' : Store} {X : Set Nat} {C D : List Nat} {s l : List Entry} {p c : Nat}

/-- The children `C` hold the entries `s` page by page. The children `D` behind them hold
nothing, and may be in use or not. -/
structure BlankChildren (σ : Store) (C D : List Nat) (s : List Entry) : Prop where
  childSizes : σ.ChildSizes C D s.length
  child : ∀ j (hj : j < C.length), σ.Row C[j] (page 100 s j) false
  blank : ∀ d ∈ D, ∀ k, σ.slot d k = 0

theorem ChildEntries.blankChildren (h : σ.ChildEntries C s) : σ.BlankChildren C [] s :=
  ⟨h.childSizes, h.child, fun _ hd => absurd hd List.not_mem_nil⟩

namespace BlankChildren

theorem childEntries (h : σ.BlankChildren C [] s) : σ.ChildEntries C s where
  table := by
    have hTable := h.childSizes.table
    rwa [List.append_nil] at hTable
  nodup := by
    have hNodup := h.childSizes.nodup
    rwa [List.append_nil] at hNodup
  count := h.childSizes.count
  child := h.child

theorem mem (h : σ.BlankChildren C D s) (hc : c ∈ C) : ∃ l, σ.Row c l false := by
  obtain ⟨j, hj, rfl⟩ := List.getElem_of_mem hc
  exact ⟨_, h.child j hj⟩

/-- The slots of the children in order. -/
theorem holds (h : σ.BlankChildren C D s) {t : Nat} (ht : t < s.length) (hj : t / 100 < C.length) :
    IsData (σ.slot C[t / 100] (t % 100)) ∧ σ.bit (σ.slot C[t / 100] (t % 100)) = true ∧
      entryOf (σ.data (σ.slot C[t / 100] (t % 100))) = s[t] := by
  have hLength : t % 100 < (page 100 s (t / 100)).length := by
    rw [page_length]
    omega
  have hGet : (page 100 s (t / 100))[t % 100] = s[t] := by
    simp only [page, List.getElem_take, List.getElem_drop]
    congr 1
    omega
  obtain ⟨hData, hBit, hEntry⟩ := (h.child _ hj).lists.entry _ hLength
  exact ⟨hData, hBit, hEntry.trans hGet⟩

theorem directBlocks_blank (h : σ.BlankChildren C D s) (hc : c ∈ D) : σ.directBlocks c = [] := by
  rw [directBlocks, (h.childSizes.empty c hc).2]
  rfl

/-- The empty children add no blocks. -/
theorem flatMap_blocks (h : σ.BlankChildren C D s) :
    (C ++ D).flatMap σ.directBlocks = C.flatMap σ.directBlocks := by
  rw [List.flatMap_append, List.flatMap_eq_nil_iff.mpr fun c hc => h.directBlocks_blank hc,
    List.append_nil]

theorem map_entryIn (h : σ.BlankChildren C D s) : (C.flatMap σ.directBlocks).map σ.entryIn = s := by
  have hPages : C.map (fun c => (σ.directBlocks c).map σ.entryIn) =
      (List.range C.length).map (page 100 s) := by
    refine List.ext_getElem (by simp) fun j hj _ => ?_
    rw [List.length_map] at hj
    rw [List.getElem_map, List.getElem_map, List.getElem_range]
    exact (h.child j hj).map_entryIn
  have hCount := h.childSizes.count
  rw [List.map_flatMap, List.flatMap_def, hPages, ← List.flatMap_def, flatMap_page,
    List.take_of_length_le (by omega)]

theorem mem_blocks {b : Nat} (h : σ.BlankChildren C D s) (hb : b ∈ C.flatMap σ.directBlocks) :
    IsData b ∧ σ.bit b = true := by
  obtain ⟨c, hc, hb⟩ := List.mem_flatMap.mp hb
  obtain ⟨l, hRow⟩ := h.mem hc
  exact hRow.mem_directBlocks hb

theorem length_blocks (h : σ.BlankChildren C D s) : (C.flatMap σ.directBlocks).length = s.length := by
  have hLength := congrArg List.length h.map_entryIn
  rwa [List.length_map] at hLength

/-- The block at an index behind the slots of the directory. -/
theorem getElem?_blocks (h : σ.BlankChildren C D s) {t : Nat} (ht : t < s.length)
    (hj : t / 100 < C.length) :
    (C.flatMap σ.directBlocks)[t]? = some (σ.slot C[t / 100] (t % 100)) := by
  have hCount := h.childSizes.count
  have hLength : ∀ i (hi : i < C.length), (σ.directBlocks C[i]).length =
      min 100 (s.length - 100 * i) := fun i hi => by
    rw [(h.child i hi).directBlocks_length, page_length]
  have hPacked : Packed 100 C σ.directBlocks := by
    intro i c hc
    obtain ⟨hi, rfl⟩ := List.getElem?_eq_some_iff.mp hc
    rw [hLength i hi]
    by_cases hFull : 100 ≤ s.length - 100 * i
    · exact Or.inl (Nat.min_eq_left hFull)
    · refine Or.inr fun j d hj hd => ?_
      obtain ⟨hLt, -⟩ := List.getElem?_eq_some_iff.mp hd
      omega
  obtain ⟨a, ha⟩ : ∃ a, (C.flatMap σ.directBlocks)[t]? = some a :=
    ⟨_, List.getElem?_eq_getElem (by rw [h.length_blocks]; exact ht)⟩
  obtain ⟨i, c, hc, hLe, hIn⟩ := hPacked.getElem?_flatMap ha
  obtain ⟨hi, rfl⟩ := List.getElem?_eq_some_iff.mp hc
  obtain ⟨hIndex, hEq⟩ := List.getElem?_eq_some_iff.mp hIn
  have hPage : t - 100 * i < 100 := by
    rw [hLength i hi] at hIndex
    omega
  obtain rfl : i = t / 100 := by omega
  have hRest : t - 100 * (t / 100) = t % 100 := by omega
  simp only [directBlocks, List.getElem_map, List.getElem_range, hRest] at hEq
  rw [ha, hEq]

end BlankChildren

end Store

section Programs

variable {m : Machine} {p stack x : Nat} {C D : List Nat} {l s : List Entry} {large : Bool}

/-- An inode without slots in use lists nothing, whatever it is. -/
theorem readDir_empty (hInum : IsInum x) (hSize : m.store.size x = 0) (stack : Nat) :
    readDir m (stack + 1) x = .ok [] := by
  cases hDir : (m.store.inode x).isDir with
  | false =>
      rw [readDir, getInode_some hInum]
      simp only [bind, Except.bind, hDir, Bool.false_eq_true, if_false]
      rfl
  | true =>
      have hZero : (m.store.inode x).size.toNat = 0 := hSize
      have hDirect : readDirect m (m.store.inode x) = .ok [] := by
        rw [readDirect, hZero]
        rfl
      have hChildren : mapChildren m (m.store.inode x) (readDir m stack) = .ok [] := by
        rw [mapChildren, hZero]
        rfl
      rw [readDir_eq hInum hDir, hDirect, hChildren]
      rfl

namespace Store.BlankChildren

/-- A directory lists its own entries, and a large one those of the children too. -/
theorem readDir_eq (h : m.store.BlankChildren C D s) (hRow : m.store.Row p l large) (stack : Nat) :
    readDir m (stack + 2) p = .ok (l ++ if large then s else []) := by
  cases large with
  | false =>
      rw [readDir_row hRow]
      exact congrArg Except.ok (List.append_nil l).symm
  | true =>
      have hCount := h.childSizes.count
      rw [if_pos rfl]
      refine readDir_pages hRow h.childSizes.table (fun c hc => h.childSizes.ne_zero hc)
        (by rw [List.length_append]; omega) fun j hj => ?_
      by_cases hC : j < C.length
      · rw [List.getElem_append_left hC]
        exact readDir_row (h.child j hC)
      · have hD : (C ++ D)[j] ∈ D := by
          rw [List.getElem_append_right (Nat.le_of_not_lt hC)]
          exact List.getElem_mem _
        rw [page_eq_nil (by omega), readDir_empty (h.childSizes.empty _ hD).1 (h.childSizes.empty _ hD).2]

theorem readBlockid_eq (h : m.store.BlankChildren C D s) (hRow : m.store.Row p l large) (stack : Nat) :
    readBlockid m (stack + 2) p = .ok (m.store.entryBlocks C large p) := by
  have hSize : m.store.size p = l.length + large.toNat := hRow.size
  cases large with
  | false =>
      have hFew := hRow.few
      change m.store.size p = l.length + 0 at hSize
      rw [readBlockid_flat hRow.lists.inum (by omega)]
      exact congrArg Except.ok (List.append_nil _).symm
  | true =>
      have hFull := hRow.full rfl
      change m.store.size p = l.length + 1 at hSize
      rw [readBlockid_large hRow.lists.inum (by omega) hRow.indirect h.childSizes.table fun c hc =>
        ⟨h.childSizes.isInum hc, h.childSizes.size_le hc⟩, h.flatMap_blocks]
      rfl

end Store.BlankChildren

theorem Store.Row.getElem?_directBlocks {σ : Store} {k : Nat} (h : σ.Row p l large)
    (hk : k < l.length) : (σ.directBlocks p)[k]? = some (σ.slot p k) := by
  rw [directBlocks, h.covered, List.getElem?_map, List.getElem?_range hk]
  rfl

/-- The entries in the blocks of a directory, in order. -/
theorem Store.BlankChildren.map_entryBlocks {σ : Store} (h : σ.BlankChildren C D s) (hRow : σ.Row p l large) :
    (σ.entryBlocks C large p).map σ.entryIn = l ++ if large then s else [] := by
  rw [entryBlocks, List.map_append, hRow.map_entryIn]
  cases large with
  | false => rfl
  | true => rw [if_pos rfl, if_pos rfl, h.map_entryIn]

theorem Store.BlankChildren.mem_entryBlocks {σ : Store} {b : Nat} (h : σ.BlankChildren C D s)
    (hRow : σ.Row p l large) (hb : b ∈ σ.entryBlocks C large p) : IsData b ∧ σ.bit b = true := by
  rw [entryBlocks, List.mem_append] at hb
  rcases hb with hOwn | hShared
  · exact hRow.mem_directBlocks hOwn
  · split at hShared
    · exact h.mem_blocks hShared
    · exact absurd hShared List.not_mem_nil

end Programs
end InodeFS
