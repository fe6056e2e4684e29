import InodeFS.Library.SwapOut
import InodeFS.RemoveAbsent
import InodeFS.BlankChildren

/-! `remove_from_dir` for an entry that the directory lists. Its block is freed, the last
block of the directory takes its place, and the last place is cleared. -/
namespace InodeFS

open Bytes Exec Paging Store

/-- The search frees the first block that carries the inum. -/
theorem freeFirst_found {m : Machine} {inum k : Nat} {ids : List Nat} (hk : k < ids.length)
    (hFront : ∀ j (hj : j < k), Visible ids[j] ∧ (m.store.entryIn ids[j]).1 ≠ inum)
    (hData : IsData ids[k]) (hBit : m.store.bit ids[k] = true)
    (hEntry : (m.store.entryIn ids[k]).1 = inum) (i : Nat) :
    ∃ m', freeFirst inum ids i m = .ok (i + k) m' ∧
      m'.store = (m.store.unmark ids[k]).write ids[k] Block.zeros := by
  induction ids generalizing i k with
  | nil => exact absurd hk (Nat.not_lt_zero k)
  | cons b rest ih =>
      cases k with
      | zero =>
          obtain ⟨m', hRun, hStore⟩ := freeBlock_marked hData hBit
          have hHit : (u32At (m.store.data b).bytes 0).toNat = inum := hEntry
          refine ⟨m', ?_, hStore⟩
          simp only [freeFirst, bind, EStateM.bind, query,
            readBlock_data (Or.inl hData : Visible b), if_pos hHit]
          have hFree : freeBlock b m = .ok () m' := hRun
          simp only [hFree]
          rfl
      | succ k =>
          obtain ⟨hVisible, hNe⟩ := hFront 0 (Nat.succ_pos k)
          have hOther : ¬(u32At (m.store.data b).bytes 0).toNat = inum := hNe
          have hHead : readBlock m b = .ok (m.store.data b) := readBlock_data hVisible
          obtain ⟨m', hRun, hStore⟩ := ih (Nat.lt_of_succ_lt_succ hk)
            (fun j hj => hFront (j + 1) (Nat.succ_lt_succ hj)) hData hBit hEntry (i + 1)
          refine ⟨m', ?_, hStore⟩
          simp only [freeFirst, bind, EStateM.bind, query, hHead, if_neg hOther]
          rw [hRun, Nat.add_assoc, Nat.add_comm 1]

namespace Store

variable {σ σ' : Store} {gone : Prop} {x k y l p : Nat}

section Retimed

variable (σ) (p) (mtime ctime : UInt32) (i : Nat)

theorem size_retimed : (σ.putInode p ((σ.inode p).retimed mtime ctime)).size i = σ.size i := by
  by_cases h : i = p
  · rw [h, size_putInode_self]
    rfl
  · exact size_congr (by rw [putInode_inode, if_neg h])

theorem slot_retimed (k : Nat) :
    (σ.putInode p ((σ.inode p).retimed mtime ctime)).slot i k = σ.slot i k := by
  by_cases h : i = p
  · rw [h, slot_putInode_self]
    rfl
  · exact slot_congr (by rw [putInode_inode, if_neg h]) k

theorem type_retimed :
    ((σ.putInode p ((σ.inode p).retimed mtime ctime)).inode i).type = (σ.inode i).type := by
  rw [putInode_inode]
  split
  · rename_i h
    rw [h]
    rfl
  · rfl

end Retimed

/-- The block in slot `k` of `x` was freed, and the one in slot `l` of `y`, the last in
use, moved there. When it was the only one, `y` may be gone. -/
structure Moved (σ σ' : Store) (gone : Prop) (x k y l : Nat) : Prop where
  alive : ∀ i, σ'.Alive i ↔ σ.Alive i ∧ ¬(gone ∧ i = y)
  type : ∀ i, σ'.Alive i → (σ'.inode i).type = (σ.inode i).type
  size : ∀ i, σ'.size i = if i = y then σ.size y - 1 else σ.size i
  slot : ∀ i j, σ'.slot i j =
    if i = y ∧ j = l then 0 else if i = x ∧ j = k then σ.slot y l else σ.slot i j
  bit : ∀ b, σ'.bit b = if b = σ.slot x k then false else σ.bit b
  data : ∀ b, b ≠ σ.slot x k → σ'.data b = σ.data b

/-- The store after the search and the two updates, before the new times. -/
def shifted (σ : Store) (x k y l : Nat) (ino : Inode) : Store :=
  (((σ.unmark (σ.slot x k)).write (σ.slot x k) Block.zeros).putInode x
    ((σ.inode x).withSlot k (σ.slot y l))).putInode y ino

theorem Moved.of_shifted {ino : Inode} {mtime ctime : UInt32} (hk : k < 101)
    (hLast : σ.slot y l ≠ 0) (hSize : ino.size.toNat = σ.size y - 1)
    (hSlot : ∀ j, ino.slot j =
      if j = l then 0 else if y = x ∧ j = k then σ.slot y l else σ.slot y j)
    (hGone : gone → ino.type = 0) (hStays : ¬gone → ino.type = (σ.inode y).type) :
    Moved σ ((σ.shifted x k y l ino).putInode p
      (((σ.shifted x k y l ino).inode p).retimed mtime ctime)) gone x k y l := by
  have hSelf : (σ.shifted x k y l ino).inode y = ino := by
    rw [shifted, putInode_inode, if_pos rfl]
  have hOther : ∀ i, i ≠ y → (σ.shifted x k y l ino).inode i =
      if i = x then (σ.inode x).withSlot k (σ.slot y l) else σ.inode i := fun i hi => by
    rw [shifted, putInode_inode, if_neg hi, putInode_inode]
    rfl
  have hType : ∀ i, i ≠ y → ((σ.shifted x k y l ino).inode i).type = (σ.inode i).type := by
    intro i hi
    rw [hOther i hi]
    split
    · rename_i hx
      rw [Inode.withSlot_type, hx]
    · rfl
  refine ⟨fun i => ?_, fun i hi => ?_, fun i => ?_, fun i j => ?_, fun b => ?_, fun b hb => ?_⟩
  · rw [Alive, type_retimed, Alive]
    by_cases hi : i = y
    · subst hi
      rw [hSelf]
      by_cases h : gone
      · rw [hGone h]
        exact iff_of_false (fun hne => hne rfl) fun hBoth => hBoth.2 ⟨h, rfl⟩
      · rw [hStays h]
        exact (and_iff_left fun hBoth => h hBoth.1).symm
    · rw [hType i hi]
      exact (and_iff_left fun hBoth => hi hBoth.2).symm
  · rw [Alive, type_retimed] at hi
    rw [type_retimed]
    by_cases he : i = y
    · subst he
      rw [hSelf] at hi ⊢
      exact hStays fun h => hi (hGone h)
    · exact hType i he
  · rw [size_retimed, Store.size]
    by_cases hi : i = y
    · rw [if_pos hi, hi, hSelf, hSize]
    · rw [if_neg hi, hOther i hi]
      split
      · rename_i hx
        rw [Inode.withSlot_size _ _ hLast, hx]
        rfl
      · rfl
  · rw [slot_retimed, Store.slot]
    by_cases hi : i = y
    · subst hi
      rw [hSelf, hSlot]
      simp only [true_and]
    · have hNot : ¬(i = y ∧ j = l) := fun h => hi h.1
      rw [hOther i hi, if_neg hNot]
      by_cases hx : i = x
      · subst hx
        rw [if_pos rfl, Inode.withSlot_slot _ hk (show σ.slot y l < 2 ^ 32 from Inode.slot_lt _ l)]
        simp only [true_and]
        rfl
      · have hNot' : ¬(i = x ∧ j = k) := fun h => hx h.1
        rw [if_neg hx, if_neg hNot']
        rfl
  · rw [putInode_bit, shifted, putInode_bit, putInode_bit, write_bit, unmark_bit]
  · rw [putInode_data, shifted, putInode_data, putInode_data, write_data, if_neg hb]
    rfl

/-- A data block in use that holds the entry. -/
def HoldsEntry (σ : Store) (b : Nat) (e : Entry) : Prop :=
  IsData b ∧ σ.bit b = true ∧ entryOf (σ.data b) = e

/-- The hole is a direct slot in use, and the last place is the last slot of its inode. -/
structure Places (σ : Store) (x k y l : Nat) : Prop where
  hole_alive : σ.Alive x
  hole : k < min (σ.size x) 100
  last_alive : σ.Alive y
  last : σ.size y = l + 1
  low : l < 100

namespace Moved

variable {i j : Nat} {e : Entry} {r r' : List Entry} {large : Bool}

/-- Where a block was before. -/
theorem origin (h : Moved σ σ' gone x k y l) (hP : σ.Places x k y l) (hi : σ'.Alive i)
    (hj : j < min (σ'.size i) 100) : ∃ a c, σ.Alive a ∧ c < min (σ.size a) 100 ∧
      σ'.slot i j = σ.slot a c ∧ ¬(a = x ∧ c = k) ∧
      ((i = x ∧ j = k ∧ a = y ∧ c = l) ∨ (a = i ∧ c = j ∧ ¬(i = y ∧ j = l))) := by
  have hLast := hP.last
  have hLow := hP.low
  have hNot : ¬(i = y ∧ j = l) := by
    rintro ⟨rfl, rfl⟩
    rw [h.size, if_pos rfl] at hj
    omega
  rw [h.slot, if_neg hNot]
  by_cases hHole : i = x ∧ j = k
  · rw [if_pos hHole]
    refine ⟨y, l, hP.last_alive, by omega, rfl, fun he => hNot ?_, Or.inl ⟨hHole.1, hHole.2, rfl, rfl⟩⟩
    exact ⟨hHole.1.trans he.1.symm, hHole.2.trans he.2.symm⟩
  · rw [if_neg hHole]
    refine ⟨i, j, ((h.alive i).mp hi).1, ?_, rfl, hHole, Or.inr ⟨rfl, rfl, hNot⟩⟩
    rw [h.size] at hj
    split at hj
    · rename_i he
      rw [he]
      omega
    · exact hj

/-- The freed block is in one slot only, so the other blocks in use stay. -/
theorem ne_freed (hP : σ.Places x k y l) (hA : σ.Apart) (hi : σ.Alive i)
    (hj : j < min (σ.size i) 100) (hNe : ¬(i = x ∧ j = k)) : σ.slot i j ≠ σ.slot x k :=
  fun he => hNe (hA.inj i x hi hP.hole_alive j hj k hP.hole he)

theorem kept (h : Moved σ σ' gone x k y l) {b : Nat} (hb : b ≠ σ.slot x k) :
    σ'.bit b = σ.bit b ∧ σ'.data b = σ.data b :=
  ⟨by rw [h.bit, if_neg hb], h.data b hb⟩

theorem holds (h : Moved σ σ' gone x k y l) {b : Nat} (hb : b ≠ σ.slot x k) (hHolds : σ.HoldsEntry b e) :
    σ'.HoldsEntry b e := by
  obtain ⟨hBit, hData⟩ := h.kept hb
  rw [HoldsEntry, hBit, hData]
  exact hHolds

theorem apart (h : Moved σ σ' gone x k y l) (hP : σ.Places x k y l) (hA : σ.Apart) : σ'.Apart where
  marked i hi j hj := by
    obtain ⟨a, c, ha, hc, hSlot, hNe, -⟩ := h.origin hP hi hj
    obtain ⟨hData, hBit⟩ := hA.marked a ha c hc
    rw [hSlot, (h.kept (ne_freed hP hA ha hc hNe)).1]
    exact ⟨hData, hBit⟩
  inj i i' hi hi' j hj j' hj' he := by
    obtain ⟨a, c, ha, hc, hSlot, -, hPlace⟩ := h.origin hP hi hj
    obtain ⟨a', c', ha', hc', hSlot', -, hPlace'⟩ := h.origin hP hi' hj'
    rw [hSlot, hSlot'] at he
    obtain ⟨rfl, rfl⟩ := hA.inj a a' ha ha' c hc c' hc' he
    rcases hPlace with ⟨rfl, rfl, rfl, rfl⟩ | ⟨rfl, rfl, hNot⟩
    · rcases hPlace' with ⟨rfl, rfl, -, -⟩ | ⟨rfl, rfl, hNot'⟩
      · exact ⟨rfl, rfl⟩
      · exact absurd ⟨rfl, rfl⟩ hNot'
    · rcases hPlace' with ⟨-, -, rfl, rfl⟩ | ⟨rfl, rfl, -⟩
      · exact absurd ⟨rfl, rfl⟩ hNot
      · exact ⟨rfl, rfl⟩

/-- The list of a directory or a child: the last entry is at the hole, and the last place
is gone. -/
theorem row (h : Moved σ σ' gone x k y l) (hP : σ.Places x k y l) (hA : σ.Apart)
    (hRow : σ.Row i r large) (hStays : ¬(gone ∧ i = y)) (hSmall : i = y → large = false)
    (hLast : σ.HoldsEntry (σ.slot y l) e) (hLength : r'.length = r.length - if i = y then 1 else 0)
    (hGet : ∀ j < r'.length, r'[j]? = if i = x ∧ j = k then some e else r[j]?) :
    σ'.Row i r' large := by
  have hAlive : σ'.Alive i := (h.alive i).mpr ⟨hRow.alive, hStays⟩
  have hSize := hRow.size
  have hFew := hRow.few
  have hCovered := hRow.covered
  have hEnd := hP.last
  have hNot : ∀ j < r'.length, ¬(i = y ∧ j = l) := by
    rintro j hj ⟨rfl, rfl⟩
    rw [if_pos rfl] at hLength
    rw [hSmall rfl] at hSize
    change σ.size i = r.length + 0 at hSize
    omega
  refine ⟨⟨hRow.lists.inum, ?_, fun j hj => ?_⟩, by omega, fun hLarge => ?_, ?_, fun j hj => ?_⟩
  · rw [Inode.isDir, h.type i hAlive]
    exact hRow.lists.dir
  · have hEntry : σ'.HoldsEntry (σ'.slot i j) r'[j] := by
      have hIn := hGet j hj
      rw [List.getElem?_eq_getElem hj] at hIn
      rw [h.slot, if_neg (hNot j hj)]
      by_cases hHole : i = x ∧ j = k
      · rw [if_pos hHole] at hIn
        rw [if_pos hHole, Option.some.inj hIn]
        refine h.holds (ne_freed hP hA hP.last_alive (by have := hP.low; omega) fun he => ?_) hLast
        exact hNot j hj ⟨hHole.1.trans he.1.symm, hHole.2.trans he.2.symm⟩
      · have hOld : j < r.length := by omega
        rw [if_neg hHole, List.getElem?_eq_getElem hOld] at hIn
        rw [if_neg hHole, Option.some.inj hIn]
        exact h.holds (ne_freed hP hA hRow.alive (by omega) hHole) (hRow.lists.entry j hOld)
    exact hEntry
  · have hNe : i ≠ y := fun he => by
      rw [hSmall he] at hLarge
      cases hLarge
    rw [if_neg hNe] at hLength
    have := hRow.full hLarge
    omega
  · rw [h.size]
    by_cases he : i = y
    · rw [if_pos he] at hLength ⊢
      rw [hSmall he] at hSize ⊢
      change σ.size i = r.length + 0 at hSize
      change σ.size y - 1 = r'.length + 0
      rw [← he]
      omega
    · rw [if_neg he] at hLength ⊢
      omega
  · rw [h.slot]
    by_cases hEq : i = y ∧ j = l
    · rw [if_pos hEq]
    · rw [if_neg hEq]
      have hBehind : r.length ≤ j := by
        by_cases he : i = y
        · rw [if_pos he] at hLength
          rw [hSmall he] at hSize
          change σ.size i = r.length + 0 at hSize
          have hj' : j ≠ l := fun hEq' => hEq ⟨he, hEq'⟩
          rw [← he] at hEnd
          omega
        · rw [if_neg he] at hLength
          omega
      have hNone : ¬(i = x ∧ j = k) := by
        rintro ⟨rfl, rfl⟩
        have := hP.hole
        omega
      rw [if_neg hNone]
      exact hRow.rest j hBehind

variable {C D : List Nat} {s s' : List Entry} {q : Nat}

section Children

variable (hB : σ.BlankChildren C D s) (hq : s.length = q + 1) (hj : q / 100 < C.length)
  (hy : y = C[q / 100])
include hB hy

theorem index_eq {j : Nat} (hj' : j < C.length) (he : C[j] = y) : j = q / 100 :=
  (List.Nodup.getElem_inj_iff (List.nodup_append.mp hB.childSizes.nodup).1).mp (he.trans hy)

theorem ne_of_blank {d : Nat} (hd : d ∈ D) : d ≠ y := fun he =>
  (List.nodup_append.mp hB.childSizes.nodup).2.2 _ (List.getElem_mem hj) d hd (hy.symm.trans he.symm)

theorem child_stays {j : Nat} (hj' : j < C.length) (hFront : j < (q + 99) / 100) :
    ¬(q % 100 = 0 ∧ C[j] = y) := by
  rintro ⟨hZero, he⟩
  have := index_eq hB hj hy hj' he
  omega

include hq

/-- The child behind the front is the one that lost its only entry. -/
theorem eq_of_dropped {d : Nat} (hd : d ∈ C.drop ((q + 99) / 100)) : d = y ∧ q % 100 = 0 ∧ d ∈ C := by
  have hCount := hB.childSizes.count
  obtain ⟨j, hj', rfl⟩ := List.getElem_of_mem hd
  rw [List.length_drop] at hj'
  have hSame : (q + 99) / 100 + j = q / 100 := by omega
  rw [List.getElem_drop]
  simp only [hSame]
  exact ⟨hy.symm, by omega, List.getElem_mem hj⟩

omit hy in
theorem length_front : (C.take ((q + 99) / 100)).length = (q + 99) / 100 := by
  have hCount := hB.childSizes.count
  rw [List.length_take]
  omega

variable (h : Moved σ σ' (q % 100 = 0) x k y l) (hP : σ.Places x k y l) (hA : σ.Apart)
include h hP hA

theorem childSizes (hl : l = q % 100) :
    σ'.ChildSizes (C.take ((q + 99) / 100)) (C.drop ((q + 99) / 100) ++ D) q := by
  have hTake := length_front hB hq
  have hLast := hP.last
  have hCount := hB.childSizes.count
  refine ⟨?_, ?_, hTake, fun c hc => ?_, fun j hj' => ?_, fun d hd => ?_⟩
  · have hHole := isData_iff.mp (hA.marked x hP.hole_alive k hP.hole).1
    rw [Table, ← List.append_assoc, List.take_append_drop, h.data 0 (by omega)]
    exact hB.childSizes.table
  · rw [← List.append_assoc, List.take_append_drop]
    exact hB.childSizes.nodup
  · obtain ⟨j, hj', rfl⟩ := List.getElem_of_mem hc
    rw [hTake] at hj'
    rw [List.getElem_take]
    obtain ⟨hInum, hDir⟩ := hB.childSizes.child C[j] (List.getElem_mem _)
    have hAlive := (h.alive C[j]).mpr ⟨alive_of_isDir hDir, child_stays hB hj hy (by omega) hj'⟩
    refine ⟨hInum, ?_⟩
    rw [Inode.isDir, h.type _ hAlive]
    exact hDir
  · rw [hTake] at hj'
    rw [List.getElem_take, h.size]
    have hSize := hB.childSizes.size j (by omega)
    by_cases he : C[j] = y
    · have hEq := index_eq hB hj hy (by omega) he
      rw [if_pos he, ← he, hSize]
      omega
    · have hne : j ≠ q / 100 := fun hEq => he (by simp only [hEq]; exact hy.symm)
      rw [if_neg he, hSize]
      omega
  · rcases List.mem_append.mp hd with hC | hD
    · obtain ⟨rfl, hZero, hMem⟩ := eq_of_dropped hB hq hj hy hC
      refine ⟨(hB.childSizes.child _ hMem).1, ?_⟩
      rw [h.size, if_pos rfl]
      omega
    · refine ⟨(hB.childSizes.empty d hD).1, ?_⟩
      rw [h.size, if_neg (ne_of_blank hB hj hy hD)]
      exact (hB.childSizes.empty d hD).2

/-- A child that still holds entries. -/
theorem child {j : Nat} (hl : l = q % 100) (hjC : j < C.length) (hFront : j < (q + 99) / 100)
    (hLength : s'.length = q) (hGet : ∀ t (_ : t < q) (ht : t / 100 < C.length),
      s'[t]? = if C[t / 100] = x ∧ t % 100 = k then s[q]? else s[t]?) :
    σ'.Row C[j] (page 100 s' j) false := by
  have hEntry : σ.HoldsEntry (σ.slot y l) s[q] := by
    subst hy hl
    exact hB.holds (by omega) hj
  refine h.row hP hA (hB.child j hjC) (child_stays hB hj hy hjC hFront) (fun _ => rfl) hEntry ?_ fun c hc => ?_
  · rw [page_length, page_length, hLength, hq]
    by_cases he : C[j] = y
    · have hEq := index_eq hB hj hy hjC he
      rw [if_pos he]
      omega
    · have hne : j ≠ q / 100 := fun hEq => he (by simp only [hEq]; exact hy.symm)
      rw [if_neg he]
      omega
  · rw [page_length] at hc
    have hPlace : (100 * j + c) / 100 = j := by omega
    have hRest : (100 * j + c) % 100 = c := by omega
    have hIn := hGet (100 * j + c) (by omega) (by omega)
    simp only [hPlace, hRest] at hIn
    have hPage : ∀ r : List Entry, (page 100 r j)[c]? = r[100 * j + c]? := fun r => by
      rw [page, List.getElem?_take, if_pos (by omega), List.getElem?_drop]
    rw [hPage, hPage, hIn, List.getElem?_eq_getElem (by omega)]

omit hA in
/-- A child that holds nothing. -/
theorem blank {d : Nat} (hl : l = q % 100) (hx : x ∉ D) (hd : d ∈ C.drop ((q + 99) / 100) ++ D) (c : Nat) :
    σ'.slot d c = 0 := by
  have hLast := hP.last
  rw [h.slot]
  rcases List.mem_append.mp hd with hC | hD
  · obtain ⟨rfl, hZero, hMem⟩ := eq_of_dropped hB hq hj hy hC
    by_cases hEq : c = l
    · rw [if_pos ⟨rfl, hEq⟩]
    · have hNot : ¬(d = d ∧ c = l) := fun he => hEq he.2
      have hNot' : ¬(d = x ∧ c = k) := by
        rintro ⟨rfl, rfl⟩
        have := hP.hole
        omega
      have hRest := (hB.child _ hj).rest c (by rw [page_length]; omega)
      rw [← hy] at hRest
      rw [if_neg hNot, if_neg hNot', hRest]
  · have hNot : ¬(d = y ∧ c = l) := fun he => ne_of_blank hB hj hy hD he.1
    have hNot' : ¬(d = x ∧ c = k) := fun he => hx (he.1 ▸ hD)
    rw [if_neg hNot, if_neg hNot', hB.blank d hD]

/-- The children when the last place was in one of them. A child that lost its last entry
is listed behind the others. -/
theorem blankChildren (hl : l = q % 100) (hx : x ∉ D) (hLength : s'.length = q)
    (hGet : ∀ t (_ : t < q) (ht : t / 100 < C.length),
      s'[t]? = if C[t / 100] = x ∧ t % 100 = k then s[q]? else s[t]?) :
    σ'.BlankChildren (C.take ((q + 99) / 100)) (C.drop ((q + 99) / 100) ++ D) s' where
  childSizes := hLength.symm ▸ childSizes hB hq hj hy h hP hA hl
  child j hj' := by
    have hCount := hB.childSizes.count
    rw [length_front hB hq] at hj'
    rw [List.getElem_take]
    exact child hB hq hj hy h hP hA hl (by omega) hj' hLength hGet
  blank d hd c := blank hB hq hj hy h hP hl hx hd c

end Children

/-- Both places are elsewhere. -/
theorem blankChildren_same (h : Moved σ σ' False x k y l) (hP : σ.Places x k y l) (hA : σ.Apart)
    (hB : σ.BlankChildren C D s) (hx : x ∉ C ++ D) (hy : y ∉ C ++ D) (hLast : σ.HoldsEntry (σ.slot y l) e) :
    σ'.BlankChildren C D s := by
  have hHole := (hA.marked x hP.hole_alive k hP.hole).1
  have hZero : (0 : Nat) ≠ σ.slot x k := by
    have := isData_iff.mp hHole
    omega
  have hNe : ∀ c ∈ C ++ D, c ≠ x ∧ c ≠ y := fun c hc =>
    ⟨fun he => hx (he ▸ hc), fun he => hy (he ▸ hc)⟩
  have hSize : ∀ c ∈ C ++ D, σ'.size c = σ.size c := fun c hc => by
    rw [h.size, if_neg (hNe c hc).2]
  refine ⟨⟨?_, hB.childSizes.nodup, hB.childSizes.count, fun c hc => ?_, fun j hj => ?_, fun d hd => ?_⟩,
    fun j hj => ?_, fun d hd c => ?_⟩
  · rw [Table, h.data 0 hZero]
    exact hB.childSizes.table
  · obtain ⟨hInum, hDir⟩ := hB.childSizes.child c hc
    have hAlive := (h.alive c).mpr ⟨alive_of_isDir hDir, fun hGone => hGone.1⟩
    refine ⟨hInum, ?_⟩
    rw [Inode.isDir, h.type _ hAlive]
    exact hDir
  · rw [hSize _ (List.mem_append_left _ (List.getElem_mem hj))]
    exact hB.childSizes.size j hj
  · rw [hSize d (List.mem_append_right _ hd)]
    exact hB.childSizes.empty d hd
  · obtain ⟨hNeX, hNeY⟩ := hNe C[j] (List.mem_append_left _ (List.getElem_mem hj))
    refine h.row hP hA (hB.child j hj) (fun hGone => hGone.1) (fun he => absurd he hNeY) hLast ?_
      fun c _ => ?_
    · rw [if_neg hNeY, Nat.sub_zero]
    · rw [if_neg fun he => hNeX he.1]
  · obtain ⟨hNeX, hNeY⟩ := hNe d (List.mem_append_right _ hd)
    have hNot : ¬(d = y ∧ c = l) := fun he => hNeY he.1
    have hNot' : ¬(d = x ∧ c = k) := fun he => hNeX he.1
    rw [h.slot, if_neg hNot, if_neg hNot', hB.blank d hd]

end Moved

end Store

/-- The first entry with the inum is at index `k`. -/
def FirstAt (l : List Entry) (inum k : Nat) : Prop :=
  (∃ e, l[k]? = some e ∧ e.1 = inum) ∧ ∀ d ∈ l.take k, d.1 ≠ inum

section Steps

variable {m : Machine} {p k inum : Nat} {C D : List Nat} {l s : List Entry} {large : Bool}

theorem FirstAt.lt {l : List Entry} (h : FirstAt l inum k) : k < l.length := by
  obtain ⟨e, he, -⟩ := h.1
  exact (List.getElem?_eq_some_iff.mp he).1

/-- The block with the entry is found and freed. -/
theorem Store.BlankChildren.freeFirst_eq (h : m.store.BlankChildren C D s) (hRow : m.store.Row p l large)
    (hFirst : FirstAt (l ++ if large then s else []) inum k) {b : Nat}
    (hb : (m.store.entryBlocks C large p)[k]? = some b) :
    ∃ m', freeFirst inum (m.store.entryBlocks C large p) 0 m = .ok k m' ∧
      m'.store = (m.store.unmark b).write b Block.zeros := by
  have hMap := h.map_entryBlocks hRow
  obtain ⟨hk, rfl⟩ := List.getElem?_eq_some_iff.mp hb
  have hEntry : ∀ j (hj : j < (m.store.entryBlocks C large p).length),
      (l ++ if large then s else [])[j]? =
        some (m.store.entryIn (m.store.entryBlocks C large p)[j]) := fun j hj => by
    rw [← hMap, List.getElem?_map, List.getElem?_eq_getElem hj]
    rfl
  obtain ⟨⟨e, he, hInum⟩, hFront⟩ := hFirst
  obtain ⟨hData, hBit⟩ := h.mem_entryBlocks hRow (List.getElem_mem hk)
  have hHit : (m.store.entryIn (m.store.entryBlocks C large p)[k]).1 = inum := by
    rw [hEntry k hk] at he
    rw [Option.some.inj he, hInum]
  have hOther : ∀ j (hj : j < k), Visible (m.store.entryBlocks C large p)[j] ∧
      (m.store.entryIn (m.store.entryBlocks C large p)[j]).1 ≠ inum := fun j hj => by
    refine ⟨Or.inl (h.mem_entryBlocks hRow (List.getElem_mem _)).1, hFront _ ?_⟩
    refine List.mem_of_getElem? (i := j) ?_
    rw [List.getElem?_take, if_pos hj]
    exact hEntry j (by omega)
  obtain ⟨m', hRun, hStore⟩ := freeFirst_found hk hOther hData hBit hHit 0
  rw [Nat.zero_add] at hRun
  exact ⟨m', hRun, hStore⟩

/-- Writing a data block and one slot of an inode leaves the children as they are. -/
theorem Store.ChildSizes.with_slot {σ : Store} {n x b c : Nat} (h : σ.ChildSizes C D n) (hb : IsData b)
    (hc : c ≠ 0) : (((σ.unmark b).write b Block.zeros).putInode x
      ((σ.inode x).withSlot k c)).ChildSizes C D n := by
  have hRange := isData_iff.mp hb
  refine h.congr ?_ (fun i => (size_withSlot hc i).trans rfl) fun i => ?_
  · rw [putInode_data, write_data, if_neg (by omega)]
    rfl
  · rw [Inode.isDir, Inode.isDir]
    exact congrArg (·.toNat == _) (type_withSlot i)

/-- Up to 100 entries: both places are in the directory. -/
theorem Store.BlankChildren.remove_small (h : m.store.BlankChildren C D s) (hRow : m.store.Row p l false)
    (hFirst : FirstAt l inum k) (stack : Nat) :
    ∃ m', removeFromDir (stack + 2) p inum m = .ok () m' ∧
      Moved m.store m'.store False p k p (l.length - 1) := by
  have hk := hFirst.lt
  have hFew := hRow.few
  have hSize : m.store.size p = l.length + 0 := hRow.size
  have hLow : l.length - 1 < l.length := by omega
  have hIds : m.store.entryBlocks C false p = m.store.directBlocks p := List.append_nil _
  have hLength := hRow.directBlocks_length
  have hBlock := hRow.getElem?_directBlocks hk
  obtain ⟨hDataHole, -⟩ := hRow.lists.entry k hk
  obtain ⟨hDataLast, -⟩ := hRow.lists.entry _ hLow
  have hNe : m.store.slot p (l.length - 1) ≠ 0 := by
    have := isData_iff.mp hDataLast
    omega
  have hEnd : (m.store.directBlocks p).getLast? = some (m.store.slot p (l.length - 1)) := by
    rw [List.getLast?_eq_getElem?, hLength, hRow.getElem?_directBlocks hLow]
  have hRead := h.readBlockid_eq hRow stack
  have hAt : FirstAt (l ++ if false = true then s else []) inum k := by simpa using hFirst
  obtain ⟨m₁, hFind, hStore₁⟩ := h.freeFirst_eq hRow hAt
    (show (m.store.entryBlocks C false p)[k]? = some (m.store.slot p k) by rw [hIds]; exact hBlock)
  rw [hIds] at hRead hFind
  have hInode₁ : m₁.store.inode = m.store.inode := by
    rw [hStore₁]
    rfl
  have hSize₁ : m₁.store.size p = l.length + 0 := (size_congr (congrFun hInode₁ p)).trans hSize
  obtain ⟨m₂, hSet, hStore₂⟩ := setInoBlockId_slot (m := m₁) (k := k)
    (b := m.store.slot p (l.length - 1)) hRow.lists.inum
    (by rw [hInode₁]; exact hRow.lists.dir) (by omega) (Or.inr rfl) (stack + 1)
  have hInode₂ : m₂.store.inode p =
      (m.store.inode p).withSlot k (m.store.slot p (l.length - 1)) := by
    rw [hStore₂, putInode_inode, if_pos rfl, hInode₁]
  have hSize₂ : m₂.store.size p = l.length + 0 := by
    rw [Store.size, hInode₂, Inode.withSlot_size _ _ hNe]
    exact hSize
  obtain ⟨m₃, hCut, hStore₃⟩ := setInoBlockId_slot (m := m₂) (k := l.length - 1) (b := 0)
    hRow.lists.inum
    (by rw [hInode₂, Inode.isDir, Inode.withSlot_type]; exact hRow.lists.dir) (by omega)
    (Or.inr rfl) (stack + 1)
  obtain ⟨m', mtime, ctime, hRun, hStore⟩ := removeFromDir_steps hRow.lists.inum hRow.lists.dir
    hRead hEnd hFind hSet (by rw [hLength]; exact hCut)
  refine ⟨m', hRun, ?_⟩
  have hShifted : m₃.store = m.store.shifted p k p (l.length - 1)
      (((m.store.inode p).withSlot k (m.store.slot p (l.length - 1))).withSlot (l.length - 1) 0) := by
    rw [hStore₃, hInode₂, hStore₂, hInode₁, hStore₁]
    rfl
  rw [hStore, hShifted]
  refine Moved.of_shifted (by omega) hNe ?_ (fun j => ?_) False.elim fun _ => ?_
  · rw [Inode.withSlot_size_zero _ _ (by rw [← hInode₂]; exact (show 0 < m₂.store.size p by omega)),
      ← hInode₂]
    exact congrArg (· - 1) (hSize₂.trans hSize.symm)
  · rw [Inode.withSlot_slot _ (by omega) (by omega)]
    split
    · rfl
    · rw [Inode.withSlot_slot _ (by omega)
        (show m.store.slot p (l.length - 1) < 2 ^ 32 from Inode.slot_lt _ _)]
      simp only [true_and]
      rfl
  · rw [Inode.withSlot_type, Inode.withSlot_type]

/-- The last entry block of a large directory. -/
theorem Store.BlankChildren.getLast?_entryBlocks (h : m.store.BlankChildren C D s) (hRow : m.store.Row p l true)
    {q : Nat} (hq : s.length = q + 1) (hj : q / 100 < C.length) :
    (m.store.entryBlocks C true p).length = 100 + s.length ∧
      (m.store.entryBlocks C true p).getLast? = some (m.store.slot C[q / 100] (q % 100)) := by
  have hFull := hRow.full rfl
  have hLength : (m.store.entryBlocks C true p).length = 100 + s.length := by
    rw [entryBlocks, if_pos rfl, List.length_append, hRow.directBlocks_length, hFull, h.length_blocks]
  have hIndex : 100 + s.length - 1 - (m.store.directBlocks p).length = q := by
    rw [hRow.directBlocks_length]
    omega
  refine ⟨hLength, ?_⟩
  rw [List.getLast?_eq_getElem?, hLength, entryBlocks, if_pos rfl,
    List.getElem?_append_right (by rw [hRow.directBlocks_length]; omega), hIndex,
    h.getElem?_blocks (by omega) hj]

/-- The second update, in a child whose size the first one kept. With its only entry the
child is freed. -/
theorem Store.Moved.of_cut {σ : Store} {x i y t : Nat} {mtime ctime : UInt32} (hy : σ.Row y l false)
    (hLength : l.length = t + 1) (hi : i < 101) (hLast : σ.slot y t ≠ 0) (hIn : y = x → i ≤ t) {ino : Inode}
    (hSize : ino.size.toNat = σ.size y) (hType : ino.type = (σ.inode y).type)
    (hSlot : ∀ j, ino.slot j = if y = x ∧ j = i then σ.slot y t else σ.slot y j) :
    Moved σ ((σ.shifted x i y t (ino.cut t)).putInode p
      (((σ.shifted x i y t (ino.cut t)).inode p).retimed mtime ctime)) (t = 0) x i y t := by
  have hFew := hy.few
  have hTop : ino.size.toNat = t + 1 := by
    rw [hSize, ← hLength]
    exact hy.size
  refine .of_shifted hi hLast ?_ (fun j => ?_) (fun hGone => Inode.cut_type_zero hTop hGone) fun hStays => ?_
  · rw [Inode.cut_size hTop, ← hSize, hTop]
    rfl
  · rw [Inode.cut_slot hTop (by omega) (fun c hc => ?_) j]
    · rw [hSlot]
    · rw [hSlot, if_neg]
      · exact hy.rest c (by omega)
      · rintro ⟨hx, rfl⟩
        have := hIn hx
        omega
  · rw [Inode.cut_type hTop hStays, hType]

/-- More than 101 entries: the last place is in a child. The hole is any place for which
the first update works. -/
theorem Store.BlankChildren.remove_of_set (h : m.store.BlankChildren C D s) (hRow : m.store.Row p l true)
    (hFirst : FirstAt (l ++ s) inum k) {q x i : Nat} (hq : s.length = q + 1) (hPos : 0 < q)
    (hj : q / 100 < C.length) (hi : i < 100)
    (hHole : (m.store.entryBlocks C true p)[k]? = some (m.store.slot x i))
    (hIn : C[q / 100] = x → i ≤ q % 100) (stack : Nat)
    (hSet : ∀ m₁ : Machine, m₁.store =
        (m.store.unmark (m.store.slot x i)).write (m.store.slot x i) Block.zeros →
      ∃ m₂, setInoBlockId (stack + 2) p k (m.store.slot C[q / 100] (q % 100)) false m₁ =
          .ok (true, p) m₂ ∧ m₂.store = m₁.store.putInode x
            ((m₁.store.inode x).withSlot i (m.store.slot C[q / 100] (q % 100)))) :
    ∃ m', removeFromDir (stack + 2) p inum m = .ok () m' ∧
      Moved m.store m'.store (q % 100 = 0) x i C[q / 100] (q % 100) := by
  have hFull := hRow.full rfl
  have hSize : m.store.size p = l.length + 1 := hRow.size
  have hPage : (page 100 s (q / 100)).length = q % 100 + 1 := by
    rw [page_length]
    omega
  obtain ⟨hLength, hEnd⟩ := h.getLast?_entryBlocks hRow hq hj
  have hIndex : (m.store.entryBlocks C true p).length - 1 = 100 + q := by omega
  obtain ⟨hData, -⟩ := h.holds (t := q) (by omega) hj
  have hLastNe : m.store.slot C[q / 100] (q % 100) ≠ 0 := by
    have := isData_iff.mp hData
    omega
  have hLastLt : m.store.slot C[q / 100] (q % 100) < 2 ^ 32 := Inode.slot_lt _ _
  have hHoleData : IsData (m.store.slot x i) :=
    (h.mem_entryBlocks hRow (List.mem_of_getElem? hHole)).1
  -- the search and the first update
  obtain ⟨m₁, hFind, hStore₁⟩ := h.freeFirst_eq hRow hFirst hHole
  obtain ⟨m₂, hRun₂, hStore₂⟩ := hSet m₁ hStore₁
  rw [hStore₁] at hStore₂
  have hSize₂ : ∀ j, m₂.store.size j = m.store.size j := fun j => hStore₂ ▸ size_withSlot hLastNe j
  have hType₂ : ∀ j, (m₂.store.inode j).type = (m.store.inode j).type := fun j => hStore₂ ▸ type_withSlot j
  have hSlot₂ : ∀ j c, m₂.store.slot j c =
      if j = x ∧ c = i then m.store.slot C[q / 100] (q % 100) else m.store.slot j c := fun j c =>
    hStore₂ ▸ slot_withSlot (by omega) hLastLt j c
  have hChildSizes : m₂.store.ChildSizes C D s.length := hStore₂ ▸ h.childSizes.with_slot hHoleData hLastNe
  -- the second update
  obtain ⟨m₃, hRun₃, hStore₃⟩ := hChildSizes.cut_behind (p := p) hRow.lists.inum
    (by rw [Inode.isDir, hType₂]; exact hRow.lists.dir) (by rw [hSize₂]; omega)
    (by rw [hSlot₂, if_neg (by omega)]; exact hRow.indirect) stack hPos hq hj
  obtain ⟨m', mtime, ctime, hRun, hStore⟩ := removeFromDir_steps hRow.lists.inum hRow.lists.dir
    (h.readBlockid_eq hRow stack) hEnd hFind hRun₂ (by rw [hIndex]; exact hRun₃)
  refine ⟨m', hRun, ?_⟩
  have hShifted : m₃.store = m.store.shifted x i C[q / 100] (q % 100)
      ((m₂.store.inode C[q / 100]).cut (q % 100)) := by
    rw [hStore₃, hStore₂]
    rfl
  rw [hStore, hShifted]
  exact .of_cut (h.child _ hj) hPage (by omega) hLastNe hIn (hSize₂ _) (hType₂ _) (hSlot₂ _)

/-- A removal from a directory with up to 100 entries. -/
theorem Store.BlankChildren.removed_small (h : m.store.BlankChildren C D s) (hA : m.store.Apart)
    (hRow : m.store.Row p l false) (hp : p ∉ C ++ D) (hFirst : FirstAt l inum k) (stack : Nat) :
    ∃ m', removeFromDir (stack + 2) p inum m = .ok () m' ∧
      Moved m.store m'.store False p k p (l.length - 1) ∧
      m.store.Places p k p (l.length - 1) ∧ m'.store.Row p (swapOut l k) false ∧
      m'.store.BlankChildren C D s := by
  have hk := hFirst.lt
  have hFew := hRow.few
  have hSize : m.store.size p = l.length + 0 := hRow.size
  obtain ⟨m', hRun, hMoved⟩ := h.remove_small hRow hFirst stack
  have hP : m.store.Places p k p (l.length - 1) :=
    ⟨hRow.alive, by omega, hRow.alive, by omega, by omega⟩
  have hLow : l.length - 1 < l.length := by omega
  have hEntry : m.store.HoldsEntry (m.store.slot p (l.length - 1)) l[l.length - 1] :=
    hRow.lists.entry _ hLow
  have hEnd : l.getLast? = some l[l.length - 1] := by
    rw [List.getLast?_eq_getElem?, List.getElem?_eq_getElem hLow]
  refine ⟨m', hRun, hMoved, hP, ?_, hMoved.blankChildren_same hP hA h hp hp hEntry⟩
  refine hMoved.row hP hA hRow (fun hGone => hGone.1) (fun _ => rfl) hEntry ?_ fun j hj => ?_
  · rw [length_swapOut, if_pos rfl]
  · rw [length_swapOut] at hj
    rw [getElem?_swapOut hj, hEnd]
    simp only [true_and]

/-- The elements when the last one takes the place of one of a large directory. -/
theorem swapOut_large {q : Nat} (hFull : l.length = 100) (hq : s.length = q + 1) :
    (swapOut (l ++ s) k).length = 100 + q ∧ ∀ t < 100 + q, (swapOut (l ++ s) k)[t]? =
      if t = k then s[q]? else (l ++ s)[t]? := by
  have hEnd : (l ++ s).getLast? = s[q]? := by
    rw [List.getLast?_eq_getElem?, List.length_append,
      List.getElem?_append_right (by omega)]
    congr 1
    omega
  constructor
  · rw [length_swapOut, List.length_append, hFull]
    omega
  · intro t ht
    rw [getElem?_swapOut (by rw [List.length_append]; omega), hEnd]

/-- The entry is in a slot of the directory. -/
theorem Store.BlankChildren.remove_own (h : m.store.BlankChildren C D s) (hRow : m.store.Row p l true)
    (hpC : p ∉ C) (hFirst : FirstAt (l ++ s) inum k) {q : Nat} (hq : s.length = q + 1) (hPos : 0 < q)
    (hj : q / 100 < C.length) (hLow : k < 100) (stack : Nat) :
    ∃ m', removeFromDir (stack + 2) p inum m = .ok () m' ∧
      Moved m.store m'.store (q % 100 = 0) p k C[q / 100] (q % 100) := by
  have hFull := hRow.full rfl
  have hSize : m.store.size p = l.length + 1 := hRow.size
  refine h.remove_of_set hRow hFirst hq hPos hj hLow ?_
    (fun he => absurd (he ▸ List.getElem_mem hj) hpC) stack fun m₁ hStore₁ => ?_
  · rw [entryBlocks, List.getElem?_append_left (by rw [hRow.directBlocks_length]; omega),
      hRow.getElem?_directBlocks (by omega)]
  · have hInode₁ : m₁.store.inode = m.store.inode := by
      rw [hStore₁]
      rfl
    exact setInoBlockId_slot hRow.lists.inum (by rw [hInode₁]; exact hRow.lists.dir)
      (by rw [size_congr (congrFun hInode₁ p)]; omega) (Or.inr rfl) (stack + 1)

/-- The entry is in a child. -/
theorem Store.BlankChildren.remove_behind (h : m.store.BlankChildren C D s) (hRow : m.store.Row p l true)
    {q r : Nat} (hFirst : FirstAt (l ++ s) inum (100 + r)) (hq : s.length = q + 1) (hPos : 0 < q)
    (hj : q / 100 < C.length) (hr : 0 < r) (hrq : r ≤ q) (hrC : r / 100 < C.length) (stack : Nat) :
    ∃ m', removeFromDir (stack + 2) p inum m = .ok () m' ∧
      Moved m.store m'.store (q % 100 = 0) C[r / 100] (r % 100) C[q / 100] (q % 100) := by
  have hFull := hRow.full rfl
  have hSize : m.store.size p = l.length + 1 := hRow.size
  refine h.remove_of_set hRow hFirst hq hPos hj (by omega) ?_ (fun he => ?_) stack fun m₁ hStore₁ => ?_
  · rw [entryBlocks, if_pos rfl, List.getElem?_append_right (by
      rw [hRow.directBlocks_length]; omega), hRow.directBlocks_length, hFull,
      Nat.add_sub_cancel_left, h.getElem?_blocks (by omega) hrC]
  · have := (List.Nodup.getElem_inj_iff (List.nodup_append.mp h.childSizes.nodup).1).mp he
    omega
  · obtain ⟨hLast, -⟩ := h.holds (t := q) (by omega) hj
    have hLastNe : m.store.slot C[q / 100] (q % 100) ≠ 0 := by
      have := isData_iff.mp hLast
      omega
    have hRange := isData_iff.mp (h.holds (t := r) (by omega) hrC).1
    have hInode₁ : m₁.store.inode = m.store.inode := by
      rw [hStore₁]
      rfl
    have hChildSizes₁ : m₁.store.ChildSizes C D s.length := by
      refine h.childSizes.congr ?_ (fun i => size_congr (congrFun hInode₁ i)) fun i => by rw [hInode₁]
      rw [hStore₁, write_data, if_neg (by omega)]
      rfl
    exact hChildSizes₁.set_behind hRow.lists.inum (by rw [hInode₁]; exact hRow.lists.dir)
      (by rw [size_congr (congrFun hInode₁ p)]; omega)
      ((slot_congr (congrFun hInode₁ p) 100).trans hRow.indirect) stack (by omega) (by omega)
      hrC hLastNe

/-- What a large directory lists when the last entry has moved to index `k`, which is slot `i` of `x`. -/
theorem Store.BlankChildren.moved_large {m' : Machine} (h : m.store.BlankChildren C D s) (hA : m.store.Apart)
    (hRow : m.store.Row p l true) (hp : p ∉ C ++ D) {q x i : Nat} (hq : s.length = q + 1)
    (hj : q / 100 < C.length) (hP : m.store.Places x i C[q / 100] (q % 100))
    (hxC : x = p ∨ x ∈ C) (hOwn : ∀ t, t < 100 → (t = k ↔ p = x ∧ t = i))
    (hBehind : ∀ t (_ : t < q) (ht : t / 100 < C.length), 100 + t = k ↔ C[t / 100] = x ∧ t % 100 = i)
    (hMoved : Moved m.store m'.store (q % 100 = 0) x i C[q / 100] (q % 100)) :
    m'.store.Row p ((swapOut (l ++ s) k).take 100) true ∧
      m'.store.BlankChildren (C.take ((q + 99) / 100)) (C.drop ((q + 99) / 100) ++ D)
        ((swapOut (l ++ s) k).drop 100) := by
  have hFull := hRow.full rfl
  obtain ⟨hShort, hNew⟩ := swapOut_large (k := k) hFull hq
  have hNe : p ≠ C[q / 100] := fun he => hp (List.mem_append_left _ (he ▸ List.getElem_mem hj))
  have hEntry : m.store.HoldsEntry (m.store.slot C[q / 100] (q % 100)) s[q] := h.holds (by omega) hj
  have hxD : x ∉ D := by
    rcases hxC with rfl | hxC
    · exact fun hd => hp (List.mem_append_right _ hd)
    · exact fun hd => (List.nodup_append.mp h.childSizes.nodup).2.2 x hxC x hd rfl
  constructor
  · refine hMoved.row hP hA hRow (fun hGone => hNe hGone.2) (fun he => absurd he hNe) hEntry ?_ fun t ht => ?_
    · rw [if_neg hNe, List.length_take, hShort, hFull]
      omega
    · rw [List.length_take] at ht
      have ht' : t < 100 := by omega
      rw [List.getElem?_take, if_pos ht', hNew t (by omega), List.getElem?_append_left (by omega),
        List.getElem?_eq_getElem (show q < s.length by omega)]
      simp only [hOwn t ht']
  · have hLength : ((swapOut (l ++ s) k).drop 100).length = q := by
      rw [List.length_drop, hShort, Nat.add_sub_cancel_left]
    refine Moved.blankChildren h hq hj rfl hMoved hP hA rfl hxD hLength fun t ht htC => ?_
    rw [List.getElem?_drop, hNew _ (by omega), List.getElem?_append_right (by omega)]
    simp only [hBehind t ht htC, hFull, Nat.add_sub_cancel_left]

/-- A removal from a directory with more than 101 entries. -/
theorem Store.BlankChildren.removed_large (h : m.store.BlankChildren C D s) (hA : m.store.Apart)
    (hRow : m.store.Row p l true) (hp : p ∉ C ++ D) (hFirst : FirstAt (l ++ s) inum k)
    (hMore : 1 < s.length) (hNot : k ≠ 100) (stack : Nat) :
    ∃ m' x i y j, removeFromDir (stack + 2) p inum m = .ok () m' ∧
      Moved m.store m'.store ((s.length - 1) % 100 = 0) x i y j ∧ m.store.Places x i y j ∧
      (x = p ∨ x ∈ C) ∧ y ∈ C ∧ m'.store.Row p ((swapOut (l ++ s) k).take 100) true ∧
      m'.store.BlankChildren (C.take ((s.length + 98) / 100)) (C.drop ((s.length + 98) / 100) ++ D)
        ((swapOut (l ++ s) k).drop 100) := by
  have hk := hFirst.lt
  have hFull := hRow.full rfl
  have hCount := h.childSizes.count
  have hSize : m.store.size p = l.length + 1 := hRow.size
  obtain ⟨q, hq⟩ : ∃ q, s.length = q + 1 := ⟨s.length - 1, by omega⟩
  have hj : q / 100 < C.length := by omega
  have hPred : s.length - 1 = q := by omega
  have hSum : s.length + 98 = q + 99 := by omega
  rw [List.length_append, hFull] at hk
  rw [hPred, hSum]
  have hpC : p ∉ C := fun hc => hp (List.mem_append_left _ hc)
  have hPlaces : ∀ x i, m.store.Alive x → i < min (m.store.size x) 100 →
      m.store.Places x i C[q / 100] (q % 100) := fun x i hAlive hi => by
    have hChildSize : m.store.size C[q / 100] = (page 100 s (q / 100)).length + 0 := (h.child _ hj).size
    rw [page_length] at hChildSize
    exact ⟨hAlive, hi, (h.child _ hj).alive, by omega, by omega⟩
  rcases Nat.lt_or_ge k 100 with hLow | hHigh
  · obtain ⟨m', hRun, hMoved⟩ := h.remove_own hRow hpC hFirst hq (by omega) hj hLow stack
    have hP := hPlaces p k hRow.alive (by omega)
    refine ⟨m', p, k, _, _, hRun, hMoved, hP, Or.inl rfl, List.getElem_mem hj,
      h.moved_large hA hRow hp hq hj hP (Or.inl rfl) (fun t _ => ?_) (fun t _ ht => ?_) hMoved⟩
    · exact ⟨fun he => ⟨rfl, he⟩, fun he => he.2⟩
    · exact iff_of_false (by omega) fun he => hpC (he.1 ▸ List.getElem_mem ht)
  · obtain ⟨r, rfl⟩ : ∃ r, k = 100 + r := ⟨k - 100, by omega⟩
    have hrC : r / 100 < C.length := by omega
    have hHoleSize : m.store.size C[r / 100] = (page 100 s (r / 100)).length + 0 := (h.child _ hrC).size
    rw [page_length] at hHoleSize
    obtain ⟨m', hRun, hMoved⟩ :=
      h.remove_behind hRow hFirst hq (by omega) hj (by omega) (by omega) hrC stack
    have hP := hPlaces C[r / 100] (r % 100) (h.child _ hrC).alive (by omega)
    have hMem : C[r / 100] ∈ C := List.getElem_mem hrC
    refine ⟨m', _, _, _, _, hRun, hMoved, hP, Or.inr hMem, List.getElem_mem hj,
      h.moved_large hA hRow hp hq hj hP (Or.inr hMem) (fun t ht => ?_) (fun t _ ht => ?_) hMoved⟩
    · exact iff_of_false (by omega) fun he => hpC (he.1 ▸ hMem)
    · rw [List.Nodup.getElem_inj_iff (List.nodup_append.mp h.childSizes.nodup).1]
      omega

end Steps
end InodeFS
