import InodeFS.Enumeration
import InodeFS.RoundTrip
import InodeFS.SetAttr

/-! `get_file_size` beside `read_file`. The first looks at the last block of each
inode that has no children and counts at least one byte there, the second drops
all trailing zero bytes of each inode. -/
namespace InodeFS

open Bytes Exec Ownership Store Transition

section Measure

/-- The bytes of `s` in its last block. -/
def lastBlock (s : List Byte) : List Byte := s.drop (512 * (blocksFor s.length - 1))

/-- What `get_file_size` returns for an inode without children. -/
def ownSize (s : List Byte) : Nat :=
  if s = [] then 0 else 512 * (blocksFor s.length - 1) + ((trim (lastBlock s)).length - 1) + 1

/-- What `get_file_size` returns for a tree of depth at most `n` that was written
for `s`. -/
def measured : Nat → List Byte → Nat
  | 0, s => ownSize s
  | n + 1, s =>
      if s.length ≤ directSize then ownSize s else directSize + ((pieces s).map (measured n)).sum

variable {n : Nat} {s : List Byte}

theorem measured_of_le (h : s.length ≤ 51200) (n : Nat) : measured n s = ownSize s := by
  cases n with
  | zero => rfl
  | succ n => exact if_pos h

theorem measured_of_gt (h : 51200 < s.length) (n : Nat) :
    measured (n + 1) s = 51200 + ((pieces s).map (measured n)).sum :=
  if_neg (Nat.not_le.mpr h)

theorem readBack_of_le (h : s.length ≤ 51200) (n : Nat) : readBack n s = trim s := by
  cases n with
  | zero => rfl
  | succ n =>
      rw [readBack, pieces_of_le h, List.flatMap_nil, List.append_nil, directSize_eq,
        List.take_of_length_le h]

theorem front_append_lastBlock (s : List Byte) :
    s.take (512 * (blocksFor s.length - 1)) ++ lastBlock s = s := List.take_append_drop _ _

theorem front_length (hne : s ≠ []) :
    (s.take (512 * (blocksFor s.length - 1))).length = 512 * (blocksFor s.length - 1) := by
  have hPos := List.length_pos_iff.mpr hne
  refine List.length_take_of_le ?_
  rw [blocksFor_eq]
  omega

theorem trim_length_of_lastBlock (hne : s ≠ []) (hLast : trim (lastBlock s) ≠ []) :
    (trim s).length = ownSize s := by
  have hPos := List.length_pos_iff.mpr hLast
  have hTrim := trim_append (s.take (512 * (blocksFor s.length - 1))) hLast
  rw [front_append_lastBlock] at hTrim
  rw [hTrim, List.length_append, front_length hne, ownSize, if_neg hne]
  omega

/-- One byte is counted in a last block that has only zeros. -/
theorem trim_length_lt_ownSize (hne : s ≠ []) (hLast : trim (lastBlock s) = []) :
    (trim s).length < ownSize s := by
  have hTrim := trim_append_of_nil (s.take (512 * (blocksFor s.length - 1))) hLast
  have hLe := trim_length_le (s.take (512 * (blocksFor s.length - 1)))
  rw [front_append_lastBlock] at hTrim
  rw [front_length hne] at hLe
  rw [hTrim, ownSize, if_neg hne]
  omega

theorem trim_length_le_ownSize (s : List Byte) : (trim s).length ≤ ownSize s := by
  by_cases hne : s = []
  · rw [hne, trim_nil]
    exact Nat.zero_le _
  · by_cases hLast : trim (lastBlock s) = []
    · exact (trim_length_lt_ownSize hne hLast).le
    · exact (trim_length_of_lastBlock hne hLast).le

theorem ownSize_eq_iff : ownSize s = (trim s).length ↔ (s ≠ [] → trim (lastBlock s) ≠ []) := by
  by_cases hne : s = []
  · subst hne
    simp [ownSize]
  · rw [forall_prop_of_true hne]
    constructor
    · intro hSize hLast
      have := trim_length_lt_ownSize hne hLast
      omega
    · intro hLast
      exact (trim_length_of_lastBlock hne hLast).symm

theorem ownSize_pos (hne : s ≠ []) : 0 < ownSize s := by
  rw [ownSize, if_neg hne]
  exact Nat.succ_pos _

theorem ownSize_le (s : List Byte) : ownSize s ≤ 512 * blocksFor s.length := by
  by_cases hne : s = []
  · rw [ownSize, if_pos hne]
    exact Nat.zero_le _
  · have hPos := List.length_pos_iff.mpr hne
    have hTrim := trim_length_le (lastBlock s)
    rw [lastBlock, List.length_drop] at hTrim
    rw [ownSize, if_neg hne, lastBlock]
    rw [blocksFor_eq] at hTrim ⊢
    omega

theorem piece_zero_ne_nil (h : 51200 < s.length) : piece s 0 ∈ pieces s ∧ piece s 0 ≠ [] := by
  have hLength := piece_length s (show 0 < 127 by decide)
  refine ⟨mem_pieces.mpr ⟨0, ?_, rfl⟩, ?_⟩
  · rw [childCount_eq, parts_eq]
    split <;> omega
  · rw [← List.length_pos_iff]
    omega

theorem length_le_of_mem_pieces {p : List Byte} (h : p ∈ pieces s) : p.length ≤ s.length := by
  obtain ⟨j, hj, rfl⟩ := mem_pieces.mp h
  have hCount := childCount_le s.length
  by_cases hSmall : j < 127
  · have := piece_length s hSmall
    omega
  · obtain rfl : j = 127 := by omega
    have := piece_last_length s
    omega

theorem sum_measured_le (h : ∀ p ∈ pieces s, measured n p ≤ 512 * blocksFor p.length) :
    ((pieces s).map (measured n)).sum ≤ 512 * (blocksFor s.length - 100) := by
  have hBlocks := congrArg List.length (padTo_pieces s)
  have hSum := List.sum_le_sum h
  simp only [List.length_append, List.length_flatMap, padTo_length] at hBlocks
  omega

theorem measured_le (n : Nat) (s : List Byte) : measured n s ≤ 512 * blocksFor s.length := by
  induction n generalizing s with
  | zero => exact ownSize_le s
  | succ n ih =>
      by_cases hSmall : s.length ≤ 51200
      · rw [measured_of_le hSmall]
        exact ownSize_le s
      · have hSum := sum_measured_le (n := n) fun p (_ : p ∈ pieces s) => ih p
        have hBlocks := blocksFor_eq s.length
        rw [measured_of_gt (Nat.lt_of_not_le hSmall)]
        omega

theorem trim_readBack (n : Nat) (s : List Byte) : trim (readBack n s) = readBack n s := by
  cases n with
  | zero => exact trim_trim s
  | succ n => exact trim_trim _

/-- Trimmed parts make a trimmed whole; an empty part at the end does no harm. -/
theorem trim_flatMap {f : List Byte → List Byte} (h : ∀ p, trim (f p) = f p)
    (l : List (List Byte)) : trim (l.flatMap f) = l.flatMap f := by
  induction l using List.reverseRecOn with
  | nil => rfl
  | append_singleton l p ih =>
      rw [List.flatMap_append, List.flatMap_singleton]
      by_cases hp : f p = []
      · rw [hp, List.append_nil, ih]
      · rw [trim_append _ ((h p).symm ▸ hp), h p]

/-- Terms that are bounded one by one and have equal sums are equal. -/
theorem eq_of_sum_eq {α : Type} {f g : α → Nat} {l : List α} (hLe : ∀ a ∈ l, f a ≤ g a)
    (hSum : (l.map g).sum ≤ (l.map f).sum) : ∀ a ∈ l, g a = f a := by
  induction l with
  | nil => simp
  | cons a rest ih =>
      have hHead := hLe a List.mem_cons_self
      have hTail := List.sum_le_sum fun b (hb : b ∈ rest) => hLe b (List.mem_cons_of_mem a hb)
      rw [List.map_cons, List.map_cons, List.sum_cons, List.sum_cons] at hSum
      intro b hb
      rcases List.mem_cons.mp hb with rfl | hb
      · omega
      · exact ih (fun c hc => hLe c (List.mem_cons_of_mem a hc)) (by omega) b hb

theorem readBack_succ_length_le (n : Nat) (h : 51200 < s.length) :
    (readBack (n + 1) s).length ≤ 51200 + ((pieces s).map fun p => (readBack n p).length).sum := by
  refine (trim_length_le _).trans ?_
  rw [List.length_append, List.length_flatMap, directSize_eq, List.length_take_of_le h.le]

/-- `read_file` never returns more than `get_file_size` says. -/
theorem readBack_length_le_measured (n : Nat) (s : List Byte) :
    (readBack n s).length ≤ measured n s := by
  induction n generalizing s with
  | zero => exact trim_length_le_ownSize s
  | succ n ih =>
      by_cases hSmall : s.length ≤ 51200
      · rw [readBack_of_le hSmall, measured_of_le hSmall]
        exact trim_length_le_ownSize s
      · have hLarge := Nat.lt_of_not_le hSmall
        have hSum := List.sum_le_sum fun p (_ : p ∈ pieces s) => ih p
        have hLe := readBack_succ_length_le n hLarge
        rw [measured_of_gt hLarge]
        omega

theorem measured_pos (n : Nat) (hne : s ≠ []) : 0 < measured n s := by
  by_cases hSmall : s.length ≤ 51200
  · rw [measured_of_le hSmall]
    exact ownSize_pos hne
  · cases n with
    | zero => exact ownSize_pos hne
    | succ n =>
        rw [measured_of_gt (Nat.lt_of_not_le hSmall)]
        omega

/-- Behind an indirect block the two agree when they agree on every child. -/
theorem measured_succ_eq_iff (h : 51200 < s.length) : measured (n + 1) s = (readBack (n + 1) s).length ↔
    ∀ p ∈ pieces s, measured n p = (readBack n p).length := by
  rw [measured_of_gt h]
  constructor
  · intro hEq
    have hLe := readBack_succ_length_le n h
    exact eq_of_sum_eq (fun p _ => readBack_length_le_measured n p) (by omega)
  · intro hPieces
    -- The first child is not empty, so the bytes behind the direct ones end in
    -- a byte that stays.
    obtain ⟨hMem, hne⟩ := piece_zero_ne_nil h
    have hFirst : readBack n (piece s 0) ≠ [] := by
      rw [← List.length_pos_iff, ← hPieces _ hMem]
      exact measured_pos n hne
    have hTrim : trim ((pieces s).flatMap (readBack n)) = (pieces s).flatMap (readBack n) :=
      trim_flatMap (trim_readBack n) _
    have hSome : trim ((pieces s).flatMap (readBack n)) ≠ [] := by
      rw [hTrim, ne_eq, List.flatMap_eq_nil_iff]
      exact fun hNil => hFirst (hNil _ hMem)
    rw [readBack, trim_append _ hSome, hTrim, List.length_append, List.length_flatMap,
      directSize_eq, List.length_take_of_le h.le, List.map_congr_left hPieces]

/-- Where the bytes of part `k` end. -/
def partEnd (s : List Byte) (k : Nat) : Nat := min (directSize * (k + 1)) s.length

/-- The last block of part `k` has a byte other than zero. -/
def TailNonzero (s : List Byte) (k : Nat) : Prop :=
  ∃ i, 512 * (blocksFor (partEnd s k) - 1) ≤ i ∧ i < partEnd s k ∧ byteAt s i ≠ 0

/-- Every part that is read on its own has a byte other than zero in its last
block. A part at the head of an inode is read together with the parts behind it. -/
def TailsNonzero (s : List Byte) : Prop :=
  ∀ k < parts s.length, (k % nindirect ≠ 0 ∨ k + 1 = parts s.length) → TailNonzero s k

theorem partEnd_eq (s : List Byte) (k : Nat) : partEnd s k = min (51200 * (k + 1)) s.length := rfl

theorem trim_ne_nil_iff (s : List Byte) : trim s ≠ [] ↔ ∃ i < s.length, byteAt s i ≠ 0 := by
  rw [ne_eq, trim, List.rdropWhile_eq_nil_iff]
  push Not
  constructor
  · rintro ⟨b, hb, hne⟩
    obtain ⟨i, hi, rfl⟩ := List.getElem_of_mem hb
    refine ⟨i, hi, fun hZero => hne ?_⟩
    rw [byteAt, List.getElem?_eq_getElem hi, Option.getD_some] at hZero
    simpa using UInt8.toNat_inj.mp hZero
  · rintro ⟨i, hi, hne⟩
    refine ⟨s[i], List.getElem_mem hi, fun hZero => hne ?_⟩
    rw [byteAt, List.getElem?_eq_getElem hi, Option.getD_some]
    simpa using congrArg UInt8.toNat (beq_iff_eq.mp hZero)

theorem lastBlock_ne_nil_iff (s : List Byte) : trim (lastBlock s) ≠ [] ↔
    ∃ i, 512 * (blocksFor s.length - 1) ≤ i ∧ i < s.length ∧ byteAt s i ≠ 0 := by
  rw [trim_ne_nil_iff, lastBlock, List.length_drop]
  simp only [byteAt_drop]
  constructor
  · rintro ⟨i, hi, hne⟩
    exact ⟨_, Nat.le_add_right _ i, by omega, hne⟩
  · rintro ⟨i, hLow, hi, hne⟩
    refine ⟨i - 512 * (blocksFor s.length - 1), by omega, ?_⟩
    rwa [Nat.add_sub_cancel' hLow]

theorem partEnd_zero (h : s.length ≤ 51200) : partEnd s 0 = s.length := by
  rw [partEnd_eq]
  omega

theorem lt_parts_iff {n k : Nat} : k < parts n ↔ 51200 * k < n := by
  rw [parts_eq]
  omega

theorem tailsNonzero_of_nul_free {s : List Byte} (h : (0 : Byte) ∉ s) : TailsNonzero s := by
  intro k hk _
  have hSome := lt_parts_iff.mp hk
  have hEnd := partEnd_eq s k
  have hBlocks := blocksFor_eq (partEnd s k)
  exact ⟨partEnd s k - 1, by omega, by omega, byteAt_ne_zero h (by omega)⟩

theorem parts_le_one {n : Nat} (h : n ≤ 51200) : parts n ≤ 1 := by
  rw [parts_eq]
  omega

theorem lt_childCount_iff {n j : Nat} (hj : j < 127) : j < childCount n ↔ 51200 * (j + 1) < n := by
  rw [← lt_parts_iff, childCount_eq]
  split <;> omega

theorem tailsNonzero_of_le (h : s.length ≤ 51200) :
    TailsNonzero s ↔ (s ≠ [] → trim (lastBlock s) ≠ []) := by
  rw [lastBlock_ne_nil_iff]
  constructor
  · intro hTails hne
    have hPos := List.length_pos_iff.mpr hne
    have hOne := parts_le_one h
    have hSome : 0 < parts s.length := lt_parts_iff.mpr hPos
    have hTail := hTails 0 hSome (Or.inr (by omega))
    rwa [TailNonzero, partEnd_zero h] at hTail
  · intro hLast k hk _
    have hOne := parts_le_one h
    obtain rfl : k = 0 := by omega
    rw [TailNonzero, partEnd_zero h]
    exact hLast (List.length_pos_iff.mp (lt_parts_iff.mp hk))

/-- `p` is the piece of `s` that begins with part `m`. -/
theorem tailNonzero_shift {p : List Byte} {m k : Nat} (hPos : 0 < partEnd p k)
    (hEnd : partEnd s (m + k) = 51200 * m + partEnd p k)
    (hByte : ∀ i < partEnd p k, byteAt p i = byteAt s (51200 * m + i)) :
    TailNonzero s (m + k) ↔ TailNonzero p k := by
  have hBlocks : 512 * (blocksFor (51200 * m + partEnd p k) - 1) =
      51200 * m + 512 * (blocksFor (partEnd p k) - 1) := by
    simp only [blocksFor_eq]
    omega
  rw [TailNonzero, TailNonzero, hEnd, hBlocks]
  constructor
  · rintro ⟨i, hLow, hi, hne⟩
    refine ⟨i - 51200 * m, by omega, by omega, ?_⟩
    rwa [hByte _ (by omega), Nat.add_sub_cancel' (by omega)]
  · rintro ⟨i, hLow, hi, hne⟩
    refine ⟨51200 * m + i, by omega, by omega, ?_⟩
    rwa [← hByte i hi]

theorem tailNonzero_piece {j : Nat} (hj : j < 127) (hMore : 51200 * (j + 1) < s.length) :
    TailNonzero s (j + 1) ↔ TailNonzero (piece s j) 0 := by
  have hLength := piece_length s hj
  have hEnd : partEnd (piece s j) 0 = (piece s j).length := partEnd_zero (by omega)
  refine tailNonzero_shift (m := j + 1) (k := 0) (by omega) ?_ fun i hi => ?_
  · rw [hEnd, hLength, partEnd_eq]
    omega
  · rw [piece_of_lt s hj, byteAt_take _ (by omega), byteAt_drop]

theorem tailNonzero_last_piece {k : Nat} (hMore : 51200 * (128 + k) < s.length) :
    TailNonzero s (128 + k) ↔ TailNonzero (piece s 127) k := by
  have hLength := piece_last_length s
  have hEnd := partEnd_eq (piece s 127) k
  refine tailNonzero_shift (m := 128) (k := k) (by omega) ?_ fun i _ => ?_
  · rw [hEnd, hLength, partEnd_eq]
    omega
  · rw [piece_last, byteAt_drop]

theorem tailsNonzero_of_gt (h : 51200 < s.length) :
    TailsNonzero s ↔ ∀ p ∈ pieces s, TailsNonzero p := by
  have hSome : 1 < parts s.length := lt_parts_iff.mpr h
  have hLast : parts (piece s 127).length = parts s.length - 128 := by
    simp only [piece_last_length, parts_eq]
    omega
  constructor
  · intro hTails p hp k hk hEnd
    obtain ⟨j, hj, rfl⟩ := mem_pieces.mp hp
    by_cases hSmall : j < 127
    · have hMore := (lt_childCount_iff hSmall).mp hj
      have hLength := piece_length s hSmall
      have hOne : parts (piece s j).length ≤ 1 := parts_le_one (by omega)
      obtain rfl : k = 0 := by omega
      refine (tailNonzero_piece hSmall hMore).mp (hTails (j + 1) (lt_parts_iff.mpr hMore) (Or.inl ?_))
      rw [nindirect_eq]
      omega
    · have hCount := childCount_le s.length
      obtain rfl : j = 127 := by omega
      rw [hLast] at hk hEnd
      have hMore : 128 + k < parts s.length := by omega
      refine (tailNonzero_last_piece (lt_parts_iff.mp hMore)).mp (hTails (128 + k) hMore ?_)
      rw [nindirect_eq] at hEnd ⊢
      omega
  · intro hPieces k hk hEnd
    by_cases hSmall : k < 128
    · obtain ⟨j, rfl⟩ : ∃ j, k = j + 1 := by
        refine ⟨k - 1, ?_⟩
        rw [nindirect_eq] at hEnd
        omega
      have hMore := lt_parts_iff.mp hk
      have hMem : piece s j ∈ pieces s :=
        mem_pieces.mpr ⟨j, (lt_childCount_iff (by omega)).mpr hMore, rfl⟩
      have hLength := piece_length s (show j < 127 by omega)
      have hPos : 0 < parts (piece s j).length := lt_parts_iff.mpr (by omega)
      have hOne : parts (piece s j).length ≤ 1 := parts_le_one (by omega)
      exact (tailNonzero_piece (by omega) hMore).mpr (hPieces _ hMem 0 hPos (Or.inr (by omega)))
    · obtain ⟨j, rfl⟩ : ∃ j, k = 128 + j := ⟨k - 128, by omega⟩
      have hMem : piece s 127 ∈ pieces s := by
        refine mem_pieces.mpr ⟨127, ?_, rfl⟩
        rw [childCount_eq, if_neg (by omega)]
        omega
      refine (tailNonzero_last_piece (lt_parts_iff.mp hk)).mpr (hPieces _ hMem j (by omega) ?_)
      rw [hLast]
      rw [nindirect_eq] at hEnd ⊢
      omega

/-- `get_file_size` agrees with `read_file` exactly when it finds a byte in each
last block that it looks at. -/
theorem measured_eq_iff (h : levels s.length ≤ n) :
    measured n s = (readBack n s).length ↔ TailsNonzero s := by
  induction n generalizing s with
  | zero =>
      have hSmall : s.length ≤ 51200 := by
        rw [levels_eq] at h
        omega
      rw [measured, readBack, ownSize_eq_iff, tailsNonzero_of_le hSmall]
  | succ n ih =>
      by_cases hSmall : s.length ≤ 51200
      · rw [measured_of_le hSmall, readBack_of_le hSmall, ownSize_eq_iff, tailsNonzero_of_le hSmall]
      · have hLarge := Nat.lt_of_not_le hSmall
        rw [measured_succ_eq_iff hLarge, tailsNonzero_of_gt hLarge]
        refine forall₂_congr fun p hp => ih ?_
        obtain ⟨j, -, rfl⟩ := mem_pieces.mp hp
        exact levels_piece h j

end Measure

namespace Store

variable {σ : Store} {n r : Nat} {s : List Byte}

theorem fileSize_own (hSmall : s.length ≤ 51200) (hSize : σ.size r = blocksFor s.length)
    (hDirect : σ.direct r = padTo (512 * blocksFor s.length) s) (n : Nat) :
    σ.fileSize n r = ownSize s := by
  have hBlocks := blocksFor_eq s.length
  rw [fileSize_small (by omega), ownSize]
  cases s with
  | nil => rw [if_pos rfl, if_pos (by rw [hSize]; rfl)]
  | cons b rest =>
      rw [← hSize] at hBlocks hDirect ⊢
      rw [List.length_cons] at hBlocks hSmall
      obtain ⟨k, hk⟩ := Nat.exists_eq_succ_of_ne_zero (show σ.size r ≠ 0 by omega)
      have hFront := flatMap_blocks_length (fun k => σ.data (σ.slot r k)) k
      rw [direct, Nat.min_eq_left (by omega), hk, Nat.succ_eq_add_one, List.range_succ,
        List.flatMap_append, List.flatMap_singleton, Nat.mul_add, padTo_add] at hDirect
      have hLast := (List.append_inj hDirect (by rw [hFront, padTo_length])).2
      have hBlock : lastBlock (b :: rest) = (b :: rest).drop (512 * k) := by
        rw [lastBlock, ← hSize, hk, Nat.succ_eq_add_one, Nat.add_sub_cancel]
      rw [if_neg (by omega), if_neg (List.cons_ne_nil b rest), hk, Nat.succ_eq_add_one,
        Nat.add_sub_cancel, lastNonZero, hLast, hBlock, padTo_of_length_le, trim_append_zeros]
      rw [List.length_drop, List.length_cons]
      omega

/-- `get_file_size` on the tree that was written for `s`. -/
theorem Holds.fileSize (h : σ.Holds n r s) (hFit : 512 * blocksFor s.length < 2 ^ 32) :
    σ.fileSize n r = measured n s := by
  induction n generalizing r s with
  | zero => exact fileSize_own h.1 h.2.1 h.2.2 0
  | succ n ih =>
      have hBlocks := blocksFor_eq s.length
      have hSize := h.size_eq
      by_cases hSmall : s.length ≤ 51200
      · rw [measured_of_le hSmall]
        refine fileSize_own hSmall (by omega) ?_ (n + 1)
        rw [h.2.1, Nat.min_eq_left (by omega)]
      · have hLarge := Nat.lt_of_not_le hSmall
        have hKids : (σ.kids r).map (σ.fileSize n) = (pieces s).map (measured n) := by
          have hFits := (List.forall₂_and_left (p := (·.length ≤ s.length)) _ _).mpr
            ⟨fun p (hp : p ∈ pieces s) => length_le_of_mem_pieces hp, h.2.2.flip⟩
          rw [← List.forall₂_eq_eq_eq, List.forall₂_map_left_iff, List.forall₂_map_right_iff]
          refine hFits.flip.imp fun c p hc => ih hc.2 ?_
          have hPiece := blocksFor_eq p.length
          have := hc.1
          omega
        have hBound := measured_le (n + 1) s
        rw [Store.fileSize, if_neg (by omega), if_neg (by omega), hKids, measured_of_gt hLarge]
        rw [measured_of_gt hLarge] at hBound
        exact Nat.mod_eq_of_lt (by omega)

theorem SameTree.holds {σ' : Store} (hTree : SameTree σ σ' r) (h : σ.Holds n r s) :
    σ'.Holds n r s := by
  obtain ⟨P, hr, hClosed, hSame⟩ := hTree
  exact Holds.congr hSame hClosed hr h

/-- An inode without blocks holds the empty string. -/
theorem holds_nil {i : Nat} (hSize : σ.size i = 0) (n : Nat) : σ.Holds n i [] := by
  have hKids : σ.kids i = [] := kids_of_size_le (by omega)
  have hDirect : σ.direct i = [] := by
    rw [direct, hSize]
    rfl
  cases n with
  | zero => exact ⟨Nat.zero_le _, hSize, hDirect⟩
  | succ n =>
      refine ⟨hSize, hDirect, ?_⟩
      rw [hKids]
      exact List.Forall₂.nil

theorem holds_freshInode (σ : Store) (i n : Nat) (type : FileType) (now : UInt32) :
    (σ.putInode i (freshInode type now)).Holds n i [] :=
  holds_nil size_putInode_self n

end Store

namespace ExtentServer

variable {stack : Nat} {clock : Nat → UInt32} {m : Machine} {live : Set Nat} {id : Nat}
  {last : Nat → List Byte}

/-- A machine with the ids that were handed out, and the string that was last put to each. -/
structure Written where
  machine : Machine
  live : Set Nat
  last : Nat → List Byte

def Written.start (m : Machine) : Written := { machine := m, live := {1}, last := fun _ => [] }

/-- One call. A `put` may run out of blocks. -/
inductive Writes (stack : Nat) (w : Written) : Written → Prop where
  | create {m : Machine} {type : FileType} {id : Nat} (hRun : create type w.machine = .ok id m) :
      Writes stack w
        { machine := m, live := insert id w.live, last := Function.update w.last id [] }
  | put {m : Machine} {id : Nat} {str : List Byte} (hLive : id ∈ w.live) (hLen : str.length < 2 ^ 31)
      (hRun : put stack id str w.machine = .ok () m) :
      Writes stack w { w with machine := m, last := Function.update w.last id str }
  | putFailed {m : Machine} {id : Nat} {str : List Byte} (hLive : id ∈ w.live)
      (hRun : put stack id str w.machine = .error .badAlloc m) : Writes stack w { w with machine := m }
  | remove {m : Machine} {id : Nat} (hLive : id ∈ w.live) (hRoot : id ≠ 1)
      (hRun : remove stack id w.machine = .ok () m) :
      Writes stack w { w with machine := m, live := w.live \ {id} }

/-- The states reached by `create`, `put` and `remove`, with the ids that were
handed out and the string that was last put to each of them. -/
def Puts (stack : Nat) (clock : Nat → UInt32) (m : Machine) (live : Set Nat)
    (last : Nat → List Byte) : Prop := Reach (Fresh clock Written.start) (Writes stack) ⟨m, live, last⟩

/-- Every id holds the string that was last put to it. -/
structure HoldsLast (m : Machine) (live : Set Nat) (last : Nat → List Byte) : Prop where
  intact : m.store.Intact live
  short : ∀ i, (last i).length < 2 ^ 31
  holds : ∀ i ∈ live, m.store.Holds maxDepth i (last i)

/-- A call leaves the trees of the other ids as they are. -/
theorem Step.sameTree {s s' : Session} {call : Call} (hStep : Step stack s call s')
    (hStack : maxDepth < stack) (hCall : call.KeepsSize) (h : s.machine.store.Intact s.live)
    {i : Nat} (hi : i ∈ s.live) (hne : call.target ≠ some i) :
    SameTree s.machine.store s'.machine.store i := by
  rcases (hStep.keeps hStack hCall h).2 i (hStep.stays_live hi hne) with ⟨-, hSame, -⟩ | ⟨hTarget, -⟩
  · exact hSame
  · exact (hne (hTarget hi)).elim

theorem HoldsLast.start {clock : Nat → UInt32} (hInit : initInodeManager (Machine.zeroed clock) = .ok () m) :
    HoldsLast m {1} fun _ => [] := by
  obtain ⟨now, hStore⟩ := wp_ok (wp_initInodeManager clock) hInit
  refine ⟨(Session.start_intact hInit).1, fun _ => by decide, fun i hi => ?_⟩
  obtain rfl : i = 1 := hi
  rw [hStore]
  exact holds_freshInode _ _ _ _ _

/-- One id gets another string. -/
theorem HoldsLast.update {str : List Byte} (hIntact : m.store.Intact live)
    (hShort : ∀ i, (last i).length < 2 ^ 31) (hLen : str.length < 2 ^ 31)
    (hSelf : m.store.Holds maxDepth id str)
    (hOther : ∀ i ∈ live, i ≠ id → m.store.Holds maxDepth i (last i)) :
    HoldsLast m live (Function.update last id str) := by
  refine ⟨hIntact, fun i => ?_, fun i hi => ?_⟩
  · by_cases he : i = id
    · rw [he, Function.update_self]
      exact hLen
    · rw [Function.update_of_ne he]
      exact hShort i
  · by_cases he : i = id
    · rw [he, Function.update_self]
      exact hSelf
    · rw [Function.update_of_ne he]
      exact hOther i hi he

theorem HoldsLast.writes {w w' : Written} (h : HoldsLast w.machine w.live w.last)
    (hStack : maxDepth < stack) (hStep : Writes stack w w') : HoldsLast w'.machine w'.live w'.last := by
  cases hStep with
  | @create m type id hRun =>
      obtain ⟨hGrows, hRoot, now, hStore⟩ := wp_ok (wp_create w.machine type) hRun
      have hNew : id ∉ w.live := fun hMem => hRoot.1.2 (h.intact.alive id hMem)
      refine .update (h.intact.handOut hGrows hRoot) h.short (by decide) ?_ fun i hi hne => ?_
      · rw [hStore]
        exact holds_freshInode _ _ _ _ _
      · have hOld : i ∈ w.live := hi.resolve_left hne
        exact (h.intact.sameTree_grows hGrows (h.intact.alive i hOld)).holds (h.holds i hOld)
  | @put m id str hLive hLen hRun =>
      have hStep : Step stack ⟨w.machine, w.live, fun _ => .ok []⟩ (.put id str) _ := .put hLive hRun
      have hPut := wp_ok (wp_put h.intact hStack hLive str) hRun
      rw [toInt_of_lt hLen, if_neg (by omega), Int.toNat_natCast, List.take_length] at hPut
      refine .update (hStep.keeps hStack trivial h.intact).1 h.short hLen ?_ fun i hi hne => ?_
      · exact hPut.holds maxDepth (levels_lt_maxDepth hLen)
      · have hTarget : (Call.put id str).target ≠ some i := fun h => hne (Option.some.inj h).symm
        exact (hStep.sameTree hStack trivial h.intact hi hTarget).holds (h.holds i hi)
  | @putFailed m id str hLive hRun =>
      obtain ⟨p, q, hProgress⟩ := (wp_error (wp_put h.intact hStack hLive str) hRun).progress
      refine ⟨h.intact.grows hProgress.grows, h.short, fun i hi => ?_⟩
      exact (h.intact.sameTree_grows hProgress.grows (h.intact.alive i hi)).holds (h.holds i hi)
  | @remove m id hLive hRoot hRun =>
      have hStep : Step stack ⟨w.machine, w.live, fun _ => .ok []⟩ (.remove id) _ :=
        .remove hLive hRoot hRun
      refine ⟨(hStep.keeps hStack trivial h.intact).1, h.short, fun i hi => ?_⟩
      have hTarget : (Call.remove id).target ≠ some i := fun h => hi.2 (Option.some.inj h).symm
      exact (hStep.sameTree hStack trivial h.intact hi.1 hTarget).holds (h.holds i hi.1)

theorem Puts.holdsLast (hStack : maxDepth < stack) (hRun : Puts stack clock m live last) :
    HoldsLast m live last := by
  refine Reach.invariant (I := fun w => HoldsLast w.machine w.live w.last) hRun ?_
    fun _ _ h hStep => h.writes hStack hStep
  rintro _ ⟨m, hInit, rfl⟩
  exact HoldsLast.start hInit

/-- What the two calls return, as functions of the string alone. -/
theorem HoldsLast.shown (h : HoldsLast m live last) (hStack : maxDepth < stack) (hLive : id ∈ live) :
    getattr m stack id = .ok (attrOf m.store id) ∧
      (attrOf m.store id).size = measured maxDepth (last id) ∧
      ExtentServer.get m stack id = .ok (readBack maxDepth (last id)) := by
  have hShort := h.short id
  have hBlocks := blocksFor_eq (last id).length
  refine ⟨getattr_eq h.intact hStack hLive, (h.holds id hLive).fileSize (by omega), ?_⟩
  rw [get_eq h.intact hStack hLive, (h.holds id hLive).content]

/-- `getattr` returns the length of what `get` returns exactly when the string
last put has a byte other than zero at the end of each part. -/
theorem size_eq_length_iff (hStack : maxDepth < stack) (hRun : Puts stack clock m live last)
    (hLive : id ∈ live) : ∃ attr str, getattr m stack id = .ok attr ∧
      ExtentServer.get m stack id = .ok str ∧
      (attr.size = str.length ↔ TailsNonzero (last id)) := by
  have h := hRun.holdsLast hStack
  obtain ⟨hAttr, hSize, hGet⟩ := h.shown hStack hLive
  refine ⟨_, _, hAttr, hGet, ?_⟩
  rw [hSize]
  exact measured_eq_iff (levels_lt_maxDepth (h.short id))

/-- A string in a new file. -/
theorem exists_puts {str : List Byte} (hLen : str.length < 2 ^ 31)
    (hBlocks : blocksNeeded str.length ≤ 2095612) (hInodes : inodesNeeded str.length ≤ 1022) :
    ∃ (m : Machine) (live : Set Nat) (last : Nat → List Byte) (id : Nat),
      Puts (maxDepth + 1) (fun _ => 0) m live last ∧ id ∈ live ∧ last id = str := by
  obtain ⟨m₀, hInit, hInodes₀, hBlocks₀⟩ := exists_start fun _ => 0
  obtain ⟨id, m₁, hCreate, -, -, hSame, hOne, -⟩ := exists_create m₀ .T_FILE (by omega)
  have hRun : Puts (maxDepth + 1) (fun _ => 0) m₁ _ _ :=
    Reach.next (.start ⟨m₀, hInit, rfl⟩) (.create hCreate)
  have h := hRun.holdsLast (Nat.lt_succ_self maxDepth)
  obtain ⟨m₂, hPut, -⟩ := exists_put h.intact (Nat.lt_succ_self maxDepth) (Or.inl rfl) hLen
    (by omega) (by omega)
  exact ⟨m₂, _, _, id, Reach.next hRun (.put (Or.inl rfl) hLen hPut), Or.inl rfl,
    Function.update_self _ _ _⟩

/-- 170000 letters, which take three child inodes. -/
theorem size_of_letters : ∃ (m : Machine) (live : Set Nat) (last : Nat → List Byte) (id : Nat)
    (attr : Attr) (str : List Byte), Puts (maxDepth + 1) (fun _ => 0) m live last ∧ id ∈ live ∧
    last id = List.replicate 170000 97 ∧ getattr m (maxDepth + 1) id = .ok attr ∧
    ExtentServer.get m (maxDepth + 1) id = .ok str ∧ attr.size = str.length := by
  have hNeeds : blocksNeeded 170000 = 334 ∧ inodesNeeded 170000 = 3 := by decide
  have hLength : (List.replicate 170000 (97 : Byte)).length = 170000 := List.length_replicate
  have hNul := nul_free_replicate 170000 (b := 97) (by decide)
  generalize List.replicate 170000 (97 : Byte) = letters at hLength hNul ⊢
  obtain ⟨m, live, last, id, hRun, hLive, hLast⟩ := exists_puts (show letters.length < 2 ^ 31 by omega)
    (by rw [hLength]; omega) (by rw [hLength]; omega)
  obtain ⟨attr, str, hAttr, hGet, hIff⟩ :=
    size_eq_length_iff (Nat.lt_succ_self maxDepth) hRun hLive
  exact ⟨m, live, last, id, attr, str, hRun, hLive, hLast, hAttr, hGet,
    hIff.mpr (hLast ▸ tailsNonzero_of_nul_free hNul)⟩

/-- The byte 0 is counted and not returned. -/
theorem size_of_zero_byte : ∃ (m : Machine) (live : Set Nat) (last : Nat → List Byte) (id : Nat)
    (attr : Attr), Puts (maxDepth + 1) (fun _ => 0) m live last ∧ id ∈ live ∧ last id = [0] ∧
    getattr m (maxDepth + 1) id = .ok attr ∧ attr.size = 1 ∧
    ExtentServer.get m (maxDepth + 1) id = .ok [] := by
  obtain ⟨m, live, last, id, hRun, hLive, hLast⟩ :=
    exists_puts (show [(0 : Byte)].length < 2 ^ 31 by decide) (by decide)
    (by decide)
  obtain ⟨hAttr, hSize, hGet⟩ := (hRun.holdsLast (Nat.lt_succ_self maxDepth)).shown
    (Nat.lt_succ_self maxDepth) hLive
  refine ⟨m, live, last, id, _, hRun, hLive, hLast, hAttr, ?_, ?_⟩
  · rw [hSize, hLast, measured_of_le (by decide)]
    rfl
  · rw [hGet, hLast, readBack_of_le (by decide)]
    rfl

end ExtentServer

end InodeFS
