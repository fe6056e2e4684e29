import InodeFS.Growth

/-! The tree which `write_file` builds for a byte string, and what `read_file`
returns from it. The first 51200 bytes go into the inode itself, the next 127
pieces of 51200 bytes into one child each, and the rest into the last child. -/
namespace InodeFS

open Bytes Ownership

/-- Pieces of 51200 bytes, the last one possibly shorter. -/
def parts (n : Nat) : Nat := (n + directSize - 1) / directSize

/-- Children of one inode of `n` bytes. The last of 128 may be empty. -/
def childCount (n : Nat) : Nat :=
  if parts n < nindirect then parts n - 1 else nindirect

/-- Nesting depth of the tree for `n` bytes. -/
def levels (n : Nat) : Nat :=
  (n + (nindirect - 1) * directSize - 1) / (nindirect * directSize)

/-- Blocks of the tree for `n` bytes, one indirect block on each level included. -/
def blocksNeeded (n : Nat) : Nat := blocksFor n + levels n

/-- Child inodes of the tree for `n` bytes. -/
def inodesNeeded (n : Nat) : Nat :=
  if parts n % nindirect = 0 then parts n else parts n - 1

theorem parts_eq (n : Nat) : parts n = (n + 51199) / 51200 := by
  simp only [parts, directSize_eq]
  omega

theorem levels_eq (n : Nat) : levels n = (n + 6502399) / 6553600 := by
  simp only [levels, nindirect_eq, directSize_eq]
  omega

theorem childCount_eq (n : Nat) :
    childCount n = if parts n < 128 then parts n - 1 else 128 := rfl

theorem blocksFor_eq (n : Nat) : blocksFor n = (n + 511) / 512 := by
  unfold blocksFor
  rw [blockSize_eq]
  by_cases h : n % 512 = 0
  · rw [if_neg (by omega)]
    omega
  · rw [if_pos h]
    omega

theorem blocksNeeded_mono {n k : Nat} (h : n ≤ k) : blocksNeeded n ≤ blocksNeeded k := by
  simp only [blocksNeeded, blocksFor_eq, levels_eq]
  omega

theorem inodesNeeded_mono {n k : Nat} (h : n ≤ k) : inodesNeeded n ≤ inodesNeeded k := by
  simp only [inodesNeeded, parts_eq, nindirect_eq]
  split <;> split <;> omega

theorem levels_of_gt {n : Nat} (h : 51200 < n) : levels n = levels (n - 6553600) + 1 := by
  simp only [levels_eq]
  omega

theorem levels_of_le {n : Nat} (h : n ≤ 51200) : levels n = 0 := by
  rw [levels_eq]
  omega

theorem levels_lt_maxDepth {n : Nat} (h : n < 2 ^ 31) : levels n ≤ maxDepth := by
  rw [levels_eq, maxDepth_eq]
  omega

theorem childCount_of_le {n : Nat} (h : n ≤ 51200) : childCount n = 0 := by
  have hParts : parts n ≤ 1 := by rw [parts_eq]; omega
  rw [childCount_eq, if_pos (by omega)]
  omega

theorem childCount_le (n : Nat) : childCount n ≤ 128 := by
  rw [childCount_eq]
  split <;> omega

/-- The bytes for the child at index `j`. -/
def piece (s : List Byte) (j : Nat) : List Byte :=
  if j < nindirect - 1 then (s.drop (directSize * (j + 1))).take directSize
  else s.drop (directSize * nindirect)

def pieces (s : List Byte) : List (List Byte) := (List.range (childCount s.length)).map (piece s)

theorem piece_of_lt (s : List Byte) {j : Nat} (h : j < 127) :
    piece s j = (s.drop (51200 * (j + 1))).take 51200 := if_pos h

theorem piece_last (s : List Byte) : piece s 127 = s.drop 6553600 :=
  if_neg (by rw [nindirect_eq]; omega)

theorem pieces_of_le {s : List Byte} (h : s.length ≤ 51200) : pieces s = [] := by
  rw [pieces, childCount_of_le h]
  rfl

theorem levels_piece {s : List Byte} {n : Nat} (h : levels s.length ≤ n + 1) (j : Nat) :
    levels (piece s j).length ≤ n := by
  rw [levels_eq] at h ⊢
  by_cases hj : j < 127
  · rw [piece_of_lt s hj, List.length_take]
    omega
  · have hPiece : piece s j = s.drop 6553600 := if_neg hj
    rw [hPiece, List.length_drop]
    omega

/-- The first `j` children hold the bytes after the direct ones in order. -/
theorem take_append_pieces (s : List Byte) {j : Nat} (h : j ≤ 127) :
    s.take 51200 ++ (List.range j).flatMap (piece s) = s.take (51200 * (j + 1)) := by
  induction j with
  | zero => simp
  | succ j ih =>
      have hStep : 51200 * (j + 1 + 1) = 51200 * (j + 1) + 51200 := by omega
      rw [List.range_succ, List.flatMap_append, ← List.append_assoc, ih (by omega),
        List.flatMap_singleton, piece_of_lt s (by omega), hStep, List.take_add]

/-- No byte is lost between the inode and its children. -/
theorem take_append_flatten_pieces (s : List Byte) : s.take 51200 ++ (pieces s).flatten = s := by
  have hFlat : (pieces s).flatten = (List.range (childCount s.length)).flatMap (piece s) :=
    List.flatMap_def.symm
  rw [hFlat]
  by_cases h : parts s.length < 128
  · have hCount : childCount s.length = parts s.length - 1 := if_pos h
    rw [hCount, take_append_pieces s (by omega), List.take_of_length_le]
    rw [parts_eq] at h ⊢
    omega
  · have hCount : childCount s.length = 127 + 1 := if_neg h
    rw [hCount, List.range_succ, List.flatMap_append, ← List.append_assoc,
      take_append_pieces s (le_refl _), List.flatMap_singleton, piece_last]
    exact List.take_append_drop _ s

/-- What `read_file` returns from a tree of depth at most `n` that was written
for `s`. Every node drops its trailing zero bytes. -/
def readBack : Nat → List Byte → List Byte
  | 0, s => trim s
  | n + 1, s => trim (s.take directSize ++ (pieces s).flatMap (readBack n))

/-- The byte before each piece boundary inside `s` is not zero. Boundaries are
at multiples of 51200, except behind the direct blocks of an inode, which are
read together with its children. -/
def SolidBoundaries (s : List Byte) : Prop :=
  ∀ k, 1 ≤ k → directSize * k < s.length → k % nindirect ≠ 1 → byteAt s (directSize * k - 1) ≠ 0

/-- No piece of `s` that is read on its own ends in a zero byte. -/
def Storable (s : List Byte) : Prop :=
  (∀ h : s ≠ [], s.getLast h ≠ 0) ∧ SolidBoundaries s

theorem byteAt_ne_zero {s : List Byte} (h : (0 : Byte) ∉ s) {i : Nat} (hi : i < s.length) :
    byteAt s i ≠ 0 := by
  rw [byteAt, List.getElem?_eq_getElem hi, Option.getD_some]
  intro hZero
  have hNul : s[i] = 0 := UInt8.toNat_inj.mp hZero
  exact h (hNul ▸ List.getElem_mem hi)

theorem nul_free_replicate (n : Nat) {b : Byte} (hb : b ≠ 0) : (0 : Byte) ∉ List.replicate n b :=
  fun hMem => hb (List.eq_of_mem_replicate hMem).symm

theorem storable_of_nul_free {s : List Byte} (h : (0 : Byte) ∉ s) : Storable s :=
  ⟨fun hne hLast => h (hLast ▸ List.getLast_mem hne), fun k hk hLen _ => byteAt_ne_zero h (by omega)⟩

private theorem length_flatMap_le {f : List Byte → List Byte} {l : List (List Byte)}
    (h : ∀ p ∈ l, (f p).length ≤ p.length) : (l.flatMap f).length ≤ l.flatten.length := by
  induction l with
  | nil => simp
  | cons p rest ih =>
      have hHead := h p (by simp)
      have hTail := ih fun q hq => h q (by simp [hq])
      simp only [List.flatMap_cons, List.flatten_cons, List.length_append]
      omega

/-- Shortening the parts of a string leaves it as it is only when no part was
shortened. -/
private theorem eq_of_flatMap_eq_flatten {f : List Byte → List Byte} {l : List (List Byte)}
    (h : ∀ p ∈ l, (f p).length ≤ p.length) (hEq : l.flatMap f = l.flatten) :
    ∀ p ∈ l, f p = p := by
  induction l with
  | nil => simp
  | cons p rest ih =>
      have hHead := h p (by simp)
      have hTail := length_flatMap_le fun q (hq : q ∈ rest) => h q (by simp [hq])
      have hTotal := congrArg List.length hEq
      rw [List.flatMap_cons, List.flatten_cons] at hEq hTotal
      simp only [List.length_append] at hTotal
      obtain ⟨hp, hRest⟩ := List.append_inj hEq (by omega)
      intro q hq
      rcases List.mem_cons.mp hq with rfl | hq
      · exact hp
      · exact ih (fun r hr => h r (by simp [hr])) hRest q hq

theorem readBack_length_le (n : Nat) (s : List Byte) : (readBack n s).length ≤ s.length := by
  induction n generalizing s with
  | zero => exact trim_length_le s
  | succ n ih =>
      have hFlat := length_flatMap_le fun p (_ : p ∈ pieces s) => ih p
      have hJoin := congrArg List.length (take_append_flatten_pieces s)
      refine (trim_length_le _).trans ?_
      rw [List.length_append] at hJoin ⊢
      simp only [directSize_eq]
      omega

/-- A string is read back unchanged when it does not end in a zero byte and
all its pieces are read back unchanged. -/
theorem readBack_succ_eq_self_iff (n : Nat) (s : List Byte) :
    readBack (n + 1) s = s ↔ trim s = s ∧ ∀ p ∈ pieces s, readBack n p = p := by
  have hJoin := take_append_flatten_pieces s
  have hLe : ∀ p ∈ pieces s, (readBack n p).length ≤ p.length := fun p _ => readBack_length_le n p
  rw [readBack, directSize_eq]
  constructor
  · intro h
    have hFlat := length_flatMap_le hLe
    have hTrim := trim_isPrefix (s.take 51200 ++ (pieces s).flatMap (readBack n))
    rw [h] at hTrim
    have hLen := hTrim.length_le
    have hTotal := congrArg List.length hJoin
    rw [List.length_append] at hLen hTotal
    have hSame : s = s.take 51200 ++ (pieces s).flatMap (readBack n) := by
      refine hTrim.eq_of_length ?_
      rw [List.length_append]
      omega
    rw [← hSame] at h
    refine ⟨h, eq_of_flatMap_eq_flatten hLe ?_⟩
    exact List.append_cancel_left (hSame.symm.trans hJoin.symm)
  · rintro ⟨hTrim, hPieces⟩
    have hFlat : (pieces s).flatMap (readBack n) = (pieces s).flatten := by
      rw [List.flatMap_congr hPieces, List.flatMap_id']
    rw [hFlat, hJoin, hTrim]

theorem getLast_eq_byteAt {s : List Byte} (h : s ≠ []) :
    (s.getLast h).toNat = byteAt s (s.length - 1) := by
  have hPos : 0 < s.length := List.length_pos_iff.mpr h
  rw [byteAt, List.getElem?_eq_getElem (by omega), Option.getD_some, List.getLast_eq_getElem]

theorem trim_eq_self_iff_byteAt (s : List Byte) :
    trim s = s ↔ (s ≠ [] → byteAt s (s.length - 1) ≠ 0) := by
  rw [trim_eq_self_iff]
  refine forall_congr' fun h => ?_
  rw [← getLast_eq_byteAt h, ne_eq, ne_eq, ← UInt8.toNat_inj]
  rfl

theorem storable_iff_trim (s : List Byte) : Storable s ↔ trim s = s ∧
    ∀ k, 1 ≤ k → 51200 * k < s.length → k % 128 ≠ 1 → byteAt s (51200 * k - 1) ≠ 0 := by
  rw [trim_eq_self_iff]
  rfl

theorem byteAt_drop (s : List Byte) (n i : Nat) : byteAt (s.drop n) i = byteAt s (n + i) := by
  rw [byteAt, List.getElem?_drop, byteAt]

theorem byteAt_take (s : List Byte) {n i : Nat} (h : i < n) : byteAt (s.take n) i = byteAt s i := by
  rw [byteAt, List.getElem?_take_of_lt h, byteAt]

theorem mem_pieces {s p : List Byte} :
    p ∈ pieces s ↔ ∃ j < childCount s.length, piece s j = p := by
  simp [pieces]

/-- A piece behind which other pieces follow has no boundary inside. Its last
byte lies at a boundary of `s`, or is the last byte of `s`. -/
theorem storable_piece {s : List Byte} (h : Storable s) {j : Nat} (hj : j < 127) :
    Storable (piece s j) := by
  rw [storable_iff_trim, trim_eq_self_iff_byteAt] at h ⊢
  rw [piece_of_lt s hj]
  simp only [List.length_take, List.length_drop]
  refine ⟨fun hp => ?_, fun k hk hlt => by omega⟩
  have hLen := List.length_pos_iff.mpr hp
  simp only [List.length_take, List.length_drop] at hLen
  rw [byteAt_take _ (by omega), byteAt_drop]
  by_cases hEnd : 51200 * (j + 2) < s.length
  · have hPos : 51200 * (j + 1) + (min 51200 (s.length - 51200 * (j + 1)) - 1) =
        51200 * (j + 2) - 1 := by omega
    rw [hPos]
    exact h.2 (j + 2) (by omega) hEnd (by omega)
  · have hPos : 51200 * (j + 1) + (min 51200 (s.length - 51200 * (j + 1)) - 1) =
        s.length - 1 := by omega
    rw [hPos]
    exact h.1 (List.length_pos_iff.mp (by omega))

/-- The boundaries of the last piece are those of `s`, 128 further on. -/
theorem storable_last_piece {s : List Byte} (h : Storable s) : Storable (piece s 127) := by
  rw [storable_iff_trim, trim_eq_self_iff_byteAt] at h ⊢
  rw [piece_last]
  simp only [List.length_drop, byteAt_drop]
  refine ⟨fun hp => ?_, fun k hk hlt hMod => ?_⟩
  · have hLen := List.length_pos_iff.mpr hp
    rw [List.length_drop] at hLen
    have hPos : 6553600 + (s.length - 6553600 - 1) = s.length - 1 := by omega
    rw [hPos]
    exact h.1 (List.length_pos_iff.mp (by omega))
  · have hPos : 6553600 + (51200 * k - 1) = 51200 * (k + 128) - 1 := by omega
    rw [hPos]
    exact h.2 (k + 128) (by omega) (by omega) (by omega)

theorem boundary_ne_zero {s : List Byte} (h : ∀ p ∈ pieces s, Storable p) {k : Nat}
    (hk : 1 ≤ k) (hlt : 51200 * k < s.length) (hMod : k % 128 ≠ 1) :
    byteAt s (51200 * k - 1) ≠ 0 := by
  have hParts : k + 1 ≤ parts s.length := by
    rw [parts_eq]
    omega
  by_cases hSmall : k ≤ 128
  · have hCount : k - 2 < childCount s.length := by
      rw [childCount_eq]
      split <;> omega
    have hPiece := h _ (mem_pieces.mpr ⟨k - 2, hCount, rfl⟩)
    rw [storable_iff_trim, trim_eq_self_iff_byteAt, piece_of_lt s (by omega)] at hPiece
    have hByte := hPiece.1
    rw [← List.length_pos_iff] at hByte
    simp only [List.length_take, List.length_drop] at hByte
    have hPos : 51200 * (k - 2 + 1) + (min 51200 (s.length - 51200 * (k - 2 + 1)) - 1) =
        51200 * k - 1 := by omega
    have hNe := hByte (by omega)
    rwa [byteAt_take _ (by omega), byteAt_drop, hPos] at hNe
  · have hCount : childCount s.length = 128 := by
      rw [childCount_eq, if_neg (by omega)]
    have hPiece := h _ (mem_pieces.mpr ⟨127, by omega, rfl⟩)
    rw [storable_iff_trim, piece_last, List.length_drop] at hPiece
    have hPos : 6553600 + (51200 * (k - 128) - 1) = 51200 * k - 1 := by omega
    have hNe := hPiece.2 (k - 128) (by omega) (by omega) (by omega)
    rwa [byteAt_drop, hPos] at hNe

/-- Storable strings are those all of whose pieces are storable. -/
theorem storable_iff_pieces (s : List Byte) :
    Storable s ↔ trim s = s ∧ ∀ p ∈ pieces s, Storable p := by
  constructor
  · intro h
    refine ⟨((storable_iff_trim s).mp h).1, fun p hp => ?_⟩
    obtain ⟨j, hj, rfl⟩ := mem_pieces.mp hp
    have hjLe := childCount_le s.length
    by_cases hLast : j < 127
    · exact storable_piece h hLast
    · obtain rfl : j = 127 := by omega
      exact storable_last_piece h
  · rintro ⟨hTrim, hPieces⟩
    exact (storable_iff_trim s).mpr ⟨hTrim, fun _ => boundary_ne_zero hPieces⟩

/-- Exactly the storable strings are read back unchanged. -/
theorem readBack_eq_self_iff {n : Nat} {s : List Byte} (h : levels s.length ≤ n) :
    readBack n s = s ↔ Storable s := by
  induction n generalizing s with
  | zero =>
      have hLen : s.length ≤ 51200 := by
        rw [levels_eq] at h
        omega
      rw [readBack, storable_iff_pieces, pieces_of_le hLen]
      simp
  | succ n ih =>
      rw [readBack_succ_eq_self_iff, storable_iff_pieces]
      refine and_congr_right fun _ => forall₂_congr fun p hp => ih ?_
      obtain ⟨j, -, rfl⟩ := mem_pieces.mp hp
      exact levels_piece h j

end InodeFS
