import Mathlib

/-! Byte strings: little-endian words inside a byte string, padding to a fixed
width, and removal of trailing zero bytes. -/
namespace Bytes

abbrev Byte := UInt8

/-- The byte at an offset, 0 behind the end. -/
def byteAt (bs : List Byte) (off : Nat) : Nat := (bs[off]?.getD 0).toNat

theorem byteAt_append_left {bs : List Byte} (tail : List Byte) {off : Nat}
    (h : off < bs.length) : byteAt (bs ++ tail) off = byteAt bs off := by
  simp only [byteAt, List.getElem?_append_left h]

theorem byteAt_append_right (bs tail : List Byte) (off : Nat) :
    byteAt (bs ++ tail) (bs.length + off) = byteAt tail off := by
  simp [byteAt, List.getElem?_append_right]

/-- The two bytes of a 16-bit word, low byte first. -/
def le16 (v : UInt16) : List Byte :=
  [UInt8.ofNat v.toNat, UInt8.ofNat (v.toNat / 256)]

/-- The four bytes of a 32-bit word, low byte first. -/
def le32 (v : UInt32) : List Byte :=
  [UInt8.ofNat v.toNat, UInt8.ofNat (v.toNat / 256), UInt8.ofNat (v.toNat / 65536),
    UInt8.ofNat (v.toNat / 16777216)]

/-- The 16-bit word at an offset. -/
def u16At (bs : List Byte) (off : Nat) : UInt16 :=
  UInt16.ofNat (byteAt bs off + 256 * byteAt bs (off + 1))

/-- The 32-bit word at an offset. -/
def u32At (bs : List Byte) (off : Nat) : UInt32 :=
  UInt32.ofNat (byteAt bs off + 256 * byteAt bs (off + 1) + 65536 * byteAt bs (off + 2) +
    16777216 * byteAt bs (off + 3))

@[simp] theorem le16_length (v : UInt16) : (le16 v).length = 2 := rfl

@[simp] theorem le32_length (v : UInt32) : (le32 v).length = 4 := rfl

theorem u16At_append_left {bs : List Byte} (tail : List Byte) {off : Nat}
    (h : off + 2 ≤ bs.length) : u16At (bs ++ tail) off = u16At bs off := by
  unfold u16At
  rw [byteAt_append_left tail (by omega), byteAt_append_left tail (by omega)]

theorem u32At_append_left {bs : List Byte} (tail : List Byte) {off : Nat}
    (h : off + 4 ≤ bs.length) : u32At (bs ++ tail) off = u32At bs off := by
  unfold u32At
  rw [byteAt_append_left tail (by omega), byteAt_append_left tail (by omega),
    byteAt_append_left tail (by omega), byteAt_append_left tail (by omega)]

theorem u32At_append_right (bs tail : List Byte) {off : Nat} (h : bs.length ≤ off) :
    u32At (bs ++ tail) off = u32At tail (off - bs.length) := by
  obtain ⟨k, rfl⟩ := Nat.exists_eq_add_of_le h
  simp only [u32At, Nat.add_assoc, byteAt_append_right, Nat.add_sub_cancel_left]

/-- A word is read back from its bytes. -/
theorem u16At_le16 (v : UInt16) (tail : List Byte) : u16At (le16 v ++ tail) 0 = v := by
  rw [u16At_append_left tail (by simp)]
  apply UInt16.toNat_inj.mp
  have := v.toNat_lt
  simp only [u16At, byteAt, le16, List.getElem?_cons_zero, List.getElem?_cons_succ,
    Option.getD_some, UInt8.toNat_ofNat', UInt16.toNat_ofNat']
  omega

theorem u32At_le32 (v : UInt32) (tail : List Byte) : u32At (le32 v ++ tail) 0 = v := by
  rw [u32At_append_left tail (by simp)]
  apply UInt32.toNat_inj.mp
  have := v.toNat_lt
  simp only [u32At, byteAt, le32, List.getElem?_cons_zero, List.getElem?_cons_succ,
    Option.getD_some, UInt8.toNat_ofNat', UInt32.toNat_ofNat']
  omega

@[simp] theorem flatMap_le32_length (vs : List UInt32) :
    (vs.flatMap le32).length = 4 * vs.length := by
  induction vs with
  | nil => rfl
  | cons v rest ih => simp [ih]; omega

theorem flatMap_le32_zeros (n : Nat) :
    (List.replicate n (0 : UInt32)).flatMap le32 = List.replicate (4 * n) 0 := by
  induction n with
  | zero => rfl
  | succ n ih =>
      have hWord : le32 0 = List.replicate 4 0 := rfl
      rw [List.replicate_succ, List.flatMap_cons, ih, hWord, ← List.replicate_add, Nat.mul_succ,
        Nat.add_comm]

/-- The `k`-th word of an array of words. -/
theorem u32At_flatMap (vs : List UInt32) (tail : List Byte) (k : Nat) (h : k < vs.length) :
    u32At (vs.flatMap le32 ++ tail) (4 * k) = vs[k] := by
  induction vs generalizing k with
  | nil => simp at h
  | cons v rest ih =>
      cases k with
      | zero => simpa using u32At_le32 v (rest.flatMap le32 ++ tail)
      | succ k =>
          have hk : k < rest.length := by simpa using h
          rw [List.flatMap_cons, List.append_assoc,
            u32At_append_right _ _ (by rw [le32_length]; omega), le32_length,
            show 4 * (k + 1) - 4 = 4 * k by omega, ih k hk]
          rfl

/-- `bs` cut or padded with zero bytes to exactly `n` bytes. -/
def padTo (n : Nat) (bs : List Byte) : List Byte :=
  (bs ++ List.replicate n 0).take n

@[simp] theorem padTo_length (n : Nat) (bs : List Byte) : (padTo n bs).length = n := by
  simp [padTo]

theorem padTo_of_length_le {n : Nat} {bs : List Byte} (h : bs.length ≤ n) :
    padTo n bs = bs ++ List.replicate (n - bs.length) 0 := by
  simp [padTo, List.take_append, List.take_of_length_le h]

theorem padTo_of_le_length {n : Nat} {bs : List Byte} (h : n ≤ bs.length) :
    padTo n bs = bs.take n := by
  rw [padTo, List.take_append_of_le_length h]

theorem padTo_of_length_eq {n : Nat} {bs : List Byte} (h : bs.length = n) :
    padTo n bs = bs := by
  rw [padTo_of_length_le h.le, h]
  simp

theorem padTo_take (n : Nat) (bs : List Byte) : padTo n (bs.take n) = padTo n bs := by
  rcases Nat.le_total n bs.length with h | h
  · rw [padTo_of_le_length h, padTo_of_length_eq (List.length_take_of_le h)]
  · rw [List.take_of_length_le h]

/-- Padding block by block. -/
theorem padTo_add (n k : Nat) (bs : List Byte) :
    padTo (n + k) bs = padTo n bs ++ padTo k (bs.drop n) := by
  apply List.ext_getElem?
  intro i
  simp only [padTo, List.getElem?_take, List.getElem?_append, List.length_take,
    List.length_append, List.length_replicate, List.getElem?_replicate, List.length_drop,
    List.getElem?_drop]
  have hMin : min n (bs.length + n) = n := by omega
  rw [hMin]
  by_cases h₁ : i < n
  · have h₂ : i < n + k := by omega
    simp only [h₁, h₂, if_true]
    by_cases h₃ : i < bs.length
    · simp [h₃]
    · simp only [h₃, if_false]
      rw [if_pos (by omega), if_pos (by omega)]
  · by_cases h₂ : i < n + k
    · have h₄ : i - n < k := by omega
      simp only [h₁, h₂, h₄, if_true, if_false]
      by_cases h₃ : i < bs.length
      · have h₅ : i - n < bs.length - n := by omega
        simp only [h₃, h₅, if_true]
        congr 1
        omega
      · have h₅ : ¬i - n < bs.length - n := by omega
        simp only [h₃, h₅, if_false]
        rw [if_pos (by omega), if_pos (by omega)]
    · have h₄ : ¬i - n < k := by omega
      simp [h₁, h₂, h₄]

/-- Remove the trailing zero bytes. -/
def trim (bs : List Byte) : List Byte := bs.rdropWhile (· == 0)

@[simp] theorem trim_nil : trim [] = [] := rfl

theorem trim_append_zeros (bs : List Byte) (n : Nat) :
    trim (bs ++ List.replicate n 0) = trim bs := by
  induction n with
  | zero => simp
  | succ n ih =>
      rw [List.replicate_succ', ← List.append_assoc, trim,
        List.rdropWhile_concat_pos _ _ _ (by simp)]
      exact ih

theorem trim_append_zero (bs : List Byte) : trim (bs ++ [0]) = trim bs :=
  trim_append_zeros bs 1

theorem trim_append_ne {b : Byte} (bs : List Byte) (h : b ≠ 0) :
    trim (bs ++ [b]) = bs ++ [b] :=
  List.rdropWhile_concat_neg _ _ _ (by simpa using h)

theorem trim_isPrefix (bs : List Byte) : trim bs <+: bs := List.rdropWhile_prefix _ _

theorem trim_length_le (bs : List Byte) : (trim bs).length ≤ bs.length :=
  (trim_isPrefix bs).length_le

/-- Only zero bytes are removed. -/
theorem trim_append_replicate (bs : List Byte) :
    bs = trim bs ++ List.replicate (bs.length - (trim bs).length) 0 := by
  induction bs using List.reverseRecOn with
  | nil => rfl
  | append_singleton bs b ih =>
      by_cases hb : b = 0
      · subst hb
        have hle := trim_length_le bs
        rw [trim_append_zero]
        conv_lhs => rw [ih]
        rw [List.append_assoc, List.length_append, List.length_singleton,
          show bs.length + 1 - (trim bs).length = bs.length - (trim bs).length + 1 by omega,
          List.replicate_succ']
      · rw [trim_append_ne bs hb]
        simp

theorem trim_eq_self_iff (bs : List Byte) :
    trim bs = bs ↔ ∀ h : bs ≠ [], bs.getLast h ≠ 0 := by
  simp [trim, List.rdropWhile_eq_self_iff]

theorem trim_trim (bs : List Byte) : trim (trim bs) = trim bs :=
  List.rdropWhile_idempotent _ _

/-- Only the last part that is not all zero is trimmed. -/
theorem trim_append {bs : List Byte} (front : List Byte) (h : trim bs ≠ []) :
    trim (front ++ bs) = front ++ trim bs := by
  conv_lhs => rw [trim_append_replicate bs, ← List.append_assoc, trim_append_zeros]
  rw [trim_eq_self_iff]
  intro hne
  rw [List.getLast_append_of_ne_nil hne h]
  exact (trim_eq_self_iff (trim bs)).mp (trim_trim bs) h

theorem trim_append_of_nil {bs : List Byte} (front : List Byte) (h : trim bs = []) :
    trim (front ++ bs) = trim front := by
  conv_lhs => rw [trim_append_replicate bs, h, List.nil_append, trim_append_zeros]

end Bytes
