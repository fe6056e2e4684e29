import InodeFS.Library.Forest
import InodeFS.Primitive
import InodeFS.File

/-! The tree of an inode in the abstract store. Reading a file and computing
its size are functions of the tree alone; the recursive methods of the code
compute these functions whenever the stack is deeper than the tree. -/
namespace InodeFS

open Bytes Exec Ownership

@[simp] theorem directSize_eq : directSize = 51200 := rfl

theorem mem_untilZero_ne {l : List Nat} {c : Nat} (h : c ∈ untilZero l) : c ≠ 0 := by
  simpa using List.mem_takeWhile_imp h

theorem untilZero_append_zeros {l : List Nat} (h : ∀ c ∈ l, c ≠ 0) (n : Nat) :
    untilZero (l ++ List.replicate n 0) = l := by
  induction l with
  | nil => cases n <;> rfl
  | cons c rest ih =>
      have hc : c ≠ 0 := h c (by simp)
      rw [List.cons_append, untilZero, List.takeWhile_cons_of_pos (by simpa using hc)]
      congr 1
      exact ih fun d hd => h d (by simp [hd])

@[simp] theorem inumBuf_length (b : Block) : (inumBuf b).length = 128 := by
  simp [inumBuf]

theorem inumBuf_lt {b : Block} {c : Nat} (h : c ∈ inumBuf b) : c < 2 ^ 32 := by
  obtain ⟨i, _, rfl⟩ := List.mem_map.mp h
  exact UInt32.toNat_lt _

/-- An indirect block reads back as the list that was written, with zeros
behind it. -/
theorem inumBuf_inumBlock {l : List Nat} (hLen : l.length ≤ 128) (hLt : ∀ c ∈ l, c < 2 ^ 32) :
    inumBuf (inumBlock l) = l ++ List.replicate (128 - l.length) 0 := by
  have hBytes : (l.flatMap fun i => le32 (UInt32.ofNat i)) =
      (l.map UInt32.ofNat).flatMap le32 := by rw [List.flatMap_map]
  have hFit : ((l.map UInt32.ofNat).flatMap le32).length ≤ blockSize := by
    simp only [flatMap_le32_length, List.length_map, blockSize_eq]
    omega
  have hByte : ∀ n off : Nat, byteAt (List.replicate n (0 : Byte)) off = 0 := by
    intro n off
    simp only [byteAt, List.getElem?_replicate]
    split <;> rfl
  have hZero : ∀ n off : Nat, u32At (List.replicate n (0 : Byte)) off = 0 := fun n off => by
    simp only [u32At, hByte]
    rfl
  apply List.ext_getElem
  · simp
    omega
  · intro k hk _
    simp only [inumBuf, inumBlock, List.getElem_map, List.getElem_range, hBytes,
      Block.ofBytes_bytes hFit]
    by_cases h : k < l.length
    · rw [u32At_flatMap _ _ _ (by simpa using h), List.getElem_append_left h, List.getElem_map,
        UInt32.toNat_ofNat_of_lt' (hLt _ (List.getElem_mem h))]
    · have hAfter : ((l.map UInt32.ofNat).flatMap le32).length ≤ 4 * k := by
        rw [flatMap_le32_length, List.length_map]
        omega
      rw [u32At_append_right _ _ hAfter, hZero, List.getElem_append_right (by omega),
        List.getElem_replicate]
      rfl

theorem inumBuf_zeros : inumBuf Block.zeros = List.replicate 128 0 := by
  simpa [inumBlock, Block.zeros] using inumBuf_inumBlock (l := []) (by simp) (by simp)

theorem untilZero_inumBlock {l : List Nat} (hLen : l.length ≤ 128)
    (hLt : ∀ c ∈ l, c ≠ 0 ∧ c < 2 ^ 32) : untilZero (inumBuf (inumBlock l)) = l := by
  rw [inumBuf_inumBlock hLen fun c hc => (hLt c hc).2]
  exact untilZero_append_zeros (fun c hc => (hLt c hc).1) _

/-- Index of the last non-zero byte, or 0. -/
def lastNonZero (b : Block) : Nat := (trim b.bytes).length - 1

private theorem find?_congr_mem {p q : Nat → Bool} {l : List Nat} (h : ∀ i ∈ l, p i = q i) :
    l.find? p = l.find? q := by
  induction l with
  | nil => rfl
  | cons i rest ih =>
      rw [List.find?_cons, List.find?_cons, h i (by simp), ih fun j hj => h j (by simp [hj])]

theorem find_last_nonzero (bs : List Byte) :
    ((List.range bs.length).reverse.find? fun i => byteAt bs i != 0).getD 0 =
      (trim bs).length - 1 := by
  induction bs using List.reverseRecOn with
  | nil => rfl
  | append_singleton bs b ih =>
      have hLast : byteAt (bs ++ [b]) bs.length = b.toNat := byteAt_append_right bs [b] 0
      rw [List.length_append, List.length_singleton, List.range_succ, List.reverse_append,
        List.reverse_singleton, List.singleton_append, List.find?_cons, hLast]
      by_cases hb : b = 0
      · subst hb
        rw [trim_append_zero, ← ih]
        simp only [UInt8.toNat_zero, bne_self_eq_false]
        congr 1
        refine find?_congr_mem fun i hi => ?_
        rw [byteAt_append_left _ (by simpa using hi)]
      · have hne : (b.toNat != 0) = true := by
          simpa using fun h => hb (UInt8.toNat_inj.mp h)
        rw [hne, trim_append_ne bs hb]
        simp

theorem lastNonZero_eq {m : Machine} {b : Nat} (h : Visible b) :
    lastNonZeroElementIndexInBlock m b = .ok (lastNonZero (m.store.data b)) := by
  rw [lastNonZeroElementIndexInBlock, readBlock_data h]
  have hFind := find_last_nonzero (m.store.data b).bytes
  rw [(m.store.data b).bytes_length] at hFind
  exact congrArg Except.ok hFind

namespace Store

variable (σ : Store)

/-- The size field of an inode, in blocks; 101 stands for an indirect block. -/
def size (i : Nat) : Nat := (σ.inode i).size.toNat

def slot (i k : Nat) : Nat := (σ.inode i).slot k

/-- The child inums an inode lists before the first zero. -/
def kids (i : Nat) : List Nat :=
  if 100 < σ.size i then untilZero (inumBuf (σ.data (σ.slot i 100))) else []

/-- The block numbers in all 101 slots, used or stale. -/
def owns (i : Nat) : List Nat := ((List.range 101).map (σ.slot i)).filter (· ≠ 0)

def shape : Shape Nat Nat := { owns := σ.owns, kids := σ.kids }

theorem mem_owns {i b : Nat} : b ∈ σ.owns i ↔ b ≠ 0 ∧ ∃ k < 101, σ.slot i k = b := by
  simp [owns, and_comm]

/-- Distinct slots hold distinct blocks, zeros apart. -/
theorem owns_nodup_iff {i : Nat} : (σ.owns i).Nodup ↔
    ∀ k < 101, ∀ l < 101, σ.slot i k = σ.slot i l → σ.slot i k ≠ 0 → k = l := by
  unfold owns
  rw [List.filter_map, List.nodup_map_iff_inj_on (List.nodup_range.filter _)]
  simp only [List.mem_filter, List.mem_range, Function.comp_apply, decide_eq_true_eq]
  constructor
  · intro h k hk l hl he hne
    exact h k ⟨hk, by simpa using hne⟩ l ⟨hl, by simpa [← he] using hne⟩ he
  · intro h k hk l hl he
    exact h k hk.1 l hl.1 he (by simpa using hk.2)

/-- A slot that the size field makes part of the file. -/
def Used (i k : Nat) : Prop := k < min (σ.size i) 100 ∨ (k = 100 ∧ 100 < σ.size i)

/-- The direct blocks that the size field covers. -/
def directBlocks (i : Nat) : List Nat := (List.range (min (σ.size i) 100)).map (σ.slot i)

theorem directBlocks_length (i : Nat) : (σ.directBlocks i).length = min (σ.size i) 100 := by
  rw [directBlocks, List.length_map, List.length_range]

/-- The bytes of the direct blocks. -/
def direct (i : Nat) : List Byte :=
  (List.range (min (σ.size i) 100)).flatMap fun k => (σ.data (σ.slot i k)).bytes

/-- What `read_file` returns on a tree of depth at most `n`. -/
def content : Nat → Nat → List Byte
  | 0, i => trim (σ.direct i)
  | n + 1, i => trim (σ.direct i ++ (σ.kids i).flatMap (content n))

/-- What `get_file_size` returns on a tree of depth at most `n`. -/
def fileSize : Nat → Nat → Nat
  | 0, i =>
      if σ.size i = 0 then 0
      else if σ.size i ≤ 100 then
        (σ.size i - 1) * 512 + lastNonZero (σ.data (σ.slot i (σ.size i - 1))) + 1
      else 51200
  | n + 1, i =>
      if σ.size i = 0 then 0
      else if σ.size i ≤ 100 then
        (σ.size i - 1) * 512 + lastNonZero (σ.data (σ.slot i (σ.size i - 1))) + 1
      else (51200 + ((σ.kids i).map (fileSize n)).sum) % 2 ^ 32

/-- A set of inodes whose used slots can be read, closed under children. -/
structure Readable (P : Set Nat) : Prop where
  inum : ∀ i ∈ P, IsInum i
  visible : ∀ i ∈ P, ∀ k, σ.Used i k → Visible (σ.slot i k)
  kid : ∀ i ∈ P, ∀ c ∈ σ.kids i, c ∈ P

variable {σ} {σ' : Store} {P : Set Nat}

theorem kids_of_size_le {i : Nat} (h : σ.size i ≤ 100) : σ.kids i = [] :=
  if_neg (by omega)

theorem kids_of_size {i : Nat} (h : 100 < σ.size i) :
    σ.kids i = untilZero (inumBuf (σ.data (σ.slot i 100))) := if_pos h

theorem kids_ne_zero {i c : Nat} (h : c ∈ σ.kids i) : c ≠ 0 := by
  unfold kids at h
  split at h
  · exact mem_untilZero_ne h
  · simp at h

theorem kids_length_le (i : Nat) : (σ.kids i).length ≤ 128 := by
  unfold kids
  split
  · exact ( List.takeWhile_prefix _).length_le.trans (by simp)
  · simp

theorem flatMap_blocks_length (f : Nat → Block) (k : Nat) :
    ((List.range k).flatMap fun i => (f i).bytes).length = 512 * k := by
  induction k with
  | zero => rfl
  | succ k ih =>
      rw [List.range_succ, List.flatMap_append, List.length_append, ih, List.flatMap_singleton,
        (f k).bytes_length, blockSize_eq]
      omega

theorem direct_length (σ : Store) (x : Nat) : (σ.direct x).length = 512 * min (σ.size x) 100 :=
  flatMap_blocks_length (fun k => σ.data (σ.slot x k)) _

theorem directBlocks_congr {i : Nat} (h : σ'.inode i = σ.inode i) :
    σ'.directBlocks i = σ.directBlocks i := by
  have hSlot : σ'.slot i = σ.slot i := by
    funext k
    rw [slot, h, slot]
  rw [directBlocks, size, h, hSlot, directBlocks, size]

theorem owns_congr {i : Nat} (h : σ'.inode i = σ.inode i) : σ'.owns i = σ.owns i := by
  have hSlot : σ'.slot i = σ.slot i := funext fun k => by rw [slot, h, slot]
  rw [owns, hSlot, owns]

/-- Two stores agree on the inodes of `P` and on the blocks they use. -/
structure SameOn (σ σ' : Store) (P : Set Nat) : Prop where
  inode : ∀ i ∈ P, σ'.inode i = σ.inode i
  data : ∀ i ∈ P, ∀ k, σ.Used i k → σ'.data (σ.slot i k) = σ.data (σ.slot i k)

namespace SameOn

variable (h : SameOn σ σ' P)
include h

theorem size {i : Nat} (hi : i ∈ P) : σ'.size i = σ.size i := by
  rw [Store.size, h.inode i hi, Store.size]

theorem slot {i : Nat} (hi : i ∈ P) (k : Nat) : σ'.slot i k = σ.slot i k := by
  rw [Store.slot, h.inode i hi, Store.slot]

theorem kids {i : Nat} (hi : i ∈ P) : σ'.kids i = σ.kids i := by
  by_cases hSize : 100 < σ.size i
  · rw [kids_of_size hSize, kids_of_size (by rwa [h.size hi]), h.slot hi,
      h.data i hi 100 (Or.inr ⟨rfl, hSize⟩)]
  · have hle : σ.size i ≤ 100 := by omega
    rw [kids_of_size_le hle, kids_of_size_le ((h.size hi).trans_le hle)]

theorem owns {i : Nat} (hi : i ∈ P) : σ'.owns i = σ.owns i := owns_congr (h.inode i hi)

theorem direct {i : Nat} (hi : i ∈ P) : σ'.direct i = σ.direct i := by
  unfold Store.direct
  rw [h.size hi]
  refine List.flatMap_congr fun k hk => ?_
  rw [h.slot hi, h.data i hi k (Or.inl (List.mem_range.mp hk))]

theorem content (hKid : ∀ i ∈ P, ∀ c ∈ σ.kids i, c ∈ P) (n : Nat) {i : Nat} (hi : i ∈ P) :
    σ'.content n i = σ.content n i := by
  induction n generalizing i with
  | zero => rw [Store.content, Store.content, h.direct hi]
  | succ n ih =>
      rw [Store.content, Store.content, h.direct hi, h.kids hi,
        List.flatMap_congr fun c hc => ih (hKid i hi c hc)]

theorem fileSize (hKid : ∀ i ∈ P, ∀ c ∈ σ.kids i, c ∈ P) (n : Nat) {i : Nat} (hi : i ∈ P) :
    σ'.fileSize n i = σ.fileSize n i := by
  have hLast : σ.size i ≠ 0 → σ.size i ≤ 100 →
      σ'.data (σ.slot i (σ.size i - 1)) = σ.data (σ.slot i (σ.size i - 1)) :=
    fun h₀ h₁ => h.data i hi _ (Or.inl (by omega))
  induction n generalizing i with
  | zero =>
      rw [Store.fileSize, Store.fileSize, h.size hi, h.slot hi]
      split_ifs with h₀ h₁
      · rfl
      · rw [hLast h₀ h₁]
      · rfl
  | succ n ih =>
      rw [Store.fileSize, Store.fileSize, h.size hi, h.slot hi, h.kids hi]
      split_ifs with h₀ h₁
      · rfl
      · rw [hLast h₀ h₁]
      · congr 3
        exact List.map_congr_left fun c hc => ih (hKid i hi c hc) fun h₀ h₁ =>
          h.data c (hKid i hi c hc) _ (Or.inl (by omega))

end SameOn

theorem Readable.congr (hR : σ.Readable P) (h : SameOn σ σ' P) : σ'.Readable P where
  inum := hR.inum
  visible i hi k hk := by
    rw [h.slot hi]
    exact hR.visible i hi k (by simpa only [Used, h.size hi] using hk)
  kid i hi c hc := hR.kid i hi c (h.kids hi ▸ hc)

end Store

open Store

theorem readDirect_eq {m : Machine} {P : Set Nat} (hR : m.store.Readable P) {i : Nat}
    (hi : i ∈ P) : readDirect m (m.store.inode i) =
      .ok ((List.range (min (m.store.size i) 100)).map fun k =>
        m.store.data (m.store.slot i k)) :=
  mapM_ok fun k hk => readBlock_data (hR.visible i hi k (Or.inl (List.mem_range.mp hk)))

theorem mapChildren_node {α : Type} {m : Machine} {i : Nat} {visit : Nat → Except Stop α}
    {g : Nat → α} (hVisible : 100 < m.store.size i → Visible (m.store.slot i 100))
    (hVisit : ∀ c ∈ m.store.kids i, visit c = .ok (g c)) :
    mapChildren m (m.store.inode i) visit = .ok ((m.store.kids i).map g) := by
  unfold mapChildren
  by_cases hSize : 100 < m.store.size i
  · have hRead : readBlock m ((m.store.inode i).slot ndirect) = _ := readBlock_data (hVisible hSize)
    rw [if_pos (show (m.store.inode i).size.toNat > ndirect from hSize), hRead,
      kids_of_size hSize]
    exact mapM_ok fun c hc => hVisit c ((kids_of_size hSize).symm ▸ hc)
  · rw [if_neg (show ¬(m.store.inode i).size.toNat > ndirect from hSize),
      kids_of_size_le (by omega)]
    rfl

theorem mapChildren_eq {α : Type} {m : Machine} {P : Set Nat} (hR : m.store.Readable P) {i : Nat}
    (hi : i ∈ P) {visit : Nat → Except Stop α} {g : Nat → α}
    (hVisit : ∀ c ∈ m.store.kids i, visit c = .ok (g c)) :
    mapChildren m (m.store.inode i) visit = .ok ((m.store.kids i).map g) :=
  mapChildren_node (fun hSize => hR.visible i hi 100 (Or.inr ⟨rfl, hSize⟩)) hVisit

/-- On a readable tree `read_file` returns its content. -/
theorem readFile_eq {m : Machine} {P : Set Nat} (hR : m.store.Readable P) {n i : Nat}
    (hi : i ∈ P) (hShallow : m.store.shape.Shallow n i) {stack : Nat} (hStack : n < stack) :
    readFile m stack i = .ok (m.store.content n i) := by
  induction stack generalizing n i with
  | zero => omega
  | succ stack ih =>
      have hKids : ∀ c ∈ m.store.kids i, readFile m stack c = .ok (m.store.content (n - 1) c) := by
        intro c hc
        cases n with
        | zero =>
            have hNil : m.store.kids i = [] := hShallow
            simp [hNil] at hc
        | succ n => exact ih (hR.kid i hi c hc) (hShallow c hc) (by omega)
      rw [readFile, getInode_some (hR.inum i hi)]
      simp only [bind, Except.bind, readDirect_eq hR hi, mapChildren_eq hR hi hKids]
      cases n with
      | zero =>
          have hNil : m.store.kids i = [] := hShallow
          simp [hNil, content, direct, List.flatMap_map, pure, Except.pure]
      | succ n =>
          simp [content, direct, List.flatMap_def, Function.comp_def, pure, Except.pure]

/-- On a readable tree `get_file_size` returns its size. -/
theorem getFileSize_eq {m : Machine} {P : Set Nat} (hR : m.store.Readable P) {n i : Nat}
    (hi : i ∈ P) (hShallow : m.store.shape.Shallow n i) {stack : Nat} (hStack : n < stack) :
    getFileSize m stack i = .ok (m.store.fileSize n i) := by
  induction stack generalizing n i with
  | zero => omega
  | succ stack ih =>
      have hKids : ∀ c ∈ m.store.kids i,
          getFileSize m stack c = .ok (m.store.fileSize (n - 1) c) := by
        intro c hc
        cases n with
        | zero =>
            have hNil : m.store.kids i = [] := hShallow
            simp [hNil] at hc
        | succ n => exact ih (hR.kid i hi c hc) (hShallow c hc) (by omega)
      have hSize : (m.store.inode i).size.toNat = m.store.size i := rfl
      rw [getFileSize, derefInode_ok (hR.inum i hi)]
      simp only [bind, Except.bind, hSize]
      by_cases h₀ : m.store.size i = 0
      · cases n <;> simp [fileSize, h₀, pure, Except.pure]
      · by_cases h₁ : m.store.size i ≤ 100
        · have hVis := hR.visible i hi (m.store.size i - 1) (Or.inl (by omega))
          have hLast : lastNonZeroElementIndexInBlock m
              ((m.store.inode i).slot (m.store.size i - 1)) = _ := lastNonZero_eq hVis
          have hLt : m.store.size i < ndirect + 1 := by rw [ndirect_eq]; omega
          simp only [h₀, if_false, hLt, if_true, hLast]
          cases n <;> simp [fileSize, h₀, h₁, pure, Except.pure, Store.slot]
        · have hGe : ¬m.store.size i < ndirect + 1 := by rw [ndirect_eq]; omega
          simp only [h₀, if_false, hGe, mapChildren_eq hR hi hKids]
          cases n with
          | zero =>
              have hNil : m.store.kids i = [] := hShallow
              simp [hNil, fileSize, h₀, h₁, pure, Except.pure]
          | succ n => simp [fileSize, h₀, h₁, pure, Except.pure]

end InodeFS
