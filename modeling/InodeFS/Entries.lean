import InodeFS.Directory
import InodeFS.Write

/-! The entries of one directory. A directory of at most 100 entries is a row of
entry blocks. Behind them `add_to_dir` uses the block that slot 100 names, and it
never puts a block number there: the child inums of every large directory are
kept in block 0. -/
namespace InodeFS

open Bytes Exec

/-- An inum and a name, as `read_dir` lists them. -/
abbrev Entry := Nat × CString

/-- What `add_to_dir` writes is what `read_dir` finds. -/
theorem entryOf_entryBlock {i : Nat} {name : CString} (hi : i < 2 ^ 32)
    (hName : name.bytes.length ≤ 508) : entryOf (entryBlock i name) = (i, name) := by
  have hLen : (le32 (UInt32.ofNat i) ++ name.bytes).length ≤ blockSize := by
    rw [List.length_append, le32_length, blockSize_eq]
    omega
  have hBytes := Block.ofBytes_bytes hLen
  rw [List.append_assoc] at hBytes
  have hInum : u32At (entryBlock i name).bytes 0 = UInt32.ofNat i := by
    rw [entryBlock, hBytes]
    exact u32At_le32 _ _
  have hDrop : (entryBlock i name).bytes.drop 4 = name.bytes ++
      List.replicate (blockSize - (le32 (UInt32.ofNat i) ++ name.bytes).length) 0 := by
    rw [entryBlock, hBytes]
    rfl
  have hFront : ∀ b ∈ name.bytes, (b != 0) = true := by
    intro b hb
    simpa using fun he : b = 0 => name.nul_free (he ▸ hb)
  have hString : CString.ofBytes ((entryBlock i name).bytes.drop 4) = name := by
    rw [hDrop]
    apply CString.ext
    change List.takeWhile _ (name.bytes ++ _) = _
    rw [List.takeWhile_append_of_pos hFront]
    have hZeros : ∀ n, List.takeWhile (· != 0) (List.replicate n (0 : Byte)) = [] := fun n => by
      cases n <;> simp [List.replicate_succ]
    rw [hZeros, List.append_nil]
  rw [entryOf, hInum, hString, UInt32.toNat_ofNat_of_lt' hi]

namespace Store

variable {σ σ₁ σ' : Store} {X : Set Nat} {i x p b : Nat} {l : List Entry} {e : Entry}

/-- The first slots of inode `i` hold the entries `l`, each in a marked block. -/
structure Lists (σ : Store) (i : Nat) (l : List Entry) : Prop where
  inum : IsInum i
  dir : (σ.inode i).isDir = true
  entry : ∀ k (hk : k < l.length), IsData (σ.slot i k) ∧ σ.bit (σ.slot i k) = true ∧
    entryOf (σ.data (σ.slot i k)) = l[k]

theorem alive_of_isDir (h : (σ.inode i).isDir = true) : σ.Alive i := by
  intro hZero
  rw [Inode.isDir, hZero] at h
  cases h

theorem Lists.alive (h : σ.Lists i l) : σ.Alive i := alive_of_isDir h.dir

/-- Inodes outside `X` and marked blocks are the same in the later store. -/
structure Carries (σ σ' : Store) (X : Set Nat) : Prop where
  inode : ∀ i, σ.Alive i → i ∉ X → σ'.inode i = σ.inode i
  alive : ∀ i, σ.Alive i → σ'.Alive i
  marked : ∀ b, IsData b → σ.bit b = true → σ'.bit b = true ∧ σ'.data b = σ.data b

theorem Carries.refl (σ : Store) (X : Set Nat) : Carries σ σ X :=
  ⟨fun _ _ _ => rfl, fun _ h => h, fun _ _ h => ⟨h, rfl⟩⟩

theorem Carries.trans (h₁ : Carries σ σ₁ X) (h₂ : Carries σ₁ σ' X) : Carries σ σ' X where
  inode i hi hX := (h₂.inode i (h₁.alive i hi) hX).trans (h₁.inode i hi hX)
  alive i hi := h₂.alive i (h₁.alive i hi)
  marked b hb hBit := by
    obtain ⟨hBit₁, hData₁⟩ := h₁.marked b hb hBit
    obtain ⟨hBit₂, hData₂⟩ := h₂.marked b hb hBit₁
    exact ⟨hBit₂, hData₂.trans hData₁⟩

theorem Carries.mono {Y : Set Nat} (h : Carries σ σ' X) (hXY : X ⊆ Y) : Carries σ σ' Y :=
  ⟨fun i hi hY => h.inode i hi fun hX => hY (hXY hX), h.alive, h.marked⟩

/-- An inode that was not in use before is no exception. -/
theorem Carries.of_dead (h : Carries σ σ' {x}) (hDead : ¬σ.Alive x) : Carries σ σ' ∅ where
  inode i hi _ := h.inode i hi fun he => hDead (Set.mem_singleton_iff.mp he ▸ hi)
  alive := h.alive
  marked := h.marked

theorem Carries.putInode {ino : Inode} (hType : ino.type = (σ.inode i).type) :
    Carries σ (σ.putInode i ino) {i} := by
  refine ⟨fun j _ hj => ?_, fun j hj => ?_, fun b _ hBit => ⟨hBit, rfl⟩⟩
  · have hne : j ≠ i := hj
    rw [putInode_inode, if_neg hne]
  · rw [Alive, putInode_inode]
    by_cases he : j = i
    · rw [if_pos he, hType]
      exact he ▸ hj
    · rw [if_neg he]
      exact hj

/-- A block that was free is marked and written. -/
theorem Carries.mark_write (hFree : σ.bit b = false) (buf : Block) :
    Carries σ ((σ.mark b).write b buf) ∅ := by
  refine ⟨fun _ _ _ => rfl, fun _ h => h, fun c _ hBit => ?_⟩
  have hne : c ≠ b := by
    rintro rfl
    exact Bool.false_ne_true (hFree.symm.trans hBit)
  simp [hne, hBit]

theorem Carries.write_zero (σ : Store) (buf : Block) : Carries σ (σ.write 0 buf) ∅ := by
  refine ⟨fun _ _ _ => rfl, fun _ h => h, fun b hb hBit => ⟨hBit, ?_⟩⟩
  have := isData_iff.mp hb
  rw [write_data, if_neg (by omega)]

theorem Grows.carries (h : Grows σ σ') : Carries σ σ' ∅ :=
  ⟨fun _ hi _ => h.inode_of_alive hi, fun _ hi => h.alive hi,
    fun b _ hBit => ⟨h.bit b hBit, h.data_of_marked hBit⟩⟩

theorem Grows.data_zero (h : Grows σ σ') : σ'.data 0 = σ.data 0 := by
  refine h.data 0 fun hTaken => ?_
  have := isData_iff.mp hTaken.1
  omega

theorem Rewrites.carries (h : Rewrites σ σ₁ σ' i) : Carries σ σ' {i} := by
  have hMid := h.grows.carries
  refine ⟨fun j hj hne => (h.inode j hne).trans (hMid.inode j hj (Set.notMem_empty j)),
    fun j hj => h.alive_iff.mpr (hMid.alive j hj), fun b hb hBit => ?_⟩
  rw [h.bit, h.data]
  exact hMid.marked b hb hBit

theorem Rewrites.data_zero (h : Rewrites σ σ₁ σ' i) : σ'.data 0 = σ.data 0 := by
  rw [h.data]
  exact h.grows.data_zero

theorem slot_congr (h : σ'.inode i = σ.inode i) (k : Nat) : σ'.slot i k = σ.slot i k := by
  rw [slot, h, slot]

theorem size_congr (h : σ'.inode i = σ.inode i) : σ'.size i = σ.size i := by
  rw [size, h, size]

/-- The listing depends on the type and the slots of the inode and on their blocks. -/
theorem Lists.congr (h : σ.Lists i l) (hType : (σ'.inode i).type = (σ.inode i).type)
    (hSlot : ∀ k < l.length, σ'.slot i k = σ.slot i k)
    (hBlock : ∀ k < l.length, σ'.bit (σ.slot i k) = true ∧
      σ'.data (σ.slot i k) = σ.data (σ.slot i k)) : σ'.Lists i l where
  inum := h.inum
  dir := by
    rw [Inode.isDir, hType]
    exact h.dir
  entry k hk := by
    obtain ⟨hData, -, hEntry⟩ := h.entry k hk
    obtain ⟨hBit, hSame⟩ := hBlock k hk
    rw [hSlot k hk, hSame]
    exact ⟨hData, hBit, hEntry⟩

theorem Lists.carry (h : σ.Lists i l) (hC : Carries σ σ' X)
    (hType : (σ'.inode i).type = (σ.inode i).type)
    (hSlot : ∀ k < l.length, σ'.slot i k = σ.slot i k) : σ'.Lists i l :=
  h.congr hType hSlot fun k hk => hC.marked _ (h.entry k hk).1 (h.entry k hk).2.1

theorem Lists.carry_of_notMem (h : σ.Lists i l) (hC : Carries σ σ' X) (hi : i ∉ X) :
    σ'.Lists i l := by
  have hSame := hC.inode i h.alive hi
  exact h.carry hC (by rw [hSame]) fun k _ => slot_congr hSame k

/-- The free block `b` was taken, and no other data block changed. -/
structure TakesBlock (σ σ' : Store) (b : Nat) : Prop where
  data : IsData b
  free : σ.bit b = false
  marked : σ'.bit b = true
  other : ∀ c, IsData c → c ≠ b → σ'.bit c = σ.bit c ∧ σ'.data c = σ.data c

/-- An entry was added to the slots of inode `x`, in a block that was free. -/
structure Added (σ σ' : Store) (x : Nat) (e : Entry) : Prop where
  inode : ∀ i, i ≠ x → σ'.inode i = σ.inode i
  type : (σ'.inode x).type = (σ.inode x).type
  size : σ'.size x = σ.size x + 1
  marked : ∀ b, IsData b → σ.bit b = true → σ'.bit b = true ∧ σ'.data b = σ.data b
  zero : σ'.data 0 = σ.data 0
  slot : ∃ b, TakesBlock σ σ' b ∧ entryOf (σ'.data b) = e ∧
    ∀ k, σ'.slot x k = if k = σ.size x then b else σ.slot x k
  blocks : σ'.freeBlocks + 1 = σ.freeBlocks

namespace Added

theorem alive_iff (h : Added σ σ' x e) (i : Nat) : σ'.Alive i ↔ σ.Alive i := by
  by_cases hi : i = x
  · rw [hi, Alive, h.type, Alive]
  · rw [Alive, h.inode i hi, Alive]

theorem carries (h : Added σ σ' x e) : Carries σ σ' {x} :=
  ⟨fun i _ hi => h.inode i hi, fun i => (h.alive_iff i).mpr, h.marked⟩

theorem lists (h : Added σ σ' x e) (hLists : σ.Lists x l) (hLength : l.length = σ.size x) :
    σ'.Lists x (l ++ [e]) := by
  obtain ⟨b, hTakes, hEntry, hSlot⟩ := h.slot
  refine ⟨hLists.inum, ?_, fun k hk => ?_⟩
  · rw [Inode.isDir, h.type]
    exact hLists.dir
  rw [List.length_append, List.length_singleton] at hk
  rw [hSlot]
  by_cases hLast : k = σ.size x
  · have hGet : (l ++ [e])[k] = e := List.getElem_concat_length (hLast.trans hLength.symm) _
    rw [if_pos hLast, hGet]
    exact ⟨hTakes.data, hTakes.marked, hEntry⟩
  · obtain ⟨hData, hOld, hListed⟩ := hLists.entry k (by omega)
    obtain ⟨hBit', hData'⟩ := h.marked _ hData hOld
    rw [if_neg hLast, List.getElem_append_left (by omega), hData']
    exact ⟨hData, hBit', hListed⟩

theorem directBlocks (h : Added σ σ' x e) (hSmall : σ.size x < 100) :
    ∃ b, TakesBlock σ σ' b ∧ σ'.directBlocks x = σ.directBlocks x ++ [b] := by
  obtain ⟨b, hTakes, -, hSlot⟩ := h.slot
  refine ⟨b, hTakes, ?_⟩
  have hOld : min (σ.size x) 100 = σ.size x := by omega
  have hNew : min (σ'.size x) 100 = σ.size x + 1 := by
    rw [h.size]
    omega
  rw [Store.directBlocks, hNew, List.range_succ, List.map_append, List.map_singleton, hSlot,
    if_pos rfl, Store.directBlocks, hOld]
  refine congrArg (· ++ [b]) (List.map_congr_left fun k hk => ?_)
  have hLt := List.mem_range.mp hk
  rw [hSlot, if_neg (by omega)]

end Added

/-- The inode that `add_to_dir` puts back when the entry went into a new block. -/
def addedInode (ino : Inode) (b : Nat) (mtime ctime : UInt32) : Inode :=
  { ino.setSlot ino.size.toNat b with size := ino.size + 1, mtime := mtime, ctime := ctime }

theorem addedInode_size {ino : Inode} (h : ino.size.toNat < 100) (b : Nat) (mtime ctime : UInt32) :
    (addedInode ino b mtime ctime).size.toNat = ino.size.toNat + 1 := by
  have hSum : (ino.size + 1).toNat = (ino.size.toNat + 1) % 2 ^ 32 := UInt32.toNat_add _ _
  rw [addedInode, hSum]
  exact Nat.mod_eq_of_lt (by omega)

theorem addedInode_slot (ino : Inode) (h : ino.size.toNat < 100) (hb : IsData b)
    (mtime ctime : UInt32) (k : Nat) :
    (addedInode ino b mtime ctime).slot k = if k = ino.size.toNat then b else ino.slot k := by
  have := isData_iff.mp hb
  exact Inode.setSlot_slot ino (show ino.size.toNat < 101 by omega) (show b < 2 ^ 32 by omega) k

theorem added_of_block {buf : Block} {mtime ctime : UInt32} (hb : IsData b)
    (hFree : σ.bit b = false) (hSmall : σ.size x < 100) (hEntry : entryOf buf = e) :
    Added σ (((σ.mark b).write b buf).putInode x (addedInode (σ.inode x) b mtime ctime)) x e := by
  have hRange := isData_iff.mp hb
  refine ⟨fun i hi => ?_, ?_, ?_, (Carries.mark_write hFree buf).marked, ?_,
    ⟨b, ⟨hb, hFree, ?_, fun c _ hc => ?_⟩, ?_, fun k => ?_⟩, freeBlocks_mark hb hFree⟩
  · rw [putInode_inode, if_neg hi]
    rfl
  · rw [putInode_inode, if_pos rfl]
    rfl
  · rw [size_putInode_self, addedInode_size hSmall]
    rfl
  · rw [putInode_data, write_data, if_neg (by omega)]
    rfl
  · rw [putInode_bit, write_bit, mark_bit, if_pos rfl]
  · rw [putInode_bit, write_bit, mark_bit, if_neg hc, putInode_data, write_data, if_neg hc]
    exact ⟨rfl, rfl⟩
  · rw [putInode_data, write_data, if_pos rfl]
    exact hEntry
  · rw [slot_putInode_self, addedInode_slot (σ.inode x) hSmall hb]
    rfl

/-- The direct slots of the inodes in use hold marked blocks, and no block is in
two of them. -/
structure Apart (σ : Store) : Prop where
  marked : ∀ i, σ.Alive i → ∀ k < min (σ.size i) 100,
    IsData (σ.slot i k) ∧ σ.bit (σ.slot i k) = true
  inj : ∀ i j, σ.Alive i → σ.Alive j → ∀ k < min (σ.size i) 100, ∀ l < min (σ.size j) 100,
    σ.slot i k = σ.slot j l → i = j ∧ k = l

/-- No inode got another block. -/
theorem Apart.shrink (h : σ.Apart)
    (hSlot : ∀ i, σ'.Alive i → ∀ k < min (σ'.size i) 100,
      σ.Alive i ∧ k < min (σ.size i) 100 ∧ σ'.slot i k = σ.slot i k)
    (hBit : ∀ i, σ'.Alive i → ∀ k < min (σ'.size i) 100, σ'.bit (σ.slot i k) = true) :
    σ'.Apart where
  marked i hi k hk := by
    obtain ⟨hAlive, hk', hSame⟩ := hSlot i hi k hk
    rw [hSame]
    exact ⟨(h.marked i hAlive k hk').1, hBit i hi k hk⟩
  inj i j hi hj k hk l hl he := by
    obtain ⟨hAlive, hk', hSame⟩ := hSlot i hi k hk
    obtain ⟨hAlive', hl', hSame'⟩ := hSlot j hj l hl
    exact h.inj i j hAlive hAlive' k hk' l hl' (hSame.symm.trans (he.trans hSame'))

theorem Added.apart (h : Added σ σ' x e) (hSmall : σ.size x < 100) (hA : σ.Apart) : σ'.Apart := by
  obtain ⟨b, ⟨hb, hFree, hBit, -⟩, -, hSlot⟩ := h.slot
  -- A place is an old one or the new one.
  have hCases : ∀ i, σ'.Alive i → ∀ k < min (σ'.size i) 100, (i = x ∧ k = σ.size x ∧ σ'.slot i k = b) ∨
      (σ.Alive i ∧ k < min (σ.size i) 100 ∧ σ'.slot i k = σ.slot i k) := by
    intro i hi k hk
    have hAlive := (h.alive_iff i).mp hi
    by_cases hix : i = x
    · subst hix
      rw [h.size] at hk
      rw [hSlot]
      by_cases hLast : k = σ.size i
      · exact Or.inl ⟨rfl, hLast, if_pos hLast⟩
      · exact Or.inr ⟨hAlive, by omega, if_neg hLast⟩
    · have hSame := h.inode i hix
      rw [size_congr hSame] at hk
      exact Or.inr ⟨hAlive, hk, slot_congr hSame k⟩
  have hOld : ∀ i, σ.Alive i → ∀ k < min (σ.size i) 100, σ.slot i k ≠ b := by
    intro i hi k hk he
    have hMarked := (hA.marked i hi k hk).2
    rw [he, hFree] at hMarked
    cases hMarked
  refine ⟨fun i hi k hk => ?_, fun i j hi hj k hk l hl he => ?_⟩
  · rcases hCases i hi k hk with ⟨-, -, hNew⟩ | ⟨hAlive, hk', hSame⟩
    · rw [hNew]
      exact ⟨hb, hBit⟩
    · obtain ⟨hData, hMarked⟩ := hA.marked i hAlive k hk'
      rw [hSame]
      exact ⟨hData, (h.marked _ hData hMarked).1⟩
  · rcases hCases i hi k hk with ⟨rfl, rfl, hNew⟩ | ⟨hAlive, hk', hSame⟩
    · rcases hCases j hj l hl with ⟨rfl, rfl, -⟩ | ⟨hAlive', hl', hSame'⟩
      · exact ⟨rfl, rfl⟩
      · exact (hOld j hAlive' l hl' (hSame'.symm.trans (he.symm.trans hNew))).elim
    · rcases hCases j hj l hl with ⟨rfl, rfl, hNew'⟩ | ⟨hAlive', hl', hSame'⟩
      · exact (hOld i hAlive k hk' (hSame.symm.trans (he.trans hNew'))).elim
      · exact hA.inj i j hAlive hAlive' k hk' l hl' (hSame.symm.trans (he.trans hSame'))

/-- Some inodes were allocated, and nothing else happened. -/
structure Strayed (σ σ' : Store) : Prop where
  bit : σ'.bit = σ.bit
  data : σ'.data = σ.data
  old : ∀ i, σ.Alive i → σ'.inode i = σ.inode i
  new : ∀ i, ¬σ.Alive i → σ'.inode i = σ.inode i ∨ σ'.size i = 0 ∧ ∀ k, σ'.slot i k = 0

namespace Strayed

theorem refl (σ : Store) : Strayed σ σ := ⟨rfl, rfl, fun _ _ => rfl, fun _ _ => Or.inl rfl⟩

theorem freshInode (hDead : ¬σ.Alive i) (type : FileType) (now : UInt32) :
    Strayed σ (σ.putInode i (InodeFS.freshInode type now)) := by
  refine ⟨rfl, rfl, fun j hj => ?_, fun j _ => ?_⟩
  · have hne : j ≠ i := fun he => hDead (he ▸ hj)
    rw [putInode_inode, if_neg hne]
  · by_cases he : j = i
    · subst he
      refine Or.inr ⟨size_putInode_self, fun k => ?_⟩
      rw [slot_putInode_self, freshInode_slot]
    · exact Or.inl (by rw [putInode_inode, if_neg he])

theorem trans (h₁ : Strayed σ σ₁) (h₂ : Strayed σ₁ σ') : Strayed σ σ' where
  bit := h₂.bit.trans h₁.bit
  data := h₂.data.trans h₁.data
  old i hi := by
    have hi₁ : σ₁.Alive i := by
      rw [Alive, h₁.old i hi]
      exact hi
    exact (h₂.old i hi₁).trans (h₁.old i hi)
  new i hi := by
    by_cases hi₁ : σ₁.Alive i
    · rw [size_congr (h₂.old i hi₁), h₂.old i hi₁]
      simp only [slot_congr (h₂.old i hi₁)]
      exact h₁.new i hi
    · rcases h₂.new i hi₁ with hSame | hBlank
      · rw [size_congr hSame, hSame]
        simp only [slot_congr hSame]
        exact h₁.new i hi
      · exact Or.inr hBlank

/-- An inode without slots in use has none afterwards. -/
theorem blank (h : Strayed σ σ') (hBlank : σ.size i = 0 ∧ ∀ k, σ.slot i k = 0) :
    σ'.size i = 0 ∧ ∀ k, σ'.slot i k = 0 := by
  have hSame : σ'.inode i = σ.inode i → σ'.size i = 0 ∧ ∀ k, σ'.slot i k = 0 := by
    intro hEq
    rw [size_congr hEq]
    simp only [slot_congr hEq]
    exact hBlank
  by_cases hAlive : σ.Alive i
  · exact hSame (h.old i hAlive)
  · exact (h.new i hAlive).elim hSame id

theorem carries (h : Strayed σ σ') : Carries σ σ' ∅ where
  inode i hi _ := h.old i hi
  alive i hi := by
    rw [Alive, h.old i hi]
    exact hi
  marked b _ hBit := by
    rw [h.bit, h.data]
    exact ⟨hBit, rfl⟩

theorem apart (h : Strayed σ σ') (hA : σ.Apart) : σ'.Apart := by
  have hOld : ∀ i, σ'.Alive i → 0 < σ'.size i → σ.Alive i := by
    intro i hi hSize
    by_contra hDead
    rcases h.new i hDead with hSame | hBlank
    · rw [Alive, hSame] at hi
      exact hDead hi
    · omega
  refine hA.shrink (fun i hi k hk => ?_) fun i hi k hk => ?_
  · have hAlive := hOld i hi (by omega)
    rw [size_congr (h.old i hAlive)] at hk
    exact ⟨hAlive, hk, slot_congr (h.old i hAlive) k⟩
  · have hAlive := hOld i hi (by omega)
    rw [size_congr (h.old i hAlive)] at hk
    rw [h.bit]
    exact (hA.marked i hAlive k hk).2

end Strayed

/-- A directory with the entries `l` in its own slots. A large one has entries
behind them as well, and counts one block more. -/
structure Row (σ : Store) (p : Nat) (l : List Entry) (large : Bool) : Prop where
  lists : σ.Lists p l
  few : l.length ≤ 100
  full : large = true → l.length = 100
  size : σ.size p = l.length + large.toNat
  rest : ∀ k, l.length ≤ k → σ.slot p k = 0

namespace Row

variable {large : Bool}

theorem alive (h : σ.Row p l large) : σ.Alive p := h.lists.alive

theorem indirect (h : σ.Row p l large) : σ.slot p 100 = 0 := h.rest 100 h.few

theorem congr (h : σ.Row p l large) (hSame : σ'.inode p = σ.inode p)
    (hBlock : ∀ k < l.length, σ'.bit (σ.slot p k) = true ∧
      σ'.data (σ.slot p k) = σ.data (σ.slot p k)) : σ'.Row p l large where
  lists := h.lists.congr (by rw [hSame]) (fun k _ => slot_congr hSame k) hBlock
  few := h.few
  full := h.full
  size := (size_congr hSame).trans h.size
  rest k hk := (slot_congr hSame k).trans (h.rest k hk)

/-- A directory that nobody touched lists what it listed before. -/
theorem carry (h : σ.Row p l large) (hC : Carries σ σ' X) (hp : p ∉ X) : σ'.Row p l large :=
  h.congr (hC.inode p h.alive hp) fun k hk =>
    hC.marked _ (h.lists.entry k hk).1 (h.lists.entry k hk).2.1

theorem not_large (h : σ.Row p l large) (hSmall : l.length < 100) : large = false := by
  by_contra hLarge
  have := h.full (by simpa using hLarge)
  omega

theorem empty {type : FileType} {now : UInt32} (hInum : IsInum i) (hType : type = .T_DIR) :
    (σ.putInode i (freshInode type now)).Row i [] false where
  lists := by
    refine ⟨hInum, ?_, fun k hk => absurd hk (Nat.not_lt_zero k)⟩
    rw [putInode_inode, if_pos rfl, hType]
    rfl
  few := Nat.zero_le 100
  full := nofun
  size := size_putInode_self
  rest k _ := by rw [slot_putInode_self, freshInode_slot]

theorem add (h : σ.Row p l large) (hSmall : l.length < 100) (hAdd : Added σ σ' p e) :
    σ'.Row p (l ++ [e]) large := by
  have hNot := h.not_large hSmall
  subst hNot
  have hSize : σ.size p = l.length := h.size
  have hLength : (l ++ [e]).length = l.length + 1 := by simp
  obtain ⟨b, -, -, hSlot⟩ := hAdd.slot
  refine ⟨hAdd.lists h.lists hSize.symm, by omega, nofun, ?_, fun k hk => ?_⟩
  · rw [hAdd.size, hSize, hLength]
    rfl
  · rw [hSlot, if_neg (by omega)]
    exact h.rest k (by omega)

end Row

/-- The inode that `add_to_dir` puts back when the entry went to a child. -/
def touchedInode (ino : Inode) (mtime ctime : UInt32) : Inode :=
  { ino with size := if ino.size.toNat < 101 then ino.size + 1 else ino.size,
             mtime := mtime, ctime := ctime }

theorem touchedInode_size {ino : Inode} (h : ino.size.toNat = 100 ∨ ino.size.toNat = 101)
    (mtime ctime : UInt32) : (touchedInode ino mtime ctime).size.toNat = 101 := by
  have hSum : (ino.size + 1).toNat = (ino.size.toNat + 1) % 2 ^ 32 := UInt32.toNat_add _ _
  simp only [touchedInode]
  split
  · rw [hSum]
    omega
  · omega

/-- No block or no inode is left. -/
def Short (σ : Store) : Prop := σ.freeBlocks = 0 ∨ σ.freeInodes = 0

/-- How `add_to_dir` stops. Without a place for the entry the process dies. In its place
the entry needs a block, and then a long name overflows the buffer. Nothing is stored, and
at most a child is allocated which nobody lists. -/
inductive Refused (σ σ' : Store) (place : Prop) (name : CString) : Stop → Prop where
  | overflow (hBlock : 0 < σ.freeBlocks) (hPlace : place) (hLong : 508 < name.bytes.length) :
      Refused σ σ' place name .bufferOverflow
  | full (hNone : σ.freeBlocks = 0) (hPlace : place) (hStray : Strayed σ σ') :
      Refused σ σ' place name .badAlloc
  | crash {e : Stop} (hStop : e ≠ .bufferOverflow ∧ e ≠ .badAlloc) (hNowhere : ¬place)
      (hStray : Strayed σ σ') : Refused σ σ' place name e

theorem Refused.stray {place : Prop} {name : CString} {e : Stop} (h : Refused σ σ' place name e)
    (he : e = .badAlloc) : Strayed σ σ' := by
  cases h with
  | overflow _ _ _ => cases he
  | full _ _ hStray => exact hStray
  | crash _ _ hStray => exact hStray

theorem Refused.mono {place place' : Prop} {name : CString} {e : Stop} (h : Refused σ σ' place name e)
    (hPlace : place ↔ place') : Refused σ σ' place' name e := propext hPlace ▸ h

end Store

open Store

section Programs

variable {m : Machine} {stack x i : Nat} {name : CString} {l : List Entry} {large : Bool}

/-- `add_to_dir` on a directory with a free slot. -/
theorem wp_addToDir_small (hInum : IsInum x) (hDir : (m.store.inode x).isDir = true)
    (hSmall : m.store.size x < 100) (hi : i < 2 ^ 32) :
    wp (addToDir (stack + 1) x i name)
      (fun _ m' => name.bytes.length ≤ 508 ∧ Added m.store m'.store x (i, name))
      (fun e m' => Refused m.store m'.store True name e) m := by
  rw [addToDir, wp_bind, wp_getInode hInum]
  simp only [hDir, if_true]
  rw [wp_bind, addEntry, if_pos (show (m.store.inode x).size.toNat < ndirect from hSmall), wp_bind]
  refine wp_allocBlock (fun b m₁ hb hFree _ hStore₁ => ?_) fun hFull => ?_
  · have hRange := isData_iff.mp hb
    have hRoom : 0 < m.store.freeBlocks := by
      have := freeBlocks_mark hb hFree
      omega
    rw [if_neg (by omega)]
    by_cases hLong : 4 + name.bytes.length > blockSize
    · rw [if_pos hLong, wp_throw]
      rw [blockSize_eq] at hLong
      exact .overflow hRoom trivial (by omega)
    rw [if_neg hLong, wp_bind]
    rw [blockSize_eq] at hLong
    have hName : name.bytes.length ≤ 508 := by omega
    obtain ⟨m₂, hRun₂, hStore₂⟩ := writeBlock_data (m := m₁) (Or.inl hb) (entryBlock i name)
    refine wp_of_ok hRun₂ ?_
    rw [wp_pure, wp_bind]
    refine wp_time fun mtime m₃ hm₃ => ?_
    rw [wp_bind]
    refine wp_time fun ctime m₄ hm₄ => ?_
    have hSize : ((m.store.inode x).setSlot (m.store.inode x).size.toNat b).size.toNat <
        ndirect + 1 := Nat.lt_succ_of_lt hSmall
    rw [if_pos hSize]
    obtain ⟨m₅, hRun₅, hStore₅⟩ := putInode_eq (m := m₄) hInum
      (addedInode (m.store.inode x) b mtime ctime)
    refine wp_of_ok hRun₅ ⟨hName, ?_⟩
    rw [hStore₅, hm₄, hm₃, hStore₂, hStore₁]
    exact added_of_block hb hFree hSmall (entryOf_entryBlock hi hName)
  · rw [if_pos rfl]
    have hNone := freeBlocks_eq_zero hFull
    exact .full hNone trivial (Strayed.refl m.store)

/-- `add_to_dir` on a directory without a free slot goes to the children that
block 0 lists, and then updates the size and the times. -/
theorem wp_addToDir_behind {Q : Unit → Machine → Prop} {E : Stop → Machine → Prop}
    (hInum : IsInum x) (hDir : (m.store.inode x).isDir = true) (hLarge : 100 ≤ m.store.size x)
    (hSlot : m.store.slot x 100 = 0)
    (h : wp (addToChild (fun child => addToDir stack child i name) 0 (inumBuf (m.store.data 0)) 0
        (inumBuf (m.store.data 0)))
      (fun _ m₁ => ∀ mtime ctime m', m'.store =
        m₁.store.putInode x (touchedInode (m.store.inode x) mtime ctime) → Q () m') E m) :
    wp (addToDir (stack + 1) x i name) Q E m := by
  have hFull : ¬(m.store.inode x).size.toNat < ndirect := Nat.not_lt.mpr hLarge
  have hIndirect : (m.store.inode x).slot ndirect = 0 := hSlot
  rw [addToDir, wp_bind, wp_getInode hInum]
  simp only [hDir, if_true]
  rw [wp_bind, addEntry, if_neg hFull, hIndirect, wp_bind, wp_readBlock (Or.inr (by omega)),
    wp_bind]
  refine wp_mono h (fun _ m₁ hNext => ?_) fun _ _ hError => hError
  rw [wp_pure, wp_bind]
  refine wp_time fun mtime m₂ hm₂ => ?_
  rw [wp_bind]
  refine wp_time fun ctime m₃ hm₃ => ?_
  obtain ⟨m₄, hRun₄, hStore₄⟩ := putInode_eq (m := m₃) hInum
    (touchedInode (m.store.inode x) mtime ctime)
  refine wp_of_ok hRun₄ (hNext mtime ctime m₄ ?_)
  rw [hStore₄, hm₃, hm₂]

theorem readDirect_lists (h : m.store.Lists x l) (hSize : min (m.store.size x) 100 = l.length) :
    (readDirect m (m.store.inode x)).map (List.map entryOf) = .ok l := by
  have hRead : readDirect m (m.store.inode x) =
      .ok ((List.range (min (m.store.size x) 100)).map fun k => m.store.data (m.store.slot x k)) := by
    refine mapM_ok fun k hk => readBlock_data (Or.inl (h.entry k ?_).1)
    rw [← hSize]
    exact List.mem_range.mp hk
  rw [hRead, hSize]
  refine congrArg Except.ok (List.ext_getElem (by simp) fun k hk _ => ?_)
  have hk' : k < l.length := by simpa using hk
  simpa using (h.entry k hk').2.2

theorem readDir_eq (hInum : IsInum x) (hDir : (m.store.inode x).isDir = true) :
    readDir m (stack + 1) x = do
      let direct ← (readDirect m (m.store.inode x)).map (List.map entryOf)
      let indirect ← mapChildren m (m.store.inode x) (readDir m stack)
      return direct ++ indirect.flatten := by
  rw [readDir, getInode_some hInum]
  simp only [bind, Except.bind, hDir, if_true]
  cases readDirect m (m.store.inode x) <;> rfl

/-- `read_dir` lists the entries in the order of the slots. -/
theorem readDir_row (h : m.store.Row x l false) : readDir m (stack + 1) x = .ok l := by
  have hSize : m.store.size x = l.length := h.size
  have hFew := h.few
  have hChildren : mapChildren m (m.store.inode x) (readDir m stack) = .ok [] :=
    if_neg (show ¬m.store.size x > ndirect by rw [ndirect_eq]; omega)
  rw [readDir_eq h.lists.inum h.lists.dir, readDirect_lists h.lists (by omega), hChildren]
  exact congrArg Except.ok (List.append_nil l)

end Programs
end InodeFS
