import InodeFS.Library.Pages
import InodeFS.Entries

/-! The children that block 0 lists. Whichever large directory an entry was added
to, it went to the first of these children with a free slot, so they hold the
entries of all large directories in the order in which they were added. -/
namespace InodeFS

open Bytes Exec Paging

namespace Store

variable {σ σ₁ σ' : Store} {X : Set Nat} {p c : Nat} {C C' F : List Nat} {l s : List Entry}
  {e : Entry}

/-- The children that block 0 lists. -/
def Table (σ : Store) (C : List Nat) : Prop :=
  inumBuf (σ.data 0) = C ++ List.replicate (128 - C.length) 0

/-- The children `C` hold the entries `s`, page by page. -/
structure ChildEntries (σ : Store) (C : List Nat) (s : List Entry) : Prop where
  table : σ.Table C
  nodup : C.Nodup
  count : C.length = (s.length + 99) / 100
  child : ∀ j (hj : j < C.length), σ.Row C[j] (page 100 s j) false

/-- The table with one more child. -/
theorem table_set (hTable : σ.Table C) (hFew : C.length ≤ 127) (hc : c < 2 ^ 32) :
    inumBuf (inumBlock ((inumBuf (σ.data 0)).set C.length c)) =
      C ++ [c] ++ List.replicate (128 - (C ++ [c]).length) 0 := by
  have hZeros : 128 - C.length = 127 - C.length + 1 := by omega
  have hSet : (inumBuf (σ.data 0)).set C.length c =
      C ++ [c] ++ List.replicate (127 - C.length) 0 := by
    rw [hTable, List.set_append_right _ _ (Nat.le_refl _), Nat.sub_self, hZeros,
      List.replicate_succ, List.set_cons_zero, List.append_assoc, List.singleton_append]
  have hLt : ∀ d ∈ C ++ [c] ++ List.replicate (127 - C.length) 0, d < 2 ^ 32 := by
    intro d hd
    rw [← hSet] at hd
    rcases List.mem_or_eq_of_mem_set hd with hd | rfl
    · exact inumBuf_lt hd
    · exact hc
  have hLength : (C ++ [c] ++ List.replicate (127 - C.length) 0).length = 128 := by
    simp only [List.length_append, List.length_singleton, List.length_replicate]
    omega
  rw [hSet, inumBuf_inumBlock hLength.le hLt, hLength, Nat.sub_self, List.replicate_zero,
    List.append_nil, List.length_append, List.length_singleton, Nat.sub_add_eq, Nat.sub_right_comm]

theorem untilZero_table (h : σ.Table C) (hC : ∀ c ∈ C, c ≠ 0) :
    untilZero (inumBuf (σ.data 0)) = C := by
  rw [h]
  exact untilZero_append_zeros hC _

namespace ChildEntries

theorem mem (h : σ.ChildEntries C s) (hc : c ∈ C) : ∃ l, σ.Row c l false := by
  obtain ⟨j, hj, rfl⟩ := List.getElem_of_mem hc
  exact ⟨_, h.child j hj⟩

theorem alive (h : σ.ChildEntries C s) (hc : c ∈ C) : σ.Alive c := by
  obtain ⟨l, hRow⟩ := h.mem hc
  exact hRow.alive

theorem ne_zero (h : σ.ChildEntries C s) (hc : c ∈ C) : c ≠ 0 := by
  obtain ⟨l, hRow⟩ := h.mem hc
  have := isInum_iff.mp hRow.lists.inum
  omega

/-- Every child but the last is full. -/
theorem child_size (h : σ.ChildEntries C s) {j : Nat} (hj : j < C.length) :
    σ.size C[j] = min 100 (s.length - 100 * j) := by
  have hSize : σ.size C[j] = (page 100 s j).length := (h.child j hj).size
  rw [hSize, page_length]

theorem congr (h : σ.ChildEntries C s) (hZero : σ'.data 0 = σ.data 0)
    (hRow : ∀ c ∈ C, ∀ l, σ.Row c l false → σ'.Row c l false) : σ'.ChildEntries C s where
  table := by
    rw [Table, hZero]
    exact h.table
  nodup := h.nodup
  count := h.count
  child j hj := hRow _ (List.getElem_mem hj) _ (h.child j hj)

theorem carry (h : σ.ChildEntries C s) (hC : Carries σ σ' X) (hKids : ∀ c ∈ C, c ∉ X)
    (hZero : σ'.data 0 = σ.data 0) : σ'.ChildEntries C s :=
  h.congr hZero fun c hc _ hRow => hRow.carry hC (hKids c hc)

end ChildEntries

/-- The children `C` took the entry and are `C'` now. -/
structure Stocked (σ σ' : Store) (C C' : List Nat) (s : List Entry) (e : Entry) : Prop where
  childEntries : σ'.ChildEntries C' (s ++ [e])
  kids : C' = C ∨ ∃ c, ¬σ.Alive c ∧ C' = C ++ [c]
  inode : ∀ i, i ∉ C' → σ'.inode i = σ.inode i
  carries : Carries σ σ' {c | c ∈ C}
  apart : σ.Apart → σ'.Apart
  blocks : σ'.freeBlocks + 1 = σ.freeBlocks
  inodes : σ.freeInodes ≤ σ'.freeInodes + 1
  block : ∃ b, TakesBlock σ σ' b ∧ C'.flatMap σ'.directBlocks = C.flatMap σ.directBlocks ++ [b]

/-- The last child had a free slot. -/
theorem Stocked.of_room (h : σ.ChildEntries (F ++ [c]) s) (hRoom : s.length % 100 ≠ 0)
    (hAdd : Added σ σ₁ c e) : Stocked σ σ₁ (F ++ [c]) (F ++ [c]) s e := by
  have hCount := h.count
  rw [List.length_append, List.length_singleton] at hCount
  have hcF : c ∉ F := by
    have hNodup := List.nodup_append.mp h.nodup
    exact fun hc => hNodup.2.2 c hc c (List.mem_singleton_self c) rfl
  have hLast := h.child_size (show F.length < (F ++ [c]).length by simp)
  have hGet : (F ++ [c])[F.length] = c := List.getElem_concat_length rfl _
  rw [hGet] at hLast
  refine ⟨⟨?_, h.nodup, ?_, fun j hj => ?_⟩, Or.inl rfl, fun i hi => hAdd.inode i ?_,
    hAdd.carries.mono ?_, hAdd.apart (by omega), hAdd.blocks, ?_, ?_⟩
  · rw [Table, hAdd.zero]
    exact h.table
  · simp only [List.length_append, List.length_singleton]
    omega
  · have hRow := h.child j hj
    rw [List.length_append, List.length_singleton] at hj
    by_cases hLt : j < F.length
    · have hGetLt : (F ++ [c])[j] = F[j] := List.getElem_append_left hLt
      have hNot : (F ++ [c])[j] ∉ ({c} : Set Nat) := fun he => by
        rw [hGetLt] at he
        exact hcF (Set.mem_singleton_iff.mp he ▸ List.getElem_mem hLt)
      rw [page_append_of_le [e] (by omega)]
      exact hRow.carry hAdd.carries hNot
    · obtain rfl : j = F.length := by omega
      rw [hGet] at hRow ⊢
      rw [page_append_last e (by omega) (by omega)]
      refine hRow.add ?_ hAdd
      rw [page_length]
      omega
  · rintro rfl
    exact hi (by simp)
  · rintro d rfl
    simp
  · exact (le_of_eq (freeInodes_congr fun j => (hAdd.alive_iff j).symm)).trans (Nat.le_add_right _ 1)
  · obtain ⟨b, hTakes, hBlocks⟩ := hAdd.directBlocks (show σ.size c < 100 by omega)
    have hSame : F.flatMap σ₁.directBlocks = F.flatMap σ.directBlocks :=
      List.flatMap_congr fun d hd => directBlocks_congr (hAdd.inode d fun he => hcF (he ▸ hd))
    refine ⟨b, hTakes, ?_⟩
    rw [List.flatMap_append, List.flatMap_append, List.flatMap_singleton, List.flatMap_singleton,
      hSame, hBlocks, List.append_assoc]

/-- All children were full. -/
theorem Stocked.of_new {now : UInt32} (h : σ.ChildEntries C s) (hFull : s.length % 100 = 0)
    (hFew : C.length ≤ 127) (hInum : IsInum c) (hDead : ¬σ.Alive c)
    (hAdd : Added (σ.putInode c (freshInode .T_DIR now)) σ₁ c e) :
    Stocked σ (σ₁.write 0 (inumBlock ((inumBuf (σ.data 0)).set C.length c))) C (C ++ [c]) s e := by
  have hCount := h.count
  have hRange := isInum_iff.mp hInum
  have hStray := Strayed.freshInode hDead .T_DIR now
  have hWrite := Carries.write_zero σ₁ (inumBlock ((inumBuf (σ.data 0)).set C.length c))
  have hCarries : Carries σ (σ₁.write 0 (inumBlock ((inumBuf (σ.data 0)).set C.length c))) ∅ :=
    (((hStray.carries.mono (Set.empty_subset _)).trans hAdd.carries).trans
      (hWrite.mono (Set.empty_subset _))).of_dead hDead
  have hEmpty : (σ.putInode c (freshInode .T_DIR now)).size c = 0 := size_putInode_self
  refine ⟨⟨table_set h.table hFew (by omega), ?_, ?_, fun j hj => ?_⟩, Or.inr ⟨c, hDead, rfl⟩,
    fun i hi => ?_, hCarries.mono (Set.empty_subset _), fun hApart => ?_, hAdd.blocks, ?_, ?_⟩
  · refine List.nodup_append.mpr ⟨h.nodup, List.nodup_singleton c, fun a ha b hb => ?_⟩
    rw [List.mem_singleton.mp hb]
    exact fun he => hDead (he ▸ h.alive ha)
  · simp only [List.length_append, List.length_singleton]
    omega
  · rw [List.length_append, List.length_singleton] at hj
    by_cases hLt : j < C.length
    · have hGet : (C ++ [c])[j] = C[j] := List.getElem_append_left hLt
      rw [page_append_of_le [e] (by omega), hGet]
      exact (h.child j hLt).carry hCarries fun hMem => hMem.elim
    · obtain rfl : j = C.length := by omega
      have hGet : (C ++ [c])[C.length] = c := List.getElem_concat_length rfl _
      have hRow : (σ.putInode c (freshInode .T_DIR now)).Row c [] false := Row.empty hInum rfl
      rw [hGet, page_append_last e (by omega) (by omega), page_eq_nil (by omega)]
      exact (hRow.add (Nat.zero_lt_succ 99) hAdd).carry hWrite fun hMem => hMem.elim
  · have hne : i ≠ c := by
      rintro rfl
      exact hi (by simp)
    rw [write_inode, hAdd.inode i hne, putInode_inode, if_neg hne]
  · have hOld := hAdd.apart (by omega) (hStray.apart hApart)
    refine hOld.shrink (fun i hi k hk => ⟨hi, hk, rfl⟩) fun i hi k hk => (hOld.marked i hi k hk).2
  · have hOne : (σ.putInode c (freshInode .T_DIR now)).freeInodes + 1 = σ.freeInodes :=
      freeInodes_putInode hInum hDead (FileType.code_toUInt16_ne_zero .T_DIR)
    have hRest : σ₁.freeInodes = (σ.putInode c (freshInode .T_DIR now)).freeInodes :=
      freeInodes_congr hAdd.alive_iff
    have hSame : (σ₁.write 0 (inumBlock ((inumBuf (σ.data 0)).set C.length c))).freeInodes =
        σ₁.freeInodes := rfl
    omega
  · obtain ⟨b, hTakes, hBlocks⟩ := hAdd.directBlocks (show _ < 100 by omega)
    have hSame : C.flatMap (σ₁.write 0 (inumBlock ((inumBuf (σ.data 0)).set C.length
        c))).directBlocks = C.flatMap σ.directBlocks := List.flatMap_congr fun d hd =>
      directBlocks_congr (hCarries.inode d (h.alive hd) (Set.notMem_empty d))
    have hNone : (σ.putInode c (freshInode .T_DIR now)).directBlocks c = [] := by
      rw [directBlocks, hEmpty]
      rfl
    refine ⟨b, ⟨hTakes.data, hTakes.free, hTakes.marked, fun d hd hne => ?_⟩, ?_⟩
    · have := isData_iff.mp hd
      rw [write_bit, write_data, if_neg (by omega)]
      exact hTakes.other d hd hne
    · rw [hNone] at hBlocks
      rw [List.flatMap_append, List.flatMap_singleton, hSame]
      exact congrArg (_ ++ ·) hBlocks

/-- The directory is touched after its children took an entry. -/
theorem Row.touch {large : Bool} (h : σ.Row p l large) (hFull : l.length = 100)
    (hC : Carries σ σ₁ X) (hp : p ∉ X) (mtime ctime : UInt32) :
    (σ₁.putInode p (touchedInode (σ.inode p) mtime ctime)).Row p l true := by
  have hSame := hC.inode p h.alive hp
  have hSize : (σ.inode p).size.toNat = l.length + large.toNat := h.size
  have hBool := large.toNat_le
  refine ⟨?_, h.few, fun _ => hFull, ?_, fun k hk => ?_⟩
  · refine (h.lists.carry_of_notMem hC hp).carry (X := {p}) (Carries.putInode ?_) ?_ fun k _ => ?_
    · rw [hSame]
      rfl
    · rw [putInode_inode, if_pos rfl, hSame]
      rfl
    · rw [slot_putInode_self, slot, hSame]
      rfl
  · rw [size_putInode_self, touchedInode_size (by omega), hFull]
    rfl
  · rw [slot_putInode_self]
    exact h.rest k hk

theorem alive_putInode_touched (hSame : σ₁.inode p = σ.inode p) (mtime ctime : UInt32) (j : Nat) :
    (σ₁.putInode p (touchedInode (σ.inode p) mtime ctime)).Alive j ↔ σ₁.Alive j := by
  rw [Alive, putInode_inode]
  by_cases hj : j = p
  · subst hj
    rw [if_pos rfl, Alive, hSame]
    rfl
  · rw [if_neg hj, Alive]

/-- An entry was added to the directory `p`. The children `C` are `C'` now, and no
other inode changed. -/
structure Filed (σ σ' : Store) (p : Nat) (C C' : List Nat) : Prop where
  kids : C' = C ∨ ∃ c, ¬σ.Alive c ∧ C' = C ++ [c]
  inode : ∀ i, i ≠ p → i ∉ C' → σ'.inode i = σ.inode i
  carries : Carries σ σ' ({p} ∪ {c | c ∈ C})
  apart : σ.Apart → σ'.Apart
  blocks : σ'.freeBlocks + 1 = σ.freeBlocks
  inodes : σ.freeInodes ≤ σ'.freeInodes + 1
  block : ∃ b, TakesBlock σ σ' b ∧
    (σ.size p < 100 ∧ σ'.directBlocks p = σ.directBlocks p ++ [b] ∧
        C'.flatMap σ'.directBlocks = C.flatMap σ.directBlocks ∨
      100 ≤ σ.size p ∧ σ'.directBlocks p = σ.directBlocks p ∧
        C'.flatMap σ'.directBlocks = C.flatMap σ.directBlocks ++ [b])

theorem Added.filed (h : Added σ σ' p e) (hSmall : σ.size p < 100) (hp : p ∉ C) :
    Filed σ σ' p C C where
  kids := Or.inl rfl
  inode i hi _ := h.inode i hi
  carries := h.carries.mono Set.subset_union_left
  apart := h.apart hSmall
  blocks := h.blocks
  inodes := (le_of_eq (freeInodes_congr fun j => (h.alive_iff j).symm)).trans (Nat.le_add_right _ 1)
  block := by
    obtain ⟨b, hTakes, hBlocks⟩ := h.directBlocks hSmall
    refine ⟨b, hTakes, Or.inl ⟨hSmall, hBlocks, ?_⟩⟩
    exact List.flatMap_congr fun d hd => directBlocks_congr (h.inode d fun he => hp (he ▸ hd))

/-- A directory `p` without a free slot took the entry: first the children, and
then `p` was touched. -/
structure Entered (σ σ' : Store) (p : Nat) (l : List Entry) (C C' : List Nat) (s : List Entry)
    (e : Entry) : Prop where
  row : σ'.Row p l true
  childEntries : σ'.ChildEntries C' (s ++ [e])
  filed : Filed σ σ' p C C'

theorem Stocked.enter {large : Bool} {mtime ctime : UInt32} (h : Stocked σ σ₁ C C' s e)
    (hRow : σ.Row p l large) (hFull : l.length = 100) (hp : p ∉ C) :
    Entered σ (σ₁.putInode p (touchedInode (σ.inode p) mtime ctime)) p l C C' s e := by
  have hp' : p ∉ C' := by
    rcases h.kids with rfl | ⟨c, hDead, rfl⟩
    · exact hp
    · rw [List.mem_append, List.mem_singleton]
      rintro (hc | rfl)
      · exact hp hc
      · exact hDead hRow.alive
  have hSame : σ₁.inode p = σ.inode p := h.inode p hp'
  have hAlive := alive_putInode_touched hSame mtime ctime
  have hPut : Carries σ₁ (σ₁.putInode p (touchedInode (σ.inode p) mtime ctime)) {p} := by
    refine Carries.putInode ?_
    rw [hSame]
    rfl
  have hTouched := hRow.touch hFull h.carries hp mtime ctime
  refine ⟨hTouched, h.childEntries.carry hPut (fun c hc he => hp' (he ▸ hc)) rfl, h.kids,
    fun i hi hc => ?_, (h.carries.mono Set.subset_union_right).trans
      (hPut.mono Set.subset_union_left), fun hApart => ?_, h.blocks, ?_, ?_⟩
  · rw [putInode_inode, if_neg hi]
    exact h.inode i hc
  · have hMid := h.apart hApart
    have hPlace : ∀ i k, k < min ((σ₁.putInode p (touchedInode (σ.inode p) mtime ctime)).size i) 100 →
        k < min (σ₁.size i) 100 ∧
          (σ₁.putInode p (touchedInode (σ.inode p) mtime ctime)).slot i k = σ₁.slot i k := by
      intro i k hk
      by_cases hi : i = p
      · subst hi
        have hSize : σ₁.size i = l.length + large.toNat := (size_congr hSame).trans hRow.size
        refine ⟨by omega, ?_⟩
        rw [slot_putInode_self, slot, hSame]
        rfl
      · have hOther : (σ₁.putInode p (touchedInode (σ.inode p) mtime ctime)).inode i =
            σ₁.inode i := by rw [putInode_inode, if_neg hi]
        rw [size_congr hOther] at hk
        exact ⟨hk, slot_congr hOther k⟩
    refine hMid.shrink (fun i hi k hk => ⟨(hAlive i).mp hi, hPlace i k hk⟩) fun i hi k hk => ?_
    exact (hMid.marked i ((hAlive i).mp hi) k (hPlace i k hk).1).2
  · have hTotal : (σ₁.putInode p (touchedInode (σ.inode p) mtime ctime)).freeInodes =
        σ₁.freeInodes := freeInodes_congr hAlive
    have hInodes := h.inodes
    omega
  · obtain ⟨b, hTakes, hBlocks⟩ := h.block
    have hSize : σ.size p = l.length + large.toNat := hRow.size
    have hSize' := hTouched.size
    have hOwn : (σ₁.putInode p (touchedInode (σ.inode p) mtime ctime)).directBlocks p =
        σ.directBlocks p := by
      have hMin : min (l.length + true.toNat) 100 = min (l.length + large.toNat) 100 := by
        rw [hFull]
        cases large <;> rfl
      rw [directBlocks, directBlocks, hSize, hSize', hMin]
      exact List.map_congr_left fun k _ => slot_putInode_self
    have hKids : C'.flatMap (σ₁.putInode p (touchedInode (σ.inode p) mtime ctime)).directBlocks =
        C'.flatMap σ₁.directBlocks := List.flatMap_congr fun d hd => directBlocks_congr (by
      have hne : d ≠ p := fun he => hp' (he ▸ hd)
      rw [putInode_inode, if_neg hne])
    exact ⟨b, ⟨hTakes.data, hTakes.free, hTakes.marked, hTakes.other⟩,
      Or.inr ⟨by omega, hOwn, hKids.trans hBlocks⟩⟩

/-- `add_to_dir` ran out of blocks or inodes. A child may have been allocated
which nobody lists. -/
structure Halted (σ σ' : Store) : Prop where
  short : Short σ
  strayed : Strayed σ σ'

end Store

open Store

section Programs

variable {m : Machine} {stack p x i : Nat} {name : CString} {C : List Nat} {l s : List Entry}
  {large : Bool}

theorem getInoBlockNum_eq (h : IsInum x) : getInoBlockNum m x = .ok (m.store.size x) := by
  rw [getInoBlockNum, derefInode_ok h]
  rfl

/-- The loop passes over the full children. -/
theorem addToChild_full {add : Nat → Action Unit} {b k : Nat} {inums F rest : List Nat}
    (hF : ∀ c ∈ F, IsInum c ∧ m.store.size c = 100) (hk : k + F.length ≤ 127) :
    addToChild add b inums k (F ++ rest) m = addToChild add b inums (k + F.length) rest m := by
  induction F generalizing k with
  | nil => rfl
  | cons c F ih =>
      obtain ⟨hInum, hSize⟩ := hF c List.mem_cons_self
      have hRange := isInum_iff.mp hInum
      rw [List.length_cons] at hk ⊢
      have hNext : ¬(m.store.size c < ndirect ∨ k = nindirect - 1) := by
        rw [hSize, ndirect_eq, nindirect_eq]
        omega
      rw [List.cons_append, addToChild, if_neg (by omega)]
      simp only [bind, EStateM.bind, query, getInoBlockNum_eq hInum, if_neg hNext]
      rw [ih (fun d hd => hF d (List.mem_cons_of_mem c hd)) (by omega), Nat.add_assoc,
        Nat.add_comm 1 F.length]

/-- When all 128 children are full the call goes round in block 0 until the stack
is used up. -/
theorem addToDir_round (hTable : m.store.Table C) (hC : C.length = 128)
    (hFull : ∀ c ∈ C, IsInum c ∧ m.store.size c = 100)
    (hLast : ∀ c ∈ C, (m.store.inode c).isDir = true ∧ m.store.slot c 100 = 0) (stack : Nat)
    (hInum : IsInum p) (hDir : (m.store.inode p).isDir = true) (hLarge : 100 ≤ m.store.size p)
    (hSlot : m.store.slot p 100 = 0) : addToDir stack p i name m = .error .stackOverflow m := by
  induction stack generalizing p with
  | zero => rfl
  | succ stack ih =>
      obtain ⟨F, c, rfl⟩ : ∃ F c, C = F ++ [c] :=
        ⟨_, _, (List.dropLast_append_getLast (List.ne_nil_of_length_eq_add_one hC)).symm⟩
      have hc : c ∈ F ++ [c] := by simp
      have hRange := isInum_iff.mp (hFull c hc).1
      have hLength : F.length = 127 := by simpa using hC
      have hList : inumBuf (m.store.data 0) = F ++ [c] := by
        rw [hTable, hC, Nat.sub_self, List.replicate_zero, List.append_nil]
      have hNext := ih (hFull c hc).1 (hLast c hc).1 (hFull c hc).2.ge (hLast c hc).2
      have hBlock : readBlock m 0 = .ok (m.store.data 0) := readBlock_data (Or.inr (by omega))
      have hStop : addToChild (fun child => addToDir stack child i name) 0
          (inumBuf (m.store.data 0)) 0 (inumBuf (m.store.data 0)) m = .error .stackOverflow m := by
        have hEnd : m.store.size c < ndirect ∨ 0 + F.length = nindirect - 1 := by
          rw [nindirect_eq]
          omega
        rw [hList, addToChild_full (fun d hd => hFull d (List.mem_append_left _ hd)) (by omega),
          addToChild, if_neg (by omega)]
        simp only [bind, EStateM.bind, query, getInoBlockNum_eq (hFull c hc).1, if_pos hEnd]
        exact hNext
      have hBehind : ¬(m.store.inode p).size.toNat < ndirect := Nat.not_lt.mpr hLarge
      have hIndirect : (m.store.inode p).slot ndirect = 0 := hSlot
      simp only [addToDir, addEntry, bind, EStateM.bind, query, getInode_some hInum, hDir,
        if_neg hBehind, if_true, hIndirect, hBlock, hStop]

section Loop

variable (name) (stack b : Nat) {F : List Nat} (inums rest : List Nat)
  (hF : ∀ c ∈ F, IsInum c ∧ m.store.size c = 100) (hLength : F.length ≤ 127) (hi : i < 2 ^ 32)
include hF hLength hi

/-- The first child with a free slot takes the entry. -/
theorem wp_addToChild_room (hInum : IsInum x) (hDir : (m.store.inode x).isDir = true)
    (hSmall : m.store.size x < 100) :
    wp (addToChild (fun child => addToDir (stack + 1) child i name) b inums 0 (F ++ x :: rest))
      (fun _ m' => name.bytes.length ≤ 508 ∧ Added m.store m'.store x (i, name))
      (fun e m' => Refused m.store m'.store True name e) m := by
  have hRange := isInum_iff.mp hInum
  rw [wp, addToChild_full hF (by omega), addToChild, if_neg (by omega)]
  change wp (query (getInoBlockNum · x) >>= _) _ _ m
  rw [wp_bind, wp_query_ok (f := (getInoBlockNum · x)) (getInoBlockNum_eq hInum),
    if_pos (Or.inl (show m.store.size x < ndirect from hSmall))]
  exact wp_addToDir_small hInum hDir hSmall hi

/-- When all children are full a new one is listed behind them. -/
theorem wp_addToChild_new :
    wp (addToChild (fun child => addToDir (stack + 1) child i name) 0 inums 0 (F ++ 0 :: rest))
      (fun _ m' => name.bytes.length ≤ 508 ∧ ∃ c now σ₁, IsInum c ∧ ¬m.store.Alive c ∧
        (∀ j, IsInum j → j < c → m.store.Alive j) ∧
        Added (m.store.putInode c (freshInode .T_DIR now)) σ₁ c (i, name) ∧
        m'.store = σ₁.write 0 (inumBlock (inums.set F.length c)))
      (fun e m' => Refused m.store m'.store (0 < m.store.freeInodes) name e) m := by
  rw [wp, addToChild_full hF (by omega), addToChild, if_pos rfl, Nat.zero_add]
  change wp (allocInode FileType.T_DIR.code >>= _) _ _ m
  rw [wp_bind]
  refine wp_allocInode .T_DIR (fun c now m₁ hInum hDead hFirst hStore₁ => ?_) fun hAll => ?_
  · have hDir : (m₁.store.inode c).isDir = true := by
      rw [hStore₁, putInode_inode, if_pos rfl]
      rfl
    have hEmpty : m₁.store.size c = 0 := by
      rw [hStore₁, size_putInode_self]
      rfl
    rw [wp_bind]
    refine wp_mono (wp_addToDir_small hInum hDir (by omega) hi) (fun _ m₂ hPost => ?_)
      fun e m₂ hStop => ?_
    · obtain ⟨m₃, hRun₃, hStore₃⟩ := writeBlock_data (m := m₂) (Or.inr (by omega : 0 < 2))
        (inumBlock (inums.set F.length c))
      refine wp_of_ok hRun₃ ⟨hPost.1, c, now, m₂.store, hInum, hDead, hFirst, ?_, hStore₃⟩
      rw [← hStore₁]
      exact hPost.2
    · have hBlocks : m₁.store.freeBlocks = m.store.freeBlocks := by
        rw [hStore₁]
        rfl
      have hInodes := freeInodes_putInode hInum hDead (show (freshInode .T_DIR now).type ≠ 0 from
        FileType.code_toUInt16_ne_zero .T_DIR)
      cases hStop with
      | overflow hBlock _ hLong => exact .overflow (hBlocks ▸ hBlock) (by omega) hLong
      | full hNone _ hStray =>
          rw [hStore₁] at hStray
          exact .full (hBlocks ▸ hNone) (by omega) ((Strayed.freshInode hDead .T_DIR now).trans hStray)
      | crash _ hNowhere _ => exact absurd trivial hNowhere
  · have hNone := freeInodes_eq_zero hAll
    exact .crash (by decide) (by omega) (Strayed.refl m.store)

end Loop

/-- There is a place for one entry more behind the slots of the directories: a child that
is not full, or a free inode when a new child has to be listed. -/
def Store.PlaceBehind (σ : Store) (s : List Entry) : Prop :=
  s.length % 100 = 0 → 0 < σ.freeInodes ∧ s.length < 12800

theorem Store.ChildEntries.full_size (h : m.store.ChildEntries C s) (hFull : s.length % 100 = 0) {c : Nat}
    (hc : c ∈ C) : IsInum c ∧ m.store.size c = 100 := by
  have hCount := h.count
  obtain ⟨j, hj, rfl⟩ := List.getElem_of_mem hc
  refine ⟨(h.child j hj).lists.inum, ?_⟩
  rw [h.child_size hj]
  omega

theorem Store.ChildEntries.length_le {σ : Store} (h : σ.ChildEntries C s) : s.length ≤ 12800 := by
  have hCount := h.count
  have hLength := congrArg List.length h.table
  rw [inumBuf_length, List.length_append] at hLength
  omega

/-- The children that block 0 lists take one entry more. -/
theorem wp_addToChild_childEntries (stack : Nat) (h : m.store.ChildEntries C s) (hFew : s.length < 12800)
    (hi : i < 2 ^ 32) :
    wp (addToChild (fun child => addToDir (stack + 1) child i name) 0 (inumBuf (m.store.data 0)) 0
        (inumBuf (m.store.data 0)))
      (fun _ m' => name.bytes.length ≤ 508 ∧ ∃ C', Stocked m.store m'.store C C' s (i, name))
      (fun e m' => Refused m.store m'.store (m.store.PlaceBehind s) name e) m := by
  have hCount := h.count
  have hTable : inumBuf (m.store.data 0) = C ++ List.replicate (128 - C.length) 0 := h.table
  by_cases hFull : s.length % 100 = 0
  · have hZeros : 128 - C.length = 127 - C.length + 1 := by omega
    have hNew := wp_addToChild_new name stack (inumBuf (m.store.data 0))
      (List.replicate (127 - C.length) 0) (fun c hc => h.full_size hFull hc) (by omega) hi
    have hList : inumBuf (m.store.data 0) = C ++ 0 :: List.replicate (127 - C.length) 0 := by
      rw [hTable, hZeros, List.replicate_succ]
    rw [← hList] at hNew
    refine wp_mono hNew (fun _ m₁ hPost => ?_) fun e m₁ hStop => ?_
    · obtain ⟨hName, c, now, σ₁, hInum, hDead, -, hAdd, hStore⟩ := hPost
      rw [hStore]
      exact ⟨hName, C ++ [c], Stocked.of_new h hFull (by omega) hInum hDead hAdd⟩
    · exact hStop.mono ⟨fun hInodes _ => ⟨hInodes, hFew⟩, fun hPlace => (hPlace hFull).1⟩
  · obtain ⟨F, c, rfl⟩ : ∃ F c, C = F ++ [c] := by
      have hne : C ≠ [] := fun he => by
        rw [he, List.length_nil] at hCount
        omega
      exact ⟨_, _, (List.dropLast_append_getLast hne).symm⟩
    rw [List.length_append, List.length_singleton] at hCount
    have hKids : ∀ d ∈ F, IsInum d ∧ m.store.size d = 100 := by
      intro d hd
      obtain ⟨j, hj, rfl⟩ := List.getElem_of_mem hd
      have hj' : j < (F ++ [c]).length := by
        rw [List.length_append]
        omega
      have hGet : (F ++ [c])[j] = F[j] := List.getElem_append_left hj
      have hSize := h.child_size hj'
      have hInum := (h.child j hj').lists.inum
      rw [hGet] at hSize hInum
      exact ⟨hInum, by omega⟩
    have hLast : F.length < (F ++ [c]).length := by simp
    have hGet : (F ++ [c])[F.length] = c := List.getElem_concat_length rfl _
    have hRow := h.child F.length hLast
    have hSize := h.child_size hLast
    rw [hGet] at hRow hSize
    have hRoom := wp_addToChild_room name stack 0 (inumBuf (m.store.data 0))
      (List.replicate (128 - (F ++ [c]).length) 0) hKids (by omega) hi hRow.lists.inum
      hRow.lists.dir (by omega)
    have hList : inumBuf (m.store.data 0) =
        F ++ c :: List.replicate (128 - (F ++ [c]).length) 0 := by
      rw [hTable, List.append_assoc, List.singleton_append]
    rw [← hList] at hRoom
    refine wp_mono hRoom (fun _ _ hPost => ⟨hPost.1, F ++ [c], Stocked.of_room h hFull hPost.2⟩)
      fun e m₁ hStop => hStop.mono ⟨fun _ hZero => absurd hZero hFull, fun _ => trivial⟩

/-- `add_to_dir` on a directory without a free slot. -/
theorem wp_addToDir_full (h : m.store.ChildEntries C s) (hRow : m.store.Row p l large)
    (hFull : l.length = 100) (hp : p ∉ C) (hi : i < 2 ^ 32) :
    wp (addToDir (stack + 2) p i name)
      (fun _ m' => name.bytes.length ≤ 508 ∧ ∃ C', Entered m.store m'.store p l C C' s (i, name))
      (fun e m' => Refused m.store m'.store (m.store.PlaceBehind s) name e) m := by
  have hSize := hRow.size
  by_cases hFew : s.length < 12800
  · refine wp_addToDir_behind hRow.lists.inum hRow.lists.dir (by omega) hRow.indirect ?_
    refine wp_mono (wp_addToChild_childEntries stack h hFew hi)
      (fun _ m₁ hPost mtime ctime m' hStore => ?_) fun _ _ hStop => hStop
    obtain ⟨hName, C', hStocked⟩ := hPost
    rw [hStore]
    exact ⟨hName, C', hStocked.enter hRow hFull hp⟩
  · have hLength := h.length_le
    have hCount := h.count
    have hRound : addToDir (stack + 2) p i name m = _ := addToDir_round h.table (by omega)
      (fun c hc => h.full_size (by omega) hc) (fun c hc => by
        obtain ⟨l', hChild⟩ := h.mem hc
        exact ⟨hChild.lists.dir, hChild.indirect⟩)
      (stack + 2) hRow.lists.inum hRow.lists.dir (by omega) hRow.indirect
    rw [wp, hRound]
    exact .crash (by decide)
      (fun hPlace => hFew (hPlace (by omega)).2) (Strayed.refl m.store)

/-- A large directory lists its own entries and then what the children list. -/
theorem readDir_large {f : Nat → List Entry} (hRow : m.store.Row p l true)
    (hTable : m.store.Table C) (hC : ∀ c ∈ C, c ≠ 0 ∧ readDir m (stack + 1) c = .ok (f c)) :
    readDir m (stack + 2) p = .ok (l ++ C.flatMap f) := by
  have hFull := hRow.full rfl
  have hSize : m.store.size p = l.length + 1 := hRow.size
  have hLarge : (m.store.inode p).size.toNat > ndirect := by
    rw [Store.size] at hSize
    rw [ndirect_eq]
    omega
  have hIndirect : (m.store.inode p).slot ndirect = 0 := hRow.indirect
  have hRead : C.mapM (readDir m (stack + 1)) = .ok (C.map f) := mapM_ok fun c hc => (hC c hc).2
  have hChildren : mapChildren m (m.store.inode p) (readDir m (stack + 1)) = .ok (C.map f) := by
    rw [mapChildren, if_pos hLarge, hIndirect, readBlock_data (Or.inr (by omega : 0 < 2))]
    simp only [bind, Except.bind, untilZero_table hTable fun c hc => (hC c hc).1]
    exact hRead
  rw [readDir_eq hRow.lists.inum hRow.lists.dir, readDirect_lists hRow.lists (by omega), hChildren]
  rfl

/-- The same when the children list pages. -/
theorem readDir_pages (hRow : m.store.Row p l true) (hTable : m.store.Table C)
    (hNe : ∀ c ∈ C, c ≠ 0) (hCount : s.length ≤ 100 * C.length)
    (hRead : ∀ j (hj : j < C.length), readDir m (stack + 1) C[j] = .ok (page 100 s j)) :
    readDir m (stack + 2) p = .ok (l ++ s) := by
  have hAll : readDir m (stack + 2) p = _ := readDir_large
    (f := fun c => (readDir m (stack + 1) c).toOption.getD []) hRow hTable fun c hc => by
      obtain ⟨j, hj, rfl⟩ := List.getElem_of_mem hc
      rw [hRead j hj]
      exact ⟨hNe _ hc, rfl⟩
  have hPages : C.map (fun c => (readDir m (stack + 1) c).toOption.getD []) =
      (List.range C.length).map (page 100 s) := by
    refine List.ext_getElem (by simp) fun j hj _ => ?_
    rw [List.getElem_map, List.getElem_map, List.getElem_range, hRead j (by simpa using hj)]
    rfl
  rw [hAll, List.flatMap_def, hPages, ← List.flatMap_def, flatMap_page,
    List.take_of_length_le hCount]

/-- A large directory lists its own entries and then those of all children. -/
theorem readDir_childEntries (h : m.store.ChildEntries C s) (hRow : m.store.Row p l true) :
    readDir m (stack + 2) p = .ok (l ++ s) := by
  have hCount := h.count
  exact readDir_pages hRow h.table (fun c hc => h.ne_zero hc) (by omega) fun j hj =>
    readDir_row (h.child j hj)

end Programs
end InodeFS
