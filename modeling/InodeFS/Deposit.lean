import InodeFS.BlankChildren

/-! `add_to_dir` when block 0 lists children that lost their entries. The first of them
gets the next entry, and drops it unless its inode is a directory again. -/
namespace InodeFS

open Bytes Exec Paging Store

namespace Store

variable {σ σ' : Store} {X : Set Nat} {C D : List Nat} {s : List Entry}

namespace BlankChildren

theorem carry (h : σ.BlankChildren C D s) (hC : Carries σ σ' X) (hKids : ∀ c ∈ C, c ∉ X)
    (hEmpty : ∀ d ∈ D, σ'.size d = 0 ∧ ∀ k, σ'.slot d k = 0) (hZero : σ'.data 0 = σ.data 0) :
    σ'.BlankChildren C D s := by
  have hChild : ∀ j (hj : j < C.length), σ'.Row C[j] (page 100 s j) false := fun j hj =>
    (h.child j hj).carry hC (hKids _ (List.getElem_mem hj))
  refine ⟨⟨?_, h.childSizes.nodup, h.childSizes.count, fun c hc => ?_, fun j hj => ?_, fun d hd =>
    ⟨(h.childSizes.empty d hd).1, (hEmpty d hd).1⟩⟩, hChild, fun d hd => (hEmpty d hd).2⟩
  · rw [Table, hZero]
    exact h.childSizes.table
  · obtain ⟨j, hj, rfl⟩ := List.getElem_of_mem hc
    exact ⟨(hChild j hj).lists.inum, (hChild j hj).lists.dir⟩
  · have hAlive : σ.Alive C[j] := (h.child j hj).alive
    rw [size_congr (hC.inode _ hAlive (hKids _ (List.getElem_mem hj))), h.childSizes.size j hj]

/-- An inode is allocated. -/
theorem stray_alloc (h : σ.BlankChildren C D s) (hStray : Strayed σ σ') : σ'.BlankChildren C D s := by
  refine h.carry hStray.carries (fun _ _ hX => hX.elim) (fun d hd => ?_) (by rw [hStray.data])
  exact hStray.blank ⟨(h.childSizes.empty d hd).2, h.blank d hd⟩

end BlankChildren
end Store

/-- What the children did with an entry: the last of them had a free slot, or the first
empty one is a directory again, or it is not and the entry is gone, or a child was
allocated. -/
inductive Store.Took (σ σ' : Store) (C D : List Nat) (n : Nat) (e : Entry) : Prop where
  | last {F : List Nat} {c : Nat} (hC : C = F ++ [c]) (hRoom : n % 100 ≠ 0)
      (hAdd : Added σ σ' c e)
  | again {d : Nat} {rest : List Nat} (hD : D = d :: rest) (hFull : n % 100 = 0)
      (hDir : (σ.inode d).isDir = true) (hAdd : Added σ σ' d e)
  | dropped {d : Nat} {rest : List Nat} (hD : D = d :: rest) (hFull : n % 100 = 0)
      (hDir : (σ.inode d).isDir = false) (hSame : σ' = σ)
  | new {c : Nat} {now : UInt32} {σ₁ : Store} (hD : D = []) (hFull : n % 100 = 0)
      (hFew : C.length ≤ 127) (hInum : IsInum c) (hDead : ¬σ.Alive c)
      (hFirst : ∀ j, IsInum j → j < c → σ.Alive j)
      (hAdd : Added (σ.putInode c (freshInode .T_DIR now)) σ₁ c e)
      (hWrite : σ' = σ₁.write 0 (inumBlock ((inumBuf (σ.data 0)).set C.length c)))

section Programs

variable {m : Machine} {p d i stack : Nat} {name : CString} {C D : List Nat} {l s : List Entry}
  {large : Bool}

theorem Store.ChildSizes.full_size {n : Nat} (h : m.store.ChildSizes C D n) (hFull : n % 100 = 0)
    {c : Nat} (hc : c ∈ C) : IsInum c ∧ m.store.size c = 100 := by
  have hCount := h.count
  obtain ⟨j, hj, rfl⟩ := List.getElem_of_mem hc
  refine ⟨(h.child _ hc).1, ?_⟩
  rw [h.size j hj]
  omega

/-- The first empty child is no directory: nothing happens in the children. -/
theorem Store.ChildSizes.addToChild_dropped {n : Nat} (h : m.store.ChildSizes C (d :: D) n)
    (hFull : n % 100 = 0) (hDir : (m.store.inode d).isDir = false) (stack : Nat) :
    addToChild (fun child => addToDir (stack + 1) child i name) 0 (inumBuf (m.store.data 0)) 0
      (inumBuf (m.store.data 0)) m = .ok () m := by
  obtain ⟨hInum, hEmpty⟩ := h.empty d List.mem_cons_self
  have hRange := isInum_iff.mp hInum
  have hSmall : m.store.size d < ndirect := by
    rw [hEmpty, ndirect_eq]
    omega
  have hTable : inumBuf (m.store.data 0) =
      C ++ d :: (D ++ List.replicate (128 - (C ++ d :: D).length) 0) := by
    have hOld : inumBuf (m.store.data 0) = C ++ d :: D ++ _ := h.table
    rw [hOld, List.append_assoc, List.cons_append]
  have hBound : C.length ≤ 127 := by
    have hLengths := congrArg List.length hTable
    rw [inumBuf_length, List.length_append, List.length_cons] at hLengths
    omega
  have hNone : addToDir (stack + 1) d i name m = .ok () m := by
    simp only [addToDir, bind, EStateM.bind, query, getInode_some hInum, hDir]
    rfl
  rw [hTable, addToChild_full (fun c hc => h.full_size hFull hc) (by omega), addToChild,
    if_neg (by omega)]
  simp only [bind, EStateM.bind, query, getInoBlockNum_eq hInum, if_pos (Or.inl hSmall), hNone]

/-- The children take an entry. -/
theorem Store.ChildSizes.wp_addToChild {n : Nat} (h : m.store.ChildSizes C D n) (hFew : n < 12800)
    (hi : i < 2 ^ 32) (stack : Nat) :
    wp (addToChild (fun child => addToDir (stack + 1) child i name) 0 (inumBuf (m.store.data 0)) 0
        (inumBuf (m.store.data 0)))
      (fun _ m' => Took m.store m'.store C D n (i, name))
      (fun e m' => e = .badAlloc → Strayed m.store m'.store) m := by
  have hCount := h.count
  have hLengths := congrArg List.length h.table
  rw [inumBuf_length, List.length_append, List.length_append] at hLengths
  by_cases hFull : n % 100 = 0
  · have hKids : ∀ c ∈ C, IsInum c ∧ m.store.size c = 100 := fun c hc => h.full_size hFull hc
    cases D with
    | nil =>
        have hZeros : 128 - C.length = 127 - C.length + 1 := by omega
        have hList : inumBuf (m.store.data 0) = C ++ 0 :: List.replicate (127 - C.length) 0 := by
          rw [h.table, List.append_nil, hZeros, List.replicate_succ]
        have hNew := wp_addToChild_new name stack (inumBuf (m.store.data 0))
          (List.replicate (127 - C.length) 0) hKids (by omega) hi
        rw [← hList] at hNew
        refine wp_mono hNew (fun _ m' hPost => ?_) fun e m' hStop => hStop.stray
        obtain ⟨-, c, now, σ₁, hInum, hDead, hFirst, hAdd, hStore⟩ := hPost
        exact .new rfl hFull (by omega) hInum hDead hFirst hAdd hStore
    | cons d rest =>
        cases hDir : (m.store.inode d).isDir with
        | false =>
            exact wp_of_ok (h.addToChild_dropped hFull hDir stack) (.dropped rfl hFull hDir rfl)
        | true =>
            obtain ⟨hInum, hEmpty⟩ := h.empty d List.mem_cons_self
            rw [List.length_cons] at hLengths
            have hRoom := wp_addToChild_room name stack 0 (inumBuf (m.store.data 0))
              (rest ++ List.replicate (128 - (C ++ d :: rest).length) 0) hKids (by omega) hi hInum
              hDir (by omega)
            rw [← List.cons_append, ← List.append_assoc, ← h.table] at hRoom
            exact wp_mono hRoom (fun _ _ hPost => .again rfl hFull hDir hPost.2)
              fun e m' hStop => hStop.stray
  · obtain ⟨F, c, rfl⟩ : ∃ F c, C = F ++ [c] := by
      have hne : C ≠ [] := fun he => by
        rw [he, List.length_nil] at hCount
        omega
      exact ⟨_, _, (List.dropLast_append_getLast hne).symm⟩
    rw [List.length_append, List.length_singleton] at hCount hLengths
    have hKids : ∀ d ∈ F, IsInum d ∧ m.store.size d = 100 := by
      intro d hd
      obtain ⟨j, hj, rfl⟩ := List.getElem_of_mem hd
      have hj' : j < (F ++ [c]).length := by
        rw [List.length_append]
        omega
      have hGet : (F ++ [c])[j] = F[j] := List.getElem_append_left hj
      have hSize := h.size j hj'
      rw [hGet] at hSize
      exact ⟨(h.child _ (List.mem_append_left _ (List.getElem_mem hj))).1, by omega⟩
    have hLt : F.length < (F ++ [c]).length := by simp
    have hGet : (F ++ [c])[F.length] = c := List.getElem_concat_length rfl _
    have hSize := h.size F.length hLt
    rw [hGet] at hSize
    obtain ⟨hInum, hDir⟩ := h.child c (by simp)
    have hRoom := wp_addToChild_room name stack 0 (inumBuf (m.store.data 0))
      (D ++ List.replicate (128 - (F ++ [c] ++ D).length) 0) hKids (by omega) hi hInum hDir (by omega)
    have hList : inumBuf (m.store.data 0) =
        F ++ c :: (D ++ List.replicate (128 - (F ++ [c] ++ D).length) 0) := by
      have hOld : inumBuf (m.store.data 0) = F ++ [c] ++ D ++ _ := h.table
      rw [hOld, List.append_assoc, List.append_assoc, List.singleton_append]
    rw [← hList] at hRoom
    exact wp_mono hRoom (fun _ _ hPost => .last rfl hFull hPost.2)
      fun e m' hStop => hStop.stray

/-- `add_to_dir` on a directory without a free slot. When 128 children are full it ends
in a stack overflow. -/
theorem wp_addToDir_took {n : Nat} (h : m.store.ChildSizes C D n)
    (hKids : ∀ c ∈ C, m.store.slot c 100 = 0) (hInum : IsInum p)
    (hDir : (m.store.inode p).isDir = true) (hSize : 100 ≤ m.store.size p)
    (hSlot : m.store.slot p 100 = 0) (hi : i < 2 ^ 32) (stack : Nat) :
    wp (addToDir (stack + 2) p i name) (fun _ m' => ∃ σ₁ mtime ctime,
        Took m.store σ₁ C D n (i, name) ∧
          m'.store = σ₁.putInode p (touchedInode (m.store.inode p) mtime ctime))
      (fun e m' => e = .badAlloc → Strayed m.store m'.store) m := by
  by_cases hFew : n < 12800
  · refine wp_addToDir_behind hInum hDir hSize hSlot ?_
    refine wp_mono (h.wp_addToChild hFew hi stack)
      (fun _ m₁ hTook mtime ctime m' hStore => ?_) fun _ _ hStop => hStop
    exact ⟨m₁.store, mtime, ctime, hTook, hStore⟩
  · have hMost := h.length_le
    have hCount := h.count
    have hLengths := congrArg List.length h.table
    rw [inumBuf_length, List.length_append, List.length_append] at hLengths
    obtain rfl : D = [] := List.eq_nil_of_length_eq_zero (by omega)
    have hTable : m.store.Table C := by
      have hOld := h.table
      rwa [List.append_nil] at hOld
    have hRound : addToDir (stack + 2) p i name m = .error .stackOverflow m :=
      addToDir_round hTable (by omega)
      (fun c hc => h.full_size (by omega) hc) (fun c hc => ⟨(h.child c hc).2, hKids c hc⟩)
      (stack + 2) hInum hDir hSize hSlot
    rw [wp, hRound]
    exact fun he => by cases he

/-- The first empty child is no directory: the entry is dropped, and only the directory
itself is touched. -/
theorem wp_addToDir_dropped (h : m.store.BlankChildren C (d :: D) s) (hRow : m.store.Row p l large)
    (hLength : l.length = 100) (hFull : s.length % 100 = 0) (hDir : (m.store.inode d).isDir = false) :
    wp (addToDir (stack + 2) p i name) (fun _ m' => ∃ mtime ctime,
      m'.store = m.store.putInode p (touchedInode (m.store.inode p) mtime ctime))
      (fun _ _ => False) m := by
  have hSize := hRow.size
  refine wp_addToDir_behind hRow.lists.inum hRow.lists.dir (by omega) hRow.indirect ?_
  refine wp_of_ok (h.childSizes.addToChild_dropped hFull hDir stack) ?_
  exact fun mtime ctime m' hStore => ⟨mtime, ctime, hStore⟩

end Programs
end InodeFS
