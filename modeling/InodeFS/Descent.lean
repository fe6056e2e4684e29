import InodeFS.Graph
import InodeFS.Creation

/-! The traversals of a file system terminate. No traversal carries a bound: it ends
because no inode is below itself. -/
namespace InodeFS

open Bytes Exec Store Ownership

/-- Inode `a` has an indirect block that lists `b`. -/
def Store.HasChild (σ : Store) (a b : Nat) : Prop := IsInum a ∧ b ∈ σ.kids a

/-- The recursions on an inode end before the stack is used up. -/
structure Terminates (m : Machine) (stack x : Nat) : Prop where
  readDir : InodeFS.readDir m stack x ≠ .error .stackOverflow
  readBlockid : InodeFS.readBlockid m stack x ≠ .error .stackOverflow
  getFileSize : InodeFS.getFileSize m stack x ≠ .error .stackOverflow
  getFileBlockNum : InodeFS.getFileBlockNum m stack x ≠ .error .stackOverflow
  inoNextBlock : ∀ iter id, iter < ndirect + nindirect * ndirect →
    InodeFS.inoNextBlock m stack x iter id ≠ .error .stackOverflow
  readFile : InodeFS.readFile m stack x ≠ .error .stackOverflow
  removeFile : ∀ m', InodeFS.removeFile stack x m ≠ .error .stackOverflow m'

section Reading

variable {m : Machine} {x stack n : Nat} {α : Type}

/-- Any value, or a stop that is no stack overflow. -/
def Ends (r : Except Stop α) : Prop := Yields (· ≠ .stackOverflow) r fun _ => True

theorem Ends.ne {r : Except Stop α} (h : Ends r) : r ≠ .error .stackOverflow := by
  rintro rfl
  exact h rfl

theorem Ends.bind {β : Type} {r : Except Stop β} {f : β → Except Stop α} (h : Ends r)
    (h' : ∀ b, Ends (f b)) : Ends (r >>= f) := Yields.bind h fun b _ => h' b

theorem ends_readBlock (m : Machine) (b : Nat) : Ends (readBlock m b) := by
  rw [readBlock]
  split
  · exact Yields.pure trivial
  · exact Yields.throw fun he => by cases he

theorem ends_readDirect (m : Machine) (ino : Inode) : Ends (readDirect m ino) :=
  (Yields.mapM fun k _ => ends_readBlock m (ino.slot k)).mono fun _ _ => trivial

theorem ends_mapChildren {visit : Nat → Except Stop α} (hSlot : m.store.slot x 100 = 0)
    (hKids : ∀ c ∈ m.store.kids x, Ends (visit c)) :
    Ends (mapChildren m (m.store.inode x) visit) := by
  by_cases hLarge : 100 < m.store.size x
  · have hIndirect : (m.store.inode x).slot ndirect = 0 := hSlot
    rw [kids_of_size hLarge, hSlot] at hKids
    rw [mapChildren, if_pos (show (m.store.inode x).size.toNat > ndirect from hLarge), hIndirect,
      readBlock_data (Or.inr (by omega : 0 < 2))]
    exact (Yields.mapM hKids).mono fun _ _ => trivial
  · rw [mapChildren, if_neg (show ¬(m.store.inode x).size.toNat > ndirect from hLarge)]
    exact Yields.pure trivial

section Steps

variable (hSlot : ∀ i, m.store.slot i 100 = 0)
include hSlot

theorem ends_readDir_step (hKids : ∀ c ∈ m.store.kids x, Ends (readDir m stack c)) :
    Ends (readDir m (stack + 1) x) := by
  by_cases hInum : IsInum x
  · rw [readDir, getInode_some hInum]
    change Ends (if (m.store.inode x).isDir then _ else _)
    split
    · exact (ends_readDirect m _).bind fun _ => (ends_mapChildren (hSlot x) hKids).bind fun _ =>
        Yields.pure trivial
    · exact Yields.pure trivial
  · rw [readDir, getInode_none hInum]
    exact Yields.pure trivial

theorem ends_readBlockid_step (hKids : ∀ c ∈ m.store.kids x, Ends (readBlockid m stack c)) :
    Ends (readBlockid m (stack + 1) x) := by
  by_cases hInum : IsInum x
  · rw [readBlockid, getInode_some hInum]
    exact (ends_mapChildren (hSlot x) hKids).bind fun _ => Yields.pure trivial
  · rw [readBlockid, getInode_none hInum]
    exact Yields.pure trivial

theorem ends_readFile_step (hKids : ∀ c ∈ m.store.kids x, Ends (readFile m stack c)) :
    Ends (readFile m (stack + 1) x) := by
  by_cases hInum : IsInum x
  · rw [readFile, getInode_some hInum]
    exact (ends_readDirect m _).bind fun _ => (ends_mapChildren (hSlot x) hKids).bind fun _ =>
      Yields.pure trivial
  · rw [readFile, getInode_none hInum]
    exact Yields.pure trivial

theorem ends_getFileSize_step (hKids : ∀ c ∈ m.store.kids x, Ends (getFileSize m stack c)) :
    Ends (getFileSize m (stack + 1) x) := by
  by_cases hInum : IsInum x
  · rw [getFileSize, derefInode_ok hInum]
    change Ends (if (m.store.inode x).size.toNat = 0 then _ else _)
    split
    · exact Yields.pure trivial
    · split
      · exact ((ends_readBlock m _).bind fun _ => Yields.pure trivial).bind fun _ =>
          Yields.pure trivial
      · exact (ends_mapChildren (hSlot x) hKids).bind fun _ => Yields.pure trivial
  · rw [getFileSize, derefInode, getInode_none hInum]
    exact Yields.throw fun he => by cases he

theorem ends_getFileBlockNum_step (hKids : ∀ c ∈ m.store.kids x, Ends (getFileBlockNum m stack c)) :
    Ends (getFileBlockNum m (stack + 1) x) := by
  by_cases hInum : IsInum x
  · rw [getFileBlockNum, derefInode_ok hInum]
    change Ends (if (m.store.inode x).size.toNat < ndirect + 1 then _ else _)
    split
    · exact Yields.pure trivial
    · exact (ends_mapChildren (hSlot x) hKids).bind fun _ => Yields.pure trivial
  · rw [getFileBlockNum, derefInode, getInode_none hInum]
    exact Yields.throw fun he => by cases he

end Steps

/-- The position behind the first child lies in a child. -/
theorem ends_inoNextBlock (m : Machine) (stack x id : Nat) {iter : Nat}
    (h : iter < ndirect + nindirect * ndirect) : Ends (inoNextBlock m (stack + 2) x iter id) := by
  have hDirect : ∀ c k, k < ndirect → Ends (inoNextBlock m (stack + 1) c k id) := by
    intro c k hk
    by_cases hInum : IsInum c
    · rw [inoNextBlock, getInode_some hInum]
      change Ends (if k < ndirect then _ else _)
      rw [if_pos hk]
      exact Yields.pure trivial
    · rw [inoNextBlock, getInode_none hInum]
      exact Yields.pure trivial
  by_cases hInum : IsInum x
  · rw [inoNextBlock, getInode_some hInum]
    change Ends (if iter < ndirect then _ else _)
    split
    · exact Yields.pure trivial
    · refine (ends_readBlock m _).bind fun b => hDirect _ _ ?_
      rw [ndirect_eq, nindirect_eq] at *
      split <;> omega
  · rw [inoNextBlock, getInode_none hInum]
    exact Yields.pure trivial

/-- A recursion along the children ends within the depth of the tree. -/
theorem ends_of_shallow {f : Nat → Nat → Except Stop α}
    (hStep : ∀ stack x, (∀ c ∈ m.store.kids x, Ends (f stack c)) → Ends (f (stack + 1) x))
    (h : m.store.shape.Shallow n x) (hn : n < stack) : Ends (f stack x) := by
  induction n generalizing x stack with
  | zero =>
      obtain ⟨stack, rfl⟩ := Nat.exists_eq_add_of_lt hn
      have hNil : m.store.kids x = [] := h
      refine hStep _ x fun c hc => ?_
      rw [hNil] at hc
      exact absurd hc List.not_mem_nil
  | succ n ih =>
      obtain ⟨stack, rfl⟩ := Nat.exists_eq_add_of_le' (Nat.one_le_of_lt hn)
      exact hStep stack x fun c hc => ih (h c hc) (Nat.lt_of_succ_lt_succ hn)

/-- A run of `remove_file` over inodes that are leaves or list leaves. -/
theorem wp_removeFile_ends (hSlot : ∀ k < 100, m.store.slot x k = 0 ∨ IsData (m.store.slot x k))
    (hIndirect : m.store.slot x 100 = 0) (hNodup : (m.store.kids x).Nodup) (hSelf : x ∉ m.store.kids x)
    (hLeaf : ∀ c ∈ m.store.kids x, m.store.Leaf c) (stack : Nat) :
    wp (removeFile (stack + 2) x) (fun _ _ => True) (fun e _ => e ≠ .stackOverflow) m := by
  rw [removeFile, wp_bind]
  by_cases hInum : IsInum x
  · rw [wp_derefInode hInum]
    by_cases hType : (m.store.inode x).type = 0
    · rw [if_pos hType]
      trivial
    · rw [if_neg hType, wp_bind]
      refine wp_mono (wp_freeSlots hSlot) (fun _ m₁ hm₁ => ?_) fun _ _ hFalse => hFalse.elim
      have hFinish : ∀ m₂ : Machine, m₂.store.inode x = m.store.inode x →
          wp (freeInode x) (fun _ _ => True) (fun e _ => e ≠ .stackOverflow) m₂ := by
        intro m₂ hSame
        have hAlive : m₂.store.Alive x := by
          rw [Alive, hSame]
          exact hType
        obtain ⟨m₃, hRun, -⟩ := freeInode_eq hAlive
        exact wp_of_ok hRun trivial
      rw [wp_bind, forChildren]
      by_cases hLarge : 100 < m.store.size x
      · have hBlock : (m.store.inode x).slot ndirect = 0 := hIndirect
        rw [kids_of_size hLarge, hIndirect] at hNodup hSelf hLeaf
        rw [if_pos (show (m.store.inode x).size.toNat > ndirect from hLarge), hBlock, wp_bind,
          wp_readBlock (Or.inr (by omega : 0 < 2)), hm₁.2]
        refine wp_mono (wp_removeFile_leaves hNodup hLeaf hm₁.1 hm₁.2 stack)
          (fun _ m₂ hWiped => hFinish m₂ (hWiped.inode x hSelf)) fun _ _ hFalse => hFalse.elim
      · rw [if_neg (show ¬(m.store.inode x).size.toNat > ndirect from hLarge), wp_pure]
        exact hFinish m₁ (congrFun hm₁.1 x)
  · rw [wp_query, derefInode_null hInum]
    exact fun he => by cases he

end Reading

namespace Store.Grounded

variable {σ : Store} {m : Machine} {dirs : Set Nat} {C : List Nat} {n : Nat}

theorem kids_eq (h : σ.Grounded dirs C n) (i : Nat) :
    σ.kids i = if 100 < σ.size i then C else [] := by
  rw [Store.kids]
  split
  · have hUntil := h.childSizes.untilZero
    have hSlot : σ.slot i 100 = 0 := (h.neat.inode i).indirect
    rw [hSlot, hUntil, List.append_nil]
  · rfl

/-- A child has no children. -/
theorem kids_child (h : σ.Grounded dirs C n) {i c : Nat} (hc : c ∈ σ.kids i) :
    c ∈ C ∧ σ.kids c = [] := by
  have hMem : c ∈ C := by
    rw [h.kids_eq] at hc
    split at hc
    · exact hc
    · exact absurd hc List.not_mem_nil
  have hSize := h.child_size hMem
  exact ⟨hMem, kids_of_size_le hSize⟩

/-- No inode is below itself. -/
theorem acyclic (h : σ.Grounded dirs C n) (a : Nat) : ¬Relation.TransGen σ.HasChild a a := by
  intro hCycle
  obtain ⟨b, hFirst, -⟩ := Relation.TransGen.head'_iff.mp hCycle
  obtain ⟨c, -, hLast⟩ := Relation.TransGen.tail'_iff.mp hCycle
  have hNone := (h.kids_child hLast.2).2
  have hSome := hFirst.2
  rw [hNone] at hSome
  exact absurd hSome List.not_mem_nil

theorem terminates (h : m.store.Grounded dirs C n) {stack : Nat} (hStack : 2 ≤ stack) (x : Nat) :
    Terminates m stack x := by
  have hSlot : ∀ i, m.store.slot i 100 = 0 := fun i => (h.neat.inode i).indirect
  have hShallow : m.store.shape.Shallow 1 x := fun c hc => (h.kids_child hc).2
  obtain ⟨d, rfl⟩ := Nat.exists_eq_add_of_le' hStack
  have hDepth : 1 < d + 2 := by omega
  have hNodup := h.childSizes.nodup
  rw [List.append_nil] at hNodup
  have hRemove := wp_removeFile_ends (x := x) (fun k _ => (h.neat.inode x).data k) (hSlot x)
    (by
      rw [h.kids_eq]
      split
      · exact hNodup
      · exact List.nodup_nil)
    (fun hMem => by
      have hNil := (h.kids_child hMem).2
      rw [hNil] at hMem
      exact absurd hMem List.not_mem_nil)
    (fun c hc => by
      obtain ⟨hMem, -⟩ := h.kids_child hc
      exact ⟨h.alive_child hMem, h.child_size hMem, fun k _ => (h.neat.inode c).data k⟩) d
  exact
    { readDir := (ends_of_shallow (f := InodeFS.readDir m)
        (fun _ _ => ends_readDir_step hSlot) hShallow hDepth).ne
      readBlockid := (ends_of_shallow (f := InodeFS.readBlockid m)
        (fun _ _ => ends_readBlockid_step hSlot) hShallow hDepth).ne
      getFileSize := (ends_of_shallow (f := InodeFS.getFileSize m)
        (fun _ _ => ends_getFileSize_step hSlot) hShallow hDepth).ne
      getFileBlockNum := (ends_of_shallow (f := InodeFS.getFileBlockNum m)
        (fun _ _ => ends_getFileBlockNum_step hSlot) hShallow hDepth).ne
      inoNextBlock := fun _ id hIter => (ends_inoNextBlock m d x id hIter).ne
      readFile := (ends_of_shallow (f := InodeFS.readFile m)
        (fun _ _ => ends_readFile_step hSlot) hShallow hDepth).ne
      removeFile := fun m' hRun => wp_error hRemove hRun rfl }

end Store.Grounded

/-- The entries that are listed come from data blocks. -/
theorem Store.Neat.yields_readDir {m : Machine} (h : m.store.Neat) (stack x : Nat) :
    Yields (fun _ => True) (readDir m stack x) fun l => ∀ e ∈ l, e.1 < 2 ^ 31 := by
  induction stack generalizing x with
  | zero => exact Yields.throw trivial
  | succ stack ih =>
      by_cases hInum : IsInum x
      · have hNeat := h.inode x
        rw [readDir, getInode_some hInum]
        change Yields _ (if (m.store.inode x).isDir then _ else _) _
        split
        · have hDirect : Yields (fun _ => True) (readDirect m (m.store.inode x)) fun bufs =>
              ∀ buf ∈ bufs, (entryOf buf).1 < 2 ^ 31 := by
            refine Yields.mapM fun k hk => ?_
            have hData := (hNeat.data k).resolve_left (hNeat.used k (List.mem_range.mp hk))
            rw [readBlock_data (Or.inl hData)]
            exact h.entry _ hData
          have hChildren : Yields (fun _ => True)
              (mapChildren m (m.store.inode x) (readDir m stack)) fun ls =>
                ∀ l ∈ ls, ∀ e ∈ l, e.1 < 2 ^ 31 := by
            rw [mapChildren]
            split
            · have hTable : Yields (fun _ => True) (readBlock m ((m.store.inode x).slot ndirect))
                  fun _ => True := by
                rw [readBlock]
                split <;> trivial
              exact hTable.bind fun _ _ => Yields.mapM fun c _ => ih c
            · exact Yields.pure fun l hl => absurd hl List.not_mem_nil
          refine hDirect.bind fun bufs hBufs => hChildren.bind fun ls hLs => Yields.pure fun e he => ?_
          rcases List.mem_append.mp he with hOwn | hBehind
          · obtain ⟨buf, hBuf, rfl⟩ := List.mem_map.mp hOwn
            exact hBufs buf hBuf
          · obtain ⟨l, hl, hel⟩ := List.mem_flatten.mp hBehind
            exact hLs l hl e hel
        · exact Yields.pure fun e he => absurd he List.not_mem_nil
      · rw [readDir, getInode_none hInum]
        exact Yields.pure fun e he => absurd he List.not_mem_nil

namespace ChfsClient

section Runs

variable {stack n p inoOut : Nat} {clock : Nat → UInt32} {h : History} {m m' : Machine}
  {dirs : Set Nat} {C : List Nat} {name : CString} {type : FileType}

/-- An `unlink` does not take the last entry out of a child, unless it is the first one. -/
def SparesInodes (stack : Nat) (m : Machine) : Call → Prop
  | .unlink parent _ => ∀ ids, readBlockid m stack parent = .ok ids → ids.length ≤ 200 ∨
      ids.length % 100 ≠ 1
  | _ => True

theorem readdir_lt (hNeat : m.store.Neat) {l : List Entry} (hRead : readdir m stack p = .ok l) :
    ∀ e ∈ l, e.1 < 2 ^ 31 := by
  have hYields := hNeat.yields_readDir stack (p % 2 ^ 32)
  rw [readdir, ExtentServer.readDir] at hRead
  rw [hRead] at hYields
  exact hYields

/-- `create`, `mkdir` and `ln`. A failed call leaves inodes behind at most. -/
theorem wp_createNode_grounded {M : NameMap} (hG : m.store.Grounded M.dirs C n) (hp : p ∈ M.dirs)
    (type : FileType) (stack inoOut : Nat) (name : CString) :
    wp (createNode type (stack + 2) p name inoOut) (fun r m' => ∃ C' n',
        m'.store.Grounded (M.after (.node type p name inoOut, .node r.1 r.2)).dirs C' n')
      (fun e m' => e = .badAlloc → m'.store.Grounded M.dirs C n) m := by
  have hRange := isInum_iff.mp (hG.dir p hp).1
  rw [createNode, wp_bind, wp_query]
  cases hLookup : lookup m (stack + 2) p name with
  | error e => exact fun _ => hG
  | ok found =>
      cases found with
      | some i => exact ⟨C, n, hG⟩
      | none =>
          change wp (ExtentServer.create type >>= _) _ _ m
          rw [wp_bind]
          refine wp_allocInode type (fun i now m₁ hInum hDead _ hStore => ?_) fun _ he => by cases he
          have hRangeI := isInum_iff.mp hInum
          have hStray : Strayed m.store m₁.store := hStore ▸ Strayed.freshInode hDead type now
          rw [wp_bind, ExtentServer.addToDir, Nat.mod_eq_of_lt (by omega),
            Nat.mod_eq_of_lt (by omega)]
          by_cases hType : type = .T_DIR
          · subst hType
            have hGrown : m₁.store.Grounded (insert i M.dirs) C n := hStore ▸ hG.grow hInum hDead
            refine wp_mono (hGrown.wp_addToDir (Or.inr hp) (by omega) stack) (fun _ m₂ hPost => hPost)
              fun e m₂ hStop he => hG.stray_alloc (hStray.trans (hStop he))
          · have hSame : (M.after (.node type p name inoOut, .node .OK i)).dirs = M.dirs :=
              if_neg hType
            have hGrown := hG.stray_alloc hStray
            refine wp_mono (hGrown.wp_addToDir hp (by omega) stack) (fun _ m₂ hPost => ?_)
              fun e m₂ hStop he => hG.stray_alloc (hStray.trans (hStop he))
            rw [wp_pure, hSame]
            exact hPost

/-- `remove` of an inode that is no directory clears it, or finds nothing to do. -/
theorem wp_remove_grounded {i : Nat} (hG : m.store.Grounded dirs C n) (hi : i < 2 ^ 31)
    (hFile : ∀ ino, getInode m i = .ok (some ino) → ino.isDir = false) (stack : Nat) :
    wp (ExtentServer.remove (stack + 1) i)
      (fun _ m' => m'.store.Grounded dirs C n ∧ ∀ p ∈ dirs, m'.store.inode p = m.store.inode p)
      (fun e _ => e ≠ .badAlloc) m := by
  have hMask : maskId i = i := Nat.mod_eq_of_lt hi
  rw [ExtentServer.remove, hMask]
  by_cases hInum : IsInum i
  · have hNotDir := hFile _ (getInode_some hInum)
    have hDirs : i ∉ dirs := fun hMem => by
      have hDir := (hG.dir i hMem).2.1
      rw [hNotDir] at hDir
      cases hDir
    have hKids : i ∉ C := fun hMem => by
      have hDir := (hG.childSizes.child i hMem).2
      rw [hNotDir] at hDir
      cases hDir
    obtain ⟨hSize, hSlot⟩ := hG.blank i hDirs hKids
    by_cases hAlive : m.store.Alive i
    · refine wp_mono (wp_removeFile_harmless hAlive hSlot (Or.inl (by omega)))
        (fun _ m' hStore => ?_) fun _ _ hFalse => hFalse.elim
      rw [hStore]
      exact ⟨hG.clear hDirs hKids, fun p hp => putInode_cleared_ne fun he => hDirs (he ▸ hp)⟩
    · have hType : (m.store.inode i).type = 0 := not_not.mp hAlive
      rw [removeFile, wp_bind, wp_derefInode hInum, if_pos hType]
      exact ⟨hG, fun _ _ => rfl⟩
  · rw [removeFile, wp_bind, wp_query, derefInode_null hInum]
    exact fun he => by cases he

/-- `unlink` of something listed that is no directory. -/
theorem wp_unlink_grounded (hG : m.store.Grounded (nameMap h).dirs C n)
    (hCall : Links (stack + 2) h m (.unlink p name))
    (hSpares : SparesInodes (stack + 2) m (.unlink p name)) :
    wp (unlink (stack + 2) p name) (fun _ m' => ∃ n', m'.store.Grounded (nameMap h).dirs C n')
      (fun e _ => e ≠ .badAlloc) m := by
  obtain ⟨hp, l, e, hRead, hFind, hFile⟩ := hCall
  obtain ⟨hInum, hDir, hMost⟩ := hG.dir p hp
  have hRange := isInum_iff.mp hInum
  have hSmall := readdir_lt hG.neat hRead e (List.mem_of_find?_eq_some hFind)
  have hNotDir : ∀ ino, getInode m e.1 = .ok (some ino) → ino.isDir = false := fun ino hGet => by
    by_contra hIs
    exact hFile ⟨ino, hGet, by simpa using hIs⟩
  rw [unlink, wp_bind, wp_query_ok (f := (readdir · (stack + 2) p)) hRead, hFind]
  change wp (ExtentServer.remove (stack + 2) e.1 >>= _) _ _ m
  rw [wp_bind]
  refine wp_mono (wp_remove_grounded hG hSmall hNotDir (stack + 1)) (fun _ m₁ hPost => ?_)
    fun _ _ hStop => hStop
  obtain ⟨h₁, hSame⟩ := hPost
  have hSize : m₁.store.size p = m.store.size p := size_congr (hSame p hp)
  have hRoom : m₁.store.size p = 101 → n % 100 = 1 → n = 1 := by
    intro hLarge hOne
    obtain ⟨ids, hIds, -, hLength⟩ := hG.readBlockid_dir hp stack
    have hFew := hSpares ids hIds
    rw [if_pos (hSize ▸ hLarge)] at hLength
    omega
  rw [wp_bind, ExtentServer.removeFromDir, Nat.mod_eq_of_lt (by omega), Nat.mod_eq_of_lt (by omega)]
  by_cases hSome : m₁.store.size p = 0
  · obtain ⟨ids, hIds, -, hLength⟩ := h₁.readBlockid_dir hp stack
    have hNot : ¬m₁.store.size p = 101 := by omega
    rw [if_neg hNot, hSome] at hLength
    obtain rfl := List.eq_nil_of_length_eq_zero hLength
    rw [wp, removeFromDir_empty hInum (h₁.dir p hp).2.1 hIds]
    exact fun he => by cases he
  · obtain ⟨m₂, n', hRun, h₂⟩ := h₁.removeFromDir hp hSome hRoom stack
    exact wp_of_ok hRun ⟨n', h₂⟩

/-- In every run that spares the children, the inodes form a tree of depth 2. -/
theorem Run.grounded (hRun : Run (stack + 2) clock
      (fun h m call => Links (stack + 2) h m call ∧ SparesInodes (stack + 2) m call) h m) :
    ∃ C n, m.store.Grounded (nameMap h).dirs C n := by
  induction hRun with
  | start hInit => exact ⟨[], 0, Grounded.start hInit⟩
  | @step h m m' call reply prior hCall hLast ih =>
      obtain ⟨C, n, hG⟩ := ih
      have hSame : m' = m → (∀ i, reply ≠ .node .OK i) →
          ∃ C n, m'.store.Grounded (nameMap (h ++ [(call, reply)])).dirs C n := by
        rintro rfl hReply
        rw [nameMap_append, NameMap.after_of_ne hReply]
        exact ⟨C, n, hG⟩
      cases call with
      | node type p name inoOut =>
          obtain ⟨r, hCreate, rfl⟩ := perform_node hLast
          rw [nameMap_append]
          exact wp_ok (wp_createNode_grounded hG hCall.1.1 type stack inoOut name) hCreate
      | unlink p name =>
          obtain ⟨status, hUnlink, rfl⟩ := perform_unlink hLast
          obtain ⟨n', hNext⟩ := wp_ok (wp_unlink_grounded hG hCall.1 hCall.2) hUnlink
          rw [nameMap_append]
          exact ⟨C, n', hNext⟩
      | lookup p name =>
          obtain ⟨rfl, a, rfl⟩ := perform_query (f := (lookup · (stack + 2) p name)) hLast
          exact hSame rfl fun i hi => by cases hi
      | readdir p =>
          obtain ⟨rfl, a, rfl⟩ := perform_query (f := (readdir · (stack + 2) p)) hLast
          exact hSame rfl fun i hi => by cases hi
      | _ => exact hCall.1.elim
  | @failed h m m' call prior hCall hLast ih =>
      obtain ⟨C, n, hG⟩ := ih
      have hNone : ∀ i, Reply.badAlloc ≠ .node .OK i := fun i hi => by cases hi
      rw [nameMap_append, NameMap.after_of_ne hNone]
      cases call with
      | node type p name inoOut =>
          have hCreate := perform_node_error hLast
          exact ⟨C, n, wp_error (wp_createNode_grounded hG hCall.1.1 type stack inoOut name) hCreate rfl⟩
      | unlink p name =>
          exact absurd rfl (wp_error (wp_unlink_grounded hG hCall.1 hCall.2) (perform_unlink_error hLast))
      | lookup p name =>
          obtain rfl := perform_query_error (f := (lookup · (stack + 2) p name)) hLast
          exact ⟨C, n, hG⟩
      | readdir p =>
          obtain rfl := perform_query_error (f := (readdir · (stack + 2) p)) hLast
          exact ⟨C, n, hG⟩
      | _ => exact hCall.1.elim

/-- In such runs no inode is below itself, and the recursions on every inode end. -/
theorem traversals_terminate (hStack : 2 ≤ stack)
    (hRun : Run stack clock
      (fun h m call => Links stack h m call ∧ SparesInodes stack m call) h m) :
    (∀ a, ¬Relation.TransGen m.store.HasChild a a) ∧ ∀ x, IsInum x → Terminates m stack x := by
  obtain ⟨d, rfl⟩ := Nat.exists_eq_add_of_le' hStack
  obtain ⟨C, n, hG⟩ := hRun.grounded
  exact ⟨hG.acyclic, fun x _ => hG.terminates hStack x⟩

/-- A root with one child, from which the first file was removed. -/
theorem traversals_terminate_unlink : ∃ (m : Machine) (l : List Entry), readdir m 2 1 = .ok l ∧
    l.length = 149 ∧ (∀ a, ¬Relation.TransGen m.store.HasChild a a) ∧
    ∀ x, IsInum x → Terminates m 2 x := by
  obtain ⟨h, m, N, C, hRoot⟩ := exists_root_files 0 (n := 150) (by omega)
  have hp : 1 ∈ N.dirs := hRoot.dirs ▸ rfl
  have hRun : Run 2 (fun _ => 0) (fun h m call => Links 2 h m call ∧ SparesInodes 2 m call) h m :=
    hRoot.run.mono fun h m call hCall => by
      cases call with
      | unlink => exact hCall.elim
      | _ => exact ⟨hCall, trivial⟩
  obtain ⟨e, m', hRemoved⟩ := hRoot.exists_removed (by omega) (by omega)
  have hSpares : SparesInodes 2 m (.unlink 1 e.2) := by
    intro ids hIds
    have hOn := hRoot.onlyEntries.inUse.entriesOn
    obtain rfl := Except.ok.inj ((hOn.readBlockid_eq hp 0).symm.trans hIds)
    refine Or.inl ?_
    rw [hOn.length_entryBlocks hp, hRoot.length]
    omega
  exact ⟨m', _, hRemoved.listed, hRemoved.length, traversals_terminate (Nat.le_refl 2)
    (hRun.step ⟨hRemoved.admitted, hSpares⟩ hRemoved.performed)⟩

end Runs
end ChfsClient

end InodeFS
