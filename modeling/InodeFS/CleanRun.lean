import InodeFS.CleanFile
import InodeFS.History
import InodeFS.Isolation

/-! Directories and the calls of `chfs_client` keep the disk clean, and so do whole
runs: free blocks carry no old bytes, and no block number leaves the disk. -/
namespace InodeFS

open Bytes Exec Store

section Directories

variable {R N : Set Nat} {ino : Inode} {r : Nat}

/-- A child that is full is passed over, and a new one is allocated behind the last. -/
theorem keeps_addToChild {add : Nat → Action Unit} (hAdd : ∀ c, KeepsClean R N (add c) Unchecked)
    (inums : List Nat) (i : Nat) (rest : List Nat) :
    KeepsClean R N (addToChild add 0 inums i rest) Unchecked := by
  induction rest generalizing i with
  | nil => exact Keeps.pure trivial
  | cons child rest ih =>
      apply Keeps.ite
      · intro _
        apply (keeps_allocInode _).bind
        intro fresh _
        apply (hAdd fresh).bind
        intro _ _
        exact keeps_writeBlock (Or.inl rfl) fun hData => absurd (isData_iff.mp hData) (by omega)
      · intro _
        have hSize : KeepsClean R N (query (getInoBlockNum · child)) Unchecked :=
          Keeps.query fun m hm => (hm.yields_derefInode child).bind fun _ _ => Yields.pure trivial
        apply hSize.bind
        intro blocks _
        exact Keeps.ite (fun _ => hAdd child) fun _ => ih (i + 1)

/-- The block of a large directory that lists its children is block 0. -/
theorem keeps_addEntry {add : Nat → Action Unit} (hAdd : ∀ c, KeepsClean R N (add c) Unchecked)
    (inum : Nat) {name : CString} (h : ino.Allowed N r) (hDir : ino.isDir = true) :
    KeepsClean R N (addEntry add ino inum name) fun ino' => ino'.Allowed N r := by
  apply Keeps.ite
  · intro hSmall
    apply keeps_bind_allocBlock
    · exact Keeps.throw nofun
    · intro b hData
      refine Keeps.ite (fun _ => Keeps.throw nofun) fun _ => ?_
      refine Keeps.ite (fun _ => Keeps.throw nofun) fun _ => ?_
      apply (keeps_writeBlock hData.addressable fun _ => Or.inl (Set.mem_insert b R)).bind
      intro _ _
      apply Keeps.pure
      refine h.setSlot hData.addressable fun h100 => ?_
      rw [ndirect_eq] at hSmall
      omega
  · intro _
    have hZero : ino.slot ndirect = 0 := h.tidy.dir hDir
    rw [hZero]
    apply (keeps_readBlock (Or.inl rfl)).bind
    intro inums _
    exact (keeps_addToChild hAdd _ _ _).bind fun _ _ => Keeps.pure h

theorem keeps_addToDir (stack parentInum inum : Nat) (name : CString) :
    KeepsClean R N (addToDir stack parentInum inum name) Unchecked := by
  induction stack generalizing parentInum with
  | zero => exact Keeps.throw nofun
  | succ stack ih =>
      apply (Keeps.query fun m hm => hm.yields_getInode parentInum).bind
      rintro (_ | ino) hFound
      · exact Keeps.pure trivial
      · have h := hFound ino rfl
        apply Keeps.ite
        · intro hDir
          apply (keeps_addEntry ih inum h hDir).bind
          intro ino' h'
          apply keeps_time.bind
          intro mtime _
          apply keeps_time.bind
          intro ctime _
          exact keeps_putInode (h'.congr rfl rfl)
        · exact fun _ => Keeps.pure trivial

/-- The block of the entry is zeroed and freed, the others are only read. -/
theorem keeps_freeFirst (inum : Nat) {l : List Nat} (h : ∀ b ∈ l, Addressable b) (index : Nat) :
    KeepsClean ∅ N (freeFirst inum l index) Unchecked := by
  induction l generalizing index with
  | nil => exact Keeps.pure trivial
  | cons b rest ih =>
      have hb := h b List.mem_cons_self
      apply (keeps_readBlock hb).bind
      intro buf _
      apply Keeps.ite
      · exact fun _ => (keeps_freeBlock hb).bind fun _ _ => Keeps.pure trivial
      · exact fun _ => ih (fun c hc => h c (List.mem_cons_of_mem b hc)) _

theorem keeps_freeAndFindLast (stack parentInum inum : Nat) :
    KeepsClean ∅ N (freeAndFindLast stack parentInum inum)
      fun last => Addressable last.lastBlockId := by
  have hNothing : Addressable ({} : LastEntry).lastBlockId := Or.inl rfl
  apply (Keeps.query fun m hm => hm.yields_getInode parentInum).bind
  rintro (_ | ino) hFound
  · exact Keeps.pure hNothing
  · apply Keeps.ite
    · intro _
      apply (Keeps.query fun m hm => hm.yields_readBlockid stack parentInum).bind
      intro blockIds hIds
      apply (keeps_freeFirst inum hIds 0).bind
      intro index _
      cases hLast : blockIds.getLast? with
      | none => exact Keeps.throw nofun
      | some last => exact Keeps.pure (hIds last (List.mem_of_getLast? hLast))
    · exact fun _ => Keeps.pure hNothing

theorem keeps_setInChild {set : Nat → Nat → Action (Bool × Nat)}
    (hSet : ∀ c k, KeepsClean R N (set c k) Unchecked) (index i : Nat) (inums : List Nat) :
    KeepsClean R N (setInChild set index i inums) Unchecked := by
  induction inums generalizing i with
  | nil => exact Keeps.pure trivial
  | cons child rest ih =>
      apply Keeps.ite
      · exact fun _ => Keeps.pure trivial
      · intro _
        apply (hSet child _).bind
        rintro ⟨done, child'⟩ _
        exact Keeps.ite (fun _ => Keeps.pure trivial) fun _ => ih (i + 1)

/-- A child that lost its last slot is freed. -/
theorem keeps_setInoBlockId (stack parentInum index : Nat) {blockId : Nat} (autoFree : Bool)
    (hBlock : Addressable blockId) :
    KeepsClean ∅ ∅ (setInoBlockId stack parentInum index blockId autoFree) Unchecked := by
  induction stack generalizing parentInum index autoFree with
  | zero => exact Keeps.throw nofun
  | succ stack ih =>
      apply (Keeps.query fun m hm => hm.yields_getInode parentInum).bind
      rintro (_ | ino) hFound
      · exact Keeps.pure trivial
      · have h := hFound ino rfl
        refine Keeps.ite (fun _ => ?_) fun _ => Keeps.pure trivial
        refine Keeps.ite (fun hDirect => ?_) fun _ => Keeps.ite (fun _ => ?_) fun _ => ?_
        · have hSlot : (ino.setSlot index blockId).Allowed ∅ parentInum := by
            refine h.setSlot hBlock fun h100 => ?_
            rw [ndirect_eq] at hDirect
            omega
          have hPut : (if blockId = 0 then
              { ino.setSlot index blockId with size := (ino.setSlot index blockId).size - 1 }
              else ino.setSlot index blockId).Allowed ∅ parentInum := by
            split
            · exact hSlot.congr rfl rfl
            · exact hSlot
          apply Keeps.ite
          · exact fun _ => (keeps_freeInode _).bind fun _ _ => Keeps.pure trivial
          · exact fun _ => (keeps_putInode hPut).bind fun _ _ => Keeps.pure trivial
        · apply (keeps_readBlock (h.tidy.slot ndirect)).bind
          intro inums _
          apply (keeps_setInChild (fun c k => ih c k true) index 0 _).bind
          rintro (_ | ⟨i, child⟩) _
          · exact Keeps.pure trivial
          · apply Keeps.ite
            · intro _
              apply (keeps_freeBlock (h.tidy.slot _)).bind
              intro _ _
              have hCut := h.setSlot (k := ino.size.toNat - 1) (Or.inl rfl) fun _ _ => rfl
              have hPut : Inode.Allowed { ino.setSlot (ino.size.toNat - 1) 0 with
                  size := UInt32.ofNat ndirect } ∅ parentInum := hCut.congr rfl rfl
              exact (keeps_putInode hPut).bind fun _ _ => Keeps.pure trivial
            · exact fun _ => Keeps.pure trivial
        · exact Keeps.pure trivial

/-- The number of the last block is one that was read from a slot, so it may be stored in
another one. -/
theorem keeps_removeFromDir (stack parentInum inum : Nat) :
    KeepsClean ∅ ∅ (removeFromDir stack parentInum inum) Unchecked := by
  apply (keeps_freeAndFindLast stack parentInum inum).bind
  intro last hLast
  apply (keeps_setInoBlockId stack parentInum last.index false hLast).bind
  rintro ⟨done, parentInum⟩ _
  apply (keeps_setInoBlockId stack parentInum last.lastBlockIndex false (Or.inl rfl)).bind
  rintro ⟨done', parentInum⟩ _
  apply (Keeps.query fun m hm => hm.yields_getInode parentInum).bind
  rintro (_ | ino) hFound
  · exact Keeps.pure trivial
  · apply keeps_time.bind
    intro mtime _
    apply keeps_time.bind
    intro ctime _
    exact keeps_putInode ((hFound ino rfl).congr rfl rfl)

end Directories

namespace ChfsClient

variable {stack : Nat} {clock : Nat → UInt32} {h : History} {m : Machine}

/-- A name fits its entry block, and only files are written. -/
def Call.Valid (m : Machine) : Call → Prop
  | .node _ _ name _ => 4 + name.bytes.length ≤ blockSize
  | .write ino _ _ => ∃ found, getInode m ino = .ok (some found) ∧ found.IsFile
  | _ => True

section Calls

variable {R N : Set Nat}

theorem keeps_createNode (type : FileType) (stack parent : Nat) (name : CString) (inoOut : Nat) :
    KeepsClean R N (createNode type stack parent name inoOut) Unchecked := by
  apply (Keeps.query fun m hm => hm.yields_lookup stack parent name).bind
  rintro (_ | found) _
  · apply (keeps_allocInode type.code).bind
    intro ino _
    exact (keeps_addToDir stack _ _ name).bind fun _ _ => Keeps.pure trivial
  · exact Keeps.pure trivial

theorem keeps_setattr (stack ino size : Nat) :
    KeepsClean ∅ ∅ (setattr stack ino size) Unchecked :=
  (keeps_setAttr stack _ size).bind fun _ _ => Keeps.pure trivial

theorem keeps_write {ino : Nat} (hInum : IsInum ino) (hFile : ino ∈ N) (stack off : Nat)
    (data : List Byte) : KeepsClean R N (write stack ino off data) Unchecked := by
  apply (Keeps.query fun m hm => hm.yields_readFile stack _).bind
  intro str _
  have hEmpty : KeepsClean R N (setattr stack ino 0) Unchecked :=
    (keeps_setAttr_zero stack _).bind fun _ _ => Keeps.pure trivial
  apply hEmpty.bind
  intro status _
  have hLoop : ∀ str, Yields NoFault (copyLoop str off data) Unchecked := by
    intro str
    unfold copyLoop
    split_ifs
    · exact Yields.pure trivial
    · exact Yields.throw nofun
    · exact Yields.throw nofun
  have hOverwrite : KeepsClean R N (query fun _ => overwrite str off data) Unchecked := by
    apply Keeps.query
    intro _ _
    unfold overwrite resize
    split_ifs
    · exact hLoop _
    · exact Yields.throw nofun
    · exact hLoop str
  apply hOverwrite.bind
  intro str' _
  have hPut : KeepsClean R N (ExtentServer.put stack ino str') Unchecked := by
    rw [ExtentServer.put, ExtentServer.maskId_of_isInum hInum]
    exact keeps_writeFile stack R N ino _ _ hFile
  exact hPut.bind fun _ _ => Keeps.pure trivial

theorem keeps_unlink (stack parent : Nat) (name : CString) :
    KeepsClean ∅ ∅ (unlink stack parent name) Unchecked := by
  apply (Keeps.query fun m hm => hm.yields_readDir stack _).bind
  intro files _
  cases files.find? fun file => file.2 == name with
  | none => exact Keeps.pure trivial
  | some file =>
      apply (keeps_removeFile stack _).bind
      intro _ _
      exact (keeps_removeFromDir stack _ _).bind fun _ _ => Keeps.pure trivial

end Calls

/-- One call, whether it returns or stops. -/
theorem wp_perform_clean (hm : m.Clean ∅ ∅) {call : Call} (hValid : call.Valid m) (stack : Nat) :
    wp (perform stack call) (fun _ m' => m'.Clean ∅ ∅) (fun e m' => m'.Clean ∅ ∅ ∧ NoFault e) m := by
  have hKept : ∀ {α : Type} {x : Action α} {f : α → Reply}, KeepsClean ∅ ∅ x Unchecked →
      wp (x >>= fun a => pure (f a)) (fun _ m' => m'.Clean ∅ ∅)
        (fun e m' => m'.Clean ∅ ∅ ∧ NoFault e) m := by
    intro α x f hx
    rw [wp_bind]
    exact wp_mono (hx m hm) (fun _ _ hPost => hPost.1) fun _ _ he => he
  cases call with
  | node type parent name inoOut => exact hKept (keeps_createNode type stack parent name inoOut)
  | lookup parent name => exact hKept (Keeps.query fun _ h => h.yields_lookup stack parent name)
  | readdir dir => exact hKept (Keeps.query fun _ h => h.yields_readDir stack _)
  | getattr ino => exact hKept (Keeps.query fun _ h => h.yields_getAttr stack _)
  | read ino size off => exact hKept (Keeps.query fun _ h => h.yields_read stack ino size off)
  | write ino off data =>
      obtain ⟨found, hFound, hFile⟩ := hValid
      have hInum : IsInum ino := by
        by_contra hOut
        rw [getInode_none hOut] at hFound
        cases hFound
      rw [getInode_some hInum] at hFound
      obtain rfl := Option.some.inj (Except.ok.inj hFound)
      have hOne : m.Clean ∅ {ino} := { hm with file := fun i hi => hi ▸ hFile }
      rw [perform, wp_bind]
      apply wp_mono (keeps_write hInum (Set.mem_singleton ino) stack off data m hOne)
      · exact fun _ _ hPost => hPost.1.mono (Set.Subset.refl _) (Set.empty_subset _)
      · exact fun _ _ he => ⟨he.1.mono (Set.Subset.refl _) (Set.empty_subset _), he.2⟩
  | setattr ino size => exact hKept (keeps_setattr stack ino size)
  | unlink parent name => exact hKept (keeps_unlink stack parent name)

theorem zeroed_clean (clock : Nat → UInt32) : (Machine.zeroed clock).Clean ∅ ∅ := by
  refine ⟨fun i => ?_, fun b _ _ => ?_, fun b hb => absurd hb List.not_mem_nil,
    fun _ hb => hb.elim, fun _ hi => hi.elim⟩
  · rw [zeroed_store]
    exact Inode.Tidy.of_slots Inode.cleared_slot
  · rw [zeroed_store]
    rfl

theorem keeps_initInodeManager : KeepsClean ∅ ∅ initInodeManager Unchecked :=
  (keeps_allocInode _).bind fun _ _ =>
    Keeps.ite (fun _ => Keeps.throw nofun) fun _ => Keeps.pure trivial

theorem Run.clean (hRun : Run stack clock (fun _ m call => call.Valid m) h m) : m.Clean ∅ ∅ := by
  induction hRun with
  | start hInit => exact (wp_ok (keeps_initInodeManager _ (zeroed_clean clock)) hInit).1
  | step prior hAllowed hRun ih =>
      have hCall := wp_ok (wp_perform_clean ih hAllowed stack) hRun
      exact hCall
  | failed prior hAllowed hRun ih =>
      have hCall := wp_perform_clean ih hAllowed stack
      exact (wp_error hCall hRun).1

end ChfsClient
end InodeFS
