import InodeFS.Requests

/-! The attributes of the inodes in a run. What `getattr` tells of an inode follows from
the request that made it and from the last `write` to it. -/
namespace InodeFS

open Bytes Exec Ownership Store

namespace ChfsClient

/-- The types that the inodes were made with. The root is a directory. -/
def putType (T : Nat → FileType) : Call × Reply → Nat → FileType
  | (.node type _ _ _, .node .OK i) => Function.update T i type
  | _ => T

def types (h : History) : Nat → FileType := h.foldl putType fun _ => .T_DIR

theorem types_append (h : History) (x : Call × Reply) : types (h ++ [x]) = putType (types h) x := by
  rw [types, List.foldl_append]
  rfl

theorem types_write (h : History) (f off : Nat) (data : List Byte) (x : Reply) :
    types (h ++ [(.write f off data, x)]) = types h := types_append h _

theorem putType_idle {x : Call × Reply} (hIdle : Idle x) (T : Nat → FileType) : putType T x = T := by
  unfold putType
  split
  · exact hIdle.elim
  · rfl

section Directories

variable {m : Machine} {N : Entries} {C : List Nat} {p : Nat} {l : List Entry} {large : Bool}

/-- A directory uses the slots of its entries, and with slot 100 the block 0. -/
theorem visible_row {σ : Store} (h : σ.Row p l large) {k : Nat} (hk : σ.Used p k) :
    Visible (σ.slot p k) := by
  have hSize := h.size
  have hFew := h.few
  rcases hk with hk | ⟨rfl, -⟩
  · have hLarge : k < l.length := by
      cases large with
      | true =>
          have := h.full rfl
          omega
      | false =>
          have hNone : false.toNat = 0 := rfl
          omega
    exact Or.inl (h.lists.entry k hLarge).1
  · rw [h.indirect]
    exact Or.inr (by omega)

theorem kids_row {σ : Store} {s : List Entry} (hChildEntries : σ.ChildEntries C s) (h : σ.Row p l large) :
    σ.kids p = if large then C else [] := by
  have hSize := h.size
  cases large with
  | true =>
      have hFull := h.full rfl
      have hOne : true.toNat = 1 := rfl
      rw [kids_of_size (by omega), h.indirect]
      exact untilZero_table hChildEntries.table fun c hc => hChildEntries.ne_zero hc
  | false =>
      have hFew := h.few
      have hNone : false.toNat = 0 := rfl
      exact kids_of_size_le (by omega)

theorem EntriesInUse.readable {σ : Store} (h : EntriesInUse σ N C) : σ.Readable (N.dirs ∪ {c | c ∈ C}) where
  inum i hi := by
    rcases hi with hi | hi
    · exact (h.row i hi).lists.inum
    · obtain ⟨l, hRow⟩ := h.childEntries.mem hi
      exact hRow.lists.inum
  visible i hi k hk := by
    rcases hi with hi | hi
    · exact visible_row (h.row i hi) hk
    · obtain ⟨l, hRow⟩ := h.childEntries.mem hi
      exact visible_row hRow hk
  kid i hi c hc := by
    rcases hi with hi | hi
    · rw [kids_row h.childEntries (h.row i hi)] at hc
      split at hc
      · exact Or.inr hc
      · exact absurd hc List.not_mem_nil
    · obtain ⟨l, hRow⟩ := h.childEntries.mem hi
      rw [kids_row h.childEntries hRow] at hc
      exact absurd hc List.not_mem_nil

theorem EntriesInUse.shallow {σ : Store} (h : EntriesInUse σ N C) (hp : p ∈ N.dirs) : σ.shape.Shallow 1 p := by
  intro c hc
  have hKids : σ.kids p = _ := kids_row h.childEntries (h.row p hp)
  replace hc : c ∈ σ.kids p := hc
  rw [hKids] at hc
  split at hc
  · obtain ⟨l, hRow⟩ := h.childEntries.mem hc
    exact kids_row h.childEntries hRow
  · exact absurd hc List.not_mem_nil

theorem EntriesInUse.getattr_eq (h : EntriesInUse m.store N C) (hp : p ∈ N.dirs) {stack : Nat}
    (hStack : 1 < stack) :
    ∃ a, ExtentServer.getattr m stack p = .ok a ∧ a.type = (m.store.inode p).type.toNat := by
  have hInum := (h.row p hp).lists.inum
  have hSize := getFileSize_eq h.readable (Or.inl hp) (h.shallow hp) hStack
  refine ⟨{ ExtentServer.attrOf m.store p with size := m.store.fileSize 1 p }, ?_, rfl⟩
  rw [ExtentServer.getattr, ExtentServer.maskId_of_isInum hInum, getAttr, derefInode_ok hInum]
  simp only [bind, Except.bind, hSize]
  rfl

end Directories
section Runs

variable {stack : Nat} {clock : Nat → UInt32} {h : History} {m : Machine} {N : Entries} {C : List Nat}
  {A : Set Nat} {f i : Nat}

/-- A `write` to a file leaves the types alone. -/
theorem AfterRun.typed {m' : Machine} {g : Nat} {T : FileType} (hS : AfterRun h m N C A) (hg : g ∈ files h)
    (hEdits : Edits m.store m'.store f)
    (hType : T ≠ .T_DIR ∧ (m.store.inode g).type = UInt16.ofNat T.code) :
    T ≠ .T_DIR ∧ (m'.store.inode g).type = UInt16.ofNat T.code := by
  refine ⟨hType.1, ?_⟩
  by_cases hne : g = f
  · rw [hne, hEdits.type, ← hne, hType.2]
  · rw [hEdits.carries.inode g (hS.kept.sound.alive g (hS.kept.files hg)) hne, hType.2]

/-- In every run the inodes keep the types that they were made with, and the entries name
inodes that were made. -/
theorem Run.keeps_types (hStack : maxDepth < stack)
    (hRun : Run stack clock (fun h _ call => call.OnFiles h) h m) :
    ∃ N C A, AfterRun h m N C A ∧
      (∀ f ∈ files h, types h f ≠ .T_DIR ∧ (m.store.inode f).type = UInt16.ofNat (types h f).code) ∧
      (∀ p ∈ (nameMap h).dirs, types h p = .T_DIR) ∧
      ∀ e, N.Has e → e.1 ∈ files h ∨ e.1 ∈ (nameMap h).dirs := by
  refine hRun.rule (I := fun h m N => (∀ f ∈ files h, types h f ≠ .T_DIR ∧
    (m.store.inode f).type = UInt16.ofNat (types h f).code) ∧
    (∀ p ∈ (nameMap h).dirs, types h p = .T_DIR) ∧
    ∀ e, N.Has e → e.1 ∈ files h ∨ e.1 ∈ (nameMap h).dirs) hStack ?_ ?_ ?_ ?_ ?_
  · intro m _
    refine ⟨fun f hf => ?_, fun _ _ => rfl, fun e he => absurd he (Entries.not_has_start e)⟩
    rw [files_nil] at hf
    exact hf.elim
  · intro h m m' N C A type p i name inoOut C' now hS hMade ih
    obtain ⟨hFiles, hDirs, hEntries⟩ := ih
    rw [types_append, putType, ← nameMap_dirs_made hS.dirs, files_made, Entries.enter_dirs, Entries.grow]
    have hOld : ∀ g ∈ files h, Function.update (types h) i type g ≠ .T_DIR ∧
        (m'.store.inode g).type = UInt16.ofNat (Function.update (types h) i type g).code := fun g hg => by
      have hAlive := hS.kept.sound.alive g (hS.kept.files hg)
      have hne : g ≠ i := fun he => hMade.dead (he ▸ hAlive)
      rw [Function.update_of_ne hne,
        hMade.carries.inode g hAlive (hS.kept.notMem_filed hMade.dir (hS.kept.files hg))]
      exact hFiles g hg
    have hBefore : ∀ q ∈ N.dirs, Function.update (types h) i type q = .T_DIR := fun q hq => by
      have hne : q ≠ i := fun he => hMade.dead (he ▸ hS.kept.inUse.dirs_alive hq)
      rw [Function.update_of_ne hne]
      exact hDirs q (hS.dirs ▸ hq)
    by_cases hType : type = .T_DIR
    · rw [if_pos hType, if_pos hType]
      refine ⟨hOld, fun q hq => ?_, fun e he => ?_⟩
      · rcases hq with rfl | hq
        · rw [Function.update_self, hType]
        · exact hBefore q hq
      · rcases Entries.has_enter he with hHas | rfl
        · exact (hEntries e hHas).imp id fun hDir => Or.inr (hS.dirs ▸ hDir)
        · exact Or.inr (Or.inl rfl)
    · rw [if_neg hType, if_neg hType]
      refine ⟨fun g hg => ?_, hBefore, fun e he => ?_⟩
      · rcases hg with rfl | hg
        · rw [Function.update_self, hMade.inode_new hS.kept.inUse hType]
          exact ⟨hType, rfl⟩
        · exact hOld g hg
      · rcases Entries.has_enter he with hHas | rfl
        · exact (hEntries e hHas).imp Or.inr fun hDir => hS.dirs ▸ hDir
        · exact Or.inl (Or.inl rfl)
  · intro h m m' N C A f off data r _ hS hf hWrite ih
    have hNone : ∀ i, Reply.write r.1 r.2 ≠ .node .OK i := fun _ hEq => by cases hEq
    rw [types_write, nameMap_append, NameMap.after_of_ne hNone, files_of_ne hNone]
    have hEdits := wp_ok (hS.kept.wp_write_edits hf hStack off data) hWrite
    exact ⟨fun g hg => hS.typed hg hEdits (ih.1 g hg), ih.2⟩
  · intro h m m' N C A f off data hS hf hWrite ih
    have hNone : ∀ i, Reply.badAlloc ≠ .node .OK i := fun _ hEq => by cases hEq
    rw [types_write, nameMap_append, NameMap.after_of_ne hNone, files_of_ne hNone]
    have hEdits := wp_error (hS.kept.wp_write_edits hf hStack off data) hWrite
    exact ⟨fun g hg => hS.typed hg hEdits (ih.1 g hg), ih.2⟩
  · intro h m m' N C A x hS hStray hx _ ih
    rw [types_append, putType_idle hx, files_idle hx, nameMap_idle hx]
    refine ⟨fun g hg => ?_, ih.2⟩
    have hAlive := hS.kept.sound.alive g (hS.kept.files hg)
    rw [hStray.carries.inode g hAlive (Set.notMem_empty g)]
    exact ih.1 g hg

/-- What the attributes of an inode that was made are at the end of a run. -/
theorem Run.attr_known (hStack : maxDepth < stack)
    (hRun : Run stack clock (fun h _ call => call.OnFiles h) h m)
    (hi : i ∈ files h ∨ i ∈ (nameMap h).dirs) :
    ∃ a, ExtentServer.getattr m stack i = .ok a ∧ a.type = (types h i).code ∧
      (i ∈ files h → types h i ≠ .T_DIR ∧ a.size = measured maxDepth (stored h i)) ∧
      (i ∈ (nameMap h).dirs → types h i = .T_DIR) := by
  obtain ⟨N, C, A, hS, hFiles, hDirs, -⟩ := hRun.keeps_types hStack
  by_cases hFile : i ∈ files h
  · obtain ⟨hPlain, hType⟩ := hFiles i hFile
    obtain ⟨-, -, -, -, hHolds⟩ := hRun.keeps_stored hStack
    have hShort := stored_short h i
    have hBlocks := blocksFor_eq (stored h i).length
    refine ⟨_, hS.kept.getattr_eq hFile hStack, ?_, fun _ => ⟨hPlain, ?_⟩, hDirs i⟩
    · rw [ExtentServer.attrOf, hType]
      cases types h i <;> rfl
    · exact (hHolds i hFile).fileSize (by omega)
  · have hDir := hi.resolve_left hFile
    have hDepth := maxDepth_eq
    have hRow := hS.kept.inUse.row i (hS.dirs ▸ hDir)
    obtain ⟨a, hAttr, hType⟩ := hS.kept.inUse.getattr_eq (hS.dirs ▸ hDir) (show 1 < stack by omega)
    refine ⟨a, hAttr, ?_, fun hMem => absurd hMem hFile, hDirs i⟩
    rw [hDirs i hDir, hType]
    exact eq_of_beq hRow.lists.dir

/-- `isdir` tells directories from files. -/
theorem Run.isdir_known (hStack : maxDepth < stack)
    (hRun : Run stack clock (fun h _ call => call.OnFiles h) h m) :
    (i ∈ files h → isdir m stack i = .ok false) ∧
      (i ∈ (nameMap h).dirs → isdir m stack i = .ok true) := by
  have hIsdir : ∀ a : Attr, ExtentServer.getattr m stack i = .ok a →
      isdir m stack i = .ok (a.type == FileType.T_DIR.code) := fun a ha => by
    simp only [isdir, ha, bind, Except.bind, pure, Except.pure]
  constructor
  · intro hFile
    obtain ⟨a, hAttr, hType, hPlain, -⟩ := hRun.attr_known hStack (Or.inl hFile)
    have hne := (hPlain hFile).1
    rw [hIsdir a hAttr, hType]
    cases hCase : types h i with
    | T_DIR => exact absurd hCase hne
    | T_FILE => rfl
    | T_LNK => rfl
  · intro hDir
    obtain ⟨a, hAttr, hType, -, hDirs⟩ := hRun.attr_known hStack (Or.inr hDir)
    rw [hIsdir a hAttr, hType, hDirs hDir]
    rfl

end Runs
end ChfsClient

namespace Fuse

open ChfsClient

variable {fmt : Dirents} {stack i : Nat} {clock : Nat → UInt32} {s : Log} {m : Machine}

/-- The mode that `getattr` shows for a type. -/
def mode : FileType → Nat
  | .T_FILE => S_IFREG ||| 0o666
  | .T_DIR => S_IFDIR ||| 0o777
  | .T_LNK => S_IFLNK ||| 0o777

/-- What the server tells about an inode with these attributes. -/
theorem getattr_of {a : Attr} {type : FileType} (h : ExtentServer.getattr m stack i = .ok a)
    (hType : a.type = type.code) : ∃ st, getattr m stack i = .ok st ∧ st.ino = i ∧ st.mode = mode type ∧
      st.size = if type = .T_DIR then 0 else a.size := by
  have hFile : isfile m stack i = .ok (a.type == FileType.T_FILE.code) := by
    simp only [isfile, h, bind, Except.bind, pure, Except.pure]
  have hDir : isdir m stack i = .ok (a.type == FileType.T_DIR.code) := by
    simp only [isdir, h, bind, Except.bind, pure, Except.pure]
  have hInfo : getfile m stack i =
      .ok { size := a.size, atime := a.atime, mtime := a.mtime, ctime := a.ctime } := by
    simp only [getfile, h, bind, Except.bind, pure, Except.pure]
  have hDirInfo : getdir m stack i = .ok { atime := a.atime, mtime := a.mtime, ctime := a.ctime } := by
    simp only [getdir, h, bind, Except.bind, pure, Except.pure]
  rw [getattr, hFile, hDir, hInfo, hDirInfo, hType]
  cases type with
  | T_FILE => exact ⟨_, rfl, rfl, rfl, rfl⟩
  | T_DIR => exact ⟨_, rfl, rfl, rfl, rfl⟩
  | T_LNK => exact ⟨_, rfl, rfl, rfl, rfl⟩

section Sessions

variable {h : History}

/-- What `getattr` tells at the end of a run: of a file the type that it was made with, and
a size that covers what `read` returns; of a directory that it is one. -/
structure Tells (h : History) (m : Machine) (stack i : Nat) (st : Stat) : Prop where
  ino : st.ino = i
  mode : st.mode = mode (types h i)
  size : i ∈ files h → st.size = measured maxDepth (stored h i)
  reads : i ∈ files h → Reads m stack i (contents h i) ∧ (contents h i).length ≤ st.size
  dir : i ∈ (nameMap h).dirs → types h i = .T_DIR ∧ st.size = 0

theorem getattr_known (hStack : maxDepth < stack)
    (hRun : Run stack clock (fun h _ call => call.OnFiles h) h m)
    (hi : i ∈ files h ∨ i ∈ (nameMap h).dirs) :
    ∃ st, getattr m stack i = .ok st ∧ Tells h m stack i st := by
  obtain ⟨a, hAttr, hType, hFile, hDir⟩ := hRun.attr_known hStack hi
  obtain ⟨st, hst, hIno, hMode, hSize⟩ := getattr_of hAttr hType
  have hMeasured : i ∈ files h → st.size = measured maxDepth (stored h i) := fun hMem => by
    rw [hSize, if_neg (hFile hMem).1, (hFile hMem).2]
  refine ⟨st, hst, hIno, hMode, hMeasured, fun hMem => ⟨?_, ?_⟩, fun hMem => ⟨hDir hMem, ?_⟩⟩
  · exact (hRun.reads_iff hStack hMem _).mpr rfl
  · rw [hMeasured hMem, contents_eq]
    exact readBack_length_le_measured maxDepth _
  · rw [hSize, if_pos (hDir hMem)]

/-- The attributes that every session replies. -/
theorem getattr_tells (hStack : maxDepth < stack)
    (hSession : Session fmt stack clock
      (fun s m request => Admits (fun h _ call => call.OnFiles h) (history s) m request) s m)
    (hi : i ∈ files (history s) ∨ i ∈ (nameMap (history s)).dirs) :
    ∃ st, serve fmt stack (.getattr i) m = .ok (some (.attr st)) m ∧ Tells (history s) m stack i st := by
  obtain ⟨st, hst, hTells⟩ := getattr_known hStack hSession.run hi
  refine ⟨st, ?_, hTells⟩
  simp only [serve, bind, EStateM.bind, query, hst]
  rfl

/-- The last of 150 files is made and gets 60000 letters, more than its own blocks hold. -/
theorem getattr_tells_letters : ∃ (m : Machine) (i : Nat) (st : Stat),
    serve Dirents.padded (maxDepth + 1) (.getattr i) m = .ok (some (.attr st)) m ∧
    st.mode = S_IFREG ||| 0o666 ∧ st.size = 60000 := by
  obtain ⟨s, e, m, hSession, -⟩ := exists_letters_session (n := 60000) (by decide) (by decide) (by decide)
  have hFile := mem_files_lettersLog s e 60000
  obtain ⟨st, hServe, hTells⟩ := getattr_tells (Nat.lt_succ_self maxDepth) hSession (Or.inl hFile)
  obtain ⟨hContent, hStored⟩ := contents_lettersLog s e (n := 60000) (by decide)
  have hType : types (history (lettersLog s e 60000)) e.ino = .T_FILE := by
    rw [history_lettersLog, types_write, types_append, putType, Function.update_self]
  have hTails : TailsNonzero (List.replicate 60000 (97 : Byte)) :=
    tailsNonzero_of_nul_free (nul_free_replicate 60000 (by decide))
  have hLength : (List.replicate 60000 (97 : Byte)).length = 60000 := List.length_replicate
  rw [contents_eq, hStored] at hContent
  refine ⟨m, e.ino, st, hServe, ?_, ?_⟩
  · rw [hTells.mode, hType]
    rfl
  · rw [hTells.size hFile, hStored]
    generalize List.replicate 60000 (97 : Byte) = str at hContent hTails hLength ⊢
    have hDepth : levels str.length ≤ maxDepth := by
      rw [hLength]
      exact levels_lt_maxDepth (by decide)
    rw [(measured_eq_iff hDepth).mpr hTails, hContent, hLength]

end Sessions
end Fuse
end InodeFS
