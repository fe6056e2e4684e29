import InodeFS.ReadWrite

/-! What the files of a run hold. Each `write` acts on the content that the calls before
left in the same file, and no other call changes it. -/
namespace InodeFS

open Bytes Exec Ownership Store

namespace ChfsClient

/-- The content of the files after one call. A string that does not fit an `int`, or for
which the disk has no room, leaves an empty file. -/
def putContents (S : Nat → List Byte) : Call × Reply → Nat → List Byte
  | (.node _ _ _ _, .node .OK i) => Function.update S i []
  | (.write f off data, .write _ _) =>
      Function.update S f (if off + data.length < 2 ^ 31 then
        readBack maxDepth (written (S f) off data) else [])
  | (.write f _ _, .badAlloc) => Function.update S f []
  | _ => S

def contents (h : History) : Nat → List Byte := h.foldl putContents fun _ => []

/-- The strings that the trees of the files were written for. -/
def putStored (S : Nat → List Byte) : Call × Reply → Nat → List Byte
  | (.node _ _ _ _, .node .OK i) => Function.update S i []
  | (.write f off data, .write _ _) =>
      Function.update S f (if off + data.length < 2 ^ 31 then
        written (readBack maxDepth (S f)) off data else [])
  | (.write f _ _, .badAlloc) => Function.update S f []
  | _ => S

def stored (h : History) : Nat → List Byte := h.foldl putStored fun _ => []

theorem contents_append (h : History) (x : Call × Reply) :
    contents (h ++ [x]) = putContents (contents h) x := by
  rw [contents, List.foldl_append]
  rfl

theorem stored_append (h : History) (x : Call × Reply) : stored (h ++ [x]) = putStored (stored h) x := by
  rw [stored, List.foldl_append]
  rfl

theorem readBack_nil (n : Nat) : readBack n [] = [] := readBack_of_le (Nat.zero_le _) n

theorem nil_short : ([] : List Byte).length < 2 ^ 31 := Nat.two_pow_pos 31

theorem short_update {S : Nat → List Byte} (hS : ∀ f, (S f).length < 2 ^ 31) {s : List Byte}
    (hs : s.length < 2 ^ 31) (i f : Nat) : (Function.update S i s f).length < 2 ^ 31 := by
  rw [Function.update_apply]
  split
  · exact hs
  · exact hS f

theorem written_short {c data : List Byte} {off : Nat} (hc : c.length < 2 ^ 31)
    (hEnd : off + data.length < 2 ^ 31) : (written c off data).length < 2 ^ 31 := by
  rw [written_length]
  omega

/-- What is stored fits an `int`. -/
theorem stored_short (h : History) (f : Nat) : (stored h f).length < 2 ^ 31 := by
  induction h using List.reverseRecOn generalizing f with
  | nil => exact Nat.two_pow_pos 31
  | append_singleton h x ih =>
      rw [stored_append]
      unfold putStored
      split
      · exact short_update ih nil_short _ f
      · refine short_update ih ?_ _ f
        split
        · exact written_short ((readBack_length_le maxDepth _).trans_lt (ih _)) ‹_›
        · exact Nat.two_pow_pos 31
      · exact short_update ih nil_short _ f
      · exact ih f

theorem contents_eq (h : History) (f : Nat) : contents h f = readBack maxDepth (stored h f) := by
  induction h using List.reverseRecOn generalizing f with
  | nil => exact (readBack_nil maxDepth).symm
  | append_singleton h x ih =>
      rw [contents_append, stored_append]
      unfold putContents putStored
      split
      · rw [Function.update_apply, Function.update_apply]
        split
        · exact (readBack_nil maxDepth).symm
        · exact ih f
      · rw [Function.update_apply, Function.update_apply, ih]
        split
        · split
          · rfl
          · exact (readBack_nil maxDepth).symm
        · exact ih f
      · rw [Function.update_apply, Function.update_apply]
        split
        · exact (readBack_nil maxDepth).symm
        · exact ih f
      · exact ih f

section Steps

variable {m m' : Machine} {N : Entries} {C C' : List Nat} {F A : Set Nat} {f g p i stack off : Nat}
  {data s : List Byte} {type : FileType} {name : CString} {now : UInt32} {X : Set Nat}

/-- Among the inodes in use only `f` changed, and it kept its type. -/
structure Edits (σ σ' : Store) (f : Nat) : Prop where
  carries : Carries σ σ' {f}
  type : (σ'.inode f).type = (σ.inode f).type

theorem Edits.refl (σ : Store) (f : Nat) : Edits σ σ f := ⟨Carries.refl σ _, rfl⟩

theorem Edits.trans {σ σ₁ σ' : Store} (h₁ : Edits σ σ₁ f) (h₂ : Edits σ₁ σ' f) : Edits σ σ' f :=
  ⟨h₁.carries.trans h₂.carries, h₂.type.trans h₁.type⟩

/-- What `getattr` of a file returns. -/
theorem Kept.getattr_eq (h : Kept m.store N C F A) (hf : f ∈ F) (hStack : maxDepth < stack) :
    ExtentServer.getattr m stack f = .ok (ExtentServer.attrOf m.store f) := by
  have hInum := h.sound.inum f (h.files hf)
  have hSize := h.getFileSize_eq hf hStack
  rw [ExtentServer.getattr, ExtentServer.maskId_of_isInum hInum, getAttr, derefInode_ok hInum]
  simp only [bind, Except.bind, hSize]
  rfl

/-- A file without an inode in `X` keeps its tree. -/
theorem Kept.holds_carry (h : Kept m.store N C F A) (hC : Carries m.store m'.store X)
    (hX : ∀ i ∈ A, i ∉ X) (hg : g ∈ F) (hs : m.store.Holds maxDepth g s) :
    m'.store.Holds maxDepth g s :=
  hs.congr (hC.sameOn h.sound (fun _ hi => hi) hX) h.sound.forest.kids_mem (h.files hg)

/-- A change in one file leaves the others alone. -/
theorem Kept.holds_other (h : Kept m.store N C F A) (hC : Carries m.store m'.store {f})
    (hf : f ∈ F) (hg : g ∈ F) (hne : g ≠ f) (hs : m.store.Holds maxDepth g s) :
    m'.store.Holds maxDepth g s := by
  have hSame : SameOn m.store m'.store (A \ {f}) :=
    hC.sameOn h.sound (fun _ hi => hi.1) fun _ hi => hi.2
  exact hs.congr hSame (h.closed_without hf) ⟨h.files hg, hne⟩

theorem Made.carries (hMade : Made m.store m'.store N type p i name C C' now) :
    Carries m.store m'.store ({p} ∪ {c | c ∈ C}) := by
  have hStray := (Strayed.freshInode hMade.dead type now).carries
  exact (hStray.mono (Set.empty_subset _)).trans hMade.filed.carries

/-- No inode of a file is a directory or a child of one. -/
theorem Kept.notMem_filed (h : Kept m.store N C F A) (hp : p ∈ N.dirs) (hi : i ∈ A) :
    i ∉ ({p} ∪ {c | c ∈ C} : Set Nat) := by
  rintro (rfl | hC)
  · exact h.dirs i hi hp
  · exact h.kids i hi hC

/-- The inode of a new file. -/
theorem Made.inode_new (hMade : Made m.store m'.store N type p i name C C' now)
    (hS : EntriesInUse m.store N C) (hType : type ≠ .T_DIR) : m'.store.inode i = freshInode type now := by
  have hPlain := hMade.plain hS hType
  have hDirs : i ≠ p := fun he => hMade.dead (he ▸ hS.dirs_alive hMade.dir)
  rw [hMade.filed.inode i hDirs hPlain.kids, Store.putInode_inode, if_pos rfl]

theorem Made.alive_new (hMade : Made m.store m'.store N type p i name C C' now) : m'.store.Alive i := by
  refine hMade.filed.carries.alive i ?_
  rw [Alive, putInode_inode, if_pos rfl]
  exact FileType.code_toUInt16_ne_zero type

theorem Made.holds_new (hMade : Made m.store m'.store N type p i name C C' now)
    (hS : EntriesInUse m.store N C) (hType : type ≠ .T_DIR) : m'.store.Holds maxDepth i [] := by
  refine holds_nil ?_ maxDepth
  rw [size, hMade.inode_new hS hType]
  rfl

theorem Emptied.edits {σ σ₁ : Store} {size : Nat} (h : Emptied σ σ₁ f size) : Edits σ σ₁ f := by
  obtain ⟨-, rfl⟩ | ⟨now, rfl⟩ := h.cases
  · exact Edits.refl σ₁ f
  · refine ⟨Carries.putInode rfl, ?_⟩
    rw [Store.putInode_inode, if_pos rfl]
    rfl

/-- A file that takes more blocks and inodes is not changed itself. -/
theorem Edits.of_grows {σ σ₁ : Store} (hAlive : σ.Alive f) (hGrows : Grows σ σ₁) : Edits σ σ₁ f where
  carries := hGrows.carries.mono (Set.empty_subset _)
  type := congrArg Inode.type (hGrows.carries.inode f hAlive (Set.notMem_empty f))

theorem Edits.of_placed {σ σ₁ : Store} {new : Inode} {inodes : List Nat} (hAlive : σ.Alive f)
    (hPlaced : Placed σ σ₁ f s new inodes) : Edits σ (σ₁.putInode f new) f := by
  have hGrown := Edits.of_grows hAlive hPlaced.progress.grows
  refine hGrown.trans ⟨Carries.putInode (hPlaced.type.trans hGrown.type.symm), ?_⟩
  rw [Store.putInode_inode, if_pos rfl, hPlaced.type, hGrown.type]

/-- A `write` changes only its own inode among those in use. -/
theorem Kept.wp_write_edits (h : Kept m.store N C F A) (hf : f ∈ F) (hStack : maxDepth < stack)
    (off : Nat) (data : List Byte) :
    wp (write stack f off data) (fun _ m' => Edits m.store m'.store f)
      (fun _ m' => Edits m.store m'.store f) m := by
  have hAlive := h.sound.alive f (h.files hf)
  refine wp_mono (ChfsClient.wp_write hAlive hStack (h.get_eq hf hStack) (h.getFileSize_eq hf hStack) off data)
    (fun r m' hPost => ?_) fun e m' hStop => ?_
  · obtain ⟨-, -, σ₁, hEmptied, hPut⟩ := hPost
    split_ifs at hPut with hNeg
    · rw [hPut]
      exact hEmptied.edits
    · obtain ⟨σ₂, new, inodes, hStore, hPlaced⟩ := hPut
      rw [hStore]
      exact hEmptied.edits.trans (Edits.of_placed ((hEmptied.alive f).mpr hAlive) hPlaced)
  · obtain ⟨σ₁, hEmptied, ⟨hSame, -⟩ | ⟨-, hFail⟩⟩ := hStop
    · rw [hSame]
      exact hEmptied.edits
    · obtain ⟨_, _, hProgress⟩ := hFail.progress
      exact hEmptied.edits.trans (Edits.of_grows ((hEmptied.alive f).mpr hAlive) hProgress.grows)

/-- What a file holds after a `write` that returned. -/
theorem Kept.holds_written (h : Kept m.store N C F A) (hf : f ∈ F) (hStack : maxDepth < stack)
    {r : Status × Nat} (hRun : write stack f off data m = .ok r m') :
    m'.store.Holds maxDepth f (if off + data.length < 2 ^ 31 then
      written (m.store.content maxDepth f) off data else []) := by
  have hShort := h.short hf
  obtain ⟨-, σ₁, hReset, ⟨hInt, hWrote⟩ | ⟨hLong, hSame⟩⟩ := wp_ok (h.wp_write hf hStack off data) hRun
  · rw [if_pos hInt]
    have hLen := written_short hShort hInt
    exact hWrote.holds maxDepth (levels_lt_maxDepth hLen)
  · rw [if_neg (by omega), hSame]
    exact holds_nil hReset.size maxDepth

/-- A `write` for which there is no room leaves an empty file. -/
theorem Kept.holds_failed (h : Kept m.store N C F A) (hf : f ∈ F) (hStack : maxDepth < stack)
    (hRun : write stack f off data m = .error .badAlloc m') : m'.store.Holds maxDepth f [] := by
  obtain ⟨σ₁, hReset, ⟨he, -⟩ | ⟨-, hFail⟩⟩ := wp_error (h.wp_write hf hStack off data) hRun
  · exact absurd rfl he
  · obtain ⟨_, _, hProgress⟩ := hFail.progress
    refine holds_nil ?_ maxDepth
    have hAlive := hReset.kept.sound.alive f (hReset.kept.files hf)
    rw [size, hProgress.grows.carries.inode f hAlive (Set.notMem_empty f)]
    exact hReset.size

end Steps

section Runs

variable {stack : Nat} {clock : Nat → UInt32} {h : History} {m : Machine} {f : Nat}

/-- A call that makes no name and writes no file. -/
def Idle : Call × Reply → Prop
  | (.node _ _ _ _, .node .OK _) => False
  | (.write _ _ _, .write _ _) => False
  | (.write _ _ _, .badAlloc) => False
  | _ => True

theorem files_idle {x : Call × Reply} (hIdle : Idle x) (h : History) : files (h ++ [x]) = files h := by
  refine Set.Subset.antisymm (fun i hi => ?_) ?_
  · rcases files_append hi with hOld | ⟨_, _, _, _, -, rfl⟩
    · exact hOld
    · exact hIdle.elim
  · rintro i ⟨type, p, name, inoOut, hType, hMem⟩
    exact ⟨type, p, name, inoOut, hType, List.mem_append_left _ hMem⟩

theorem putStored_idle {x : Call × Reply} (hIdle : Idle x) (S : Nat → List Byte) :
    putStored S x = S := by
  unfold putStored
  split
  · exact hIdle.elim
  · exact hIdle.elim
  · exact hIdle.elim
  · rfl

theorem nameMap_idle {x : Call × Reply} (hIdle : Idle x) (h : History) : nameMap (h ++ [x]) = nameMap h := by
  rw [nameMap_append]
  unfold NameMap.after
  split
  · exact hIdle.elim
  · rfl

theorem files_nil : files [] = ∅ := Set.eq_empty_of_forall_notMem fun i hi => by
  obtain ⟨_, _, _, _, -, hMem⟩ := hi
  exact absurd hMem List.not_mem_nil

theorem AfterRun.idle {m' : Machine} {N : Entries} {C : List Nat} {A : Set Nat} {x : Call × Reply}
    (hS : AfterRun h m N C A) (hStray : Strayed m.store m'.store) (hx : Idle x) :
    AfterRun (h ++ [x]) m' N C A where
  kept := by
    rw [files_idle hx]
    exact hS.kept.stray_alloc hStray
  dirs := by rw [nameMap_idle hx, hS.dirs]

/-- What holds at the start and is kept by each kind of call holds at the end of a run. -/
theorem Run.rule {I : History → Machine → Entries → Prop} (hStack : maxDepth < stack)
    (hStart : ∀ m, initInodeManager (Machine.zeroed clock) = .ok () m → I [] m Entries.start)
    (hMade : ∀ h m m' N C A type p i name inoOut C' now, AfterRun h m N C A →
      Made m.store m'.store N type p i name C C' now → I h m N →
      I (h ++ [(.node type p name inoOut, .node .OK i)]) m' ((N.grow type i).enter p (i, name)))
    (hWritten : ∀ h m m' N C A f off data r, Run stack clock (fun h _ call => call.OnFiles h) h m →
      AfterRun h m N C A → f ∈ files h → write stack f off data m = .ok r m' → I h m N →
      I (h ++ [(.write f off data, .write r.1 r.2)]) m' N)
    (hFailed : ∀ h m m' N C A f off data, AfterRun h m N C A → f ∈ files h →
      write stack f off data m = .error .badAlloc m' → I h m N →
      I (h ++ [(.write f off data, .badAlloc)]) m' N)
    (hIdle : ∀ h m m' N C A x, AfterRun h m N C A → Strayed m.store m'.store → Idle x →
      (x.2 ≠ .badAlloc → m' = m) → I h m N → I (h ++ [x]) m' N)
    (hRun : Run stack clock (fun h _ call => call.OnFiles h) h m) :
    ∃ N C A, AfterRun h m N C A ∧ I h m N := by
  have hDepth := maxDepth_eq
  obtain ⟨d, rfl⟩ := Nat.exists_eq_add_of_le' (show 2 ≤ stack by omega)
  induction hRun with
  | start hInit =>
      refine ⟨Entries.start, [], ∅, ⟨?_, rfl⟩, hStart _ hInit⟩
      rw [files_nil]
      exact Kept.start hInit
  | @step h m m' call reply prior hCall hLast ih =>
      obtain ⟨N, C, A, hS, hI⟩ := ih
      have hReads : m' = m → Idle (call, reply) →
          ∃ N C A, AfterRun (h ++ [(call, reply)]) m' N C A ∧ I (h ++ [(call, reply)]) m' N :=
        fun hSame hx => by
          have hStray : Strayed m.store m'.store := hSame ▸ Strayed.refl m.store
          exact ⟨N, C, A, hS.idle hStray hx, hIdle h m m' N C A _ hS hStray hx (fun _ => hSame) hI⟩
      cases call with
      | node type p name inoOut =>
          rcases hS.kept.inUse.perform_cases hS.dirs
            (show (Call.node type p name inoOut).Names h from hCall) hLast with ⟨hSame, hReply⟩ | hNew
          · refine hReads hSame ?_
            cases reply with
            | node status i =>
                cases status with
                | OK => exact hReply i rfl
                | _ => trivial
            | _ => trivial
          · obtain ⟨type, p, name, inoOut, i, C', now, hEq, rfl, -, hNode⟩ := hNew
            cases hEq
            obtain ⟨A', hKept⟩ := hS.kept.made hNode
            refine ⟨_, C', A', ⟨?_, nameMap_dirs_made hS.dirs type p i inoOut name⟩,
              hMade h m m' N C A type p i name inoOut C' now hS hNode hI⟩
            rw [files_made]
            exact hKept
      | write f off data =>
          obtain ⟨r, hWrite, rfl⟩ := perform_write hLast
          obtain ⟨A', hKept⟩ := hS.kept.written_ok hCall hStack hWrite
          exact ⟨N, C, A', hS.same (fun _ hEq => by cases hEq) hKept,
            hWritten h m m' N C A f off data r prior hS hCall hWrite hI⟩
      | setattr => exact hCall.elim
      | unlink => exact hCall.elim
      | lookup p name =>
          obtain ⟨hSame, a, rfl⟩ := perform_query (f := (lookup · (d + 2) p name)) hLast
          exact hReads hSame trivial
      | readdir p =>
          obtain ⟨hSame, a, rfl⟩ := perform_query (f := (readdir · (d + 2) p)) hLast
          exact hReads hSame trivial
      | getattr ino =>
          obtain ⟨hSame, a, rfl⟩ := perform_query (f := (ExtentServer.getattr · (d + 2) ino)) hLast
          exact hReads hSame trivial
      | read ino size off =>
          obtain ⟨hSame, a, rfl⟩ := perform_query (f := (read · (d + 2) ino size off)) hLast
          exact hReads hSame trivial
  | @failed h m m' call prior hCall hLast ih =>
      obtain ⟨N, C, A, hS, hI⟩ := ih
      have hStrays : Strayed m.store m'.store → Idle (call, .badAlloc) →
          ∃ N C A, AfterRun (h ++ [(call, .badAlloc)]) m' N C A ∧ I (h ++ [(call, .badAlloc)]) m' N :=
        fun hStray hx => ⟨N, C, A, hS.idle hStray hx,
          hIdle h m m' N C A _ hS hStray hx (fun hne => absurd rfl hne) hI⟩
      cases call with
      | node type p name inoOut =>
          exact hStrays (hS.kept.inUse.perform_error hS.dirs
            (show (Call.node type p name inoOut).Names h from hCall) hLast) trivial
      | write f off data =>
          have hWrite := perform_write_error hLast
          have hKept := hS.kept.written_failed hCall hStack hWrite
          exact ⟨N, C, A, hS.same (fun _ hEq => by cases hEq) hKept,
            hFailed h m m' N C A f off data hS hCall hWrite hI⟩
      | setattr => exact hCall.elim
      | unlink => exact hCall.elim
      | lookup p name =>
          obtain rfl := perform_query_error (f := (lookup · (d + 2) p name)) hLast
          exact hStrays (Strayed.refl m'.store) trivial
      | readdir p =>
          obtain rfl := perform_query_error (f := (readdir · (d + 2) p)) hLast
          exact hStrays (Strayed.refl m'.store) trivial
      | getattr ino =>
          obtain rfl := perform_query_error (f := (ExtentServer.getattr · (d + 2) ino)) hLast
          exact hStrays (Strayed.refl m'.store) trivial
      | read ino size off =>
          obtain rfl := perform_query_error (f := (read · (d + 2) ino size off)) hLast
          exact hStrays (Strayed.refl m'.store) trivial

/-- In every run the trees of the files are those that were written last. -/
theorem Run.keeps_stored (hStack : maxDepth < stack)
    (hRun : Run stack clock (fun h _ call => call.OnFiles h) h m) :
    ∃ N C A, AfterRun h m N C A ∧ ∀ f ∈ files h, m.store.Holds maxDepth f (stored h f) := by
  refine hRun.rule (I := fun h m _ => ∀ f ∈ files h, m.store.Holds maxDepth f (stored h f))
    hStack ?_ ?_ ?_ ?_ ?_
  · intro m _ f hf
    rw [files_nil] at hf
    exact hf.elim
  · intro h m m' N C A type p i name inoOut C' now hS hMade ih g hg
    rw [stored_append, putStored]
    rw [files_made] at hg
    have hOld : ∀ g ∈ files h, m'.store.Holds maxDepth g (Function.update (stored h) i [] g) :=
      fun g hg => by
        have hne : g ≠ i := fun he => hMade.dead (he ▸ hS.kept.sound.alive g (hS.kept.files hg))
        rw [Function.update_of_ne hne]
        exact hS.kept.holds_carry hMade.carries (fun _ hi => hS.kept.notMem_filed hMade.dir hi) hg (ih g hg)
    by_cases hType : type = .T_DIR
    · rw [if_pos hType] at hg
      exact hOld g hg
    · rw [if_neg hType] at hg
      rcases hg with rfl | hg
      · rw [Function.update_self]
        exact hMade.holds_new hS.kept.inUse hType
      · exact hOld g hg
  · intro h m m' N C A f off data r _ hS hf hWrite ih g hg
    rw [stored_append, putStored]
    rw [files_of_ne (fun _ hEq => by cases hEq)] at hg
    by_cases hne : g = f
    · subst hne
      rw [Function.update_self, ← (ih g hg).content]
      exact hS.kept.holds_written hg hStack hWrite
    · have hEdits := wp_ok (hS.kept.wp_write_edits hf hStack off data) hWrite
      rw [Function.update_of_ne hne]
      exact hS.kept.holds_other hEdits.carries hf hg hne (ih g hg)
  · intro h m m' N C A f off data hS hf hWrite ih g hg
    rw [stored_append, putStored]
    rw [files_of_ne (fun _ hEq => by cases hEq)] at hg
    by_cases hne : g = f
    · subst hne
      rw [Function.update_self]
      exact hS.kept.holds_failed hg hStack hWrite
    · have hEdits := wp_error (hS.kept.wp_write_edits hf hStack off data) hWrite
      rw [Function.update_of_ne hne]
      exact hS.kept.holds_other hEdits.carries hf hg hne (ih g hg)
  · intro h m m' N C A x hS hStray hx _ ih g hg
    rw [files_idle hx] at hg
    rw [stored_append, putStored_idle hx]
    exact hS.kept.holds_carry hStray.carries (fun _ _ hX => hX.elim) hg (ih g hg)

theorem Run.keeps_contents (hStack : maxDepth < stack)
    (hRun : Run stack clock (fun h _ call => call.OnFiles h) h m) (hf : f ∈ files h) :
    m.store.content maxDepth f = contents h f := by
  obtain ⟨N, C, A, hS, hHolds⟩ := hRun.keeps_stored hStack
  exact (hHolds f hf).content.trans (contents_eq h f).symm

/-- The inum that a call handed out. -/
def madeInum : Call × Reply → Option Nat
  | (.node _ _ _ _, .node .OK i) => some i
  | _ => none

def madeInums (h : History) : List Nat := h.filterMap madeInum

theorem madeInums_append (h h' : History) : madeInums (h ++ h') = madeInums h ++ madeInums h' :=
  List.filterMap_append

theorem madeInums_cons_none {x : Call × Reply} (hx : madeInum x = none) (h : History) :
    madeInums (x :: h) = madeInums h := List.filterMap_cons_none hx

theorem madeInum_idle {x : Call × Reply} (hIdle : Idle x) : madeInum x = none := by
  unfold madeInum
  split
  · exact hIdle.elim
  · rfl

/-- In a run no inum is handed out twice. -/
theorem Run.inums_nodup (hStack : maxDepth < stack)
    (hRun : Run stack clock (fun h _ call => call.OnFiles h) h m) : (madeInums h).Nodup := by
  have hNone : ∀ (h : History) (x : Call × Reply), madeInum x = none → madeInums (h ++ [x]) = madeInums h :=
    fun h x hx => by rw [madeInums_append, madeInums_cons_none hx]; exact List.append_nil _
  have hRule : ∃ N C A, AfterRun h m N C A ∧ (madeInums h).Nodup ∧ ∀ i ∈ madeInums h, m.store.Alive i := by
    refine hRun.rule (I := fun h m _ => (madeInums h).Nodup ∧ ∀ i ∈ madeInums h, m.store.Alive i)
      hStack ?_ ?_ ?_ ?_ ?_
    · exact fun m _ => ⟨List.nodup_nil, fun i hi => absurd hi List.not_mem_nil⟩
    · intro h m m' N C A type p i name inoOut C' now hS hMade ih
      obtain ⟨hNodup, hAlive⟩ := ih
      have hOne : madeInums [(.node type p name inoOut, .node .OK i)] = [i] := rfl
      rw [madeInums_append, hOne]
      refine ⟨List.nodup_append.mpr ⟨hNodup, List.nodup_singleton i, fun a ha b hb he => ?_⟩, fun j hj => ?_⟩
      · rw [List.mem_singleton.mp hb] at he
        exact hMade.dead (he ▸ hAlive a ha)
      · rcases List.mem_append.mp hj with hj | hj
        · exact hMade.carries.alive j (hAlive j hj)
        · exact List.mem_singleton.mp hj ▸ hMade.alive_new
    · intro h m m' N C A f off data r _ hS hf hWrite ih
      rw [hNone h _ rfl]
      have hEdits := wp_ok (hS.kept.wp_write_edits hf hStack off data) hWrite
      exact ⟨ih.1, fun j hj => hEdits.carries.alive j (ih.2 j hj)⟩
    · intro h m m' N C A f off data hS hf hWrite ih
      rw [hNone h _ rfl]
      have hEdits := wp_error (hS.kept.wp_write_edits hf hStack off data) hWrite
      exact ⟨ih.1, fun j hj => hEdits.carries.alive j (ih.2 j hj)⟩
    · intro h m m' N C A x hS hStray hx _ ih
      rw [hNone h _ (madeInum_idle hx)]
      exact ⟨ih.1, fun j hj => hStray.carries.alive j (ih.2 j hj)⟩
  obtain ⟨-, -, -, -, hNodup, -⟩ := hRule
  exact hNodup

/-- Calls that neither make nor write an inode leave its content alone. -/
theorem contents_spared (h h' : History) {i : Nat} (hMade : i ∉ madeInums h')
    (hWrite : ∀ off data r, (Call.write i off data, r) ∉ h') : contents (h ++ h') i = contents h i := by
  induction h' using List.reverseRecOn with
  | nil => rw [List.append_nil]
  | append_singleton h' x ih =>
      rw [madeInums_append, List.mem_append, not_or] at hMade
      have hRest := ih hMade.1 fun off data r hMem => hWrite off data r (List.mem_append_left _ hMem)
      have hLast : ∀ off data r, x ≠ (Call.write i off data, r) := fun off data r hx =>
        hWrite off data r (hx ▸ List.mem_append_right _ List.mem_cons_self)
      rw [← List.append_assoc, contents_append]
      unfold putContents
      split
      · rw [Function.update_of_ne fun he => hMade.2 (List.mem_singleton.mpr he)]
        exact hRest
      · rw [Function.update_of_ne fun he => hLast _ _ _ (by rw [he])]
        exact hRest
      · rw [Function.update_of_ne fun he => hLast _ _ _ (by rw [he])]
        exact hRest
      · exact hRest

theorem Run.reads_iff (hStack : maxDepth < stack)
    (hRun : Run stack clock (fun h _ call => call.OnFiles h) h m) (hf : f ∈ files h) (s : List Byte) :
    Reads m stack f s ↔ contents h f = s := by
  obtain ⟨N, C, A, hS⟩ := hRun.afterRun hStack
  rw [hS.kept.reads_iff hf hStack, hRun.keeps_contents hStack hf]

/-- In every state of every run each file reads as the calls of the run left it. -/
theorem files_hold_contents (hStack : maxDepth < stack)
    (hRun : Run stack clock (fun h _ call => call.OnFiles h) h m) (hf : f ∈ files h) :
    Reads m stack f (contents h f) := (hRun.reads_iff hStack hf _).mpr rfl

/-- The contents of plain files: a `write` puts the data in place and fills a gap with
zeros. -/
def putPlain (S : Nat → List Byte) : Call × Reply → Nat → List Byte
  | (.node _ _ _ _, .node .OK i) => Function.update S i []
  | (.write f off data, .write _ _) => Function.update S f (written (S f) off data)
  | _ => S

def plain (h : History) : Nat → List Byte := h.foldl putPlain fun _ => []

theorem plain_append (h : History) (x : Call × Reply) : plain (h ++ [x]) = putPlain (plain h) x := by
  rw [plain, List.foldl_append]
  rfl

/-- A `write` makes a string that fits an `int` and that every inode reads back whole. -/
def StaysStorable (h : History) : Call → Prop
  | .write f off data => off + data.length < 2 ^ 31 ∧ Storable (written (plain h f) off data)
  | _ => True

theorem Run.contents_eq_plain {allowed : History → Machine → Call → Prop}
    (hPlain : ∀ h m call, allowed h m call → StaysStorable h call)
    (hRun : Run stack clock allowed h m) (hRoom : ∀ call, (call, .badAlloc) ∉ h) :
    contents h = plain h ∧ ∀ f, (plain h f).length < 2 ^ 31 := by
  induction hRun with
  | start hInit => exact ⟨rfl, fun _ => Nat.two_pow_pos 31⟩
  | @step h m m' call reply prior hCall hLast ih =>
      obtain ⟨hSame, hShort⟩ := ih fun c hc => hRoom c (List.mem_append_left _ hc)
      have hStays := hPlain h m call hCall
      rw [contents_append, plain_append, hSame]
      cases call with
      | node type p name inoOut =>
          cases reply with
          | node status i =>
              cases status with
              | OK => exact ⟨rfl, short_update hShort nil_short i⟩
              | _ => exact ⟨rfl, hShort⟩
          | _ => exact ⟨rfl, hShort⟩
      | write f off data =>
          obtain ⟨hInt, hStorable⟩ := hStays
          have hLen := written_short (hShort f) hInt
          cases reply with
          | write status bytesWritten =>
              refine ⟨?_, short_update hShort hLen f⟩
              rw [putContents, putPlain, if_pos hInt,
                (readBack_eq_self_iff (levels_lt_maxDepth hLen)).mpr hStorable]
          | badAlloc => exact absurd (List.mem_append_right h List.mem_cons_self) (hRoom _)
          | _ => exact ⟨rfl, hShort⟩
      | _ => exact ⟨rfl, hShort⟩
  | @failed h m m' call prior hCall hLast ih =>
      exact absurd (List.mem_append_right h List.mem_cons_self) (hRoom call)

/-- While the disk has room and every string is storable, files are plain byte strings. -/
theorem files_are_plain (hStack : maxDepth < stack)
    (hRun : Run stack clock (fun h _ call => call.OnFiles h ∧ StaysStorable h call) h m)
    (hRoom : ∀ call, (call, .badAlloc) ∉ h) (hf : f ∈ files h) : Reads m stack f (plain h f) := by
  have hFiles : Run stack clock (fun h _ call => call.OnFiles h) h m :=
    hRun.mono fun _ _ _ hCall => hCall.1
  have hSame := (hRun.contents_eq_plain (fun _ _ _ hCall => hCall.2) hRoom).1
  exact (hFiles.reads_iff hStack hf _).mpr (congrFun hSame f)

/-- Data that is written piece by piece. -/
def chunks (f : Nat) : Nat → List (List Byte) → History
  | _, [] => []
  | off, data :: rest => (.write f off data, .write .OK data.length) :: chunks f (off + data.length) rest

theorem written_getElem? (c : List Byte) (off : Nat) (data : List Byte) (i : Nat) :
    (written c off data)[i]? = if i < max c.length (off + data.length) then
      some (if off ≤ i ∧ i < off + data.length then data.getD (i - off) 0 else c.getD i 0) else none := by
  rw [written]
  simp only [padTo, List.getElem?_append, List.length_append, List.length_take, List.length_replicate,
    List.getElem?_take, List.getElem?_drop, List.getElem?_replicate, List.getD_eq_getElem?_getD]
  grind

/-- Two writes, the second one where the first one ends. -/
theorem written_written (c a b : List Byte) (off : Nat) :
    written (written c off a) (off + a.length) b = written c off (a ++ b) := by
  apply List.ext_getElem?
  intro i
  simp only [written_getElem?, written_length, List.length_append, List.getD_eq_getElem?_getD,
    List.getElem?_append]
  grind

theorem contents_write (h : History) {off : Nat} {data : List Byte} (hEnd : off + data.length < 2 ^ 31)
    (hStorable : Storable (written (contents h f) off data)) :
    contents (h ++ [(.write f off data, .write .OK data.length)]) f = written (contents h f) off data := by
  have hOld : (contents h f).length < 2 ^ 31 := by
    rw [contents_eq]
    exact (readBack_length_le maxDepth _).trans_lt (stored_short h f)
  rw [contents_append, putContents, Function.update_self, if_pos hEnd]
  exact (readBack_eq_self_iff (levels_lt_maxDepth (written_short hOld hEnd))).mpr hStorable

theorem contents_chunks (h : History) (f : Nat) {off : Nat} {l : List (List Byte)} (hne : l ≠ [])
    (hEnd : off + l.flatten.length < 2 ^ 31)
    (hStorable : ∀ k, 0 < k → Storable (written (contents h f) off (l.take k).flatten)) :
    contents (h ++ chunks f off l) f = written (contents h f) off l.flatten := by
  induction l generalizing h off with
  | nil => exact absurd rfl hne
  | cons data rest ih =>
      have hFirst := hStorable 1 Nat.one_pos
      rw [List.flatten_cons, List.length_append] at hEnd
      rw [List.take_succ_cons, List.take_zero, List.flatten_singleton] at hFirst
      have hWrite := contents_write h (by omega) hFirst
      rw [chunks, List.append_cons]
      by_cases hLast : rest = []
      · rw [hLast, chunks, List.append_nil, hWrite, List.flatten_singleton]
      · have hRestEnd : off + data.length + rest.flatten.length < 2 ^ 31 := by omega
        have hRest := ih (h ++ [(.write f off data, .write .OK data.length)]) hLast hRestEnd fun k hk => by
          rw [hWrite, written_written, ← List.flatten_cons, ← List.take_succ_cons]
          exact hStorable (k + 1) (Nat.succ_pos k)
        rw [hRest, hWrite, written_written, List.flatten_cons]

/-- Data that is written in pieces, each where the last one ends, reads as if it had been
written at once. -/
theorem chunked_write (hStack : maxDepth < stack) {off : Nat} {l : List (List Byte)}
    (hRun : Run stack clock (fun h _ call => call.OnFiles h) (h ++ chunks f off l) m)
    (hf : f ∈ files h) (hne : l ≠ []) (hEnd : off + l.flatten.length < 2 ^ 31)
    (hStorable : ∀ k, 0 < k → Storable (written (contents h f) off (l.take k).flatten)) :
    Reads m stack f (written (contents h f) off l.flatten) := by
  have hFile : f ∈ files (h ++ chunks f off l) := by
    obtain ⟨type, p, name, inoOut, hType, hMem⟩ := hf
    exact ⟨type, p, name, inoOut, hType, List.mem_append_left _ hMem⟩
  exact (hRun.reads_iff hStack hFile _).mpr (contents_chunks h f hne hEnd hStorable)

/-- With room for the new content a `write` returns, and takes what it needs. -/
theorem Run.exists_write {allowed : History → Machine → Call → Prop} (hStack : maxDepth < stack)
    (hSub : ∀ h m call, allowed h m call → call.OnFiles h)
    (hRun : Run stack clock allowed h m) {off : Nat} {data : List Byte}
    (hAllowed : allowed h m (.write f off data)) (hEnd : off + data.length < 2 ^ 31)
    (hBlocks : blocksNeeded (max (contents h f).length (off + data.length)) ≤ m.store.freeBlocks)
    (hInodes : inodesNeeded (max (contents h f).length (off + data.length)) ≤ m.store.freeInodes) :
    ∃ m', write stack f off data m = .ok (.OK, data.length) m' ∧
      Run stack clock allowed (h ++ [(.write f off data, .write .OK data.length)]) m' ∧
      m'.store.freeBlocks + blocksNeeded (max (contents h f).length (off + data.length)) =
        m.store.freeBlocks ∧
      m'.store.freeInodes + inodesNeeded (max (contents h f).length (off + data.length)) =
        m.store.freeInodes := by
  have hFiles := hRun.mono hSub
  have hf : f ∈ files h := hSub h m _ hAllowed
  obtain ⟨N, C, A, hS⟩ := hFiles.afterRun hStack
  rw [← hFiles.keeps_contents hStack hf] at hBlocks hInodes ⊢
  obtain ⟨m', A', hWrite, -⟩ := hS.kept.exists_write hf hStack hEnd hBlocks hInodes
  have hTaken := hS.kept.blocks_written hf hStack hWrite
  have hTaken' := hS.kept.inodes_written hf hStack hWrite
  rw [if_pos hEnd] at hTaken hTaken'
  exact ⟨m', hWrite, hRun.step hAllowed (perform_write_ok hWrite), hTaken, hTaken'⟩

/-- With room for the last content so many times, all pieces are written. -/
theorem Run.exists_chunks (hStack : maxDepth < stack)
    (hRun : Run stack clock (fun h _ call => call.OnFiles h) h m) (hf : f ∈ files h) {off n : Nat}
    {l : List (List Byte)} (hEnd : off + l.flatten.length < 2 ^ 31)
    (hStorable : ∀ k, 0 < k → Storable (written (contents h f) off (l.take k).flatten))
    (hLast : max (contents h f).length (off + l.flatten.length) ≤ n)
    (hBlocks : l.length * blocksNeeded n ≤ m.store.freeBlocks)
    (hInodes : l.length * inodesNeeded n ≤ m.store.freeInodes) :
    ∃ m', Run stack clock (fun h _ call => call.OnFiles h) (h ++ chunks f off l) m' := by
  induction l generalizing h m off with
  | nil => exact ⟨m, by rwa [chunks, List.append_nil]⟩
  | cons data rest ih =>
      rw [List.flatten_cons, List.length_append] at hEnd hLast
      rw [List.length_cons, Nat.add_mul, Nat.one_mul] at hBlocks hInodes
      have hFew := blocksNeeded_mono (show max (contents h f).length (off + data.length) ≤ n by omega)
      have hFew' := inodesNeeded_mono (show max (contents h f).length (off + data.length) ≤ n by omega)
      have hFirst := hStorable 1 Nat.one_pos
      rw [List.take_succ_cons, List.take_zero, List.flatten_singleton] at hFirst
      have hWrite := contents_write h (by omega) hFirst
      obtain ⟨m₁, -, hRun₁, hTaken, hTaken'⟩ := hRun.exists_write hStack (fun _ _ _ hCall => hCall) hf
        (show off + data.length < 2 ^ 31 by omega) (by omega) (by omega)
      have hFile : f ∈ files (h ++ [(.write f off data, .write .OK data.length)]) := by
        rwa [files_of_ne fun _ hEq => by cases hEq]
      rw [chunks, List.append_cons]
      refine ih hRun₁ hFile (by omega) (fun k hk => ?_) ?_ (by omega) (by omega)
      · rw [hWrite, written_written, ← List.flatten_cons, ← List.take_succ_cons]
        exact hStorable (k + 1) (Nat.succ_pos k)
      · rw [hWrite, written_length]
        omega

end Runs

section Witness

/-- The log of two new files in the root. -/
def twoFilesLog (f g : Nat) : History := newFileLog f ++ [(.node .T_FILE 1 (row 1) 0, .node .OK g)]

theorem mem_files_twoFilesLog (f g : Nat) (h : History) :
    f ∈ files (twoFilesLog f g ++ h) ∧ g ∈ files (twoFilesLog f g ++ h) :=
  ⟨⟨.T_FILE, 1, row 0, 0, nofun, List.mem_cons_self⟩,
    ⟨.T_FILE, 1, row 1, 0, nofun, List.mem_cons_of_mem _ List.mem_cons_self⟩⟩

theorem exists_two_files : ∃ (m : Machine) (f g : Nat), f ≠ g ∧
    Run (maxDepth + 1) (fun _ => 0) (fun h _ call => call.OnFiles h ∧ StaysStorable h call)
      (twoFilesLog f g) m ∧ 2095000 ≤ m.store.freeBlocks ∧ 1000 ≤ m.store.freeInodes := by
  obtain ⟨m₀, hStart, hInodes₀, hBlocks₀⟩ := exists_reached_start 327
  obtain ⟨f, m₁, -, -, hFirst, hBlocks₁, hInodes₁⟩ := hStart.create .T_FILE (row 0) (p := 1)
    rfl List.not_mem_nil (Nat.zero_le _) (by omega) (by omega)
  obtain ⟨g, m, -, hDead, hSecond, hBlocks, hInodes⟩ := hFirst.create .T_FILE (row 1) (p := 1)
    rfl (row_notMem (fun e he => by
      rcases Entries.has_enter he with hOld | rfl
      · exact (Entries.not_has_start e hOld).elim
      · exact Nat.zero_lt_one) 1) (by rw [row_length]; omega) (by omega) (by omega)
  have hRun : ∀ {h : History} {m : Machine} {N : Entries}, Reached (maxDepth + 1) (fun _ => 0) h m N →
      Run (maxDepth + 1) (fun _ => 0) (fun h _ call => call.OnFiles h ∧ StaysStorable h call) h m :=
    fun hReached => hReached.run.mono fun h m call hCall => by
      cases call with
      | node => exact ⟨hCall, trivial⟩
      | lookup => exact ⟨trivial, trivial⟩
      | readdir => exact ⟨trivial, trivial⟩
      | _ => exact hCall.elim
  obtain ⟨N, C, A, hS⟩ := ((hRun hFirst).mono fun _ _ _ hCall => hCall.1).afterRun (Nat.lt_succ_self maxDepth)
  refine ⟨m, f, g, fun he => hDead (he ▸ hS.kept.sound.alive f (hS.kept.files ?_)), hRun hSecond,
    by omega, by omega⟩
  exact mem_files_newFileLog f []

/-- Two new files, a string written to the first and one to the second behind a gap. -/
def twoWritesLog (f g : Nat) (s t : List Byte) : History :=
  twoFilesLog f g ++ [(.write f 0 s, .write .OK s.length)] ++ [(.write g 100 t, .write .OK t.length)]

theorem mem_files_twoWritesLog (f g : Nat) (s t : List Byte) :
    f ∈ files (twoWritesLog f g s t) ∧ g ∈ files (twoWritesLog f g s t) := by
  rw [twoWritesLog, List.append_assoc]
  exact mem_files_twoFilesLog f g _

theorem notMem_twoWritesLog (f g : Nat) (s t : List Byte) (call : Call) :
    (call, .badAlloc) ∉ twoWritesLog f g s t := by
  simp [twoWritesLog, twoFilesLog, newFileLog]

theorem contents_twoFilesLog (f g i : Nat) : contents (twoFilesLog f g) i = [] := by
  rw [twoFilesLog, contents_append, putContents, Function.update_apply]
  split
  · rfl
  · rw [← List.nil_append (newFileLog f), newFileLog, contents_append, putContents, Function.update_apply]
    split <;> rfl

theorem plain_twoFilesLog (f g i : Nat) : plain (twoFilesLog f g) i = [] := by
  rw [twoFilesLog, plain_append, putPlain, Function.update_apply]
  split
  · rfl
  · rw [← List.nil_append (newFileLog f), newFileLog, plain_append, putPlain, Function.update_apply]
    split <;> rfl

theorem plain_twoWritesLog {f g : Nat} (hne : f ≠ g) (s t : List Byte) :
    plain (twoWritesLog f g s t) f = s ∧
      plain (twoWritesLog f g s t) g = List.replicate 100 0 ++ t := by
  rw [twoWritesLog, plain_append, putPlain, Function.update_self, Function.update_of_ne hne,
    plain_append, putPlain, Function.update_self, Function.update_of_ne hne.symm, plain_twoFilesLog,
    plain_twoFilesLog, written_nil, written_behind (Nat.zero_le _)]
  exact ⟨rfl, rfl⟩

theorem exists_two_writes {s t : List Byte} (hs : (0 : Byte) ∉ s) (ht : (0 : Byte) ∉ t) (hne : t ≠ [])
    (hLen : s.length < 2 ^ 31 ∧ 100 + t.length < 2 ^ 31)
    (hBlocks : blocksNeeded s.length + blocksNeeded (100 + t.length) ≤ 2095000)
    (hInodes : inodesNeeded s.length + inodesNeeded (100 + t.length) ≤ 1000) :
    ∃ (m : Machine) (f g : Nat), f ≠ g ∧
      Run (maxDepth + 1) (fun _ => 0) (fun h _ call => call.OnFiles h ∧ StaysStorable h call)
        (twoWritesLog f g s t) m ∧
      contents (twoWritesLog f g s t) f = s ∧
      contents (twoWritesLog f g s t) g = List.replicate 100 0 ++ t := by
  obtain ⟨m₀, f, g, hApart, hRun, hFree, hFree'⟩ := exists_two_files
  have hSub : ∀ (h : History) (m : Machine) (call : Call),
      call.OnFiles h ∧ StaysStorable h call → call.OnFiles h := fun _ _ _ hCall => hCall.1
  have hFiles := mem_files_twoFilesLog f g []
  rw [List.append_nil] at hFiles
  have hFirst : max (contents (twoFilesLog f g) f).length (0 + s.length) = s.length := by
    rw [contents_twoFilesLog, List.length_nil, Nat.zero_add, Nat.zero_max]
  have hStays : StaysStorable (twoFilesLog f g) (.write f 0 s) := by
    refine ⟨by omega, ?_⟩
    rw [plain_twoFilesLog, written_nil]
    exact storable_of_nul_free hs
  obtain ⟨m₁, -, hRun₁, hTaken, hTaken'⟩ := hRun.exists_write (Nat.lt_succ_self maxDepth) hSub
    ⟨hFiles.1, hStays⟩ (show 0 + s.length < 2 ^ 31 by omega) (by rw [hFirst]; omega) (by rw [hFirst]; omega)
  rw [hFirst] at hTaken hTaken'
  have hOther : contents (twoFilesLog f g ++ [(.write f 0 s, .write .OK s.length)]) g = [] := by
    rw [contents_append, putContents, Function.update_of_ne hApart.symm, contents_twoFilesLog]
  have hPlain : plain (twoFilesLog f g ++ [(.write f 0 s, .write .OK s.length)]) g = [] := by
    rw [plain_append, putPlain, Function.update_of_ne hApart.symm, plain_twoFilesLog]
  have hSecond : max (contents (twoFilesLog f g ++ [(.write f 0 s, .write .OK s.length)]) g).length
      (100 + t.length) = 100 + t.length := by
    rw [hOther, List.length_nil, Nat.zero_max]
  have hStays₁ : StaysStorable (twoFilesLog f g ++ [(.write f 0 s, .write .OK s.length)])
      (.write g 100 t) := by
    refine ⟨hLen.2, ?_⟩
    rw [hPlain]
    exact storable_gap List.not_mem_nil ht hne (Nat.zero_le _) fun k hk hMod => by
      rw [List.length_nil]
      omega
  obtain ⟨m₂, -, hRun₂, -⟩ := hRun₁.exists_write (Nat.lt_succ_self maxDepth) hSub
    ⟨(mem_files_twoFilesLog f g _).2, hStays₁⟩ hLen.2 (by rw [hSecond]; omega) (by rw [hSecond]; omega)
  refine ⟨m₂, f, g, hApart, hRun₂, ?_⟩
  have hSame := (hRun₂.contents_eq_plain (fun _ _ _ hCall => hCall.2) (notMem_twoWritesLog f g s t)).1
  rw [← twoWritesLog] at hSame
  rw [hSame]
  exact plain_twoWritesLog hApart s t

/-- A file with three child inodes, and one with a gap and a child inode. -/
theorem exists_two_letters : ∃ (m : Machine) (f g : Nat), f ≠ g ∧
    Run (maxDepth + 1) (fun _ => 0) (fun h _ call => call.OnFiles h ∧ StaysStorable h call)
      (twoWritesLog f g (List.replicate 170000 97) (List.replicate 60000 98)) m ∧
    contents (twoWritesLog f g (List.replicate 170000 97) (List.replicate 60000 98)) f =
      List.replicate 170000 97 ∧
    contents (twoWritesLog f g (List.replicate 170000 97) (List.replicate 60000 98)) g =
      List.replicate 100 0 ++ List.replicate 60000 98 := by
  have hLetters : (List.replicate 170000 (97 : Byte)).length = 170000 := List.length_replicate
  have hOthers : (List.replicate 60000 (98 : Byte)).length = 60000 := List.length_replicate
  refine exists_two_writes (nul_free_replicate _ (by decide)) (nul_free_replicate _ (by decide))
    (List.ne_nil_of_length_pos (by rw [hOthers]; decide)) ?_ ?_ ?_
  · rw [hLetters, hOthers]
    decide
  · rw [hLetters, hOthers]
    decide
  · rw [hLetters, hOthers]
    decide

theorem files_hold_contents_two : ∃ (h : History) (m : Machine) (f g : Nat), f ≠ g ∧
    contents h f = List.replicate 170000 97 ∧
    contents h g = List.replicate 100 0 ++ List.replicate 60000 98 ∧
    Reads m (maxDepth + 1) f (contents h f) ∧ Reads m (maxDepth + 1) g (contents h g) := by
  obtain ⟨m, f, g, hApart, hRun, hf, hg⟩ := exists_two_letters
  have hFiles := mem_files_twoWritesLog f g (List.replicate 170000 97) (List.replicate 60000 98)
  have hOnFiles := hRun.mono fun _ _ _ hCall => hCall.1
  exact ⟨_, m, f, g, hApart, hf, hg, files_hold_contents (Nat.lt_succ_self maxDepth) hOnFiles hFiles.1,
    files_hold_contents (Nat.lt_succ_self maxDepth) hOnFiles hFiles.2⟩

theorem files_are_plain_two : ∃ (h : History) (m : Machine) (f g : Nat), f ≠ g ∧
    plain h f = List.replicate 170000 97 ∧
    plain h g = List.replicate 100 0 ++ List.replicate 60000 98 ∧
    Reads m (maxDepth + 1) f (plain h f) ∧ Reads m (maxDepth + 1) g (plain h g) := by
  obtain ⟨m, f, g, hApart, hRun, -⟩ := exists_two_letters
  have hFiles := mem_files_twoWritesLog f g (List.replicate 170000 97) (List.replicate 60000 98)
  have hPlain := plain_twoWritesLog hApart (List.replicate 170000 97) (List.replicate 60000 98)
  have hRoom := notMem_twoWritesLog f g (List.replicate 170000 97) (List.replicate 60000 98)
  exact ⟨_, m, f, g, hApart, hPlain.1, hPlain.2,
    files_are_plain (Nat.lt_succ_self maxDepth) hRun hRoom hFiles.1,
    files_are_plain (Nat.lt_succ_self maxDepth) hRun hRoom hFiles.2⟩

theorem storable_chunks {f g : Nat} {l : List (List Byte)} (hNul : ∀ s ∈ l, (0 : Byte) ∉ s) (k : Nat) :
    Storable (written (contents (twoFilesLog f g) f) 0 (l.take k).flatten) := by
  rw [contents_twoFilesLog, written_nil]
  refine storable_of_nul_free fun hMem => ?_
  obtain ⟨s, hs, hZero⟩ := List.mem_flatten.mp hMem
  exact hNul s (List.mem_of_mem_take hs) hZero

theorem exists_chunks_run {l : List (List Byte)} (hNul : ∀ s ∈ l, (0 : Byte) ∉ s)
    (hEnd : l.flatten.length < 2 ^ 31) (hBlocks : l.length * blocksNeeded l.flatten.length ≤ 2095000)
    (hInodes : l.length * inodesNeeded l.flatten.length ≤ 1000) : ∃ (m : Machine) (f g : Nat),
    Run (maxDepth + 1) (fun _ => 0) (fun h _ call => call.OnFiles h) (twoFilesLog f g ++ chunks f 0 l) m ∧
      f ∈ files (twoFilesLog f g) := by
  obtain ⟨m₀, f, g, -, hRun, hFree, hFree'⟩ := exists_two_files
  have hFiles := (mem_files_twoFilesLog f g []).1
  rw [List.append_nil] at hFiles
  have hLast : max (contents (twoFilesLog f g) f).length (0 + l.flatten.length) ≤ l.flatten.length := by
    rw [contents_twoFilesLog, List.length_nil]
    omega
  obtain ⟨m, hChunks⟩ := (hRun.mono fun _ _ _ hCall => hCall.1).exists_chunks (Nat.lt_succ_self maxDepth)
    hFiles (by omega) (fun k _ => storable_chunks hNul k) hLast (by omega) (by omega)
  exact ⟨m, f, g, hChunks, hFiles⟩

/-- Pieces of the size that the kernel sends. -/
theorem chunked_write_three : ∃ (m : Machine) (f : Nat), Reads m (maxDepth + 1) f
    (List.replicate 131072 97 ++ List.replicate 131072 98 ++ List.replicate 1000 99) := by
  have hA : (List.replicate 131072 (97 : Byte)).length = 131072 := List.length_replicate
  have hB : (List.replicate 131072 (98 : Byte)).length = 131072 := List.length_replicate
  have hC : (List.replicate 1000 (99 : Byte)).length = 1000 := List.length_replicate
  generalize hPieces : [List.replicate 131072 (97 : Byte), List.replicate 131072 98, List.replicate 1000 99] = l
  have hNul : ∀ s ∈ l, (0 : Byte) ∉ s := by
    subst hPieces
    intro s hs
    rcases List.mem_cons.mp hs with rfl | hs
    · exact nul_free_replicate _ (by decide)
    rcases List.mem_cons.mp hs with rfl | hs
    · exact nul_free_replicate _ (by decide)
    · rw [List.mem_singleton.mp hs]
      exact nul_free_replicate _ (by decide)
  have hFlat : l.flatten = List.replicate 131072 97 ++ List.replicate 131072 98 ++ List.replicate 1000 99 := by
    rw [← hPieces, List.flatten_cons, List.flatten_cons, List.flatten_singleton, List.append_assoc]
  have hLength : l.flatten.length = 263144 := by
    rw [hFlat, List.length_append, List.length_append, hA, hB, hC]
  have hCount : l.length = 3 := by rw [← hPieces]; rfl
  have hNeeds : blocksNeeded 263144 = 515 ∧ inodesNeeded 263144 = 5 := by decide
  obtain ⟨m, f, g, hRun, hf⟩ := exists_chunks_run hNul (by omega) (by rw [hLength, hCount]; omega)
    (by rw [hLength, hCount]; omega)
  have hReads := chunked_write (Nat.lt_succ_self maxDepth) hRun hf
    (List.ne_nil_of_length_pos (by omega)) (by omega) fun k _ => storable_chunks hNul k
  rw [contents_twoFilesLog, written_nil, hFlat] at hReads
  exact ⟨m, f, hReads⟩

end Witness

end ChfsClient
end InodeFS
