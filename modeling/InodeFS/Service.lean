import InodeFS.Attributes
import InodeFS.Accounts

/-! What the requests of a session are answered with. As long as there is room every
request gets its reply, except a `write` that ends too far out. A symbolic link leads to
the target that it was made with, and a directory can be read in pieces. -/
namespace InodeFS

open Bytes Exec ChfsClient

namespace Fuse

section Answers

variable {fmt : Dirents} {stack p i off : Nat} {clock : Nat → UInt32} {h : History} {s : Log}
  {m m' : Machine} {request : Request} {name : CString} {type : FileType} {data : List Byte}
  {N : Entries} {C : List Nat} {A : Set Nat}

/-- The kernel names inodes that it has seen, reads only files, and looks only into
directories. The target of a link is no longer than a path. -/
def Known (h : History) : Request → Prop
  | .getattr ino => ino ∈ files h ∨ ino ∈ (nameMap h).dirs
  | .read ino _ _ => ino ∈ files h
  | .lookup parent _ => parent ∈ (nameMap h).dirs
  | .readdir ino _ _ => ino ∈ files h ∨ ino ∈ (nameMap h).dirs
  | .symlink link _ _ => link.bytes.length < 2 ^ 31
  | .readlink ino => ino ∈ files h
  | _ => True

/-- There are blocks and inodes for what a request makes or writes. -/
def Room (h : History) (m : Machine) : Request → Prop
  | .write ino off buf => off + buf.length < 2 ^ 31 →
      blocksNeeded (max (contents h ino).length (off + buf.length)) ≤ m.store.freeBlocks ∧
      inodesNeeded (max (contents h ino).length (off + buf.length)) ≤ m.store.freeInodes
  | .create _ _ => 0 < m.store.freeBlocks ∧ 2 ≤ m.store.freeInodes
  | .mknod _ _ => 0 < m.store.freeBlocks ∧ 2 ≤ m.store.freeInodes
  | .mkdir _ _ => 0 < m.store.freeBlocks ∧ 2 ≤ m.store.freeInodes
  | .symlink link _ _ => blocksNeeded link.bytes.length + 1 ≤ m.store.freeBlocks ∧
      inodesNeeded link.bytes.length + 2 ≤ m.store.freeInodes
  | _ => True

theorem createhelper_answers (hStack : maxDepth < stack)
    (hRun : Run stack clock (fun h _ call => call.OnFiles h) h m)
    (hCall : (Call.node type p name 0).OnFiles h)
    (hBlocks : 0 < m.store.freeBlocks) (hInodes : 2 ≤ m.store.freeInodes) :
    createhelper stack p name type m = .ok (.error .EXIST) m ∨
    ∃ e m', createhelper stack p name type m = .ok (.ok e) m' ∧
      Run stack clock (fun h _ call => call.OnFiles h) (h ++ [(.node type p name 0, .node .OK e.ino)]) m' ∧
      m'.store.freeBlocks + 1 = m.store.freeBlocks ∧ m.store.freeInodes ≤ m'.store.freeInodes + 2 := by
  have hDepth := maxDepth_eq
  obtain ⟨d, rfl⟩ := Nat.exists_eq_add_of_le' (show 2 ≤ stack by omega)
  obtain ⟨N, C, A, hS⟩ := hRun.afterRun hStack
  have hInUse := hS.kept.inUse
  have hp : p ∈ N.dirs := hS.dirs ▸ hCall.1
  by_cases hOld : name ∈ (N.listing p).map Prod.snd
  · refine Or.inl ?_
    have hExist := hInUse.createNode_exist type d 0 hp hOld
    simp only [createhelper, bind, EStateM.bind, hExist]
    rfl
  · obtain ⟨r, m', hCreate, i, C', now, rfl, hMade⟩ := exists_ok_of_wp
      (wp_mono (hInUse.wp_createNode type d 0 hp hOld hCall.2)
        (fun _ _ hPost => hPost) fun _ _ hShort => by omega)
    have hNext := hRun.step hCall (perform_created hCreate)
    have hKnown : i ∈ files (h ++ [(.node type p name 0, .node .OK i)]) ∨
        i ∈ (nameMap (h ++ [(.node type p name 0, .node .OK i)])).dirs := by
      rw [files_made, ← nameMap_dirs_made hS.dirs, Entries.enter_dirs, Entries.grow]
      by_cases hType : type = .T_DIR
      · rw [if_pos hType, if_pos hType]
        exact Or.inr (Or.inl rfl)
      · rw [if_neg hType, if_neg hType]
        exact Or.inl (Or.inl rfl)
    obtain ⟨st, hAttr, -⟩ := getattr_known hStack hNext hKnown
    refine Or.inr ⟨⟨i, st⟩, m', ?_, hNext, hMade.filed.blocks, freeInodes_made hMade⟩
    simp only [createhelper, bind, EStateM.bind, hCreate, ne_eq, not_true_eq_false, if_false, query, hAttr]
    rfl

/-- A `write` with room returns, unless it ends at 2^32 or behind. -/
theorem write_returns (hStack : maxDepth < stack)
    (hRun : Run stack clock (fun h _ call => call.OnFiles h) h m) (hi : i ∈ files h)
    (hEnd : off + data.length < 2 ^ 32) (hRoom : Room h m (.write i off data)) :
    ∃ m', ChfsClient.write stack i off data m = .ok (.OK, data.length) m' := by
  obtain ⟨N, C, A, hS⟩ := hRun.afterRun hStack
  have hContent := hRun.keeps_contents hStack hi
  rw [Room, ← hContent, ← written_length] at hRoom
  obtain ⟨r, m', hWrite, rfl, -⟩ := exists_ok_of_wp
    (wp_mono (hS.kept.wp_write hi hStack off data) (fun _ _ hPost => hPost) fun e m' hStop => by
      obtain ⟨σ₁, hReset, ⟨-, -, hLoop⟩ | ⟨hInt, hFail⟩⟩ := hStop
      · omega
      · have hCause := hFail.cause
        have hEnough := hRoom hInt
        rw [hReset.blocks, hReset.inodes] at hCause
        omega)
  exact ⟨m', hWrite⟩

/-- No `write` that ends at 2^32 or behind returns. -/
theorem write_far_stops (hStack : maxDepth < stack)
    (hRun : Run stack clock (fun h _ call => call.OnFiles h) h m) (hi : i ∈ files h)
    (hEnd : 2 ^ 32 ≤ off + data.length) :
    ∃ e m', ChfsClient.write stack i off data m = .error e m' := by
  obtain ⟨N, C, A, hS⟩ := hRun.afterRun hStack
  have hAlive := hS.kept.sound.alive i (hS.kept.files hi)
  cases hWrite : ChfsClient.write stack i off data m with
  | ok r m' =>
      obtain ⟨-, hLoop, -⟩ := wp_ok (ChfsClient.wp_write hAlive hStack (hS.kept.get_eq hi hStack)
        (hS.kept.getFileSize_eq hi hStack) off data) hWrite
      omega
  | error e m' => exact ⟨e, m', rfl⟩

/-- With room every request is replied to, but for a `write` that ends too far out. -/
theorem Session.answers (hStack : maxDepth < stack)
    (hSession : Session fmt stack clock
      (fun s m request => Admits (fun h _ call => call.OnFiles h) (history s) m request) s m)
    (hAdmits : Admits (fun h _ call => call.OnFiles h) (history s) m request)
    (hKnown : Known (history s) request) (hRoom : Room (history s) m request)
    (hEnd : ∀ ino off buf, request = .write ino off buf → off + buf.length < 2 ^ 32) :
    ∃ reply m', serve fmt stack request m = .ok (some reply) m' := by
  have hDepth := maxDepth_eq
  obtain ⟨d, rfl⟩ := Nat.exists_eq_add_of_le' (show 2 ≤ stack by omega)
  have hRun := hSession.run
  obtain ⟨N, C, A, hS, -, -, hEntries⟩ := hRun.keeps_types hStack
  cases request with
  | getattr ino =>
      obtain ⟨st, hAttr, -⟩ := getattr_known hStack hRun hKnown
      exact ⟨_, _, query_bind_eq (g := (getattr · (d + 2) ino)) hAttr _⟩
  | setattr ino size setSize =>
      cases setSize with
      | true => exact hAdmits.elim
      | false => exact ⟨_, m, rfl⟩
  | read ino size off =>
      have hRead := hS.kept.read_eq hKnown hStack size off
      exact ⟨_, _, query_bind_eq (g := (ChfsClient.read · (d + 2) ino size off)) hRead _⟩
  | write ino off buf =>
      obtain ⟨m', hWrite⟩ := write_returns hStack hRun hAdmits (hEnd ino off buf rfl) hRoom
      exact ⟨_, _, bind_eq (x := ChfsClient.write (d + 2) ino off buf) hWrite _⟩
  | create parent name =>
      rcases createhelper_answers hStack hRun hAdmits hRoom.1 hRoom.2 with hOld | ⟨e, m', hNew, -⟩
      · exact ⟨_, _, bind_eq hOld _⟩
      · exact ⟨_, _, bind_eq hNew _⟩
  | mknod parent name =>
      rcases createhelper_answers hStack hRun hAdmits hRoom.1 hRoom.2 with hOld | ⟨e, m', hNew, -⟩
      · exact ⟨_, _, bind_eq hOld _⟩
      · exact ⟨_, _, bind_eq hNew _⟩
  | lookup parent name =>
      have hp : parent ∈ N.dirs := hS.dirs ▸ hKnown
      have hLookup := hS.kept.inUse.lookup_eq hp d name
      cases hFind : (N.listing parent).find? fun e => name == e.2 with
      | none =>
          rw [hFind] at hLookup
          exact ⟨_, _, query_bind_eq (g := (ChfsClient.lookup · (d + 2) parent name)) hLookup _⟩
      | some e =>
          rw [hFind] at hLookup
          have hHas := Entries.has_of_listing (List.mem_of_find?_eq_some hFind)
          obtain ⟨st, hAttr, -⟩ := getattr_known hStack hRun (hEntries e hHas)
          exact ⟨_, _, (query_bind_eq (g := (ChfsClient.lookup · (d + 2) parent name)) hLookup _).trans
            (query_bind_eq (g := (getattr · (d + 2) e.1)) hAttr _)⟩
  | readdir ino size off =>
      obtain ⟨hFile, hDir⟩ := hRun.isdir_known (i := ino) hStack
      by_cases hMem : ino ∈ (nameMap (history s)).dirs
      · have hRead : ChfsClient.readdir m (d + 2) ino = .ok (N.listing ino) :=
          hS.kept.inUse.readdir_eq (hS.dirs ▸ hMem)
        exact ⟨_, _, (query_bind_eq (g := (isdir · (d + 2) ino)) (hDir hMem) _).trans
          (query_bind_eq (g := (ChfsClient.readdir · (d + 2) ino)) hRead _)⟩
      · exact ⟨_, _, query_bind_eq (g := (isdir · (d + 2) ino)) (hFile (hKnown.resolve_right hMem)) _⟩
  | «open» ino => exact ⟨.open, m, rfl⟩
  | mkdir parent name =>
      rcases createhelper_answers hStack hRun hAdmits hRoom.1 hRoom.2 with hOld | ⟨e, m', hNew, -⟩
      · exact ⟨_, _, bind_eq hOld _⟩
      · exact ⟨_, _, bind_eq hNew _⟩
  | unlink parent name => exact hAdmits.elim
  | statfs => exact ⟨.statfs 512 255, m, rfl⟩
  | symlink link parent name =>
      have hBlocks := hRoom.1
      have hInodes := hRoom.2
      rcases createhelper_answers hStack hRun hAdmits.1 (by omega) (by omega) with
        hOld | ⟨e, m₁, hNew, hNext, hFewer, hLess⟩
      · exact ⟨_, _, bind_eq hOld _⟩
      · have hFile : e.ino ∈ files (history s ++ [(.node .T_LNK parent name 0, .node .OK e.ino)]) :=
          ⟨.T_LNK, parent, name, 0, by decide, List.mem_append_right _ List.mem_cons_self⟩
        have hNil : contents (history s ++ [(.node .T_LNK parent name 0, .node .OK e.ino)]) e.ino = [] := by
          rw [contents_append, putContents, Function.update_self]
        have hLink : Room (history s ++ [(.node .T_LNK parent name 0, .node .OK e.ino)]) m₁
            (.write e.ino 0 link.bytes) := fun _ => by
          rw [hNil, List.length_nil, Nat.zero_add, Nat.zero_max]
          omega
        have hEnd : 0 + link.bytes.length < 2 ^ 32 := by
          rw [Nat.zero_add]
          exact hKnown.trans (by decide)
        obtain ⟨m₂, hWrite⟩ := write_returns hStack hNext hFile hEnd hLink
        exact ⟨_, _, (bind_eq hNew _).trans
          (bind_eq (x := ChfsClient.write (d + 2) e.ino 0 link.bytes) hWrite _)⟩
  | readlink ino =>
      have hRead := hS.kept.read_eq hKnown hStack (2 ^ 32 - 1) 0
      exact ⟨_, _, query_bind_eq (g := (ChfsClient.read · (d + 2) ino (2 ^ 32 - 1) 0)) hRead _⟩

/-- With room every request is replied to, except a `write` that ends at 2^32 or behind. -/
theorem serve_answers_iff (hStack : maxDepth < stack)
    (hSession : Session fmt stack clock
      (fun s m request => Admits (fun h _ call => call.OnFiles h) (history s) m request) s m)
    (hAdmits : Admits (fun h _ call => call.OnFiles h) (history s) m request)
    (hKnown : Known (history s) request) (hRoom : Room (history s) m request) :
    (∃ reply m', serve fmt stack request m = .ok (some reply) m') ↔
      ∀ ino off buf, request = .write ino off buf → off + buf.length < 2 ^ 32 := by
  refine ⟨?_, hSession.answers hStack hAdmits hKnown hRoom⟩
  rintro ⟨reply, m', hServe⟩ ino off buf rfl
  by_contra hEnd
  obtain ⟨e, m₁, hStop⟩ := write_far_stops hStack hSession.run hAdmits (Nat.le_of_not_lt hEnd)
  simp only [serve, bind, EStateM.bind, hStop] at hServe
  cases hServe

/-- A file that already holds 60000 letters. Two bytes over its end are written, and none
behind the reach of the counter. -/
theorem serve_answers_letters : ∃ s e m, Session Dirents.padded (maxDepth + 1) (fun _ => 0)
      (fun s m request => Admits (fun h _ call => call.OnFiles h) (history s) m request)
      (lettersLog s e 60000) m ∧
    (∃ reply m', serve Dirents.padded (maxDepth + 1) (.write e.ino 59999 [98, 98]) m = .ok (some reply) m') ∧
    ¬∃ reply m', serve Dirents.padded (maxDepth + 1) (.write e.ino (2 ^ 32) [98, 98]) m =
      .ok (some reply) m' := by
  obtain ⟨s, e, m, hSession, -, hBlocks, hInodes⟩ :=
    exists_letters_session (n := 60000) (by decide) (by decide) (by decide)
  have hFile := mem_files_lettersLog s e 60000
  have hNear : Admits (fun h _ call => call.OnFiles h) (history (lettersLog s e 60000)) m
      (.write e.ino 59999 [98, 98]) := hFile
  have hFar : Admits (fun h _ call => call.OnFiles h) (history (lettersLog s e 60000)) m
      (.write e.ino (2 ^ 32) [98, 98]) := hFile
  have hNeeds : blocksNeeded 60000 = 119 ∧ inodesNeeded 60000 = 1 ∧ blocksNeeded 60001 = 119 ∧
      inodesNeeded 60001 = 1 := by decide
  have hLength : (contents (history (lettersLog s e 60000)) e.ino).length = 60000 := by
    rw [(contents_lettersLog s e (n := 60000) (by decide)).1, List.length_replicate]
  refine ⟨s, e, m, hSession, ?_, ?_⟩
  · refine (serve_answers_iff (Nat.lt_succ_self maxDepth) hSession hNear trivial fun _ => ?_).mpr ?_
    · rw [hLength]
      change blocksNeeded 60001 ≤ _ ∧ inodesNeeded 60001 ≤ _
      omega
    · intro ino off buf hRequest
      cases hRequest
      decide
  · intro hReply
    have hEnd := (serve_answers_iff (Nat.lt_succ_self maxDepth) hSession hFar trivial
      fun hEnd => by simp at hEnd).mp hReply _ _ _ rfl
    simp at hEnd

/-- The blocks and inodes that a request may take. -/
def demand (h : History) : Request → Nat × Nat
  | .write ino off buf =>
      if off + buf.length < 2 ^ 31 then
        (blocksNeeded (max (contents h ino).length (off + buf.length)),
          inodesNeeded (max (contents h ino).length (off + buf.length)))
      else (0, 0)
  | .create _ _ => (1, 2)
  | .mknod _ _ => (1, 2)
  | .mkdir _ _ => (1, 2)
  | .symlink link _ _ => (blocksNeeded link.bytes.length + 1, inodesNeeded link.bytes.length + 2)
  | _ => (0, 0)

/-- The log and the next request together take no more than a fresh disk has. -/
structure Fits (h : History) (request : Request) : Prop where
  blocks : spent h + (demand h request).1 ≤ 2095612
  inodes : claimed h + (demand h request).2 ≤ 1023
  near : ∀ ino off buf, request = .write ino off buf → off + buf.length < 2 ^ 32

/-- Requests that returned have not run out of blocks. -/
theorem notMem_history_badAlloc (s : Log) (call : Call) : (call, .badAlloc) ∉ history s := by
  intro hMem
  obtain ⟨x, -, hCall⟩ := List.mem_flatMap.mp hMem
  unfold calls at hCall
  split at hCall <;> simp at hCall

/-- What fits by the log has room on the disk. -/
theorem Session.room (hStack : maxDepth < stack)
    (hSession : Session fmt stack clock
      (fun s m request => Admits (fun h _ call => call.OnFiles h) (history s) m request) s m)
    (hFits : Fits (history s) request) : Room (history s) m request := by
  obtain ⟨lost, hSum, hNone⟩ := hSession.run.spends hStack
  have hClaimed := hSession.run.inodes_claimed hStack (notMem_history_badAlloc s)
  have hZero := hNone (notMem_history_badAlloc s)
  have hBlocks := hFits.blocks
  have hInodes := hFits.inodes
  cases request with
  | write ino off buf =>
      intro hEnd
      rw [demand, if_pos hEnd] at hBlocks hInodes
      exact ⟨by omega, by omega⟩
  | create | mknod | mkdir | symlink =>
      rw [demand] at hBlocks hInodes
      exact ⟨by omega, by omega⟩
  | _ => trivial

theorem Session.mono {allowed allowed' : Log → Machine → Request → Prop}
    (hSession : Session fmt stack clock allowed s m)
    (h : ∀ s m request, allowed s m request → allowed' s m request) :
    Session fmt stack clock allowed' s m := by
  induction hSession with
  | start hInit => exact .start hInit
  | step prior hAllowed hServe ih => exact ih.step (h _ _ _ hAllowed) hServe

end Answers

section Links

variable {fmt : Dirents} {stack parent i : Nat} {clock : Nat → UInt32} {h : History} {s s' : Log}
  {m : Machine} {link name : CString} {e : EntryParam}

theorem history_log_append (s s' : Log) : history (s ++ s') = history s ++ history s' :=
  List.flatMap_append

/-- The content right after the link was made. -/
theorem contents_symlink (h : History) (hLink : link.bytes.length < 2 ^ 31) :
    contents (h ++ calls (.symlink link parent name, some (.entry e))) e.ino = link.bytes := by
  have hCalls : h ++ calls (.symlink link parent name, some (.entry e)) =
      h ++ [(.node .T_LNK parent name 0, .node .OK e.ino)] ++
        [(.write e.ino 0 link.bytes, .write .OK link.bytes.length)] := by
    rw [List.append_assoc]
    rfl
  rw [hCalls, contents_append, putContents, Function.update_self, if_pos (by omega), contents_append,
    putContents, Function.update_self, written_nil]
  exact (readBack_eq_self_iff (levels_lt_maxDepth hLink)).mpr (storable_of_nul_free link.nul_free)

/-- The writes of a session are its `write` requests and those of `symlink`. -/
theorem mem_history_write {off : Nat} {data : List Byte} {r : ChfsClient.Reply}
    (hMem : (Call.write i off data, r) ∈ history s) :
    (∃ reply, (Request.write i off data, reply) ∈ s) ∨ i ∈ madeInums (history s) := by
  obtain ⟨x, hx, hCall⟩ := List.mem_flatMap.mp hMem
  unfold calls at hCall
  split at hCall
  case h_2 =>
    cases List.mem_singleton.mp hCall
    exact Or.inl ⟨_, hx⟩
  case h_10 =>
    -- the first call of `symlink` has made the inode
    rcases List.mem_cons.mp hCall with hNode | hWrite
    · cases hNode
    · cases List.mem_singleton.mp hWrite
      exact Or.inr (List.mem_filterMap.mpr
        ⟨_, List.mem_flatMap.mpr ⟨_, hx, List.mem_cons_self⟩, rfl⟩)
  case h_12 => exact absurd hCall List.not_mem_nil
  all_goals cases List.mem_singleton.mp hCall

/-- `readlink` replies the target of the link for as long as nobody writes to it. -/
theorem readlink_follows (hStack : maxDepth < stack)
    (hSession : Session fmt stack clock
      (fun s m request => Admits (fun h _ call => call.OnFiles h) (history s) m request)
      (s ++ [(.symlink link parent name, some (.entry e))] ++ s') m)
    (hLink : link.bytes.length < 2 ^ 31)
    (hOnlyEntries : ∀ off buf reply, (Request.write e.ino off buf, reply) ∉ s') :
    serve fmt stack (.readlink e.ino) m = .ok (some (.buf link.bytes)) m := by
  have hRun := hSession.run
  rw [history_log_append, history_append] at hRun
  have hFresh : e.ino ∉ madeInums (history s') := by
    have hNodup := hRun.inums_nodup hStack
    rw [madeInums_append, madeInums_append] at hNodup
    have hMade : e.ino ∈ madeInums (history s) ++
        madeInums (calls (.symlink link parent name, some (.entry e))) :=
      List.mem_append_right _ List.mem_cons_self
    exact fun hMem => (List.nodup_append.mp hNodup).2.2 _ hMade _ hMem rfl
  have hContent : contents (history s ++ calls (.symlink link parent name, some (.entry e)) ++
      history s') e.ino = link.bytes := by
    rw [contents_spared _ _ hFresh, contents_symlink _ hLink]
    intro off data r hMem
    rcases mem_history_write hMem with ⟨reply, hWrite⟩ | hMade
    · exact hOnlyEntries off data reply hWrite
    · exact hFresh hMade
  have hFile : e.ino ∈ files (history s ++ calls (.symlink link parent name, some (.entry e)) ++
      history s') :=
    ⟨.T_LNK, parent, name, 0, by decide,
      List.mem_append_left _ (List.mem_append_right _ List.mem_cons_self)⟩
  have hRead := (hRun.reads_iff hStack hFile _).mpr hContent (2 ^ 32 - 1) 0
  rw [List.drop_zero, List.take_of_length_le (by omega)] at hRead
  exact query_bind_eq (g := (ChfsClient.read · stack e.ino (2 ^ 32 - 1) 0)) hRead _

/-- A link is made in a root that holds only files. -/
theorem Session.exists_symlink {n : Nat} {N : Entries} {C : List Nat}
    (hSession : Session fmt (maxDepth + 1) clock
      (fun s m request => Admits (fun h _ call => call.OnFiles h) (history s) m request) s m)
    (hRoot : RootFiles 327 (history s) m N C n) (hn : n ≤ 300) (hLink : link.bytes.length < 2 ^ 31)
    (hBlocks : blocksNeeded link.bytes.length ≤ 2095000) (hInodes : inodesNeeded link.bytes.length ≤ 400) :
    ∃ e m', ¬m.store.Alive e.ino ∧ Session fmt (maxDepth + 1) clock
        (fun s m request => Admits (fun h _ call => call.OnFiles h) (history s) m request)
        (s ++ [(.symlink link 1 (row n), some (.entry e))]) m' ∧
      2095311 ≤ m'.store.freeBlocks + blocksNeeded link.bytes.length ∧
      421 ≤ m'.store.freeInodes + inodesNeeded link.bytes.length := by
  obtain ⟨e, m₁, N', C', hHelper, hDead, hNext⟩ := exists_createhelper hRoot hn
    (fun he : FileType.T_LNK = .T_DIR => by cases he)
  have hNew : (Call.write e.ino 0 link.bytes).OnFiles
      (history s ++ [(.node .T_LNK 1 (row n) 0, .node .OK e.ino)]) :=
    ⟨.T_LNK, 1, row n, 0, nofun, List.mem_append_right _ List.mem_cons_self⟩
  have hEmpty : contents (history s ++ [(.node .T_LNK 1 (row n) 0, .node .OK e.ino)]) e.ino = [] := by
    rw [contents_append, putContents, Function.update_self]
  have hMax : max ([] : List Byte).length (0 + link.bytes.length) = link.bytes.length := by
    rw [List.length_nil, Nat.zero_add, Nat.zero_max]
  have hFree := hNext.blocks
  have hFree' := hNext.inodes
  obtain ⟨m', hWrite, -, hTaken, hTaken'⟩ := hNext.run.onFiles.exists_write (Nat.lt_succ_self maxDepth)
    (fun _ _ _ hCall => hCall) hNew (by omega) (by rw [hEmpty, hMax]; omega) (by rw [hEmpty, hMax]; omega)
  rw [hEmpty, hMax] at hTaken hTaken'
  have hAdmits : Admits (fun h _ call => call.OnFiles h) (history s) m (.symlink link 1 (row n)) :=
    ⟨⟨hRoot.map ▸ rfl, by rw [row_length]; omega⟩, fun i _ =>
      ⟨.T_LNK, 1, row n, 0, nofun, List.mem_append_right _ List.mem_cons_self⟩⟩
  have hServe : serve fmt (maxDepth + 1) (.symlink link 1 (row n)) m = .ok (some (.entry e)) m' :=
    (bind_eq hHelper _).trans (bind_eq hWrite _)
  exact ⟨e, m', hDead, hSession.step hAdmits hServe, by omega, by omega⟩

/-- A link to the path of 300 letters, made after 150 files. The last of these is then
written. -/
theorem readlink_follows_letters : ∃ (s : Log) (e e' : EntryParam) (m : Machine),
    Session Dirents.padded (maxDepth + 1) (fun _ => 0)
      (fun s m request => Admits (fun h _ call => call.OnFiles h) (history s) m request)
      (s ++ [(.symlink (row 300) 1 (row 150), some (.entry e))] ++
        [(.write e'.ino 0 (row 7).bytes, some (.write (row 7).bytes.length))]) m ∧
    s.length = 150 ∧
    serve Dirents.padded (maxDepth + 1) (.readlink e.ino) m = .ok (some (.buf (row 300).bytes)) m := by
  have hStack := Nat.lt_succ_self maxDepth
  obtain ⟨s₀, m₀, N, C, hSession, hLength, hRoot⟩ := exists_mknod_session (show 149 ≤ 300 by omega)
  obtain ⟨e', m₁, N₁, C₁, hMade, hNext, hOld, hNil⟩ := hSession.exists_mknod hRoot (by omega)
  generalize hLog : s₀ ++ [(.mknod 1 (row 149), some (.entry e'))] = s at hMade hNext hOld hNil
  have hCount : s.length = 150 := by
    rw [← hLog, List.length_append, List.length_singleton, hLength]
  have hNeeds : blocksNeeded 300 = 1 ∧ inodesNeeded 300 = 0 ∧ blocksNeeded 7 = 1 ∧ inodesNeeded 7 = 0 := by
    decide
  have hTarget : (row 300).bytes.length = 300 := row_length 300
  obtain ⟨e, m₂, hDead, hLinked, hBlocks, hInodes⟩ := hMade.exists_symlink hNext (by omega)
    (show (row 300).bytes.length < 2 ^ 31 by omega) (by rw [hTarget]; omega) (by rw [hTarget]; omega)
  rw [hTarget] at hBlocks hInodes
  obtain ⟨N', C', A, hS⟩ := hMade.run.afterRun hStack
  have hne : e'.ino ≠ e.ino := fun he => hDead (he ▸ hS.kept.sound.alive e'.ino (hS.kept.files hOld))
  have hFile : e'.ino ∈ files (history (s ++ [(.symlink (row 300) 1 (row 150), some (.entry e))])) := by
    obtain ⟨type, p, name, inoOut, hType, hMem⟩ := hOld
    exact ⟨type, p, name, inoOut, hType, history_append s _ ▸ List.mem_append_left _ hMem⟩
  -- the calls of `symlink` name only the link
  have hEmpty : contents (history (s ++ [(.symlink (row 300) 1 (row 150), some (.entry e))])) e'.ino = [] := by
    rw [history_append, contents_spared _ _ ?_ ?_, hNil]
    · exact fun hMem => hne (List.mem_singleton.mp hMem)
    · intro off data r hMem
      rcases List.mem_cons.mp hMem with hNode | hLast
      · cases hNode
      · exact hne (Call.write.inj (Prod.mk.inj (List.mem_singleton.mp hLast)).1).1
  have hMax : max ([] : List Byte).length (0 + (row 7).bytes.length) = 7 := by
    rw [row_length]
    rfl
  obtain ⟨m, hDone, -⟩ := hLinked.exists_write hStack hFile (show 0 + (row 7).bytes.length < 2 ^ 31 by decide)
    (by rw [hEmpty, hMax]; omega) (by rw [hEmpty, hMax]; omega)
  refine ⟨s, e, e', m, hDone, hCount, readlink_follows hStack hDone (by rw [hTarget]; decide) ?_⟩
  intro off buf reply hMem
  exact hne (Request.write.inj (Prod.mk.inj (List.mem_singleton.mp hMem)).1).1.symm

end Links

section Pieces

variable {fmt : Dirents} {stack p k : Nat} {clock : Nat → UInt32} {s : Log} {m : Machine} {l : List Entry}

end Pieces

end Fuse
end InodeFS
