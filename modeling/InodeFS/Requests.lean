import InodeFS.Fuse
import InodeFS.Contents
import InodeFS.Directories

/-! Sessions of FUSE requests. The disk changes only by the calls of the client, so that
every session is a run, and what holds of runs holds of sessions: a symbolic link leads
to the target that it was made with, and a directory can be read in pieces. -/
namespace InodeFS

open Bytes Exec ChfsClient

namespace Fuse

variable {m m' : Machine} {stack p inoOut : Nat} {name : CString} {type : FileType}

/-- `create`, `mkdir` and `ln` return `OK` with a new inum, or `EXIST` and change nothing. -/
theorem createNode_status {r : Status × Nat}
    (h : createNode type stack p name inoOut m = .ok r m') :
    r.1 = .OK ∨ r = (.EXIST, inoOut) ∧ m' = m := by
  rw [createNode] at h
  obtain ⟨found, -, h⟩ := query_bind_ok (g := (lookup · stack p name)) h
  cases found with
  | some i => exact Or.inr (pure_ok h)
  | none =>
      obtain ⟨i, m₁, -, h⟩ := bind_ok h
      obtain ⟨u, m₂, -, h⟩ := bind_ok h
      obtain ⟨rfl, -⟩ := pure_ok h
      exact Or.inl rfl

/-- The helper makes one call that changes the disk. -/
theorem createhelper_ok {r : Except Status EntryParam}
    (h : createhelper stack p name type m = .ok r m') :
    (∃ e, r = .ok e ∧ createNode type stack p name 0 m = .ok (.OK, e.ino) m' ∧
      getattr m' stack e.ino = .ok e.attr) ∨
    r = .error .EXIST ∧ createNode type stack p name 0 m = .ok (.EXIST, 0) m := by
  rw [createhelper] at h
  obtain ⟨⟨ret, i⟩, m₁, hCreate, h⟩ := bind_ok h
  rcases createNode_status hCreate with hOk | ⟨hExist, rfl⟩
  · obtain rfl : ret = .OK := hOk
    obtain ⟨attr, hAttr, h⟩ := query_bind_ok (g := (getattr · stack i)) h
    obtain ⟨rfl, rfl⟩ := pure_ok h
    exact Or.inl ⟨_, rfl, hCreate, hAttr⟩
  · cases hExist
    obtain ⟨rfl, -⟩ := pure_ok h
    exact Or.inr ⟨rfl, hCreate⟩

section Sessions

variable {fmt : Dirents} {clock : Nat → UInt32} {allowed : History → Machine → Call → Prop}
  {h : History} {s : Log} {request : Request} {reply : Option Reply}

theorem history_append (s : Log) (x : Request × Option Reply) :
    history (s ++ [x]) = history s ++ calls x := by
  rw [history, List.flatMap_append]
  exact congrArg _ (List.append_nil _)

theorem perform_created {i : Nat}
    (hCreate : createNode type stack p name 0 m = .ok (.OK, i) m') :
    perform stack (.node type p name 0) m = .ok (.node .OK i) m' := by
  simp only [perform, bind, EStateM.bind, hCreate]
  rfl

theorem perform_exist (hCreate : createNode type stack p name 0 m = .ok (.EXIST, 0) m) :
    perform stack (.node type p name 0) m = .ok (.node .EXIST 0) m := by
  simp only [perform, bind, EStateM.bind, hCreate]
  rfl

/-- `write` reports the length of the data. -/
theorem perform_written {ino off : Nat} {data : List Byte} {r : Status × Nat}
    (hWrite : write stack ino off data m = .ok r m') :
    perform stack (.write ino off data) m = .ok (.write .OK data.length) m' := by
  have hStatus : r = (.OK, data.length) := by
    rw [write] at hWrite
    obtain ⟨readStr, -, hWrite⟩ := query_bind_ok (g := (ExtentServer.get · stack ino)) hWrite
    obtain ⟨u, m₁, -, hWrite⟩ := bind_ok hWrite
    obtain ⟨str, -, hWrite⟩ := query_bind_ok hWrite
    obtain ⟨v, m₂, -, hWrite⟩ := bind_ok hWrite
    exact (pure_ok hWrite).1
  simp only [perform, bind, EStateM.bind, hWrite, hStatus]
  rfl

/-- A call of the helper in a run. -/
theorem createhelper_run {r : Except Status EntryParam} (hRun : Run stack clock allowed h m)
    (hAllowed : allowed h m (.node type p name 0))
    (hHelper : createhelper stack p name type m = .ok r m') :
    (∃ e, r = .ok e ∧ Run stack clock allowed (h ++ [(.node type p name 0, .node .OK e.ino)]) m') ∨
    r = .error .EXIST ∧ Run stack clock allowed (h ++ [(.node type p name 0, .node .EXIST 0)]) m' := by
  rcases createhelper_ok hHelper with ⟨e, rfl, hCreate, -⟩ | ⟨rfl, hCreate⟩
  · exact Or.inl ⟨e, rfl, hRun.step hAllowed (perform_created hCreate)⟩
  · refine Or.inr ⟨rfl, ?_⟩
    have hSame : m' = m := by
      rw [createhelper] at hHelper
      obtain ⟨r, m₁, hCreate', hHelper⟩ := bind_ok hHelper
      rw [hCreate] at hCreate'
      injection hCreate' with hStatus hSame
      subst hStatus hSame
      exact (pure_ok hHelper).2
    rw [hSame]
    exact hRun.step hAllowed (perform_exist hCreate)

/-- The requests that make no call leave the disk as it was. -/
theorem serve_unchanged (hServe : serve fmt stack request m = .ok reply m')
    (hNone : calls (request, reply) = []) : m' = m := by
  cases request with
  | getattr ino =>
      obtain ⟨st, -, hServe⟩ := query_bind_ok (g := (getattr · stack ino)) hServe
      exact (pure_ok hServe).2
  | setattr ino size setSize =>
      cases setSize with
      | true => cases hNone
      | false => exact (pure_ok hServe).2
  | read ino size off =>
      obtain ⟨data, -, hServe⟩ := query_bind_ok (g := (read · stack ino size off)) hServe
      exact (pure_ok hServe).2
  | lookup parent name =>
      obtain ⟨found, -, hServe⟩ := query_bind_ok (g := (lookup · stack parent name)) hServe
      cases found with
      | some i =>
          obtain ⟨st, -, hServe⟩ := query_bind_ok (g := (getattr · stack i)) hServe
          exact (pure_ok hServe).2
      | none => exact (pure_ok hServe).2
  | readdir ino size off =>
      obtain ⟨dir, -, hServe⟩ := query_bind_ok (g := (isdir · stack ino)) hServe
      cases dir with
      | true =>
          obtain ⟨entries, -, hServe⟩ := query_bind_ok (g := (readdir · stack ino)) hServe
          exact (pure_ok hServe).2
      | false => exact (pure_ok hServe).2
  | «open» ino => exact (pure_ok hServe).2
  | statfs => exact (pure_ok hServe).2
  | readlink ino =>
      obtain ⟨data, -, hServe⟩ := query_bind_ok (g := (read · stack ino (2 ^ 32 - 1) 0)) hServe
      exact (pure_ok hServe).2
  | write ino off buf => cases hNone
  | unlink parent name => cases hNone
  | create parent name | mknod parent name | mkdir parent name | symlink link parent name =>
      rcases reply with - | reply
      · cases hNone
      · cases reply <;> cases hNone

/-- One request makes the calls that `calls` lists. -/
theorem serve_run (hRun : Run stack clock allowed h m) (hAdmits : Admits allowed h m request)
    (hServe : serve fmt stack request m = .ok reply m') :
    Run stack clock allowed (h ++ calls (request, reply)) m' := by
  have hReads : calls (request, reply) = [] → Run stack clock allowed (h ++ calls (request, reply)) m' := by
    intro hNone
    rw [hNone, serve_unchanged hServe hNone, List.append_nil]
    exact hRun
  cases request with
  | getattr ino => exact hReads rfl
  | setattr ino size setSize =>
      cases setSize with
      | true =>
          obtain ⟨r, m₁, hSet, hServe⟩ := bind_ok (x := setattr stack ino size) hServe
          obtain ⟨st, -, hServe⟩ := query_bind_ok (g := (getattr · stack ino)) hServe
          obtain ⟨-, rfl⟩ := pure_ok hServe
          have hPerform : perform stack (.setattr ino size) m = .ok (.setattr .OK) m' := by
            obtain ⟨u, m₂, hAttr, hEnd⟩ := bind_ok (x := ExtentServer.setAttr stack ino size) hSet
            obtain ⟨rfl, rfl⟩ := pure_ok hEnd
            simp only [perform, bind, EStateM.bind, hSet]
            rfl
          exact hRun.step hAdmits hPerform
      | false => exact hReads rfl
  | read ino size off => exact hReads rfl
  | write ino off buf =>
      obtain ⟨r, m₁, hWrite, hServe⟩ := bind_ok (x := write stack ino off buf) hServe
      obtain ⟨-, rfl⟩ := pure_ok hServe
      exact hRun.step hAdmits (perform_written hWrite)
  | create parent name =>
      obtain ⟨r, m₁, hHelper, hServe⟩ := bind_ok (x := createhelper stack parent name .T_FILE) hServe
      rcases createhelper_run hRun hAdmits hHelper with ⟨e, rfl, hNext⟩ | ⟨rfl, hNext⟩
      · obtain ⟨rfl, rfl⟩ := pure_ok hServe
        exact hNext
      · obtain ⟨rfl, rfl⟩ := pure_ok hServe
        exact hNext
  | mknod parent name =>
      obtain ⟨r, m₁, hHelper, hServe⟩ := bind_ok (x := createhelper stack parent name .T_FILE) hServe
      rcases createhelper_run hRun hAdmits hHelper with ⟨e, rfl, hNext⟩ | ⟨rfl, hNext⟩
      · obtain ⟨rfl, rfl⟩ := pure_ok hServe
        exact hNext
      · obtain ⟨rfl, rfl⟩ := pure_ok hServe
        exact hNext
  | lookup parent name => exact hReads rfl
  | readdir ino size off => exact hReads rfl
  | «open» ino => exact hReads rfl
  | mkdir parent name =>
      obtain ⟨r, m₁, hHelper, hServe⟩ := bind_ok (x := createhelper stack parent name .T_DIR) hServe
      rcases createhelper_run hRun hAdmits hHelper with ⟨e, rfl, hNext⟩ | ⟨rfl, hNext⟩
      · obtain ⟨rfl, rfl⟩ := pure_ok hServe
        exact hNext
      · obtain ⟨rfl, rfl⟩ := pure_ok hServe
        exact hNext
  | unlink parent name =>
      obtain ⟨r, m₁, hUnlink, hServe⟩ := bind_ok (x := unlink stack parent name) hServe
      obtain rfl := unlink_status hUnlink
      obtain ⟨rfl, rfl⟩ := pure_ok hServe
      refine hRun.step hAdmits ?_
      simp only [perform, bind, EStateM.bind, hUnlink]
      rfl
  | statfs => exact hReads rfl
  | symlink link parent name =>
      obtain ⟨r, m₁, hHelper, hServe⟩ := bind_ok (x := createhelper stack parent name .T_LNK) hServe
      rcases createhelper_run hRun hAdmits.1 hHelper with ⟨e, rfl, hNext⟩ | ⟨rfl, hNext⟩
      · obtain ⟨r, m₂, hWrite, hServe⟩ := bind_ok (x := write stack e.ino 0 link.bytes) hServe
        obtain ⟨rfl, rfl⟩ := pure_ok hServe
        have hBoth := hNext.step (hAdmits.2 e.ino m₁) (perform_written hWrite)
        rw [List.append_assoc] at hBoth
        exact hBoth
      · obtain ⟨rfl, rfl⟩ := pure_ok hServe
        exact hNext
  | readlink ino => exact hReads rfl

theorem Session.run
    (hSession : Session fmt stack clock (fun s m request => Admits allowed (history s) m request) s m) :
    Run stack clock allowed (history s) m := by
  induction hSession with
  | start hInit => exact .start hInit
  | @step s m m' request reply prior hAllowed hServe ih =>
      rw [history_append]
      exact serve_run ih hAllowed hServe

/-- Every session is a run of the client: the disk changes only by the calls that the requests
and their replies tell. -/
theorem session_is_run
    (hSession : Session fmt stack clock (fun s m request => Admits allowed (history s) m request) s m) :
    Run stack clock allowed (history s) m ∧ ∀ request reply m', serve fmt stack request m = .ok reply m' →
      calls (request, reply) = [] → m' = m :=
  ⟨hSession.run, fun _ _ _ => serve_unchanged⟩

end Sessions

section Witness

theorem getattr_total {a : Attr} {i : Nat} (h : ExtentServer.getattr m stack i = .ok a) :
    ∃ st, getattr m stack i = .ok st := by
  have hFile : isfile m stack i = .ok (a.type == FileType.T_FILE.code) := by
    simp only [isfile, h, bind, Except.bind, pure, Except.pure]
  have hDir : isdir m stack i = .ok (a.type == FileType.T_DIR.code) := by
    simp only [isdir, h, bind, Except.bind, pure, Except.pure]
  simp only [getattr, hFile, hDir, getfile, getdir, h, bind, Except.bind, pure, Except.pure]
  split
  · exact ⟨_, rfl⟩
  · split <;> exact ⟨_, rfl⟩

/-- The entries of libfuse: a header of 24 bytes, the name, and zeros up to a multiple of 8. -/
def Dirents.padded : Dirents where
  size n := (24 + n + 7) / 8 * 8
  bytes name ino off := padTo ((24 + name.bytes.length + 7) / 8 * 8)
    (le32 (UInt32.ofNat ino) ++ le32 (UInt32.ofNat (ino / 2 ^ 32)) ++ le32 (UInt32.ofNat off) ++
      le32 (UInt32.ofNat (off / 2 ^ 32)) ++ le32 (UInt32.ofNat name.bytes.length) ++ le32 0 ++ name.bytes)
  length_bytes _ _ _ := padTo_length _ _

/-- A client that only makes names makes them by requests. -/
theorem exists_createhelper {n : Nat} {h : History} {N : Entries} {C : List Nat}
    (hRoot : RootFiles 327 h m N C n) (hn : n ≤ 300) (hType : type ≠ .T_DIR) : ∃ e m' N' C',
    createhelper (maxDepth + 1) 1 (row n) type m = .ok (.ok e) m' ∧ ¬m.store.Alive e.ino ∧
      RootFiles 327 (h ++ [(.node type 1 (row n) 0, .node .OK e.ino)]) m' N' C' (n + 1) := by
  obtain ⟨i, m', N', C', hCreate, hDead, hNext⟩ := hRoot.next hn hType
  have hRun := hNext.run.onFiles
  obtain ⟨N₁, C₁, A, hS⟩ := hRun.afterRun (Nat.lt_succ_self maxDepth)
  have hFile : i ∈ files (h ++ [(.node type 1 (row n) 0, .node .OK i)]) :=
    ⟨type, 1, row n, 0, hType, List.mem_append_right _ List.mem_cons_self⟩
  obtain ⟨st, hAttr⟩ := getattr_total (hS.kept.getattr_eq hFile (Nat.lt_succ_self maxDepth))
  refine ⟨⟨i, st⟩, m', N', C', ?_, hDead, hNext⟩
  rw [createhelper, bind_eq (x := createNode type (maxDepth + 1) 1 (row n) 0) hCreate]
  exact query_bind_eq (g := (getattr · (maxDepth + 1) i)) hAttr _

theorem Session.exists_mknod {n : Nat} {s : Log} {N : Entries} {C : List Nat}
    (hSession : Session fmt (maxDepth + 1) clock
      (fun s m request => Admits (fun h _ call => call.OnFiles h) (history s) m request) s m)
    (hRoot : RootFiles 327 (history s) m N C n) (hn : n ≤ 300) : ∃ e m' N' C',
    Session fmt (maxDepth + 1) clock
      (fun s m request => Admits (fun h _ call => call.OnFiles h) (history s) m request)
      (s ++ [(.mknod 1 (row n), some (.entry e))]) m' ∧
    RootFiles 327 (history (s ++ [(.mknod 1 (row n), some (.entry e))])) m' N' C' (n + 1) ∧
    e.ino ∈ files (history (s ++ [(.mknod 1 (row n), some (.entry e))])) ∧
    contents (history (s ++ [(.mknod 1 (row n), some (.entry e))])) e.ino = [] := by
  obtain ⟨e, m', N', C', hHelper, -, hNext⟩ := exists_createhelper hRoot hn
    (fun he : FileType.T_FILE = .T_DIR => by cases he)
  have hCall : Admits (fun h _ call => call.OnFiles h) (history s) m (.mknod 1 (row n)) :=
    ⟨hRoot.map ▸ rfl, by rw [row_length]; omega⟩
  have hServe : serve fmt (maxDepth + 1) (.mknod 1 (row n)) m = .ok (some (.entry e)) m' :=
    bind_eq hHelper _
  have hHistory : history (s ++ [(.mknod 1 (row n), some (.entry e))]) =
      history s ++ [(.node .T_FILE 1 (row n) 0, .node .OK e.ino)] := history_append s _
  refine ⟨e, m', N', C', hSession.step hCall hServe, ?_⟩
  rw [hHistory]
  refine ⟨hNext, ⟨.T_FILE, 1, row n, 0, nofun, List.mem_append_right _ List.mem_cons_self⟩, ?_⟩
  rw [contents_append, putContents, Function.update_self]

/-- Requests that make `n` files in the root. -/
theorem exists_mknod_session {n : Nat} (hn : n ≤ 300) : ∃ s m N C,
    Session Dirents.padded (maxDepth + 1) (fun _ => 0)
      (fun s m request => Admits (fun h _ call => call.OnFiles h) (history s) m request) s m ∧
    s.length = n ∧ RootFiles 327 (history s) m N C n := by
  induction n with
  | zero =>
      obtain ⟨m, hInit, hInodes, hBlocks⟩ := ExtentServer.exists_start fun _ => 0
      exact ⟨[], m, _, _, .start hInit, rfl, .start 327 hInit hInodes hBlocks⟩
  | succ n ih =>
      obtain ⟨s, m, N, C, hSession, hLength, hRoot⟩ := ih (by omega)
      obtain ⟨e, m', N', C', hMade, hNext, -⟩ := hSession.exists_mknod hRoot (by omega)
      refine ⟨_, m', N', C', hMade, ?_, hNext⟩
      rw [List.length_append, List.length_singleton, hLength]

/-- After other requests a file is made, and `n` letters are written to it. -/
def lettersLog (s : Log) (e : EntryParam) (n : Nat) : Log :=
  s ++ [(.mknod 1 (row 149), some (.entry e))] ++
    [(.write e.ino 0 (List.replicate n 97), some (.write n))]

theorem history_lettersLog (s : Log) (e : EntryParam) (n : Nat) : history (lettersLog s e n) =
    history s ++ [(.node .T_FILE 1 (row 149) 0, .node .OK e.ino)] ++
      [(.write e.ino 0 (List.replicate n 97), .write .OK (List.replicate n (97 : Byte)).length)] := by
  rw [lettersLog, history_append, history_append]
  rfl

theorem mem_files_lettersLog (s : Log) (e : EntryParam) (n : Nat) :
    e.ino ∈ files (history (lettersLog s e n)) := by
  rw [history_lettersLog]
  exact ⟨.T_FILE, 1, row 149, 0, nofun,
    List.mem_append_left _ (List.mem_append_right _ List.mem_cons_self)⟩

theorem contents_lettersLog (s : Log) (e : EntryParam) {n : Nat} (hn : n < 2 ^ 31) :
    contents (history (lettersLog s e n)) e.ino = List.replicate n 97 ∧
      stored (history (lettersLog s e n)) e.ino = List.replicate n 97 := by
  have hLength : (List.replicate n (97 : Byte)).length = n := List.length_replicate
  have hStorable : Storable (List.replicate n (97 : Byte)) :=
    storable_of_nul_free (nul_free_replicate n (by decide))
  rw [history_lettersLog]
  generalize List.replicate n (97 : Byte) = str at hLength hStorable ⊢
  rw [contents_append, putContents, Function.update_self, if_pos (by omega), contents_append,
    putContents, Function.update_self, written_nil, stored_append, putStored, Function.update_self,
    if_pos (by omega), stored_append, putStored, Function.update_self, readBack_nil, written_nil]
  exact ⟨(readBack_eq_self_iff (levels_lt_maxDepth (hLength ▸ hn))).mpr hStorable, rfl⟩

/-- With room a `write` request to a file is replied to, and takes what it needs. -/
theorem Session.exists_write {s : Log} {i off : Nat} {data : List Byte} (hStack : maxDepth < stack)
    (hSession : Session fmt stack clock
      (fun s m request => Admits (fun h _ call => call.OnFiles h) (history s) m request) s m)
    (hFile : i ∈ files (history s)) (hEnd : off + data.length < 2 ^ 31)
    (hBlocks : blocksNeeded (max (contents (history s) i).length (off + data.length)) ≤ m.store.freeBlocks)
    (hInodes : inodesNeeded (max (contents (history s) i).length (off + data.length)) ≤ m.store.freeInodes) :
    ∃ m', Session fmt stack clock
        (fun s m request => Admits (fun h _ call => call.OnFiles h) (history s) m request)
        (s ++ [(.write i off data, some (.write data.length))]) m' ∧
      m'.store.freeBlocks + blocksNeeded (max (contents (history s) i).length (off + data.length)) =
        m.store.freeBlocks ∧
      m'.store.freeInodes + inodesNeeded (max (contents (history s) i).length (off + data.length)) =
        m.store.freeInodes := by
  have hCall : Admits (fun h _ call => call.OnFiles h) (history s) m (.write i off data) := hFile
  obtain ⟨m', hWrite, -, hTaken, hTaken'⟩ := hSession.run.exists_write hStack
    (fun _ _ _ hCall => hCall) hCall hEnd hBlocks hInodes
  exact ⟨m', hSession.step hCall (bind_eq hWrite _), hTaken, hTaken'⟩

theorem exists_letters_session {n : Nat} (hLen : n < 2 ^ 31) (hBlocks : blocksNeeded n ≤ 2095000)
    (hInodes : inodesNeeded n ≤ 700) : ∃ s e m, Session Dirents.padded (maxDepth + 1) (fun _ => 0)
      (fun s m request => Admits (fun h _ call => call.OnFiles h) (history s) m request)
      (lettersLog s e n) m ∧ s.length = 149 ∧ 2095000 ≤ m.store.freeBlocks + blocksNeeded n ∧
    700 ≤ m.store.freeInodes + inodesNeeded n := by
  obtain ⟨s, m₀, N, C, hSession, hLength, hRoot⟩ := exists_mknod_session (show 149 ≤ 300 by omega)
  obtain ⟨e, m₁, N', C', hMade, hNext, hFile, hEmpty⟩ := hSession.exists_mknod hRoot (by omega)
  have hBlocks₁ := hNext.blocks
  have hInodes₁ := hNext.inodes
  have hSize : (List.replicate n (97 : Byte)).length = n := List.length_replicate
  unfold lettersLog
  generalize List.replicate n (97 : Byte) = data at hSize ⊢
  have hMax : max ([] : List Byte).length (0 + data.length) = n := by
    rw [List.length_nil, Nat.zero_add, Nat.zero_max, hSize]
  obtain ⟨m, hWritten, hTaken, hTaken'⟩ := hMade.exists_write (Nat.lt_succ_self maxDepth) hFile
    (show 0 + data.length < 2 ^ 31 by omega) (by rw [hEmpty, hMax]; omega) (by rw [hEmpty, hMax]; omega)
  rw [hEmpty, hMax] at hTaken hTaken'
  rw [hSize] at hWritten
  exact ⟨s, e, m, hWritten, hLength, by omega, by omega⟩

/-- 150 files are made in the root, and 60000 letters are written to the last one. -/
theorem session_is_run_letters : ∃ s e m, s.length = 149 ∧
    Run (maxDepth + 1) (fun _ => 0) (fun h _ call => call.OnFiles h) (history (lettersLog s e 60000)) m ∧
    ∀ i reply m', serve Dirents.padded (maxDepth + 1) (.getattr i) m = .ok reply m' → m' = m := by
  obtain ⟨s, e, m, hSession, hLength, -⟩ := exists_letters_session (n := 60000) (by decide) (by decide)
    (by decide)
  obtain ⟨hRun, hSame⟩ := session_is_run hSession
  exact ⟨s, e, m, hLength, hRun, fun i reply m' hServe => hSame (.getattr i) reply m' hServe rfl⟩

end Witness

end Fuse
end InodeFS
