import InodeFS.Session

/-! Isolation: an operation on one id never changes what another id shows. -/
namespace InodeFS

open Bytes Exec Ownership Store Transition

namespace Store

variable {σ σ' : Store} {live : Set Nat} {i : Nat}

/-- The whole tree at `i` is the same in both stores. -/
def SameTree (σ σ' : Store) (i : Nat) : Prop :=
  ∃ P : Set Nat, i ∈ P ∧ (∀ j ∈ P, ∀ c ∈ σ.kids j, c ∈ P) ∧ SameOn σ σ' P

theorem SameTree.refl (σ : Store) (i : Nat) : SameTree σ σ i :=
  ⟨Set.univ, trivial, fun _ _ _ _ => trivial, fun _ _ => rfl, fun _ _ _ _ => rfl⟩

theorem SameTree.inode (h : SameTree σ σ' i) : σ'.inode i = σ.inode i := by
  obtain ⟨P, hi, -, hSame⟩ := h
  exact hSame.inode i hi

theorem SameTree.content (h : SameTree σ σ' i) (n : Nat) : σ'.content n i = σ.content n i := by
  obtain ⟨P, hi, hClosed, hSame⟩ := h
  exact hSame.content hClosed n hi

theorem SameTree.fileSize (h : SameTree σ σ' i) (n : Nat) : σ'.fileSize n i = σ.fileSize n i := by
  obtain ⟨P, hi, hClosed, hSame⟩ := h
  exact hSame.fileSize hClosed n hi

theorem Intact.sameTree_grows (h : σ.Intact live) (hGrows : Grows σ σ') (hi : σ.Alive i) :
    SameTree σ σ' i :=
  ⟨_, hi, h.sound.forest.kids_mem, hGrows.sameOn h.sound⟩

end Store

namespace ExtentServer

variable {stack : Nat} {live : Set Nat} {m : Machine} {i : Nat}

theorem maskId_of_isInum (h : IsInum i) : maskId i = i := by
  have hRange := isInum_iff.mp h
  exact Nat.mod_eq_of_lt (by omega)

/-- On a live id `get` returns the content of its tree. -/
theorem get_eq (h : m.store.Intact live) (hStack : maxDepth < stack) (hi : i ∈ live) :
    ExtentServer.get m stack i = .ok (m.store.content maxDepth i) := by
  have hAlive := h.alive i hi
  rw [ExtentServer.get, maskId_of_isInum (isInum_of_alive hAlive)]
  exact readFile_eq h.sound.readable hAlive (h.sound.forest.shallow i hAlive) hStack

theorem content_fresh (σ : Store) (i n : Nat) (type : FileType) (now : UInt32) :
    (σ.putInode i (freshInode type now)).content n i = [] := by
  have hSize : (σ.putInode i (freshInode type now)).size i = 0 := size_putInode_self
  have hKids : (σ.putInode i (freshInode type now)).kids i = [] := kids_of_size_le (by omega)
  cases n <;> simp [content, direct, hSize, hKids]

/-- The attributes that `getattr` returns for a live id. -/
def attrOf (σ : Store) (i : Nat) : Attr :=
  { type := (σ.inode i).type.toNat, atime := (σ.inode i).atime, mtime := (σ.inode i).mtime,
    ctime := (σ.inode i).ctime, size := σ.fileSize maxDepth i }

theorem getattr_eq (h : m.store.Intact live) (hStack : maxDepth < stack) (hi : i ∈ live) :
    ExtentServer.getattr m stack i = .ok (attrOf m.store i) := by
  have hAlive := h.alive i hi
  have hInum := isInum_of_alive hAlive
  rw [ExtentServer.getattr, maskId_of_isInum hInum, getAttr, derefInode_ok hInum]
  simp only [bind, Except.bind, getFileSize_eq h.sound.readable hAlive
    (h.sound.forest.shallow i hAlive) hStack]
  rfl

/-- The size argument that reaches `write_file`. -/
theorem toInt_toNat_le (n : Nat) : (toInt n).toNat ≤ n ∧ (toInt n).toNat < 2 ^ 31 := by
  unfold toInt
  split <;> omega

theorem toInt_of_lt {n : Nat} (h : n < 2 ^ 31) : toInt n = n := by
  rw [toInt, if_pos (by omega)]
  omega

/-- `put` on a live id stores the string, does nothing (a size that does not
fit an `int`), or stops for lack of space. -/
theorem wp_put (h : m.store.Intact live) (hStack : maxDepth < stack) (hi : i ∈ live)
    (buf : List Byte) :
    wp (put stack i buf)
      (fun _ m' => if toInt buf.length < 0 then m' = m else
        Wrote m.store m'.store i (buf.take (toInt buf.length).toNat))
      (fun e m' => Failed m.store m'.store (toInt buf.length).toNat 0 0 e) m := by
  obtain ⟨hLe, hLt⟩ := toInt_toNat_le buf.length
  have hDepth := levels_lt_maxDepth hLt
  have hAlive := h.alive i hi
  rw [put, maskId_of_isInum (isInum_of_alive hAlive)]
  exact wp_writeFile stack m i buf _ hAlive (SlotsMarked.of_sound h.sound hAlive) hLe (by omega)
    hDepth

/-- `remove` of a live id clears its tree and always returns. -/
theorem wp_remove (h : m.store.Intact live) (hStack : maxDepth < stack) (hi : i ∈ live) :
    wp (remove stack i) (fun _ m' => Removes m.store m'.store
      {x | x ∈ m.store.shape.nodes maxDepth i} {x | x ∈ m.store.shape.nodes maxDepth i})
      (fun _ _ => False) m := by
  have hAlive := h.alive i hi
  rw [remove, maskId_of_isInum (isInum_of_alive hAlive)]
  exact wp_removeFile h.sound.removable hAlive (h.sound.forest.shallow i hAlive) hStack

theorem wp_create (m : Machine) (type : FileType) :
    wp (create type) (fun id m' => Grows m.store m'.store ∧ FreshRoot m.store m'.store id ∧
        ∃ now, m'.store = m.store.putInode id (freshInode type now))
      (fun e m' => m' = m ∧ e = .segfault ∧ m.store.freeInodes = 0) m := by
  refine wp_allocInode _ (fun id now m' hInum hDead _ hStore => ?_) fun hAll => ?_
  · obtain ⟨hGrows, hRoot⟩ := grows_freshInode type now hInum hDead
    rw [hStore]
    exact ⟨hGrows, hRoot, now, rfl⟩
  · exact ⟨rfl, rfl, freeInodes_eq_zero hAll⟩

/-- No call resizes a file in place. -/
def Call.KeepsSize : Call → Prop
  | .setAttr _ _ => False
  | _ => True

/-- An id keeps its tree and what it showed last, or it has just been put or
created and shows what it holds now. -/
def Shows (stack : Nat) (s : Session) (call : Call) (s' : Session) (B : Nat) : Prop :=
  (B ∈ s.live ∧ SameTree s.machine.store s'.machine.store B ∧ s'.shown B = s.shown B) ∨
    ((B ∈ s.live → call.target = some B) ∧ s'.shown B = ExtentServer.get s'.machine stack B)

/-- What one call keeps: the invariant, and the trees of the other live ids. -/
theorem Step.keeps {s s' : Session} {call : Call} (hStep : Step stack s call s')
    (hStack : maxDepth < stack) (hCall : call.KeepsSize) (h : s.machine.store.Intact s.live) :
    s'.machine.store.Intact s'.live ∧ ∀ B ∈ s'.live, Shows stack s call s' B := by
  cases hStep with
  | @create type id m hRun =>
      obtain ⟨hGrows, hRoot, now, hStore⟩ := wp_ok (wp_create s.machine _) hRun
      have hIntact := h.handOut hGrows hRoot
      refine ⟨hIntact, fun B hB => ?_⟩
      by_cases hBid : B = id
      · subst hBid
        refine Or.inr ⟨fun hOld => (hRoot.1.2 (h.alive B hOld)).elim, ?_⟩
        rw [get_eq hIntact hStack hB, hStore, content_fresh]
        exact Function.update_self _ _ _
      · have hOld : B ∈ s.live := hB.resolve_left hBid
        exact Or.inl ⟨hOld, h.sameTree_grows hGrows (h.alive B hOld), Function.update_of_ne hBid _ _⟩
  | @put id buf m hLive hRun =>
      have hPut := wp_ok (wp_put h hStack hLive buf) hRun
      have hShows : ∀ B ∈ s.live, (B ≠ id → SameTree s.machine.store m.store B) →
          Shows stack s (.put id buf) { s with
            machine := m, shown := Function.update s.shown id (ExtentServer.get m stack id) } B := by
        intro B hB hSame
        by_cases hBid : B = id
        · subst hBid
          exact Or.inr ⟨fun _ => rfl, Function.update_self _ _ _⟩
        · exact Or.inl ⟨hB, hSame hBid, Function.update_of_ne hBid _ _⟩
      split at hPut
      · subst hPut
        exact ⟨h, fun B hB => hShows B hB fun _ => SameTree.refl _ B⟩
      · obtain ⟨⟨σ₁, hRewrites, -⟩, -, -⟩ := hPut
        refine ⟨h.rewrites hLive hRewrites, fun B hB => hShows B hB fun hBid => ?_⟩
        exact ⟨{i | s.machine.store.Alive i} \ {id}, ⟨h.alive B hB, hBid⟩,
          h.closed_without_root hLive, h.sameOn_rewrites hRewrites⟩
  | @putFailed id buf m hLive hRun =>
      obtain ⟨p, q, hProgress⟩ := (wp_error (wp_put h hStack hLive buf) hRun).progress
      refine ⟨h.grows hProgress.grows, fun B hB => Or.inl ⟨hB, ?_, rfl⟩⟩
      exact h.sameTree_grows hProgress.grows (h.alive B hB)
  | get hLive => exact ⟨h, fun B hB => Or.inl ⟨hB, SameTree.refl _ B, rfl⟩⟩
  | getattr hLive => exact ⟨h, fun B hB => Or.inl ⟨hB, SameTree.refl _ B, rfl⟩⟩
  | @remove id m hLive hRoot hRun =>
      have hRemoves := wp_ok (wp_remove h hStack hLive) hRun
      refine ⟨h.removes hLive hRemoves, fun B hB => Or.inl ⟨hB.1, ?_, rfl⟩⟩
      exact ⟨_, h.live_outside hLive hB.1 hB.2, h.outside_closed hLive _,
        h.sameOn_removes hLive hRemoves⟩
  | setAttr hLive hRun => exact hCall.elim

/-- Only `remove` takes an id away, and only its own. -/
theorem Step.stays_live {s s' : Session} {call : Call} (hStep : Step stack s call s') {B : Nat}
    (hB : B ∈ s.live) (hne : call.target ≠ some B) : B ∈ s'.live := by
  cases hStep with
  | create hRun => exact Or.inr hB
  | remove hLive hRoot hRun => exact ⟨hB, fun he => hne (congrArg some he).symm⟩
  | _ => exact hB

/-- What a session knows: the invariant holds, and every live id still shows
what it showed after the last successful `put`. -/
structure Session.Faithful (s : Session) : Prop where
  intact : s.machine.store.Intact s.live
  shown : ∀ B ∈ s.live, s.shown B = .ok (s.machine.store.content maxDepth B)

theorem Session.start_intact {clock : Nat → UInt32} {m : Machine}
    (hInit : initInodeManager (Machine.zeroed clock) = .ok () m) :
    m.store.Intact {1} ∧ m.store.content maxDepth 1 = [] := by
  obtain ⟨now, hStore⟩ := wp_ok (wp_initInodeManager clock) hInit
  have hDead : ¬blank.Alive 1 := fun h => h rfl
  obtain ⟨hGrows, hRoot⟩ := grows_freshInode .T_DIR now
    (isInum_iff.mpr (by omega)) hDead
  rw [hStore]
  refine ⟨?_, content_fresh _ _ _ _ _⟩
  have hIntact := blank_intact.handOut hGrows hRoot
  exact hIntact.subset fun i hi => Or.inl hi

theorem Step.faithful {s s' : Session} {call : Call} (hStep : Step stack s call s')
    (hStack : maxDepth < stack) (hCall : call.KeepsSize) (h : s.Faithful) : s'.Faithful := by
  obtain ⟨hIntact, hShows⟩ := hStep.keeps hStack hCall h.intact
  refine ⟨hIntact, fun B hB => ?_⟩
  rcases hShows B hB with ⟨hOld, hSame, hShown⟩ | ⟨-, hShown⟩
  · rw [hShown, h.shown B hOld, hSame.content]
  · rw [hShown, get_eq hIntact hStack hB]

theorem Session.faithful_start {clock : Nat → UInt32} {s : Session} (h : Fresh clock Session.start s) :
    s.Faithful := by
  obtain ⟨m, hInit, rfl⟩ := h
  obtain ⟨hIntact, hEmpty⟩ := Session.start_intact hInit
  refine ⟨hIntact, fun B hB => ?_⟩
  obtain rfl : B = 1 := hB
  exact congrArg Except.ok hEmpty.symm

theorem Run.faithful {clock : Nat → UInt32} {s : Session} (hStack : maxDepth < stack)
    (hRun : Run stack clock (fun _ call => call.KeepsSize) s) : s.Faithful :=
  hRun.invariant (fun _ => Session.faithful_start) fun _ _ h hStep => by
    obtain ⟨call, hAllowed, hLast⟩ := hStep
    exact hLast.faithful hStack hAllowed h

/-- No operation on one id changes what `get` and `getattr` return for another
live id, and every live id shows what it showed after the last successful `put`. -/
theorem isolation {clock : Nat → UInt32} {s : Session} (hStack : maxDepth < stack)
    (hRun : Run stack clock (fun _ call => call.KeepsSize) s) :
    (∀ B ∈ s.live, (∃ str, s.shown B = .ok str) ∧ ExtentServer.get s.machine stack B = s.shown B) ∧
    ∀ call s', call.KeepsSize → Step stack s call s' → ∀ B ∈ s.live, call.target ≠ some B →
      B ∈ s'.live ∧
      ExtentServer.get s'.machine stack B = ExtentServer.get s.machine stack B ∧
      ExtentServer.getattr s'.machine stack B = ExtentServer.getattr s.machine stack B := by
  have h := hRun.faithful hStack
  refine ⟨fun B hB => ⟨⟨_, h.shown B hB⟩, ?_⟩, fun call s' hCall hStep B hB hne => ?_⟩
  · rw [h.shown B hB, get_eq h.intact hStack hB]
  · obtain ⟨hIntact, hShows⟩ := hStep.keeps hStack hCall h.intact
    have hB' := hStep.stays_live hB hne
    rcases hShows B hB' with ⟨-, hSame, -⟩ | ⟨hTarget, -⟩
    · rw [get_eq h.intact hStack hB, get_eq hIntact hStack hB', getattr_eq h.intact hStack hB,
        getattr_eq hIntact hStack hB', attrOf, attrOf, hSame.content, hSame.fileSize, hSame.inode]
      exact ⟨hB', rfl, rfl⟩
    · exact (hne (hTarget hB)).elim

section Witness

theorem exists_start (clock : Nat → UInt32) : ∃ m, initInodeManager (Machine.zeroed clock) = .ok () m ∧
    m.store.freeInodes = 1023 ∧ m.store.freeBlocks = 2095612 := by
  obtain ⟨_, m, hInit, now, hStore⟩ := exists_ok_of_wp (wp_initInodeManager clock)
  refine ⟨m, hInit, ?_, ?_⟩
  · have hOne : (blank.putInode 1 (freshInode .T_DIR now)).freeInodes + 1 = blank.freeInodes :=
      freeInodes_putInode (isInum_iff.mpr (by omega)) (fun h => h rfl)
        (FileType.code_toUInt16_ne_zero .T_DIR)
    have hAll : blank.freeInodes = 1024 := by
      simp [freeInodes, blank, Alive]
    rw [hStore]
    omega
  · rw [hStore]
    simp [freeBlocks, blank]

/-- `create` succeeds while there is a free inode. -/
theorem exists_create (m : Machine) (type : FileType) (h : 0 < m.store.freeInodes) :
    ∃ id m', create type m = .ok id m' ∧ Grows m.store m'.store ∧
      FreshRoot m.store m'.store id ∧ m'.store.freeBlocks = m.store.freeBlocks ∧
      m'.store.freeInodes + 1 = m.store.freeInodes ∧
      ∃ now, m'.store = m.store.putInode id (freshInode type now) := by
  obtain ⟨id, m', hRun, hGrows, hRoot, now, hStore⟩ := exists_ok_of_wp
    (wp_mono (wp_create m type) (fun _ _ hPost => hPost) fun e m' hFail => by omega)
  refine ⟨id, m', hRun, hGrows, hRoot, ?_, ?_, now, hStore⟩
  · rw [hStore]
    rfl
  · rw [hStore]
    exact freeInodes_putInode (hGrows.sound.inum id hRoot.1) hRoot.1.2
      (FileType.code_toUInt16_ne_zero type)

/-- `put` succeeds while there are blocks and inodes enough. -/
theorem exists_put (h : m.store.Intact live) (hStack : maxDepth < stack) (hi : i ∈ live)
    {buf : List Byte} (hLen : buf.length < 2 ^ 31)
    (hBlocks : blocksNeeded buf.length ≤ m.store.freeBlocks)
    (hInodes : inodesNeeded buf.length ≤ m.store.freeInodes) :
    ∃ m', put stack i buf m = .ok () m' ∧ Wrote m.store m'.store i buf := by
  have hPut := wp_put h hStack hi buf
  rw [toInt_of_lt hLen, Int.toNat_natCast, List.take_length] at hPut
  obtain ⟨_, m', hRun, hPost⟩ := exists_ok_of_wp (wp_mono hPut (fun _ _ hPost => hPost)
    fun e m' hFail => by have := hFail.cause; omega)
  rw [if_neg (by omega)] at hPost
  exact ⟨m', hRun, hPost⟩

variable {clock : Nat → UInt32} {s : Session} {id : Nat} {str : List Byte}

/-- A session creates a file. -/
theorem Run.exists_create (hRun : Run stack clock (fun _ call => call.KeepsSize) s)
    (hInodes : 0 < s.machine.store.freeInodes) (hStack : maxDepth < stack) :
    ∃ id s', Run stack clock (fun _ call => call.KeepsSize) s' ∧ id ∈ s'.live ∧ id ∉ s.live ∧
      s.live ⊆ s'.live ∧ s'.machine.store.freeBlocks = s.machine.store.freeBlocks ∧
      s'.machine.store.freeInodes + 1 = s.machine.store.freeInodes ∧
      s'.machine.store.size id = 0 ∧ ∀ k, s'.machine.store.slot id k = 0 := by
  obtain ⟨id, m, hCreate, -, hRoot, hSame, hOne, now, hStore⟩ :=
    ExtentServer.exists_create s.machine .T_FILE hInodes
  refine ⟨id, _, hRun.step (show Call.KeepsSize (.create .T_FILE) from trivial) (.create hCreate),
    Or.inl rfl, fun hMem => hRoot.1.2 ((hRun.faithful hStack).intact.alive id hMem),
    Set.subset_insert _ _, hSame, hOne, ?_, fun k => ?_⟩
  · change m.store.size id = 0
    rw [hStore, size_putInode_self]
    rfl
  · change m.store.slot id k = 0
    rw [hStore, slot_putInode_self]
    exact freshInode_slot _ now k

/-- A session puts a string, and there is room. -/
theorem Run.exists_put (hRun : Run stack clock (fun _ call => call.KeepsSize) s) (hStack : maxDepth < stack)
    (hLive : id ∈ s.live) (hLen : str.length < 2 ^ 31)
    (hBlocks : blocksNeeded str.length ≤ s.machine.store.freeBlocks)
    (hInodes : inodesNeeded str.length ≤ s.machine.store.freeInodes) :
    ∃ s', Run stack clock (fun _ call => call.KeepsSize) s' ∧ Step stack s (.put id str) s' ∧
      s'.live = s.live ∧ put stack id str s.machine = .ok () s'.machine ∧
      ExtentServer.get s'.machine stack id = .ok (readBack maxDepth str) ∧
      Wrote s.machine.store s'.machine.store id str := by
  obtain ⟨m, hPut, hWrote⟩ :=
    ExtentServer.exists_put (hRun.faithful hStack).intact hStack hLive hLen hBlocks hInodes
  have hLast : Step stack s (.put id str) _ := .put hLive hPut
  have hNext := hRun.step (show Call.KeepsSize (.put id str) from trivial) hLast
  refine ⟨_, hNext, hLast, rfl, hPut, ?_, hWrote⟩
  rw [get_eq (hNext.faithful hStack).intact hStack hLive,
    (hWrote.holds maxDepth (levels_lt_maxDepth hLen)).content]

/-- A fresh file system with one new file in it. -/
theorem exists_new_file : ∃ (s : Session) (id : Nat),
    Run (maxDepth + 1) (fun _ => 0) (fun _ call => call.KeepsSize) s ∧ id ∈ s.live ∧
    s.machine.store.freeBlocks = 2095612 ∧ s.machine.store.freeInodes = 1022 ∧
    s.machine.store.size id = 0 ∧ ∀ k, s.machine.store.slot id k = 0 := by
  obtain ⟨m, hInit, hInodes, hBlocks⟩ := exists_start fun _ => 0
  have hStart : Run (maxDepth + 1) (fun _ => 0) (fun _ call => call.KeepsSize) (Session.start m) :=
    .start hInit
  have hSome : 0 < (Session.start m).machine.store.freeInodes := by
    change 0 < m.store.freeInodes
    omega
  obtain ⟨id, s, hRun, hLive, -, -, hSame, hOne, hSize, hSlot⟩ :=
    hStart.exists_create hSome (Nat.lt_succ_self maxDepth)
  change _ = m.store.freeBlocks at hSame
  change _ = m.store.freeInodes at hOne
  exact ⟨s, id, hRun, hLive, hSame.trans hBlocks, by omega, hSize, hSlot⟩

/-- A session with `n` letters in a file, and another file. -/
theorem exists_letters {n : Nat} (hLen : n < 2 ^ 31) (hBlocks : blocksNeeded n ≤ 2095612)
    (hInodes : inodesNeeded n ≤ 1021) : ∃ (s : Session) (id other : Nat),
    Run (maxDepth + 1) (fun _ => 0) (fun _ call => call.KeepsSize) s ∧ id ∈ s.live ∧ other ∈ s.live ∧
    other ≠ id ∧ ExtentServer.get s.machine (maxDepth + 1) id = .ok (List.replicate n 97) ∧
    s.machine.store.freeBlocks + blocksNeeded n = 2095612 ∧
    s.machine.store.freeInodes + inodesNeeded n = 1021 := by
  have hStack := Nat.lt_succ_self maxDepth
  have hLength : (List.replicate n (97 : Byte)).length = n := List.length_replicate
  have hBack := (readBack_eq_self_iff (levels_lt_maxDepth (hLength.symm ▸ hLen))).mpr
    (storable_of_nul_free (nul_free_replicate n (b := 97) (by decide)))
  generalize List.replicate n (97 : Byte) = str at hLength hBack ⊢
  obtain ⟨s₀, other, hRun₀, hOther, hFree, hFree', -⟩ := exists_new_file
  obtain ⟨id, s₁, hRun₁, hLive, hNew, hKept, hSame, hOne, -⟩ := hRun₀.exists_create (by omega) hStack
  obtain ⟨s, hRun, -, hSameLive, -, hGet, hWrote⟩ := hRun₁.exists_put hStack hLive (hLength.symm ▸ hLen)
    (by rw [hLength]; omega) (by rw [hLength]; omega)
  have hTaken := hWrote.blocks
  have hTaken' := hWrote.inodes
  rw [hLength] at hTaken hTaken'
  rw [hBack] at hGet
  exact ⟨s, id, other, hRun, hSameLive ▸ hLive, hSameLive ▸ hKept hOther, fun he => hNew (he ▸ hOther), hGet,
    by omega, by omega⟩

/-- 170000 letters are put to a file, next to one of 60000 letters. Both have child inodes. -/
theorem isolation_two_files : ∃ (s s' : Session) (id other : Nat),
    Run (maxDepth + 1) (fun _ => 0) (fun _ call => call.KeepsSize) s ∧ id ∈ s.live ∧ other ≠ id ∧
    ExtentServer.get s.machine (maxDepth + 1) id = .ok (List.replicate 60000 97) ∧
    Step (maxDepth + 1) s (.put other (List.replicate 170000 98)) s' ∧
    s'.shown other = .ok (List.replicate 170000 98) ∧
    ExtentServer.get s'.machine (maxDepth + 1) id = .ok (List.replicate 60000 97) := by
  have hStack := Nat.lt_succ_self maxDepth
  have hNeeds : blocksNeeded 60000 = 119 ∧ inodesNeeded 60000 = 1 ∧ blocksNeeded 170000 = 334 ∧
      inodesNeeded 170000 = 3 := by decide
  obtain ⟨s, id, other, hRun, hLive, hOther, hne, hGet, hFree, hFree'⟩ :=
    exists_letters (show 60000 < 2 ^ 31 by decide)
    (by omega) (by omega)
  have hLength : (List.replicate 170000 (98 : Byte)).length = 170000 := List.length_replicate
  have hNul := nul_free_replicate 170000 (b := 98) (by decide)
  generalize List.replicate 170000 (98 : Byte) = str at hLength hNul ⊢
  have hLen : str.length < 2 ^ 31 := by omega
  obtain ⟨s', hNext, hStep, hSame, -, hPut, -⟩ := hRun.exists_put hStack hOther hLen
    (by rw [hLength]; omega) (by rw [hLength]; omega)
  rw [(readBack_eq_self_iff (levels_lt_maxDepth hLen)).mpr (storable_of_nul_free hNul)] at hPut
  have hTarget : (Call.put other str).target ≠ some id := fun he => hne (Option.some.inj he)
  have hKept := (isolation hStack hRun).2 (.put other str) s' trivial hStep id hLive hTarget
  have hShown := ((isolation hStack hNext).1 other (hSame ▸ hOther)).2
  exact ⟨s, s', id, other, hRun, hLive, hne, hGet, hStep, hShown.symm.trans hPut, hKept.2.1.trans hGet⟩

end Witness

end ExtentServer
end InodeFS
