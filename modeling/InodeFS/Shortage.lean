import InodeFS.RoundTrip
import InodeFS.WriteResult
import InodeFS.Library.Invariant

/-! Running out of data blocks. `write_file` throws only on a full disk, and it
gives nothing back before it throws. -/
namespace InodeFS

open Bytes Exec Ownership Store

section Throws

variable {m m' : Machine} {stack r : Nat} {buf : List Byte} {size : Int} {ino : Inode}
  {write : Nat → List Byte → Int → Action Unit}

/-- A program that throws `bad_alloc` only when no data block is free. -/
abbrev ThrowsWhenFull {α : Type} (x : Action α) : Prop :=
  Keeps (fun _ => True) (fun e m => e = .badAlloc → m.store.freeBlocks = 0) x fun _ => True

theorem throwsWhenFull_query {α : Type} {f : Machine → Except Stop α}
    (h : ∀ m, f m ≠ .error .badAlloc) : ThrowsWhenFull (query f) := by
  apply Keeps.query
  intro m _
  cases hf : f m with
  | ok a => trivial
  | error e => exact fun he => (h m (hf.trans (congrArg Except.error he))).elim

theorem throwsWhenFull_writeBlock (b : Nat) (block : Block) :
    ThrowsWhenFull (writeBlock b block) :=
  Keeps.ite (fun _ _ _ => ⟨trivial, trivial⟩) fun _ => Keeps.throw nofun

theorem throwsWhenFull_bind_allocBlock {α : Type} {f : Nat → Action α}
    (hNone : ∀ m, m.store.freeBlocks = 0 → wp (f 0) (fun _ _ => True ∧ True)
      (fun e m => True ∧ (e = .badAlloc → m.store.freeBlocks = 0)) m)
    (h : ∀ b, IsData b → ThrowsWhenFull (f b)) : ThrowsWhenFull (allocBlock >>= f) := by
  apply Keeps.bind_of_wp
  intro m _
  apply wp_allocBlock
  · exact fun b m' hData _ _ _ => h b hData m' trivial
  · exact fun hAll => hNone m (freeBlocks_eq_zero hAll)

theorem throwsWhenFull_allocFile : ThrowsWhenFull (allocInode FileType.T_FILE.code) := by
  intro m _
  apply wp_allocInode
  · exact fun _ _ _ _ _ _ _ => ⟨trivial, trivial⟩
  · exact fun _ => ⟨trivial, nofun⟩

theorem throwsWhenFull_writeDirect (size i : Nat) : ThrowsWhenFull (writeDirect buf size ino i) := by
  apply throwsWhenFull_bind_allocBlock
  · exact fun m hFull => ⟨trivial, fun _ => hFull⟩
  · intro b hData
    have hPos : b > 0 := by
      have := isData_iff.mp hData
      omega
    rw [if_pos hPos]
    refine Keeps.ite (fun _ => ?_) fun _ => ?_
    · exact (throwsWhenFull_writeBlock _ _).bind fun _ _ => Keeps.pure trivial
    · exact (throwsWhenFull_writeBlock _ _).bind fun _ _ => Keeps.pure trivial

theorem throwsWhenFull_writeChildren (h : ∀ c buf size, ThrowsWhenFull (write c buf size))
    (count : Nat) (inodes : List Nat) :
    ThrowsWhenFull (writeChildren write buf size count inodes) := by
  induction count generalizing inodes with
  | zero => exact Keeps.pure trivial
  | succ count ih =>
      apply throwsWhenFull_allocFile.bind
      intro c _
      apply (h c _ _).bind
      intro _ _
      exact Keeps.ite (fun _ => ih _) fun _ => Keeps.pure trivial

theorem throwsWhenFull_writeIndirect (h : ∀ c buf size, ThrowsWhenFull (write c buf size)) :
    ThrowsWhenFull (writeIndirect write buf size ino) := by
  refine Keeps.ite (fun _ => ?_) fun _ => Keeps.pure trivial
  apply throwsWhenFull_bind_allocBlock
  · exact fun m hFull => ⟨trivial, fun _ => hFull⟩
  · intro b hData
    have hne : b ≠ 0 := by
      have := isData_iff.mp hData
      omega
    rw [if_neg hne]
    apply (throwsWhenFull_writeChildren h _ _).bind
    intro inodes _
    have hLast : ThrowsWhenFull (writeLastChild write buf size inodes) := by
      refine Keeps.ite (fun _ => ?_) fun _ => Keeps.pure trivial
      apply throwsWhenFull_allocFile.bind
      intro c _
      exact (h c _ _).bind fun _ _ => Keeps.pure trivial
    apply hLast.bind
    intro inodes' _
    exact (throwsWhenFull_writeBlock _ _).bind fun _ _ => Keeps.pure trivial

theorem throwsWhenFull_putInode (i : Nat) (new : Inode) : ThrowsWhenFull (putInode i new) := by
  refine Keeps.ite (fun _ => Keeps.pure trivial) fun _ => ?_
  apply Keeps.bind _ fun _ _ => throwsWhenFull_writeBlock _ _
  · exact fun _ => True
  · apply throwsWhenFull_query
    intro m
    unfold readBlock
    split <;> exact nofun

theorem throwsWhenFull_writeFile (stack r : Nat) (buf : List Byte) (size : Int) :
    ThrowsWhenFull (writeFile stack r buf size) := by
  induction stack generalizing r buf size with
  | zero => exact Keeps.throw nofun
  | succ stack ih =>
      refine Keeps.ite (fun _ => Keeps.pure trivial) fun _ => ?_
      have hInode : ThrowsWhenFull (query (getInode · r)) := by
        apply throwsWhenFull_query
        intro m
        by_cases hi : IsInum r
        · rw [getInode_some hi]
          exact nofun
        · rw [getInode_none hi]
          exact nofun
      apply hInode.bind
      rintro (_ | ino) _
      · exact Keeps.pure trivial
      · have hLoop : ThrowsWhenFull ((List.range (min (blocksFor size.toNat) ndirect)).foldlM
            (writeDirect buf size.toNat) ino) :=
          Keeps.foldlM (fun i _ ino' _ => throwsWhenFull_writeDirect _ i) trivial
        apply hLoop.bind
        intro ino₁ _
        apply (throwsWhenFull_writeIndirect ih).bind
        intro ino₂ _
        have hTime : ThrowsWhenFull time := fun _ _ => ⟨trivial, trivial⟩
        apply hTime.bind
        intro now _
        exact throwsWhenFull_putInode _ _

end Throws

section Full

variable {m m' : Machine} {stack r : Nat} {buf : List Byte} {size : Int}

theorem Store.marked_of_freeBlocks_eq_zero {σ : Store} {b : Nat} (h : σ.freeBlocks = 0)
    (hb : IsData b) : σ.bit b = true := by
  by_contra hFree
  have hNone := Finset.filter_eq_empty_iff.mp (Finset.card_eq_zero.mp h) (Finset.mem_Ico.mpr hb)
  exact hNone (by simpa using hFree)

theorem allocBlock_full (h : m.store.freeBlocks = 0) : allocBlock m = .ok 0 m := by
  have hAlloc : wp allocBlock (fun b m' => b = 0 ∧ m' = m) (fun _ _ => False) m := by
    apply wp_allocBlock
    · intro b m' hData hFree
      simp [marked_of_freeBlocks_eq_zero h hData] at hFree
    · exact fun _ => ⟨rfl, rfl⟩
  obtain ⟨b, m', hRun, rfl, rfl⟩ := exists_ok_of_wp hAlloc
  exact hRun

/-- On a full disk the first block already fails. -/
theorem writeFile_full (hFull : m.store.freeBlocks = 0) (hInum : IsInum r) (hSize : 0 < size) :
    writeFile (stack + 1) r buf size m = .error .badAlloc m := by
  obtain ⟨n, hn⟩ : ∃ n, min (blocksFor size.toNat) ndirect = n + 1 := by
    refine ⟨min (blocksFor size.toNat) ndirect - 1, ?_⟩
    rw [blocksFor_eq, ndirect_eq]
    omega
  have hDirect : ∀ ino, writeDirect buf size.toNat ino 0 m = .error .badAlloc m := by
    intro ino
    simp only [writeDirect, bind, EStateM.bind, allocBlock_full hFull, gt_iff_lt, Nat.lt_irrefl,
      if_false]
    rfl
  rw [writeFile, if_neg (by omega), hn, List.range_succ_eq_map]
  simp only [bind, EStateM.bind, query, getInode_some hInum, List.foldlM_cons, hDirect]

/-- Without a block to write nothing is thrown. -/
theorem writeFile_empty (stack : Nat) (buf : List Byte) (h : IsInum r → size ≤ 0) :
    ∃ m', writeFile (stack + 1) r buf size m = .ok () m' := by
  have hReturns : wp (writeFile (stack + 1) r buf size) (fun _ _ => True) (fun _ _ => False) m := by
    by_cases hNeg : size < 0
    · rw [writeFile, if_pos hNeg]
      trivial
    by_cases hInum : IsInum r
    · obtain rfl : size = 0 := by
        have := h hInum
        omega
      obtain ⟨m', hRun, -⟩ := putInode_eq (m := { m with clock := fun n => m.clock (n + 1) }) hInum
        { m.store.inode r with size := 0, mtime := m.clock 0 }
      rw [writeFile, if_neg hNeg, wp_bind, wp_getInode hInum]
      exact wp_of_ok hRun trivial
    · rw [writeFile, if_neg hNeg]
      simp only [wp_bind, wp_query, getInode_none hInum]
      trivial
  obtain ⟨_, m', hRun, -⟩ := exists_ok_of_wp hReturns
  exact ⟨m', hRun⟩

theorem freeBlocks_of_isFree (h : ∀ b, IsData b → isFree m' b = isFree m b) :
    m'.store.freeBlocks = m.store.freeBlocks := by
  refine congrArg Finset.card (Finset.filter_congr fun b hb => ?_)
  have hData : IsData b := Finset.mem_Ico.mp hb
  have hBit := h b hData
  rw [isFree_eq hData.2, isFree_eq hData.2, Except.ok.injEq, Bool.not_inj_iff] at hBit
  rw [hBit]

/-- A write that throws `bad_alloc` leaves no data block free. So it changes
nothing exactly when no data block was free before. -/
theorem failed_write_unchanged_iff (hRun : writeFile stack r buf size m = .error .badAlloc m') :
    m'.store.freeBlocks = 0 ∧ (SameUse m m' ↔ m.store.freeBlocks = 0) := by
  have hFull : m'.store.freeBlocks = 0 :=
    (wp_error (throwsWhenFull_writeFile stack r buf size m trivial) hRun).2 rfl
  refine ⟨hFull, fun hSame => ?_, fun hBefore => ?_⟩
  · rw [← freeBlocks_of_isFree hSame.1, hFull]
  · cases stack with
    | zero => cases hRun
    | succ stack =>
        by_cases hWrites : IsInum r ∧ 0 < size
        · obtain ⟨-, rfl⟩ := EStateM.Result.error.inj
            ((writeFile_full hBefore hWrites.1 hWrites.2).symm.trans hRun)
          exact ⟨fun _ _ => rfl, fun _ => Iff.rfl⟩
        · obtain ⟨m'', hOk⟩ := writeFile_empty (m := m) stack buf
            fun hInum => Int.not_lt.mp fun hPos => hWrites ⟨hInum, hPos⟩
          rw [hOk] at hRun
          cases hRun

/-- A write that throws `bad_alloc` keeps all that was in use and gives back
nothing it acquired. -/
theorem failed_write (hStack : maxDepth < stack) (hAlive : m.store.Alive r)
    (hLen : buf.length < 2 ^ 31) (hRun : writeFile stack r buf buf.length m = .error .badAlloc m') :
    Untouched m m' r ∧ getInode m' r = getInode m r ∧ m'.store.freeBlocks = 0 ∧
    (SameUse m m' ↔ m.store.freeBlocks = 0) := by
  obtain ⟨d, rfl⟩ : ∃ d, stack = d + 1 := ⟨stack - 1, by omega⟩
  have hDepth := levels_lt_maxDepth hLen
  have hWrite := wp_writeFile_step (wp_writeFile d) hAlive (Nat.le_refl buf.length) (by omega) hDepth
  have hFail := wp_error hWrite hRun
  obtain ⟨hFrame, hInode⟩ := Untouched.of_failed hAlive hFail
  exact ⟨hFrame, hInode, failed_write_unchanged_iff hRun⟩

end Full

namespace ExtentServer

section NearlyFull

variable {str : List Byte}

/-- 51200 bytes take 100 blocks and no other inode. -/
theorem needs_of_length (hStr : str.length = 51200) :
    blocksNeeded str.length = 100 ∧ inodesNeeded str.length = 0 := by
  rw [hStr]
  decide

/-- Every overwrite of one file takes 100 blocks more. -/
theorem exists_overwritten (hStr : str.length = 51200) (n : Nat) (hn : n ≤ 20956) : ∃ (s : Session) (id : Nat),
    Run (maxDepth + 1) (fun _ => 0) (fun _ call => call.KeepsSize) s ∧ id ∈ s.live ∧
    s.machine.store.freeBlocks + 100 * n = 2095612 ∧ s.machine.store.freeInodes = 1022 := by
  induction n with
  | zero =>
      obtain ⟨s, id, hRun, hLive, hBlocks, hInodes, -⟩ := exists_new_file
      exact ⟨s, id, hRun, hLive, hBlocks, hInodes⟩
  | succ n ih =>
      obtain ⟨s, id, hRun, hLive, hBlocks, hInodes⟩ := ih (by omega)
      obtain ⟨hNeedBlocks, hNeedInodes⟩ := needs_of_length hStr
      obtain ⟨s', hNext, -, hSame, -, -, hWrote⟩ := hRun.exists_put (Nat.lt_succ_self maxDepth) hLive
        (show str.length < 2 ^ 31 by omega) (by omega) (by omega)
      have hBlocks' := hWrote.blocks
      have hInodes' := hWrote.inodes
      exact ⟨s', id, hNext, hSame ▸ hLive, by omega, by omega⟩

/-- A write for which 7 blocks are missing. It throws in the call for a child inode, with
all blocks taken. -/
theorem write_frame_in_child : ∃ (m m' : Machine) (id : Nat), m.store.freeBlocks = 112 ∧
    writeFile (maxDepth + 1) id (List.replicate 60000 97) (60000 : Nat) m = .error .badAlloc m' ∧
    m'.store.freeBlocks = 0 ∧ m'.store.freeInodes < m.store.freeInodes ∧
    Untouched m m' id ∧ getInode m' id = getInode m id := by
  have hBuf : (List.replicate 60000 (97 : Byte)).length = 60000 := List.length_replicate
  obtain ⟨s, id, hRun, hLive, hBlocks, hInodes⟩ := exists_overwritten
    (show (List.replicate 51200 (1 : Byte)).length = 51200 from List.length_replicate) 20955 (by decide)
  have hAlive := (hRun.faithful (Nat.lt_succ_self maxDepth)).intact.alive id hLive
  have hNeeded : blocksNeeded 60000 = 119 ∧ inodesNeeded 60000 = 1 ∧ blocksAhead 60000 0 = 101 := by decide
  have hDepth : levels 60000 ≤ maxDepth := levels_lt_maxDepth (by decide)
  have hWrite := wp_writeFile_step (wp_writeFile maxDepth) hAlive hBuf.ge hDepth hDepth
  have hFrame := write_frame (Nat.lt_succ_self maxDepth) hAlive
    (show ((60000 : Nat) : Int).toNat ≤ (List.replicate 60000 (97 : Byte)).length from hBuf.ge) (by decide)
  cases hCall : writeFile (maxDepth + 1) id (List.replicate 60000 97) (60000 : Nat) s.machine with
  | ok _ m' =>
      obtain ⟨σ₁, new, inodes, hPlaced, -⟩ := wp_ok hWrite hCall
      have hTaken := hPlaced.progress.blocks
      rw [List.length_take_of_le hBuf.ge] at hTaken
      omega
  | error e m' =>
      obtain ⟨hOther, hSelf⟩ := wp_error hFrame hCall
      obtain ⟨p, q, hMore, ⟨rfl, hNone, -, hAhead⟩ | ⟨rfl, hNone, hLess, -⟩⟩ := wp_error hWrite hCall
      · have hTaken := hMore.blocks
        have hTaken' := hMore.inodes
        refine ⟨s.machine, m', id, by omega, hCall, hNone, ?_, hOther, hSelf⟩
        -- 112 blocks are more than come before the first child
        have hChild : q ≠ 0 := by
          rintro rfl
          have hFew := hAhead (by omega)
          rw [Nat.zero_add, Nat.zero_add] at hFew
          omega
        omega
      · have hTaken' := hMore.inodes
        omega

/-- With 12 blocks left the next overwrite fails. -/
theorem exists_failing_put (hStr : str.length = 51200) : ∃ (s : Session) (id : Nat) (m' : Machine),
    Run (maxDepth + 1) (fun _ => 0) (fun _ call => call.KeepsSize) s ∧ id ∈ s.live ∧
    s.machine.store.freeBlocks = 12 ∧ s.machine.store.freeInodes = 1022 ∧
    put (maxDepth + 1) id str s.machine = .error .badAlloc m' := by
  obtain ⟨s, id, hRun, hLive, hBlocks, hInodes⟩ := exists_overwritten hStr 20956 (Nat.le_refl _)
  have hIntact := (hRun.faithful (Nat.lt_succ_self maxDepth)).intact
  have hPut := wp_put hIntact (Nat.lt_succ_self maxDepth) hLive str
  obtain ⟨hNeedBlocks, hNeedInodes⟩ := needs_of_length hStr
  rw [toInt_of_lt (by omega), Int.toNat_natCast, List.take_length] at hPut
  cases hCall : put (maxDepth + 1) id str s.machine with
  | ok a m' =>
      have hWrote := wp_ok hPut hCall
      rw [if_neg (by omega)] at hWrote
      obtain ⟨σ₁, -, hProgress⟩ := hWrote.rewrites
      have := hProgress.blocks
      omega
  | error e m' =>
      have hFail := wp_error hPut hCall
      rcases hFail.cause with ⟨rfl, -⟩ | ⟨-, hShort⟩
      · exact ⟨s, id, m', hRun, hLive, by omega, hInodes, hCall⟩
      · omega

/-- `put` of a string that fits an `int`. -/
theorem put_eq {stack i : Nat} (hInum : IsInum i) (hLen : str.length < 2 ^ 31) :
    put stack i str = writeFile stack i str str.length := by
  rw [put, maskId_of_isInum hInum, toInt_of_lt hLen]

/-- On the nearly full disk. -/
theorem failed_write_nearly_full : ∃ (m m' : Machine) (id : Nat) (str : List Byte),
    writeFile (maxDepth + 1) id str str.length m = .error .badAlloc m' ∧
    Untouched m m' id ∧ m'.store.freeBlocks = 0 := by
  obtain ⟨s, id, m', hRun, hLive, -, -, hPut⟩ := exists_failing_put
    (show (List.replicate 51200 (1 : Byte)).length = 51200 from List.length_replicate)
  have hLen : (List.replicate 51200 (1 : Byte)).length < 2 ^ 31 := by
    rw [List.length_replicate]
    decide
  have hAlive := (hRun.faithful (Nat.lt_succ_self maxDepth)).intact.alive id hLive
  rw [put_eq (isInum_of_alive hAlive) hLen] at hPut
  have hFailed := failed_write (Nat.lt_succ_self maxDepth) hAlive hLen hPut
  exact ⟨s.machine, m', id, _, hPut, hFailed.1, hFailed.2.2.1⟩

/-- An overwrite of 51200 bytes fails with 12 blocks left and takes them all, so a
string of one byte no longer fits. -/
theorem failed_put_takes_blocks : ∃ (s : Session) (id : Nat) (m' : Machine),
    Run (maxDepth + 1) (fun _ => 0) (fun _ call => call.KeepsSize) s ∧ id ∈ s.live ∧
    put (maxDepth + 1) id (List.replicate 51200 1) s.machine = .error .badAlloc m' ∧
    ¬SameUse s.machine m' ∧
    (∃ m₁, put (maxDepth + 1) id [1] s.machine = .ok () m₁) ∧
    put (maxDepth + 1) id [1] m' = .error .badAlloc m' := by
  obtain ⟨s, id, m', hRun, hLive, hBlocks, hInodes, hPut⟩ := exists_failing_put
    (show (List.replicate 51200 (1 : Byte)).length = 51200 from List.length_replicate)
  have hIntact := (hRun.faithful (Nat.lt_succ_self maxDepth)).intact
  have hInum := isInum_of_alive (hIntact.alive id hLive)
  have hFull : m'.store.freeBlocks = 0 := by
    rw [put, maskId_of_isInum hInum] at hPut
    exact (failed_write_unchanged_iff hPut).1
  have hShort : [(1 : Byte)].length < 2 ^ 31 := by decide
  obtain ⟨m₁, hSmall, -⟩ := exists_put hIntact (Nat.lt_succ_self maxDepth) hLive hShort
    (by rw [hBlocks]; decide) (by rw [hInodes]; decide)
  refine ⟨s, id, m', hRun, hLive, hPut, fun hSame => ?_, ⟨m₁, hSmall⟩, ?_⟩
  · have := freeBlocks_of_isFree hSame.1
    omega
  · rw [put_eq hInum hShort]
    exact writeFile_full hFull hInum (by decide)

end NearlyFull

end ExtentServer
end InodeFS
