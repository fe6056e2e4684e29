import InodeFS.CleanRun
import InodeFS.Creation
import InodeFS.FailedWrite

/-! Consequences of a clean disk over whole runs: a free block carries no bytes of what it
held before, and no call passes a block number to the disk that is out of range. -/
namespace InodeFS

open Bytes Exec Store

namespace ChfsClient

variable {stack : Nat} {clock : Nat → UInt32} {h : History} {m : Machine}

/-- Free data blocks are zero in every state of a run, so a block that
`alloc_block` hands out carries no old bytes. -/
theorem no_remanence (hRun : Run stack clock (fun _ m call => call.Valid m) h m) :
    (∀ b, IsData b → isFree m b = .ok true → readBlock m b = .ok Block.zeros) ∧
    ∀ b m', allocBlock m = .ok b m' → b ≠ 0 → readBlock m' b = .ok Block.zeros := by
  have hClean := hRun.clean
  constructor
  · intro b hData hFree
    rw [isFree_eq hData.2] at hFree
    rw [readBlock_data (Or.inl hData), hClean.blank b hData (by simpa using hFree)]
  · intro b m' hAlloc hne
    have hPost : wp allocBlock (fun b m' => b ≠ 0 → readBlock m' b = .ok Block.zeros)
        (fun _ _ => False) m := by
      apply wp_allocBlock
      · intro b m' hData hFree _ hStore _
        rw [readBlock_data (Or.inl hData), hStore, mark_data, hClean.blank b hData hFree]
      · exact fun _ hZero => absurd rfl hZero
    exact wp_ok hPost hAlloc hne

/-- A call that creates, lists or removes names is one of those that keep the disk clean. -/
theorem Run.valid_links (hRun : Run stack clock
      (fun h m call => Links stack h m call ∧ SparesChildren stack m call) h m) : Run stack clock (fun _ m call => call.Valid m) h m :=
  hRun.mono fun h m call hCall => by
    obtain ⟨hLinks, -⟩ := hCall
    cases call with
    | node type parent name inoOut =>
        have hName := hLinks.2
        change 4 + name.bytes.length ≤ blockSize
        rw [blockSize_eq]
        omega
    | write => exact hLinks.elim
    | _ => trivial

/-- The block of an entry is not zero. -/
theorem HoldsEntry.ne_zeros {σ : Store} {b : Nat} {e : Entry} (h : σ.HoldsEntry b e) (he : e.1 ≠ 0) :
    σ.data b ≠ Block.zeros := by
  intro hZero
  have hEntry := h.2.2
  rw [hZero] at hEntry
  exact he (hEntry ▸ rfl)

/-- A root that has a child lost its first file. The block of an entry was freed, and the
files that stayed are empty. -/
theorem exists_removed_file (stack : Nat) : ∃ (h : History) (m₀ m : Machine) (name : CString)
    (l : List Entry) (b : Nat),
    Run (stack + 2) (fun _ => 0) (fun _ m call => call.Valid m) h m₀ ∧
    Run (stack + 2) (fun _ => 0) (fun _ m call => call.Valid m) (h ++ [(.unlink 1 name, .unlink .OK)]) m ∧
    IsData b ∧ isFree m₀ b = .ok false ∧ readBlock m₀ b ≠ .ok Block.zeros ∧ isFree m b = .ok true ∧
    readdir m (stack + 2) 1 = .ok l ∧ l.length = 149 ∧
    (∀ e ∈ l, m.store.Alive e.1 ∧ (m.store.inode e.1).isDir = false ∧ m.store.size e.1 = 0) ∧
    2095000 ≤ m.store.freeBlocks ∧ 700 ≤ m.store.freeInodes := by
  obtain ⟨h, m₀, N, C, hRoot⟩ := exists_root_files stack (n := 150) (by omega)
  have hBlocks₀ := hRoot.blocks
  have hInodes₀ := hRoot.inodes
  obtain ⟨e, m, hRemoved⟩ := hRoot.exists_removed (by omega) (by omega)
  have hFrees := hRemoved.frees
  have hBlocks := freeBlocks_mono hFrees.bit
  have hInodes := freeInodes_mono hFrees.alive
  have hS := hRemoved.onlyEntries.inUse
  obtain ⟨b, d, hd, hHolds, hFreed⟩ := hRemoved.freed
  have hInum := isInum_iff.mp (isInum_of_alive (hRoot.onlyEntries.inUse.alive d hd))
  obtain ⟨hData, hUsed, hEntry⟩ := hHolds
  refine ⟨h, m₀, m, e.2, _, b, hRoot.run.spares.valid_links, hRemoved.run.valid_links, hData, ?_, ?_, ?_,
    hRemoved.listed, hRemoved.length, fun f hf => ?_, by omega, by omega⟩
  · rw [isFree_eq hData.2, hUsed]
    rfl
  · rw [readBlock_data (Or.inl hData)]
    exact fun hZero => HoldsEntry.ne_zeros ⟨hData, hUsed, hEntry⟩ (by omega) (Except.ok.inj hZero)
  · rw [isFree_eq hData.2, hFreed]
    rfl
  · have hListed := Entries.has_of_listing hf
    have hAlive := hS.alive f hListed
    have hFile : (m.store.inode f.1).isDir = false := by
      rw [Inode.isDir, hFrees.type f.1 hAlive]
      exact (hRoot.entry f (hRemoved.rest f hListed).1).1
    refine ⟨hAlive, hFile, (hRemoved.onlyEntries.blank f.1 (fun hDir => ?_) fun hKid => ?_).1⟩
    · have hIsDir := (hS.row f.1 hDir).lists.dir
      rw [hFile] at hIsDir
      cases hIsDir
    · obtain ⟨l, hChild⟩ := hS.childEntries.mem hKid
      have hIsDir := hChild.lists.dir
      rw [hFile] at hIsDir
      cases hIsDir

/-- The block of the removed entry is zero, and so is the block that is handed out next. -/
theorem no_remanence_after_unlink : ∃ (h : History) (m₀ m m' : Machine) (name : CString) (b b' : Nat),
    Run 2 (fun _ => 0) (fun _ m call => call.Valid m) h m₀ ∧
    Run 2 (fun _ => 0) (fun _ m call => call.Valid m) (h ++ [(.unlink 1 name, .unlink .OK)]) m ∧
    isFree m₀ b = .ok false ∧ readBlock m₀ b ≠ .ok Block.zeros ∧
    isFree m b = .ok true ∧ readBlock m b = .ok Block.zeros ∧
    allocBlock m = .ok b' m' ∧ readBlock m' b' = .ok Block.zeros := by
  obtain ⟨h, m₀, m, name, l, b, hRun₀, hRun, hData, hUsed, hBytes, hFree, -, -, -, hBlocks, -⟩ :=
    exists_removed_file 0
  have hAlloc : wp allocBlock (fun b _ => b ≠ 0) (fun _ _ => False) m := by
    apply wp_allocBlock
    · intro b m' hData _ _ _ hZero
      have := isData_iff.mp hData
      omega
    · intro hFull
      have := freeBlocks_eq_zero hFull
      omega
  obtain ⟨b', m', hCall, hne⟩ := exists_ok_of_wp hAlloc
  obtain ⟨hBlank, hNext⟩ := no_remanence hRun
  exact ⟨h, m₀, m, m', name, b, b', hRun₀, hRun, hUsed, hBytes, hFree, hBlank b hData hFree, hCall,
    hNext b' m' hCall hne⟩

/-- All slots of all inodes name data blocks or nothing, and the bitmap was
updated within its blocks. -/
def InRange (m : Machine) : Prop :=
  (∀ i ino, getInode m i = .ok (some ino) → ∀ k ≤ ndirect,
    ino.slot k = 0 ∨ dataStart ≤ ino.slot k ∧ ino.slot k < blockNum) ∧
  ∀ b ∈ m.bitmapWrites, 2 ≤ b ∧ b ≤ 513

theorem InRange.of_clean (hm : m.Clean ∅ ∅) : InRange m := by
  refine ⟨fun i ino hFound k _ => ?_, hm.bitmap⟩
  by_cases hi : IsInum i
  · rw [getInode_some hi] at hFound
    obtain rfl := Option.some.inj (Except.ok.inj hFound)
    exact (hm.tidy i).slot k
  · rw [getInode_none hi] at hFound
    cases hFound

/-- No call of a run passes a block number to the disk which is out of range,
up to the point where a call stops. -/
theorem addressing (hRun : Run stack clock (fun _ m call => call.Valid m) h m) :
    InRange m ∧ ∀ call : Call, call.Valid m → wp (perform stack call) (fun _ m' => InRange m')
      (fun e m' => InRange m' ∧ e ≠ .outOfDisk) m := by
  have hClean := hRun.clean
  refine ⟨InRange.of_clean hClean, fun call hValid => ?_⟩
  exact wp_mono (wp_perform_clean hClean hValid stack) (fun _ _ hPost => InRange.of_clean hPost)
    fun _ _ he => ⟨InRange.of_clean he.1, he.2⟩

/-- A root that has a child lost its first file, and 60000 letters were written to a file
that stayed. -/
theorem addressing_after_write : ∃ (h : History) (m m' : Machine) (name : CString) (l : List Entry) (f : Nat),
    Run (maxDepth + 1) (fun _ => 0) (fun _ m call => call.Valid m) (h ++ [(.unlink 1 name, .unlink .OK)]) m ∧
    readdir m (maxDepth + 1) 1 = .ok l ∧ l.length = 149 ∧ f ∈ l.map Prod.fst ∧
    write (maxDepth + 1) f 0 (List.replicate 60000 97) m = .ok (.OK, 60000) m' ∧ InRange m' ∧
    ∀ off data m'', (Call.write f off data).Valid m' →
      perform (maxDepth + 1) (.write f off data) m' ≠ .error .outOfDisk m'' := by
  have hStack := Nat.lt_succ_self maxDepth
  obtain ⟨h, -, m, name, l, -, -, hRun, -, -, -, -, hRead, hLength, hFiles, hBlocks, hInodes⟩ :=
    exists_removed_file (maxDepth - 1)
  rw [show maxDepth - 1 + 2 = maxDepth + 1 from rfl] at hRun hRead
  obtain ⟨e, rest, rfl⟩ := List.exists_cons_of_length_pos (show 0 < l.length by omega)
  obtain ⟨hAlive, hFile, hEmpty⟩ := hFiles e List.mem_cons_self
  have hLetters : (List.replicate 60000 (97 : Byte)).length = 60000 := List.length_replicate
  generalize List.replicate 60000 (97 : Byte) = data at hLetters ⊢
  have hInum := isInum_of_alive hAlive
  have hGet : ExtentServer.get m (maxDepth + 1) e.1 = .ok [] := by
    rw [ExtentServer.get, ExtentServer.maskId_of_isInum hInum]
    exact readFile_empty hInum hEmpty
  have hNeeds : blocksNeeded 60000 = 119 ∧ inodesNeeded 60000 = 1 := by decide
  have hMax : max ([] : List Byte).length (0 + data.length) = 60000 := by
    rw [List.length_nil, Nat.zero_add, Nat.zero_max, hLetters]
  obtain ⟨m', hWrite⟩ := exists_write_of_room hAlive hStack hGet (getFileSize_empty hInum hEmpty)
    (by rw [hMax]; decide) (by rw [hMax]; exact ⟨by omega, by omega⟩)
  have hCall : (Call.write e.1 0 data).Valid m := ⟨_, getInode_some hInum, hAlive, hFile⟩
  have hNext := hRun.step hCall (perform_write_ok hWrite)
  obtain ⟨hRange, hCalls⟩ := addressing hNext
  rw [hLetters] at hWrite
  exact ⟨h, m, m', name, _, e.1, hRun, hRead, hLength, List.mem_cons_self, hWrite, hRange,
    fun off data m'' hValid hFault => (wp_error (hCalls (.write e.1 off data) hValid) hFault).2 rfl⟩

end ChfsClient
end InodeFS
