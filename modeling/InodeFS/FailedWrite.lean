import InodeFS.ReadWrite

/-! What a `write` leaves of a file that it cannot replace. The file is emptied before the
new string is built, so a call that stops later has lost what was there. Here the machine is
any machine, and the file any inode that can be read. -/
namespace InodeFS

open Bytes Exec Store

/-- The blocks and child inodes for `n` bytes are free. -/
def Store.Room (σ : Store) (n : Nat) : Prop :=
  blocksNeeded n ≤ σ.freeBlocks ∧ inodesNeeded n ≤ σ.freeInodes

/-- For `n` bytes the inode table fills up while there are blocks: `alloc_inode` returns 0,
and the process dies. -/
def Store.InodesEndFirst (σ : Store) (n : Nat) : Prop :=
  σ.freeInodes < inodesNeeded n ∧ blocksAhead n σ.freeInodes ≤ σ.freeBlocks

namespace ChfsClient

section Programs

variable {m m' : Machine} {f stack off size n : Nat} {c data : List Byte} {σ σ₁ : Store} {e : Stop}

/-- A `write` that does not store the new content leaves the file as it was, and
says so: it does not report the data as written, or it throws. -/
def Spares (stack f off : Nat) (data c : List Byte) (m : Machine) : Prop :=
  (∀ r m', write stack f off data m = .ok r m' → 2 ^ 31 ≤ max c.length (off + data.length) →
    r ≠ (.OK, data.length) ∧ ExtentServer.get m' stack f = .ok c) ∧
  ∀ e m', write stack f off data m = .error e m' → e.Thrown ∧ ExtentServer.get m' stack f = .ok c

/-- An empty file may fail to grow, but the process must not die of it. -/
def SparesEmpty (σ : Store) (off : Nat) (data : List Byte) : Prop :=
  off + data.length < 2 ^ 31 ∧ ¬σ.InodesEndFirst (off + data.length) ∨ maxStringSize < off + data.length

/-- Which of the two ran out first decides how the call ends. -/
theorem thrown_iff_of_failed {σ' : Store} (h : Failed σ σ' n 0 0 e) :
    ¬σ.Room n ∧ (e.Thrown ↔ ¬σ.InodesEndFirst n) := by
  rcases h.cause with ⟨rfl, hLess, hFirst⟩ | ⟨rfl, hLess, hAhead⟩
  · refine ⟨fun hRoom => absurd hRoom.1 (Nat.not_le.mpr hLess), iff_of_true (Or.inl rfl) fun hEnd => ?_⟩
    exact absurd hEnd.2 (Nat.not_le.mpr (hFirst hEnd.1))
  · refine ⟨fun hRoom => absurd hRoom.2 (Nat.not_le.mpr hLess), iff_of_false ?_ fun hNot => hNot ⟨hLess, hAhead⟩⟩
    rintro (hThrown | hThrown) <;> cases hThrown

/-- A file without blocks holds nothing, however many blocks others have got. -/
theorem get_of_grows (hAlive : σ.Alive f) (hStack : maxDepth < stack) (hZero : σ.size f = 0)
    (hGrows : Grows σ m.store) : ExtentServer.get m stack f = .ok [] := by
  have hInum := isInum_of_alive (hGrows.carries.alive f hAlive)
  obtain ⟨d, rfl⟩ : ∃ d, stack = d + 1 := ⟨stack - 1, by omega⟩
  rw [ExtentServer.get, ExtentServer.maskId_of_isInum hInum]
  refine readFile_empty hInum ?_
  rw [Store.size, hGrows.carries.inode f hAlive (Set.notMem_empty f)]
  exact hZero

section Stops

variable (hAlive : m.store.Alive f) (hStack : maxDepth < stack)
  (hGet : ExtentServer.get m stack f = .ok c) (hSize : getFileSize m stack f = .ok size)

include hAlive hStack hGet hSize

/-- The file is empty when a `write` stops. -/
theorem get_of_stopped (hTrue : size = 0 → m.store.size f = 0)
    (hStop : write stack f off data m = .error e m') : ExtentServer.get m' stack f = .ok [] := by
  obtain ⟨σ₁, hEmptied, hWhy⟩ := wp_error (wp_write hAlive hStack hGet hSize off data) hStop
  refine get_of_grows ((hEmptied.alive f).mpr hAlive) hStack (hEmptied.size_eq hTrue) ?_
  rcases hWhy with ⟨hSame, -⟩ | ⟨-, hFail⟩
  · rw [hSame]
    exact Grows.refl σ₁
  · obtain ⟨_, _, hProgress⟩ := hFail.progress
    exact hProgress.grows

/-- A `write` stops when there is no new string, or no room for what `put` makes of it. -/
theorem stopped_cases (hStop : write stack f off data m = .error e m') :
    2 ^ 32 ≤ off + data.length ∧
        (e.Thrown ↔ c.length < off + data.length ∧ maxStringSize < off + data.length) ∨
      off + data.length < 2 ^ 32 ∧ 0 < (toInt (max c.length (off + data.length))).toNat ∧
        ¬m.store.Room (toInt (max c.length (off + data.length))).toNat ∧
        (e.Thrown ↔ ¬m.store.InodesEndFirst (toInt (max c.length (off + data.length))).toNat) := by
  obtain ⟨σ₁, hEmptied, ⟨-, hOver⟩ | ⟨hLoop, hFail⟩⟩ :=
    wp_error (wp_write hAlive hStack hGet hSize off data) hStop
  · have hFar : 2 ^ 32 ≤ off + data.length := by
      by_contra hNear
      rw [overwrite_eq c (by omega)] at hOver
      cases hOver
    obtain ⟨e', hError, hIff⟩ := overwrite_far c hFar
    obtain rfl := Except.error.inj (hError.symm.trans hOver)
    exact Or.inl ⟨hFar, hIff⟩
  · rw [written_length] at hFail
    have hPos : 0 < (toInt (max c.length (off + data.length))).toNat := by
      refine Nat.pos_of_ne_zero fun hNone => ?_
      rw [hNone] at hFail
      exact not_failed_zero hFail
    have hMissing := thrown_iff_of_failed hFail
    rw [Store.Room, InodesEndFirst, freeBlocks_congr hEmptied.bit, freeInodes_congr hEmptied.alive] at hMissing
    exact Or.inr ⟨hLoop, hPos, hMissing⟩

/-- A `write` that returns has stored the new content, or its length is not that of the string. -/
theorem returned_cases {r : Status × Nat} (hRun : write stack f off data m = .ok r m') :
    r = (.OK, data.length) ∧ off + data.length < 2 ^ 32 ∧
      (max c.length (off + data.length) < 2 ^ 31 → m.store.Room (max c.length (off + data.length))) := by
  obtain ⟨hStatus, hLoop, σ₁, hEmptied, hPut⟩ := wp_ok (wp_write hAlive hStack hGet hSize off data) hRun
  refine ⟨hStatus, hLoop, fun hInt => ?_⟩
  rw [written_length, ExtentServer.toInt_of_lt hInt, if_neg (by omega), Int.toNat_natCast,
    List.take_of_length_le (written_length c off data).le] at hPut
  obtain ⟨σ₂, new, inodes, -, hPlaced⟩ := hPut
  have hBlocks := hPlaced.progress.blocks
  have hInodes := hPlaced.progress.inodes
  rw [written_length, freeBlocks_congr hEmptied.bit] at hBlocks
  rw [written_length, freeInodes_congr hEmptied.alive] at hInodes
  exact ⟨by omega, by omega⟩

/-- With room for the new content it is stored. -/
theorem exists_write_of_room (hInt : max c.length (off + data.length) < 2 ^ 31)
    (hRoom : m.store.Room (max c.length (off + data.length))) :
    ∃ m', write stack f off data m = .ok (.OK, data.length) m' := by
  cases hResult : write stack f off data m with
  | ok r m' =>
      obtain ⟨rfl, -⟩ := returned_cases hAlive hStack hGet hSize hResult
      exact ⟨m', rfl⟩
  | error e m' =>
      rcases stopped_cases hAlive hStack hGet hSize hResult with ⟨hFar, -⟩ | ⟨-, -, hNone, -⟩
      · omega
      · rw [ExtentServer.toInt_of_lt hInt, Int.toNat_natCast] at hNone
        exact absurd hRoom hNone

/-- With room for the new content nothing is lost. -/
theorem spares_of_room (hInt : max c.length (off + data.length) < 2 ^ 31)
    (hRoom : m.store.Room (max c.length (off + data.length))) : Spares stack f off data c m := by
  obtain ⟨m₁, hOk⟩ := exists_write_of_room hAlive hStack hGet hSize hInt hRoom
  refine ⟨fun r m' _ hLong => absurd hInt (Nat.not_lt.mpr hLong), fun e m' hStop => ?_⟩
  rw [hOk] at hStop
  cases hStop

theorem spares_cases (hTrue : size = 0 → m.store.size f = 0) :
    Spares stack f off data c m ↔ max c.length (off + data.length) < 2 ^ 31 ∧
      m.store.Room (max c.length (off + data.length)) ∨ c = [] ∧ SparesEmpty m.store off data := by
  constructor
  · rintro ⟨hOk, hError⟩
    cases hResult : write stack f off data m with
    | ok r m' =>
        obtain ⟨hStatus, hLoop, hRoom⟩ := returned_cases hAlive hStack hGet hSize hResult
        by_cases hInt : max c.length (off + data.length) < 2 ^ 31
        · exact Or.inl ⟨hInt, hRoom hInt⟩
        · exact absurd hStatus (hOk r m' hResult (Nat.not_lt.mp hInt)).1
    | error e m' =>
        obtain ⟨hThrown, hSame⟩ := hError e m' hResult
        have hEmpty := get_of_stopped hAlive hStack hGet hSize hTrue hResult
        obtain rfl : c = [] := Except.ok.inj (hSame.symm.trans hEmpty)
        have hMax : max ([] : List Byte).length (off + data.length) = off + data.length := by
          rw [List.length_nil, Nat.zero_max]
        refine Or.inr ⟨rfl, ?_⟩
        rcases stopped_cases hAlive hStack hGet hSize hResult with ⟨-, hIff⟩ | ⟨hLoop, hPos, -, hIff⟩
        · exact Or.inr (hIff.mp hThrown).2
        · have hInt : off + data.length < 2 ^ 31 := by
            rw [hMax, toInt] at hPos
            omega
          rw [hMax, ExtentServer.toInt_of_lt hInt, Int.toNat_natCast] at hIff
          exact Or.inl ⟨hInt, hIff.mp hThrown⟩
  · rintro (⟨hInt, hRoom⟩ | ⟨rfl, hEmpty⟩)
    · exact spares_of_room hAlive hStack hGet hSize hInt hRoom
    · have hMax : max ([] : List Byte).length (off + data.length) = off + data.length := by
        rw [List.length_nil, Nat.zero_max]
      have hMost : 2 ^ 32 ≤ maxStringSize := by decide
      refine ⟨fun r m' hRun hLong => ?_, fun e m' hStop =>
        ⟨?_, get_of_stopped hAlive hStack hGet hSize hTrue hStop⟩⟩
      · rw [hMax] at hLong
        have hLoop := (returned_cases hAlive hStack hGet hSize hRun).2.1
        rcases hEmpty with ⟨hInt, -⟩ | hFar <;> omega
      · rcases stopped_cases hAlive hStack hGet hSize hStop with ⟨hFar, hIff⟩ | ⟨hLoop, -, -, hIff⟩
        · rw [List.length_nil] at hIff
          refine hIff.mpr ⟨by omega, ?_⟩
          rcases hEmpty with ⟨hInt, -⟩ | hFar
          · omega
          · exact hFar
        · rcases hEmpty with ⟨hInt, hNot⟩ | hFar
          · rw [hMax, ExtentServer.toInt_of_lt hInt, Int.toNat_natCast] at hIff
            exact hIff.mpr hNot
          · omega

end Stops

/-- `set_attr` asks for the size before it changes anything. -/
theorem write_of_size_error (hAlive : m.store.Alive f) (hGet : ExtentServer.get m stack f = .ok c)
    (hSize : getFileSize m stack f = .error e) : write stack f off data m = .error e m := by
  have hRange := isInum_iff.mp (isInum_of_alive hAlive)
  have hReset : ExtentServer.setAttr stack f 0 m = .error e m := by
    cases stack with
    | zero =>
        injection hSize with he
        rw [← he]
        rfl
    | succ d =>
        simp only [ExtentServer.setAttr, Nat.mod_eq_of_lt (show f < 2 ^ 32 by omega), InodeFS.setAttr, bind,
          EStateM.bind, query, hSize]
  simp only [write, setattr, bind, EStateM.bind, query, hGet, hReset]

/-- On any machine: a `write` spares what it cannot replace when the new content has a
length that fits an `int` and there is room for it. Unless the computed size of the file has
wrapped to 0, in all other cases it spares only a file that is empty anyway. -/
theorem write_spares_iff (hStack : maxDepth < stack) (hAlive : m.store.Alive f)
    (hGet : ExtentServer.get m stack f = .ok c) (off : Nat) (data : List Byte) :
    ((∃ size, getFileSize m stack f = .ok size) → max c.length (off + data.length) < 2 ^ 31 →
        m.store.Room (max c.length (off + data.length)) → Spares stack f off data c m) ∧
      ((getFileSize m stack f = .ok 0 → m.store.size f = 0) →
        (Spares stack f off data c m ↔ (∃ size, getFileSize m stack f = .ok size) ∧
          (max c.length (off + data.length) < 2 ^ 31 ∧
              m.store.Room (max c.length (off + data.length)) ∨
            c = [] ∧ SparesEmpty m.store off data))) := by
  refine ⟨fun ⟨size, hSize⟩ hInt hRoom => spares_of_room hAlive hStack hGet hSize hInt hRoom,
    fun hTrue => ?_⟩
  cases hSize : getFileSize m stack f with
  | ok size =>
      rw [spares_cases hAlive hStack hGet hSize fun hZero => hTrue (hZero ▸ hSize)]
      exact (and_iff_right ⟨size, rfl⟩).symm
  | error e =>
      -- the call stops before it has changed anything, and not with an exception
      have hStop : write stack f off data m = .error e m := write_of_size_error hAlive hGet hSize
      have hNot := unthrown_getFileSize m stack f
      rw [hSize] at hNot
      exact iff_of_false (fun hSpares => hNot (hSpares.2 e m hStop).1) fun hAll => by
        obtain ⟨⟨size, hOk⟩, -⟩ := hAll
        cases hOk

end Programs

section Witness

/-- A file that shows a letter, and a write behind the range of an `int`. -/
theorem write_far_loses_file : ∃ (h : History) (m m' : Machine) (f : Nat),
    Run (maxDepth + 1) (fun _ => 0) (fun h _ call => call.OnFiles h) h m ∧ f ∈ files h ∧
      Reads m (maxDepth + 1) f [97] ∧
      write (maxDepth + 1) f (2 ^ 31) [98] m = .ok (.OK, 1) m' ∧
      read m' (maxDepth + 1) f 1 0 = .ok [] := by
  have hStack := Nat.lt_succ_self maxDepth
  obtain ⟨m, f, hRun, hReads, -⟩ := exists_letters_run (n := 1) (by decide) (by decide) (by decide)
  have hf := mem_files_newFileLog f [(.write f 0 (List.replicate 1 97), .write .OK 1)]
  obtain ⟨N, C, A, hS⟩ := hRun.afterRun hStack
  obtain ⟨r, m', hWrite, rfl, σ₁, hReset, ⟨hInt, -⟩ | ⟨-, hSame⟩⟩ := exists_ok_of_wp
    (wp_mono (hS.kept.wp_write hf hStack (2 ^ 31) [98]) (fun _ _ hPost => hPost) fun e m' hStop => by
      rw [List.length_singleton] at hStop
      obtain ⟨σ₁, -, ⟨-, -, hLoop⟩ | ⟨hInt, -⟩⟩ := hStop
      · omega
      · omega)
  · rw [List.length_singleton] at hInt
    omega
  · refine ⟨_, m, m', f, hRun, hf, hReads, hWrite, ?_⟩
    have hKept : Kept m'.store N C _ A := hSame ▸ hReset.kept
    rw [hKept.read_eq hf hStack, hSame, hReset.content]
    rfl

/-- A file with a child inode. It can be overwritten, but not behind the range of the loop
counter. -/
theorem write_spares_letters : ∃ (h : History) (m : Machine) (f : Nat),
    Run (maxDepth + 1) (fun _ => 0) (fun h _ call => call.OnFiles h) h m ∧ f ∈ files h ∧
      Reads m (maxDepth + 1) f (List.replicate 60000 97) ∧
      Spares (maxDepth + 1) f 55000 (List.replicate 10000 98) (List.replicate 60000 97) m ∧
      ¬Spares (maxDepth + 1) f (2 ^ 32) [98] (List.replicate 60000 97) m := by
  have hStack := Nat.lt_succ_self maxDepth
  obtain ⟨m, f, hRun, hReads, hFree, hFree'⟩ := exists_letters_run (n := 60000) (by decide)
    (by decide) (by decide)
  have hf := mem_files_newFileLog f [(.write f 0 (List.replicate 60000 97), .write .OK 60000)]
  have hLength : (List.replicate 60000 (97 : Byte)).length = 60000 := List.length_replicate
  have hLength' : (List.replicate 10000 (98 : Byte)).length = 10000 := List.length_replicate
  obtain ⟨N, C, A, hS⟩ := hRun.afterRun hStack
  have hAlive := hS.kept.sound.alive f (hS.kept.files hf)
  have hSize := hS.kept.getFileSize_eq hf hStack
  have hGet := hS.kept.get_eq hf hStack
  rw [(hS.kept.reads_iff hf hStack _).mp hReads] at hGet
  have hTrue : getFileSize m (maxDepth + 1) f = .ok 0 → m.store.size f = 0 := fun hZero =>
    hS.kept.size_eq_zero hf (Except.ok.inj (hSize.symm.trans hZero))
  have hNeeds : blocksNeeded 60000 = 119 ∧ inodesNeeded 60000 = 1 ∧ blocksNeeded 65000 = 128 ∧
      inodesNeeded 65000 = 1 := by decide
  have hMax : max (List.replicate 60000 (97 : Byte)).length
      (55000 + (List.replicate 10000 (98 : Byte)).length) = 65000 := by
    rw [hLength, hLength']
    omega
  refine ⟨_, m, f, hRun, hf, hReads, ?_, fun hSpares => ?_⟩
  · refine (write_spares_iff hStack hAlive hGet 55000 (List.replicate 10000 98)).1 ⟨_, hSize⟩ ?_ ?_
    · rw [hMax]
      decide
    · rw [hMax]
      exact ⟨by omega, by omega⟩
  · obtain ⟨-, ⟨hInt, -⟩ | ⟨hNil, -⟩⟩ :=
      ((write_spares_iff hStack hAlive hGet (2 ^ 32) [98]).2 hTrue).mp hSpares
    · rw [hLength, List.length_singleton] at hInt
      omega
    · exact absurd hNil (List.ne_nil_of_length_pos (by rw [hLength]; decide))

end Witness

end ChfsClient
end InodeFS
