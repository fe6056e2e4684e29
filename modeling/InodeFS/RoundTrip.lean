import InodeFS.Isolation

/-! The round trip of `put` and `get`. What `get` returns is the string without
the zero bytes that end a piece. -/
namespace InodeFS

open Bytes Exec Ownership Store

namespace ExtentServer

variable {stack : Nat} {live : Set Nat} {m : Machine} {i : Nat}

theorem length_lt_of_blocksNeeded {σ : Store} {n : Nat} (h : blocksNeeded n ≤ σ.freeBlocks) :
    n < 2 ^ 31 := by
  have hFree : σ.freeBlocks ≤ 2095612 := by
    refine (Finset.card_filter_le _ _).trans ?_
    rw [Nat.card_Ico, sb_nblocks, dataStart_eq]
  rw [blocksNeeded, blocksFor_eq] at h
  omega

/-- With room enough `put` succeeds, and `get` returns the string read back. -/
theorem put_get (h : m.store.Intact live) (hStack : maxDepth < stack) (hi : i ∈ live)
    {str : List Byte} (hBlocks : blocksNeeded str.length ≤ m.store.freeBlocks)
    (hInodes : inodesNeeded str.length ≤ m.store.freeInodes) :
    ∃ m', put stack i str m = .ok () m' ∧
      ExtentServer.get m' stack i = .ok (readBack maxDepth str) := by
  have hLen := length_lt_of_blocksNeeded hBlocks
  obtain ⟨m', hRun, hWrote⟩ := exists_put h hStack hi hLen hBlocks hInodes
  obtain ⟨σ₁, hRewrites, -⟩ := hWrote.rewrites
  refine ⟨m', hRun, ?_⟩
  rw [get_eq (h.rewrites hi hRewrites) hStack hi,
    (hWrote.holds maxDepth (levels_lt_maxDepth hLen)).content]

theorem put_get_iff_storable (h : m.store.Intact live) (hStack : maxDepth < stack) (hi : i ∈ live)
    {str : List Byte} (hBlocks : blocksNeeded str.length ≤ m.store.freeBlocks)
    (hInodes : inodesNeeded str.length ≤ m.store.freeInodes) :
    (∃ m', put stack i str m = .ok () m' ∧ ExtentServer.get m' stack i = .ok str) ↔
      Storable str := by
  have hDepth := levels_lt_maxDepth (length_lt_of_blocksNeeded hBlocks)
  obtain ⟨m', hRun, hGet⟩ := put_get h hStack hi hBlocks hInodes
  rw [← readBack_eq_self_iff hDepth]
  constructor
  · rintro ⟨m'', hRun', hGet'⟩
    have hSame : m' = m'' := (EStateM.Result.ok.inj (hRun.symm.trans hRun')).2
    rw [← hSame, hGet] at hGet'
    exact Except.ok.inj hGet'
  · intro hBack
    exact ⟨m', hRun, by rw [hGet, hBack]⟩

/-- A string that does not end in a zero byte survives the round trip exactly
when it has no zero byte before a piece boundary. -/
theorem put_get_iff {clock : Nat → UInt32} {s : Session} (hStack : maxDepth < stack)
    (hRun : Run stack clock (fun _ call => call.KeepsSize) s) {id : Nat} (hLive : id ∈ s.live)
    {str : List Byte} (hEnd : ∀ h : str ≠ [], str.getLast h ≠ 0)
    (hBlocks : blocksNeeded str.length ≤ s.machine.store.freeBlocks)
    (hInodes : inodesNeeded str.length ≤ s.machine.store.freeInodes) :
    (∃ m', put stack id str s.machine = .ok () m' ∧ ExtentServer.get m' stack id = .ok str) ↔
      SolidBoundaries str := by
  rw [put_get_iff_storable (hRun.faithful hStack).intact hStack hLive hBlocks hInodes, Storable]
  exact and_iff_right hEnd

/-- 170000 letters replace the 60000 letters of a file. -/
theorem put_get_letters : ∃ (s : Session) (id : Nat),
    Run (maxDepth + 1) (fun _ => 0) (fun _ call => call.KeepsSize) s ∧ id ∈ s.live ∧
    ExtentServer.get s.machine (maxDepth + 1) id = .ok (List.replicate 60000 97) ∧
    ∃ m', put (maxDepth + 1) id (List.replicate 170000 98) s.machine = .ok () m' ∧
      ExtentServer.get m' (maxDepth + 1) id = .ok (List.replicate 170000 98) := by
  have hStack := Nat.lt_succ_self maxDepth
  have hNeeds : blocksNeeded 60000 = 119 ∧ inodesNeeded 60000 = 1 ∧ blocksNeeded 170000 = 334 ∧
      inodesNeeded 170000 = 3 := by decide
  obtain ⟨s, id, other, hRun, hLive, -, -, hGet, hFree, hFree'⟩ := exists_letters
    (show 60000 < 2 ^ 31 by decide) (by omega) (by omega)
  have hLength : (List.replicate 170000 (98 : Byte)).length = 170000 := List.length_replicate
  have hStorable := storable_of_nul_free (nul_free_replicate 170000 (b := 98) (by decide))
  generalize List.replicate 170000 (98 : Byte) = str at hLength hStorable ⊢
  exact ⟨s, id, hRun, hLive, hGet, (put_get_iff hStack hRun hLive hStorable.1 (by rw [hLength]; omega)
    (by rw [hLength]; omega)).mpr hStorable.2⟩

/-- The byte before the boundary between the first two children is zero. -/
def boundaryString : List Byte := List.replicate 102399 1 ++ [0, 1]

theorem boundaryString_length : boundaryString.length = 102401 := by
  rw [boundaryString, List.length_append, List.length_replicate]
  rfl

/-- The string ends in a one and fits easily, and yet `get` returns another
string after a successful `put`. -/
theorem put_get_loses_byte : ∃ (s : Session) (id : Nat) (m' : Machine),
    Run (maxDepth + 1) (fun _ => 0) (fun _ call => call.KeepsSize) s ∧ id ∈ s.live ∧
    boundaryString.getLast? = some 1 ∧
    blocksNeeded boundaryString.length ≤ s.machine.store.freeBlocks ∧
    inodesNeeded boundaryString.length ≤ s.machine.store.freeInodes ∧
    put (maxDepth + 1) id boundaryString s.machine = .ok () m' ∧
    ExtentServer.get m' (maxDepth + 1) id ≠ .ok boundaryString := by
  obtain ⟨s, id, hRun, hLive, hFree, hNone, -⟩ := exists_new_file
  have hBlocks : blocksNeeded boundaryString.length ≤ s.machine.store.freeBlocks := by
    rw [hFree, boundaryString_length]
    decide
  have hInodes : inodesNeeded boundaryString.length ≤ s.machine.store.freeInodes := by
    rw [hNone, boundaryString_length]
    decide
  have hIntact := (hRun.faithful (Nat.lt_succ_self maxDepth)).intact
  have hIff := put_get_iff_storable hIntact (Nat.lt_succ_self maxDepth) hLive hBlocks hInodes
  obtain ⟨m', hPut, -⟩ := put_get hIntact (Nat.lt_succ_self maxDepth) hLive hBlocks hInodes
  refine ⟨s, id, m', hRun, hLive, ?_, hBlocks, hInodes, hPut, fun hGet => ?_⟩
  · rw [boundaryString, List.getLast?_append]
    rfl
  · have hSolid := (hIff.mp ⟨m', hPut, hGet⟩).2 2 (by omega)
    rw [directSize_eq, nindirect_eq, boundaryString_length] at hSolid
    refine hSolid (by omega) (by omega) ?_
    have hAt := byteAt_append_right (List.replicate 102399 1) [0, 1] 0
    rw [List.length_replicate] at hAt
    exact hAt

end ExtentServer
end InodeFS
