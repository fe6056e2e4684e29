import InodeFS.Contents

/-! The blocks and inodes that a run takes. No call of a run gives a block back: a new name
takes one, and a `write` takes blocks for the whole new content, whatever the file had before. -/
namespace InodeFS

open Bytes Exec Ownership Store

namespace ChfsClient

/-- The blocks that one call takes when it returns. -/
def cost (S : Nat → List Byte) : Call × Reply → Nat
  | (.node _ _ _ _, .node .OK _) => 1
  | (.write f off data, .write _ _) =>
      if off + data.length < 2 ^ 31 then
        blocksNeeded (max (S f).length (off + data.length)) else 0
  | _ => 0

/-- The inodes that one call may take: a new name takes one, and its directory perhaps another. -/
def claim (S : Nat → List Byte) : Call × Reply → Nat
  | (.node _ _ _ _, .node .OK _) => 2
  | (.write f off data, .write _ _) =>
      if off + data.length < 2 ^ 31 then
        inodesNeeded (max (S f).length (off + data.length)) else 0
  | _ => 0

def totalFrom (price : (Nat → List Byte) → Call × Reply → Nat) (S : Nat → List Byte) : History → Nat
  | [] => 0
  | x :: rest => price S x + totalFrom price (putContents S x) rest

/-- The prices of the calls of a run, each at the contents it found. -/
def total (price : (Nat → List Byte) → Call × Reply → Nat) (h : History) : Nat :=
  totalFrom price (fun _ => []) h

def spent (h : History) : Nat := total cost h

def claimed (h : History) : Nat := total claim h

theorem totalFrom_append (price : (Nat → List Byte) → Call × Reply → Nat) (S : Nat → List Byte)
    (h : History) (x : Call × Reply) :
    totalFrom price S (h ++ [x]) = totalFrom price S h + price (h.foldl putContents S) x := by
  induction h generalizing S with
  | nil => exact (Nat.add_zero _).trans (Nat.zero_add _).symm
  | cons y rest ih => rw [List.cons_append, totalFrom, ih, totalFrom, List.foldl_cons, Nat.add_assoc]

theorem total_append (price : (Nat → List Byte) → Call × Reply → Nat) (h : History) (x : Call × Reply) :
    total price (h ++ [x]) = total price h + price (contents h) x := totalFrom_append price _ h x

theorem spent_append (h : History) (x : Call × Reply) :
    spent (h ++ [x]) = spent h + cost (contents h) x := total_append cost h x

theorem claimed_append (h : History) (x : Call × Reply) :
    claimed (h ++ [x]) = claimed h + claim (contents h) x := total_append claim h x

theorem cost_idle {x : Call × Reply} (hIdle : Idle x) (S : Nat → List Byte) : cost S x = 0 := by
  unfold cost
  split
  · exact hIdle.elim
  · exact hIdle.elim
  · rfl

theorem claim_idle {x : Call × Reply} (hIdle : Idle x) (S : Nat → List Byte) : claim S x = 0 := by
  unfold claim
  split
  · exact hIdle.elim
  · exact hIdle.elim
  · rfl

section Steps

variable {m m' : Machine} {N : Entries} {C C' : List Nat} {F A : Set Nat} {f p i stack off : Nat}
  {data : List Byte} {type : FileType} {name : CString} {now : UInt32}

theorem Made.blocks (hMade : Made m.store m'.store N type p i name C C' now) :
    m'.store.freeBlocks + 1 = m.store.freeBlocks := hMade.filed.blocks

/-- A `write` that ran out of blocks kept those that it had got. -/
theorem Kept.blocks_failed (h : Kept m.store N C F A) (hf : f ∈ F) (hStack : maxDepth < stack)
    (hRun : write stack f off data m = .error .badAlloc m') :
    m'.store.freeBlocks ≤ m.store.freeBlocks := by
  obtain ⟨σ₁, hReset, ⟨he, -⟩ | ⟨-, hFail⟩⟩ := wp_error (h.wp_write hf hStack off data) hRun
  · exact absurd rfl he
  · obtain ⟨_, _, hProgress⟩ := hFail.progress
    have hTaken := hProgress.blocks
    have hSame := hReset.blocks
    omega

end Steps

section Runs

variable {stack : Nat} {clock : Nat → UInt32} {h : History} {m : Machine}

theorem start_free (hInit : initInodeManager (Machine.zeroed clock) = .ok () m) :
    m.store.freeInodes = 1023 ∧ m.store.freeBlocks = 2095612 := by
  obtain ⟨m', hInit', hInodes, hBlocks⟩ := ExtentServer.exists_start clock
  injection hInit.symm.trans hInit' with hUnit hSame
  rw [hSame]
  exact ⟨hInodes, hBlocks⟩

/-- In every run the blocks of the start are free, or taken by the calls, or left behind by
calls that failed. -/
theorem Run.spends (hStack : maxDepth < stack) (hRun : Run stack clock (fun h _ call => call.OnFiles h) h m) :
    ∃ lost, m.store.freeBlocks + spent h + lost = 2095612 ∧ ((∀ call, (call, .badAlloc) ∉ h) → lost = 0) := by
  have hRule : ∃ N C A, AfterRun h m N C A ∧ ∃ lost, m.store.freeBlocks + spent h + lost = 2095612 ∧
      ((∀ call, (call, .badAlloc) ∉ h) → lost = 0) := by
    refine hRun.rule (I := fun h m _ => ∃ lost, m.store.freeBlocks + spent h + lost = 2095612 ∧
      ((∀ call, (call, .badAlloc) ∉ h) → lost = 0)) hStack ?_ ?_ ?_ ?_ ?_
    · exact fun m hInit => ⟨0, (start_free hInit).2, fun _ => rfl⟩
    · rintro h m m' N C A type p i name inoOut C' now hS hMade ⟨lost, hSum, hNone⟩
      have hOne := hMade.blocks
      have hCost : cost (contents h) (.node type p name inoOut, .node .OK i) = 1 := rfl
      rw [spent_append, hCost]
      exact ⟨lost, by omega, fun hRoom => hNone fun call hMem => hRoom call (List.mem_append_left _ hMem)⟩
    · rintro h m m' N C A f off data r prior hS hf hWrite ⟨lost, hSum, hNone⟩
      have hTaken := hS.kept.blocks_written hf hStack hWrite
      rw [prior.keeps_contents hStack hf] at hTaken
      rw [spent_append, cost]
      exact ⟨lost, by omega, fun hRoom => hNone fun call hMem => hRoom call (List.mem_append_left _ hMem)⟩
    · rintro h m m' N C A f off data hS hf hWrite ⟨lost, hSum, hNone⟩
      have hTaken := hS.kept.blocks_failed hf hStack hWrite
      have hFree : cost (contents h) (.write f off data, .badAlloc) = 0 := rfl
      rw [spent_append, hFree]
      refine ⟨lost + (m.store.freeBlocks - m'.store.freeBlocks), by omega, fun hRoom => ?_⟩
      exact absurd (List.mem_append_right h List.mem_cons_self) (hRoom _)
    · rintro h m m' N C A x hS hStray hx - ⟨lost, hSum, hNone⟩
      rw [spent_append, cost_idle hx, freeBlocks_congr hStray.bit]
      exact ⟨lost, hSum, fun hRoom => hNone fun call hMem => hRoom call (List.mem_append_left _ hMem)⟩
  obtain ⟨-, -, -, -, hSpent⟩ := hRule
  exact hSpent

/-- In every run the free blocks are those of the start less what the calls have taken,
and those that failed calls have left behind. -/
theorem blocks_spent (hStack : maxDepth < stack)
    (hRun : Run stack clock (fun h _ call => call.OnFiles h) h m) :
    m.store.freeBlocks + spent h ≤ 2095612 ∧
      ((∀ call, (call, .badAlloc) ∉ h) → m.store.freeBlocks + spent h = 2095612) := by
  obtain ⟨lost, hSum, hNone⟩ := hRun.spends hStack
  refine ⟨by omega, fun hRoom => ?_⟩
  have hZero := hNone hRoom
  omega

/-- The free inodes are at least those of the start less what the calls may have taken. -/
theorem Run.inodes_claimed (hStack : maxDepth < stack)
    (hRun : Run stack clock (fun h _ call => call.OnFiles h) h m) (hRoom : ∀ call, (call, .badAlloc) ∉ h) :
    1023 ≤ m.store.freeInodes + claimed h := by
  have hRule : ∃ N C A, AfterRun h m N C A ∧
      ((∀ call, (call, .badAlloc) ∉ h) → 1023 ≤ m.store.freeInodes + claimed h) := by
    refine hRun.rule (I := fun h m _ => (∀ call, (call, .badAlloc) ∉ h) →
      1023 ≤ m.store.freeInodes + claimed h) hStack ?_ ?_ ?_ ?_ ?_
    · intro m hInit hRoom
      exact (start_free hInit).1.ge
    · intro h m m' N C A type p i name inoOut C' now hS hMade ih hRoom
      have hTwo := freeInodes_made hMade
      have hBefore := ih fun call hMem => hRoom call (List.mem_append_left _ hMem)
      have hClaim : claim (contents h) (.node type p name inoOut, .node .OK i) = 2 := rfl
      rw [claimed_append, hClaim]
      omega
    · intro h m m' N C A f off data r prior hS hf hWrite ih hRoom
      have hTaken := hS.kept.inodes_written hf hStack hWrite
      have hBefore := ih fun call hMem => hRoom call (List.mem_append_left _ hMem)
      rw [prior.keeps_contents hStack hf] at hTaken
      rw [claimed_append, claim]
      omega
    · intro h m m' N C A f off data hS hf hWrite ih hRoom
      exact absurd (List.mem_append_right h List.mem_cons_self) (hRoom _)
    · intro h m m' N C A x hS hStray hx hSame ih hRoom
      have hNot : x.2 ≠ .badAlloc := fun he =>
        hRoom x.1 (List.mem_append_right h (he ▸ List.mem_cons_self))
      rw [claimed_append, claim_idle hx, hSame hNot]
      exact ih fun call hMem => hRoom call (List.mem_append_left _ hMem)
  obtain ⟨-, -, -, -, hClaimed⟩ := hRule
  exact hClaimed hRoom

theorem spent_twoWritesLog {f g : Nat} {s t : List Byte} (hne : f ≠ g)
    (hLen : s.length < 2 ^ 31 ∧ 100 + t.length < 2 ^ 31) :
    spent (twoWritesLog f g s t) = 2 + blocksNeeded s.length + blocksNeeded (100 + t.length) := by
  have hFirst : 0 + s.length < 2 ^ 31 := by omega
  have hOther : contents (twoFilesLog f g ++ [(.write f 0 s, .write .OK s.length)]) g = [] := by
    rw [contents_append, putContents, Function.update_of_ne hne.symm, contents_twoFilesLog]
  have hTwo : spent (twoFilesLog f g) = 2 := rfl
  rw [twoWritesLog, spent_append, spent_append, cost, cost, if_pos hFirst, if_pos hLen.2, hOther,
    contents_twoFilesLog, hTwo, List.length_nil, Nat.zero_max, Nat.zero_max, Nat.zero_add]

/-- Two names, 334 blocks for the first file and 119 for the second one. -/
theorem blocks_spent_two : ∃ (h : History) (m : Machine) (f g : Nat), f ≠ g ∧
    contents h f = List.replicate 170000 97 ∧
    contents h g = List.replicate 100 0 ++ List.replicate 60000 98 ∧
    spent h = 455 ∧ m.store.freeBlocks + spent h = 2095612 := by
  have hLetters : (List.replicate 170000 (97 : Byte)).length = 170000 := List.length_replicate
  have hOthers : (List.replicate 60000 (98 : Byte)).length = 60000 := List.length_replicate
  have hNeeds : blocksNeeded 170000 = 334 ∧ blocksNeeded (100 + 60000) = 119 := by decide
  obtain ⟨m, f, g, hne, hRun, hf, hg⟩ := exists_two_letters
  refine ⟨_, m, f, g, hne, hf, hg, ?_, (blocks_spent (Nat.lt_succ_self maxDepth)
    (hRun.mono fun _ _ _ hCall => hCall.1)).2 (notMem_twoWritesLog f g _ _)⟩
  rw [spent_twoWritesLog hne (by rw [hLetters, hOthers]; decide), hLetters, hOthers]
  omega

end Runs
end ChfsClient
end InodeFS
