import InodeFS.RoundTrip
import InodeFS.SetAttr

/-! What a file system check would look at, over all runs that resize files.
`truncate_file` does not allocate, so a growth past the last block leaves slots
that name no block. -/
namespace InodeFS

open Bytes Exec Ownership Store Transition

/-- Every used slot names a marked data block of its own, and every listed child
is in use, listed once, and not an id that was handed out. -/
structure Store.Integrity (σ : Store) (live : Set Nat) : Prop where
  slot : ∀ i, σ.Alive i → ∀ k, σ.Used i k → IsData (σ.slot i k) ∧ σ.bit (σ.slot i k) = true
  distinct : ∀ i j, σ.Alive i → σ.Alive j → ∀ k l, σ.Used i k → σ.Used j l →
    σ.slot i k = σ.slot j l → i = j ∧ k = l
  kid : ∀ i, σ.Alive i → ∀ c ∈ σ.kids i, σ.Alive c ∧ c ∉ live
  nodup : ∀ i, σ.Alive i → (σ.kids i).Nodup
  unique : ∀ i j, σ.Alive i → σ.Alive j → ∀ c, c ∈ σ.kids i → c ∈ σ.kids j → i = j

theorem Store.Intact.toIntegrity {σ : Store} {live : Set Nat} (h : σ.Intact live) :
    σ.Integrity live := by
  have hForest := h.sound.forest
  refine ⟨fun i hi k hk => h.sound.slot_mem hi hk, fun i j hi hj k l hk hl he => ?_,
    fun i hi c hc => ⟨hForest.kids_mem i hi c hc, fun hLive => h.root c hLive i hi hc⟩,
    hForest.kids_nodup, fun i j hi hj c => hForest.kids_unique i hi j hj c⟩
  have hne := h.sound.slot_ne i hi k hk
  have hOwn := mem_owns_of_used hne hk
  have hOwn' : σ.slot i k ∈ σ.owns j := he ▸ mem_owns_of_used (he ▸ hne) hl
  have hij : i = j := hForest.owns_unique i hi j hj _ hOwn hOwn'
  subst hij
  exact ⟨rfl, (owns_nodup_iff σ).mp (hForest.owns_nodup i hi) k hk.lt l hl.lt he hne⟩

namespace ExtentServer

variable {stack : Nat} {clock : Nat → UInt32} {s s' : Session} {call : Call}

/-- `n` is at most the size that `getattr` returns, and there are blocks enough
for the holes; or `n` lies in the last of at most 100 blocks. -/
def Fits (σ : Store) (id n : Nat) : Prop :=
  n ≤ (attrOf σ id).size ∧ σ.missingBlocks id (blocksFor n) ≤ σ.freeBlocks ∨
    σ.size id ≤ 100 ∧ blocksFor n ≤ σ.size id

def Call.Fits (s : Session) : Call → Prop
  | .setAttr id n => ExtentServer.Fits s.machine.store id n
  | _ => True

theorem Step.intact (hStep : Step stack s call s') (hStack : maxDepth < stack)
    (hFits : call.Fits s) (h : s.machine.store.Intact s.live) :
    s'.machine.store.Intact s'.live := by
  cases call with
  | setAttr id n =>
      cases hStep with
      | setAttr hLive hRun =>
          cases hFits with
          | inl hLess => exact (wp_ok (wp_setAttr_shrink h hStack hLive hLess.1 hLess.2) hRun).1
          | inr hInside =>
              have hKept := wp_ok (wp_setAttr_inside h hStack hLive hInside.1 hInside.2) hRun
              exact hKept
  | _ => exact (hStep.keeps hStack trivial h).1

theorem Run.intact (hStack : maxDepth < stack) (hRun : Run stack clock Call.Fits s) :
    s.machine.store.Intact s.live := by
  refine hRun.invariant (I := fun s => s.machine.store.Intact s.live) ?_ ?_
  · rintro _ ⟨m, hInit, rfl⟩
    exact (Session.start_intact hInit).1
  · rintro s s' h ⟨call, hFits, hStep⟩
    exact hStep.intact hStack hFits h

theorem Run.mono {allowed allowed' : Session → Call → Prop} (hRun : Run stack clock allowed s)
    (h : ∀ s call, allowed s call → allowed' s call) : Run stack clock allowed' s :=
  Reach.mono hRun fun s _ hStep => by
    obtain ⟨call, hAllowed, hLast⟩ := hStep
    exact ⟨call, h s call hAllowed, hLast⟩

/-- When every resizing fits, every state that is reached passes the check. -/
theorem integrity (hStack : maxDepth < stack) (hRun : Run stack clock Call.Fits s) :
    s.machine.store.Integrity s.live :=
  (hRun.intact hStack).toIntegrity

theorem Call.fits_of_keepsSize (s : Session) (call : Call) (h : call.KeepsSize) : call.Fits s := by
  cases call with
  | setAttr id n => exact h.elim
  | _ => trivial

/-- A file of two bytes, cut to one byte. -/
theorem integrity_cut : ∃ (s s' : Session) (id : Nat),
    Step (maxDepth + 1) s (.setAttr id 1) s' ∧ s'.machine.store.Integrity s'.live := by
  obtain ⟨s, id, hRun, hLive, hBlocks, hInodes, -⟩ := exists_new_file
  have hFits := hRun.mono Call.fits_of_keepsSize
  have hIntact := hFits.intact (Nat.lt_succ_self maxDepth)
  obtain ⟨m₁, hPut, hWrote⟩ := exists_put hIntact (Nat.lt_succ_self maxDepth) hLive
    (show [(97 : Byte), 98].length < 2 ^ 31 by decide) (by rw [hBlocks]; decide)
    (by rw [hInodes]; decide)
  obtain ⟨s₁, hFirst, hMachine, hLive₁⟩ : ∃ s₁, Step (maxDepth + 1) s (.put id [97, 98]) s₁ ∧
      s₁.machine = m₁ ∧ id ∈ s₁.live := ⟨_, .put hLive hPut, rfl, hLive⟩
  have hPutRun := hFits.step (show Call.Fits s (.put id [97, 98]) from trivial) hFirst
  have hSize : m₁.store.size id = 1 := (hWrote.holds 0 (by decide)).2.1
  have hInside : s₁.machine.store.size id ≤ 100 ∧ blocksFor 1 ≤ s₁.machine.store.size id := by
    rw [hMachine, hSize]
    decide
  obtain ⟨_, m₂, hSet, -⟩ := exists_ok_of_wp (wp_setAttr_inside (n := 1)
    (hPutRun.intact (Nat.lt_succ_self maxDepth)) (Nat.lt_succ_self maxDepth) hLive₁
    hInside.1 hInside.2)
  have hLast : Step (maxDepth + 1) s₁ (.setAttr id 1) _ := .setAttr hLive₁ hSet
  have hFitsLast : Call.Fits s₁ (.setAttr id 1) := Or.inr hInside
  exact ⟨_, _, id, hLast, integrity (Nat.lt_succ_self maxDepth) (hPutRun.step hFitsLast hLast)⟩

/-- A new file has no block. Grown to one byte, its first slot is used and holds
no data block. -/
theorem integrity_broken : ∃ (s s' : Session) (id : Nat),
    Run (maxDepth + 1) (fun _ => 0) (fun _ call => call.KeepsSize) s ∧
    s.machine.store.freeBlocks = 2095612 ∧ Step (maxDepth + 1) s (.setAttr id 1) s' ∧
    ¬s'.machine.store.Integrity s'.live := by
  obtain ⟨s, id, hRun, hLive, hBlocks, -, hSize, hSlot⟩ := exists_new_file
  have hIntact := (hRun.faithful (Nat.lt_succ_self maxDepth)).intact
  have hEmpty : s.machine.store.fileSize maxDepth id = 0 := by
    rw [fileSize_small (by omega), if_pos hSize]
  obtain ⟨_, m₁, hSet, now, hStore⟩ := exists_ok_of_wp (wp_setAttr_grow (n := 1) hIntact
    (Nat.lt_succ_self maxDepth) hLive (by omega) (by omega) (by omega))
  have hLast : Step (maxDepth + 1) s (.setAttr id 1) _ := .setAttr hLive hSet
  refine ⟨s, _, id, hRun, hBlocks, hLast, fun hCheck => ?_⟩
  have hAlive : m₁.store.Alive id := by
    have hType : (resized (s.machine.store.inode id) (blocksFor 1 % 2 ^ 32) now).type =
        (s.machine.store.inode id).type := rfl
    rw [hStore]
    exact (alive_putInode_iff hType id).mpr (hIntact.alive id hLive)
  have hUsed : m₁.store.Used id 0 := by
    rw [hStore, Used, size_putInode_self, resized_size]
    exact Or.inl (by decide)
  have hData : 1540 ≤ m₁.store.slot id 0 := (hCheck.slot id hAlive 0 hUsed).1.1
  have hZero : m₁.store.slot id 0 = 0 := by
    rw [hStore, slot_putInode_self, resized_slot]
    exact hSlot 0
  omega

end ExtentServer
end InodeFS
