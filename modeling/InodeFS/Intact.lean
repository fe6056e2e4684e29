import InodeFS.Remove
import InodeFS.Server
import InodeFS.WriteFile

/-! The invariant of the extent server: all inodes in use together are sound,
and the ids that clients hold are roots of their trees. Every operation keeps it
and leaves the trees of the other ids alone. -/
namespace InodeFS

open Bytes Exec Ownership

namespace Store

variable {σ σ' σ₁ : Store} {live A P : Set Nat} {i r : Nat}

/-- All inodes in use form trees, and nobody lists an id in `live`. -/
structure Intact (σ : Store) (live : Set Nat) : Prop where
  sound : σ.Sound {i | σ.Alive i} σ.Marked
  alive : ∀ i ∈ live, σ.Alive i
  root : ∀ i ∈ live, ∀ j, σ.Alive j → i ∉ σ.kids j

/-- The store of a zeroed disk. -/
def blank : Store :=
  { bit := fun _ => false, inode := fun _ => Inode.cleared, data := fun _ => Block.zeros }

theorem blank_intact : blank.Intact ∅ := by
  have hNone : {i | blank.Alive i} = ∅ := by
    refine Set.eq_empty_of_forall_notMem fun i hi => ?_
    exact hi rfl
  refine ⟨?_, fun _ h => h.elim, fun _ h => h.elim⟩
  rw [hNone]
  exact (Sound.empty _).mono (Set.empty_subset _) fun _ hb => hb

theorem SlotsMarked.of_sound {M : Set Nat} (h : σ.Sound A M) (hr : r ∈ A) : σ.SlotsMarked r := by
  intro k hne
  have hk : k < 101 := by
    by_contra hk
    exact hne (Inode.slot_of_le _ (by omega))
  exact (h.marked _ (h.forest.owns_mem r hr _ (slot_mem_owns hk hne))).2

theorem Intact.subset (h : σ.Intact live) (hSub : P ⊆ live) : σ.Intact P :=
  ⟨h.sound, fun i hi => h.alive i (hSub hi), fun i hi => h.root i (hSub hi)⟩

/-- Growth keeps the invariant, also when an operation failed half way. -/
theorem Intact.grows (h : σ.Intact live) (hGrows : Grows σ σ') : σ'.Intact live := by
  have hSame := hGrows.sameOn h.sound
  have hAlive : {i | σ'.Alive i} = {i | σ.Alive i} ∪ Born σ σ' := by
    ext i
    constructor
    · intro hi
      by_cases hOld : σ.Alive i
      · exact Or.inl hOld
      · exact Or.inr ⟨hi, hOld⟩
    · rintro (hi | hi)
      · exact hGrows.alive hi
      · exact hi.1
  refine ⟨?_, fun i hi => hGrows.alive (h.alive i hi), fun i hi j hj hMem => ?_⟩
  · rw [hAlive]
    refine (hGrows.extend h.sound).mono ?_ fun _ hb => hb
    rintro b (hb | hb)
    · exact ⟨hb.1, hGrows.bit b hb.2⟩
    · exact ⟨hb.1, hb.2.1⟩
  · by_cases hOld : σ.Alive j
    · exact h.root i hi j hOld (hSame.kids hOld ▸ hMem)
    · exact (hGrows.sound.forest.kids_mem j ⟨hj, hOld⟩ i hMem).2 (h.alive i hi)

/-- Writing a live id keeps the invariant. -/
theorem Intact.rewrites (h : σ.Intact live) (hr : r ∈ live) (hR : Rewrites σ σ₁ σ' r) :
    σ'.Intact live := by
  have hAlive : {i | σ'.Alive i} = {i | σ.Alive i} ∪ Born σ σ₁ := by
    ext i
    rw [Set.mem_ofPred_eq, hR.alive_iff]
    constructor
    · intro hi
      by_cases hOld : σ.Alive i
      · exact Or.inl hOld
      · exact Or.inr ⟨hi, hOld⟩
    · rintro (hi | hi)
      · exact hR.grows.alive hi
      · exact hi.1
  have hMid := h.grows hR.grows
  refine ⟨?_, fun i hi => hR.alive_iff.mpr (hMid.alive i hi), fun i hi j hj hMem => ?_⟩
  · rw [hAlive]
    refine (hR.sound h.sound (h.alive r hr) (h.root r hr)).mono ?_ fun _ hb => hb
    rintro b (hb | hb)
    · refine ⟨hb.1, ?_⟩
      rw [hR.bit]
      exact hR.grows.bit b hb.2
    · refine ⟨hb.1, ?_⟩
      rw [hR.bit]
      exact hb.2.1
  · by_cases he : j = r
    · subst he
      exact (hR.kid i hMem).1.2 (h.alive i hi)
    · have hSame : SameOn σ₁ σ' {j} := hR.sameOn fun k hk => hk ▸ he
      exact hMid.root i hi j (hR.alive_iff.mp hj) (hSame.kids rfl ▸ hMem)

/-- The other trees stay as they are. -/
theorem Intact.sameOn_rewrites (h : σ.Intact live) (hR : Rewrites σ σ₁ σ' r) :
    SameOn σ σ' ({i | σ.Alive i} \ {r}) := by
  have hSame := hR.grows.sameOn h.sound
  have hPut : SameOn σ₁ σ' ({i | σ.Alive i} \ {r}) := hR.sameOn fun i hi => hi.2
  refine ⟨fun i hi => (hPut.inode i hi).trans (hSame.inode i hi.1), fun i hi k hk => ?_⟩
  rw [hR.data]
  exact hSame.data i hi.1 k hk

theorem Intact.closed_without_root (h : σ.Intact live) (hr : r ∈ live) :
    ∀ i ∈ {i | σ.Alive i} \ {r}, ∀ c ∈ σ.kids i, c ∈ {i | σ.Alive i} \ {r} := by
  intro i hi c hc
  refine ⟨h.sound.forest.kids_mem i hi.1 c hc, fun he => ?_⟩
  obtain rfl : c = r := he
  exact h.root c hr i hi.1 hc

section Removal

variable {n : Nat}

/-- The inodes in use outside the tree at `r`. -/
def Outside (σ : Store) (n r : Nat) : Set Nat := {i | σ.Alive i ∧ i ∉ σ.shape.nodes n r}

theorem Intact.outside_closed (h : σ.Intact live) (hr : r ∈ live) (n : Nat) :
    ∀ i ∈ σ.Outside n r, ∀ c ∈ σ.kids i, c ∈ σ.Outside n r := by
  intro i hi c hc
  exact ⟨h.sound.forest.kids_mem i hi.1 c hc, h.sound.forest.kid_not_mem_nodes (h.alive r hr)
    (h.root r hr) hi.1 hi.2 hc⟩

theorem Intact.sameOn_removes (h : σ.Intact live) (hr : r ∈ live)
    (hR : Removes σ σ' {x | x ∈ σ.shape.nodes n r} {x | x ∈ σ.shape.nodes n r}) :
    SameOn σ σ' (σ.Outside n r) := by
  refine hR.sameOn (fun i hi => hi.2) fun i hi b hb j hj hb' => ?_
  have hjAlive := h.sound.forest.nodes_mem (h.alive r hr) hj
  exact hi.2 (h.sound.forest.owns_unique i hi.1 j hjAlive b hb hb' ▸ hj)

/-- A live id other than `r` is outside the tree at `r`. -/
theorem Intact.live_outside (h : σ.Intact live) (hr : r ∈ live) (hi : i ∈ live) (hne : i ≠ r) :
    i ∈ σ.Outside n r := by
  refine ⟨h.alive i hi, fun hMem => ?_⟩
  rcases Shape.exists_parent hMem with he | ⟨p, hp, hip⟩
  · exact hne he
  · exact h.root i hi p (h.sound.forest.nodes_mem (h.alive r hr) hp) hip

/-- Removing the tree of a live id keeps the invariant. -/
theorem Intact.removes (h : σ.Intact live) (hr : r ∈ live)
    (hR : Removes σ σ' {x | x ∈ σ.shape.nodes n r} {x | x ∈ σ.shape.nodes n r}) :
    σ'.Intact (live \ {r}) := by
  have hSame := h.sameOn_removes hr hR
  have hAlive : {i | σ'.Alive i} = σ.Outside n r := by
    ext i
    by_cases hi : i ∈ σ.shape.nodes n r
    · have hGone : σ'.inode i = Inode.cleared := hR.cleared i hi
      simp [Outside, hi, Alive, hGone]
    · have hKept : σ'.inode i = σ.inode i := hR.inode i hi
      simp [Outside, hi, Alive, hKept]
  have hSound : σ.Sound (σ.Outside n r) {b | b ∈ σ.Marked ∧ σ'.bit b = true} := by
    have hForest := h.sound.forest.remove (T := {x | x ∈ σ.shape.nodes n r})
      (F := {b | b ∈ σ.Marked ∧ ¬σ'.bit b = true})
      (fun i hi hOut c hc => (h.outside_closed hr n i ⟨hi, hOut⟩ c hc).2) fun b hb => ?_
    · refine ⟨⟨?_, ?_, ?_, ?_, ?_, ?_, ?_⟩, fun i hi => h.sound.inum i hi.1, fun i hi => hi.1,
        fun b hb => hb.1, fun i hi => h.sound.size_le i hi.1, fun i hi => h.sound.slot_ne i hi.1,
        fun i hi => h.sound.packed i hi.1⟩
      · intro i hi b hb
        have hMem := hForest.owns_mem i hi b hb
        refine ⟨hMem.1, ?_⟩
        by_contra hBit
        exact hMem.2 ⟨hMem.1, hBit⟩
      · exact hForest.owns_nodup
      · exact hForest.owns_unique
      · exact hForest.kids_mem
      · exact hForest.kids_nodup
      · exact hForest.kids_unique
      · exact hForest.shallow
    · by_contra hNone
      refine hb.2 ((hR.keeps b fun i hi hOwn => hNone ?_).1.trans hb.1.2)
      exact ⟨i, h.sound.forest.nodes_mem (h.alive r hr) hi, hi, hOwn⟩
  refine ⟨?_, fun i hi => ?_, fun i hi j hj hMem => ?_⟩
  · rw [hAlive]
    exact (hSound.congr hSame fun b hb => hb.2).mono (fun b hb => ⟨hb.1.1, hb.2⟩) fun _ hb => hb
  · have hOut : i ∈ σ.Outside n r := h.live_outside hr hi.1 hi.2
    rw [Alive, hR.inode i hOut.2]
    exact hOut.1
  · have hOut : j ∈ σ.Outside n r := hAlive ▸ hj
    exact h.root i hi.1 j hOut.1 (hSame.kids hOut ▸ hMem)

end Removal

end Store
end InodeFS
