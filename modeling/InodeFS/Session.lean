import InodeFS.Intact
import InodeFS.Library.Reach

/-! Runs of the extent server. A session remembers which ids a client holds and
what `get` showed after the last successful `put` to each of them. -/
namespace InodeFS

open Bytes Exec Ownership Store Transition

/-- What a client starts with on a new file system. -/
def Fresh {σ : Type} (clock : Nat → UInt32) (start : Machine → σ) (s : σ) : Prop :=
  ∃ m, initInodeManager (Machine.zeroed clock) = .ok () m ∧ s = start m

namespace ExtentServer

inductive Call where
  | create (type : FileType)
  | put (id : Nat) (buf : List Byte)
  | get (id : Nat)
  | getattr (id : Nat)
  | remove (id : Nat)
  | setAttr (id size : Nat)

/-- The id that a call is about. -/
def Call.target : Call → Option Nat
  | .create _ => none
  | .put id _ => some id
  | .get id => some id
  | .getattr id => some id
  | .remove id => some id
  | .setAttr id _ => some id

structure Session where
  machine : Machine
  live : Set Nat
  shown : Nat → Except Stop (List Byte)

/-- The state right after the constructor; the root is inode 1. -/
def Session.start (m : Machine) : Session :=
  { machine := m, live := {1}, shown := fun _ => .ok [] }

/-- One call. A `put` may run out of blocks; any other error ends the run. -/
inductive Step (stack : Nat) (s : Session) : Call → Session → Prop where
  | create {type : FileType} {id : Nat} {m : Machine}
      (hRun : create type s.machine = .ok id m) :
      Step stack s (.create type)
        { machine := m, live := insert id s.live, shown := Function.update s.shown id (.ok []) }
  | put {id : Nat} {buf : List Byte} {m : Machine} (hLive : id ∈ s.live)
      (hRun : put stack id buf s.machine = .ok () m) :
      Step stack s (.put id buf)
        { s with machine := m, shown := Function.update s.shown id (ExtentServer.get m stack id) }
  | putFailed {id : Nat} {buf : List Byte} {m : Machine} (hLive : id ∈ s.live)
      (hRun : put stack id buf s.machine = .error .badAlloc m) :
      Step stack s (.put id buf) { s with machine := m }
  | get {id : Nat} (hLive : id ∈ s.live) : Step stack s (.get id) s
  | getattr {id : Nat} (hLive : id ∈ s.live) : Step stack s (.getattr id) s
  | remove {id : Nat} {m : Machine} (hLive : id ∈ s.live) (hRoot : id ≠ 1)
      (hRun : remove stack id s.machine = .ok () m) :
      Step stack s (.remove id) { s with machine := m, live := s.live \ {id} }
  | setAttr {id size : Nat} {m : Machine} (hLive : id ∈ s.live)
      (hRun : setAttr stack id size s.machine = .ok () m) :
      Step stack s (.setAttr id size) { s with machine := m }

/-- The sessions reached from a fresh file system by calls that `allowed`
admits. -/
def Run (stack : Nat) (clock : Nat → UInt32) (allowed : Session → Call → Prop) : Session → Prop :=
  Reach (Fresh clock Session.start) fun s s' => ∃ call, allowed s call ∧ Step stack s call s'

theorem Run.start {stack : Nat} {clock : Nat → UInt32} {allowed : Session → Call → Prop} {m : Machine}
    (hInit : initInodeManager (Machine.zeroed clock) = .ok () m) :
    Run stack clock allowed (Session.start m) := Reach.start ⟨m, hInit, rfl⟩

theorem Run.step {stack : Nat} {clock : Nat → UInt32} {allowed : Session → Call → Prop}
    {s s' : Session} {call : Call} (prior : Run stack clock allowed s) (hAllowed : allowed s call)
    (last : Step stack s call s') : Run stack clock allowed s' := Reach.next prior ⟨call, hAllowed, last⟩

end ExtentServer

section Fresh

theorem decode_zeros : Inode.decode Block.zeros.bytes = Inode.cleared := by
  have hBytes : Block.zeros.bytes = Inode.cleared.encode ++ List.replicate 88 0 := by
    have hType : le16 0 = List.replicate 2 0 := rfl
    have hPadding : [0, 0] = List.replicate 2 (0 : Byte) := rfl
    have hWord : le32 0 = List.replicate 4 0 := rfl
    simp only [Block.zeros_bytes, Inode.encode, Inode.cleared, hType, hPadding, hWord,
      flatMap_le32_zeros, ndirect_eq, blockSize_eq, ← List.replicate_add]
  rw [hBytes, Inode.decode_encode]

theorem zeroed_store (clock : Nat → UInt32) : (Machine.zeroed clock).store = blank := by
  apply Store.ext
  · funext b
    have hByte : ∀ off, byteAt Block.zeros.bytes off = 0 := fun off => by
      rw [Block.zeros_bytes, byteAt, List.getElem?_replicate]
      split <;> rfl
    simp [Machine.store, Machine.zeroed, rawBit, blank, hByte]
  · funext i
    simp [Machine.store, Machine.zeroed, blank, decode_zeros]
  · funext b
    simp [Machine.store, Machine.zeroed, blank]

/-- The constructor allocates inode 1 for the root and nothing else. -/
theorem wp_initInodeManager (clock : Nat → UInt32) :
    wp initInodeManager (fun _ m => ∃ now, m.store = blank.putInode 1 (freshInode .T_DIR now))
      (fun _ _ => False) (Machine.zeroed clock) := by
  rw [initInodeManager, wp_bind]
  refine wp_allocInode _ (fun i now m hInum hDead hFirst hStore => ?_) fun hAll => ?_
  · have hOne : i = 1 := by
      by_contra hne
      have hRange := isInum_iff.mp hInum
      have hAlive := hFirst 1 (isInum_iff.mpr (by omega)) (by omega)
      rw [zeroed_store] at hAlive
      exact hAlive rfl
    subst hOne
    rw [zeroed_store] at hStore
    simp only [ne_eq, not_true_eq_false, if_false]
    exact ⟨now, hStore⟩
  · have hAlive := hAll 1 (isInum_iff.mpr (by omega))
    rw [zeroed_store] at hAlive
    exact hAlive rfl

end Fresh

namespace Store

variable {σ σ' : Store} {live : Set Nat} {i : Nat}

/-- A new inode may be handed out. -/
theorem Intact.handOut (h : σ.Intact live) (hGrows : Grows σ σ') (hi : FreshRoot σ σ' i) :
    σ'.Intact (insert i live) := by
  have hGrown := h.grows hGrows
  refine ⟨hGrown.sound, ?_, ?_⟩
  · rintro j (rfl | hj)
    · exact hi.1.1
    · exact hGrown.alive j hj
  · rintro j (rfl | hj) k hk hMem
    · by_cases hOld : σ.Alive k
      · rw [(hGrows.sameOn h.sound).kids hOld] at hMem
        exact hi.1.2 (h.sound.forest.kids_mem k hOld j hMem)
      · exact hi.2 k ⟨hk, hOld⟩ hMem
    · exact hGrown.root j hj k hk hMem

theorem grows_freshInode (type : FileType) (now : UInt32) (hInum : IsInum i) (hDead : ¬σ.Alive i) :
    Grows σ (σ.putInode i (freshInode type now)) ∧
      FreshRoot σ (σ.putInode i (freshInode type now)) i :=
  ⟨Grows.putInode hInum hDead (FileType.code_toUInt16_ne_zero _) rfl (freshInode_slot _ now),
    FreshRoot.putInode hDead (FileType.code_toUInt16_ne_zero _) rfl⟩

end Store
end InodeFS
