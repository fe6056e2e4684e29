import InodeFS.AllEntries
import InodeFS.Reclaim

/-! Runs that only add: inodes, files and directory entries. An entry stays in the
block where it was put, and later listings show it at the same place. -/
namespace InodeFS

open Bytes Exec Paging Store Relation Transition

namespace Store

variable {σ σ' : Store} {p : Nat} {C C' : List Nat} {l s : List Entry} {large : Bool}

/-- What `read_blockid` lists for a directory: its own blocks and, when it is large,
those of all children. -/
def entryBlocks (σ : Store) (C : List Nat) (large : Bool) (p : Nat) : List Nat :=
  σ.directBlocks p ++ if large then C.flatMap σ.directBlocks else []

/-- The entry in a block. -/
def entryIn (σ : Store) (b : Nat) : Entry := entryOf (σ.data b)

namespace Row

theorem covered (h : σ.Row p l large) : min (σ.size p) 100 = l.length := by
  have hFew := h.few
  have hSize := h.size
  cases large with
  | false =>
      change σ.size p = l.length + 0 at hSize
      omega
  | true =>
      have hFull := h.full rfl
      omega

theorem directBlocks_length (h : σ.Row p l large) : (σ.directBlocks p).length = l.length := by
  rw [directBlocks, List.length_map, List.length_range, h.covered]

theorem map_entryIn (h : σ.Row p l large) : (σ.directBlocks p).map σ.entryIn = l := by
  refine List.ext_getElem (by rw [List.length_map, h.directBlocks_length]) fun k hk hk' => ?_
  simp only [directBlocks, List.getElem_map, List.getElem_range]
  exact (h.lists.entry k hk').2.2

theorem mem_directBlocks {b : Nat} (h : σ.Row p l large) (hb : b ∈ σ.directBlocks p) :
    IsData b ∧ σ.bit b = true := by
  obtain ⟨k, hk, rfl⟩ := List.mem_map.mp hb
  rw [List.mem_range, h.covered] at hk
  exact ⟨(h.lists.entry k hk).1, (h.lists.entry k hk).2.1⟩

end Row

/-- The blocks of the children in order hold the shared entries. -/
theorem ChildEntries.map_entryIn (h : σ.ChildEntries C s) : (C.flatMap σ.directBlocks).map σ.entryIn = s := by
  have hPages : C.map (fun c => (σ.directBlocks c).map σ.entryIn) =
      (List.range C.length).map (page 100 s) := by
    refine List.ext_getElem (by simp) fun j hj _ => ?_
    rw [List.length_map] at hj
    rw [List.getElem_map, List.getElem_map, List.getElem_range]
    exact (h.child j hj).map_entryIn
  have hCount := h.count
  rw [List.map_flatMap, List.flatMap_def, hPages, ← List.flatMap_def, flatMap_page,
    List.take_of_length_le (by omega)]

theorem ChildEntries.length_blocks (h : σ.ChildEntries C s) : (C.flatMap σ.directBlocks).length = s.length := by
  have hLength := congrArg List.length h.map_entryIn
  rwa [List.length_map] at hLength

theorem ChildEntries.mem_blocks {b : Nat} (h : σ.ChildEntries C s) (hb : b ∈ C.flatMap σ.directBlocks) :
    IsData b ∧ σ.bit b = true := by
  obtain ⟨c, hc, hb⟩ := List.mem_flatMap.mp hb
  obtain ⟨l, hRow⟩ := h.mem hc
  exact hRow.mem_directBlocks hb

end Store

section Programs

variable {m : Machine} {x p stack : Nat} {C : List Nat} {l s : List Entry} {large : Bool}

theorem readBlockid_flat (hInum : IsInum x) (hSize : m.store.size x ≤ 100) :
    readBlockid m (stack + 1) x = .ok (m.store.directBlocks x) := by
  have hNil : m.store.kids x = [] := kids_of_size_le hSize
  have hNode : readBlockid m (stack + 1) x = .ok (m.store.directBlocks x ++
      (m.store.kids x).flatMap fun _ => []) :=
    readBlockid_node hInum (fun hLarge => absurd hSize (Nat.not_le_of_lt hLarge)) fun c hc =>
      absurd hc (hNil ▸ List.not_mem_nil)
  rwa [hNil, List.flatMap_nil, List.append_nil] at hNode

/-- A large directory lists its own blocks and then those of the children. -/
theorem readBlockid_large (hInum : IsInum p) (hSize : 100 < m.store.size p)
    (hSlot : m.store.slot p 100 = 0) (hTable : m.store.Table C)
    (hC : ∀ c ∈ C, IsInum c ∧ m.store.size c ≤ 100) :
    readBlockid m (stack + 2) p =
      .ok (m.store.directBlocks p ++ C.flatMap m.store.directBlocks) := by
  have hNe : ∀ c ∈ C, c ≠ 0 := fun c hc => by
    have := isInum_iff.mp (hC c hc).1
    omega
  have hKids : m.store.kids p = C := by
    rw [kids_of_size hSize, hSlot, untilZero_table hTable hNe]
  rw [← hKids] at hC ⊢
  exact readBlockid_node hInum (fun _ => Or.inr (by omega)) fun c hc =>
    readBlockid_flat (hC c hc).1 (hC c hc).2

theorem readBlockid_entriesOn (h : m.store.ChildEntries C s) (hRow : m.store.Row p l large) :
    readBlockid m (stack + 2) p = .ok (m.store.entryBlocks C large p) := by
  have hSize : m.store.size p = l.length + large.toNat := hRow.size
  cases large with
  | false =>
      have hFew := hRow.few
      change m.store.size p = l.length + 0 at hSize
      rw [readBlockid_flat hRow.lists.inum (by omega)]
      exact congrArg Except.ok (List.append_nil _).symm
  | true =>
      have hFull := hRow.full rfl
      change m.store.size p = l.length + 1 at hSize
      refine readBlockid_large hRow.lists.inum (by omega) hRow.indirect h.table fun c hc => ?_
      obtain ⟨k, hChild⟩ := h.mem hc
      have hFew := hChild.few
      have hChildSize : m.store.size c = k.length + 0 := hChild.size
      exact ⟨hChild.lists.inum, by omega⟩

end Programs

namespace ChfsClient.EntriesOn

variable {σ σ' : Store} {N : Entries} {C C' : List Nat} {p q b : Nat} {e : Entry}

/-- The blocks of a directory in the order of its listing. -/
theorem map_entryIn (h : EntriesOn σ N C) (hp : p ∈ N.dirs) :
    (σ.entryBlocks C (N.large p) p).map σ.entryIn = N.listing p := by
  rw [entryBlocks, List.map_append, (h.row p hp).map_entryIn, Entries.listing]
  cases N.large p with
  | false => rfl
  | true =>
      rw [if_pos rfl, if_pos rfl, h.childEntries.map_entryIn]

theorem mem_entryBlocks (h : EntriesOn σ N C) (hp : p ∈ N.dirs)
    (hb : b ∈ σ.entryBlocks C (N.large p) p) : IsData b ∧ σ.bit b = true := by
  rw [entryBlocks, List.mem_append] at hb
  rcases hb with hOwn | hShared
  · exact (h.row p hp).mem_directBlocks hOwn
  · split at hShared
    · exact h.childEntries.mem_blocks hShared
    · exact absurd hShared List.not_mem_nil

theorem readBlockid_eq {m : Machine} (h : EntriesOn m.store N C) (hp : p ∈ N.dirs) (stack : Nat) :
    readBlockid m (stack + 2) p = .ok (m.store.entryBlocks C (N.large p) p) :=
  readBlockid_entriesOn h.childEntries (h.row p hp)

/-- A new entry takes a new block at the end of its directory, and the other
directories keep their blocks in front. -/
theorem enter_blocks (h : EntriesOn σ N C) (hp : p ∈ N.dirs) (hFiled : Filed σ σ' p C C')
    (hNew : EntriesOn σ' (N.enter p e) C') :
    (∀ q ∈ N.dirs, σ.entryBlocks C (N.large q) q <+:
      σ'.entryBlocks C' ((N.enter p e).large q) q) ∧
    ∃ b l, TakesBlock σ σ' b ∧
      σ'.entryBlocks C' ((N.enter p e).large p) p = l ++ [b] ∧ σ'.entryIn b = e := by
  have hRow := h.row p hp
  obtain ⟨b, hTakes, hBlocks⟩ := hFiled.block
  have hOther : ∀ q ∈ N.dirs, q ≠ p → σ'.directBlocks q = σ.directBlocks q := fun q hq hne =>
    directBlocks_congr (hFiled.inode q hne fun hc => hNew.kids q hc
      ((Entries.enter_dirs N p e).symm ▸ hq))
  have hMap := hNew.map_entryIn ((Entries.enter_dirs N p e).symm ▸ hp)
  have hCovered := hRow.covered
  rcases hBlocks with ⟨hSmall, hOwn, hKids⟩ | ⟨hFull, hOwn, hKids⟩
  · have hPut : N.enter p e = N.put p e := if_pos (by omega)
    have hNot : N.large p = false := hRow.not_large (by omega)
    rw [hPut] at hMap ⊢
    have hList : σ'.entryBlocks C' ((N.put p e).large p) p = σ.directBlocks p ++ [b] := by
      rw [Entries.put_large, hNot, entryBlocks, hOwn]
      exact List.append_nil _
    refine ⟨fun q hq => ?_, b, _, hTakes, hList, ?_⟩
    · by_cases he : q = p
      · subst he
        rw [hList, hNot]
        exact ⟨[b], by rw [entryBlocks]; simp⟩
      · rw [Entries.put_large, entryBlocks, entryBlocks, hOther q hq he, hKids]
    · have hListing : (N.put p e).listing p = N.own p ++ [e] := by
        rw [Entries.listing_small (by rw [Entries.put_large, hNot]), Entries.put_own, if_pos rfl]
      rw [hList, hListing, List.map_append, List.map_singleton] at hMap
      exact List.singleton_inj.mp (List.append_inj_right' hMap rfl)
  · have hShare : N.enter p e = N.share p e := if_neg (by omega)
    rw [hShare] at hMap ⊢
    have hLarge : (N.share p e).large p = true := by rw [Entries.share_large, if_pos rfl]
    have hList : σ'.entryBlocks C' ((N.share p e).large p) p =
        σ.directBlocks p ++ C.flatMap σ.directBlocks ++ [b] := by
      rw [hLarge, entryBlocks, if_pos rfl, hOwn, hKids, List.append_assoc]
    refine ⟨fun q hq => ?_, b, _, hTakes, hList, ?_⟩
    · by_cases he : q = p
      · subst he
        rw [hList, entryBlocks, List.append_assoc]
        refine (List.prefix_append_right_inj _).mpr ?_
        split
        · exact List.prefix_append _ _
        · exact List.nil_prefix
      · rw [Entries.share_large, if_neg he, entryBlocks, entryBlocks, hOther q hq he, hKids]
        refine (List.prefix_append_right_inj _).mpr ?_
        split
        · exact List.prefix_append _ _
        · exact List.nil_prefix
    · rw [hList, Entries.listing_large hLarge, Entries.share_own, Entries.share_shared,
        List.map_append, List.map_singleton, ← List.append_assoc] at hMap
      exact List.singleton_inj.mp (List.append_inj_right' hMap rfl)

/-- A directory that is alone has all shared entries. -/
theorem sole_shared (h : EntriesOn σ N C) (hSole : N.dirs = {p}) (hSmall : N.large p = false) :
    N.shared = [] := by
  by_contra hne
  obtain ⟨q, hq⟩ := h.used.mp hne
  have hMem : q ∈ N.dirs := by
    by_contra hNot
    rw [(h.stray q hNot).2] at hq
    cases hq
  rw [hSole, Set.mem_singleton_iff] at hMem
  rw [hMem, hSmall] at hq
  cases hq

theorem sole_listing_enter (h : EntriesOn σ N C) (hSole : N.dirs = {p}) (e : Entry) :
    (N.enter p e).listing p = N.listing p ++ [e] := by
  have hp : p ∈ N.dirs := hSole ▸ rfl
  rw [Entries.enter]
  split
  · rename_i hSmall
    have hNot := (h.row p hp).not_large hSmall
    rw [Entries.listing_small hNot, Entries.listing_small (by rw [Entries.put_large, hNot]),
      Entries.put_own, if_pos rfl]
  · have hLarge : (N.share p e).large p = true := by rw [Entries.share_large, if_pos rfl]
    rw [Entries.listing_large hLarge, Entries.share_own, Entries.share_shared]
    cases hOld : N.large p with
    | false =>
        rw [Entries.listing_small hOld, h.sole_shared hSole hOld]
        rfl
    | true => rw [Entries.listing_large hOld, List.append_assoc]

end ChfsClient.EntriesOn

namespace ExtentServer

open ChfsClient

/-- A machine with the ids that were handed out, directories and others. -/
structure Volume where
  machine : Machine
  dirs : Set Nat
  files : Set Nat

def Volume.start (m : Machine) : Volume := { machine := m, dirs := {1}, files := ∅ }

/-- One call that adds to a volume. `put` and `add_to_dir` may run out of blocks. -/
inductive Adds (stack : Nat) (v : Volume) : Volume → Prop where
  | createDir {id : Nat} {m : Machine} (hRun : create .T_DIR v.machine = .ok id m) :
      Adds stack v { v with machine := m, dirs := insert id v.dirs }
  | createFile {type : FileType} {id : Nat} {m : Machine} (hType : type ≠ .T_DIR)
      (hRun : create type v.machine = .ok id m) :
      Adds stack v { v with machine := m, files := insert id v.files }
  | put {id : Nat} {buf : List Byte} {m : Machine} (hFile : id ∈ v.files)
      (hRun : put stack id buf v.machine = .ok () m) : Adds stack v { v with machine := m }
  | putFailed {id : Nat} {buf : List Byte} {m : Machine} (hFile : id ∈ v.files)
      (hRun : put stack id buf v.machine = .error .badAlloc m) :
      Adds stack v { v with machine := m }
  | addToDir {p id : Nat} {name : CString} {m : Machine} (hDir : p ∈ v.dirs)
      (hRun : addToDir stack p id name v.machine = .ok () m) : Adds stack v { v with machine := m }
  | addToDirFailed {p id : Nat} {name : CString} {m : Machine} (hDir : p ∈ v.dirs)
      (hRun : addToDir stack p id name v.machine = .error .badAlloc m) :
      Adds stack v { v with machine := m }

/-- The volumes made from a fresh file system by such calls. -/
def Reached (stack : Nat) (clock : Nat → UInt32) (v : Volume) : Prop :=
  Reach (Fresh clock Volume.start) (Adds stack) v

/-- The directories of a volume are arranged as `N` says, and its files are apart
from them. -/
structure Arranged (v : Volume) (N : Entries) (C : List Nat) : Prop where
  entriesOn : EntriesOn v.machine.store N C
  dirs : N.dirs = v.dirs
  alive : ∀ f ∈ v.files, v.machine.store.Alive f
  marked : ∀ f ∈ v.files, ∀ k, v.machine.store.slot f k ≠ 0 →
    IsData (v.machine.store.slot f k) ∧ v.machine.store.bit (v.machine.store.slot f k) = true
  apart : ∀ f ∈ v.files, f ∉ v.dirs ∧ f ∉ C

/-- The later volume lists what the earlier one listed, from the same blocks. -/
structure Prolongs (v : Volume) (N : Entries) (C : List Nat) (w : Volume) (N' : Entries)
    (C' : List Nat) : Prop where
  dirs : v.dirs ⊆ w.dirs
  blocks : ∀ p ∈ v.dirs, v.machine.store.entryBlocks C (N.large p) p <+:
    w.machine.store.entryBlocks C' (N'.large p) p
  carries : Carries v.machine.store w.machine.store Set.univ

/-- Ids are passed on as 32-bit numbers. -/
theorem addToDir_mod (stack p id : Nat) (name : CString) :
    addToDir stack p (id % 2 ^ 32) name = addToDir stack p id name := by
  rw [addToDir, addToDir, Nat.mod_mod]

section Runs

variable {stack : Nat} {clock : Nat → UInt32} {v w u : Volume} {N N' N'' : Entries}
  {C C' C'' : List Nat} {X : Set Nat}

theorem Prolongs.refl (v : Volume) (N : Entries) (C : List Nat) : Prolongs v N C v N C :=
  ⟨subset_rfl, fun _ _ => List.prefix_rfl, Carries.refl _ _⟩

theorem Prolongs.trans (h : Prolongs v N C w N' C') (h' : Prolongs w N' C' u N'' C'') :
    Prolongs v N C u N'' C'' :=
  ⟨h.dirs.trans h'.dirs, fun p hp => (h.blocks p hp).trans (h'.blocks p (h.dirs hp)),
    h.carries.trans h'.carries⟩

namespace Arranged

theorem start {m : Machine} (hInit : initInodeManager (Machine.zeroed clock) = .ok () m) :
    Arranged (Volume.start m) Entries.start [] :=
  ⟨EntriesOn.start hInit, rfl, fun _ hf => hf.elim, fun _ hf => hf.elim, fun _ hf => hf.elim⟩

/-- Files are as before when the other inodes and the marked blocks are. -/
theorem of_carries {m : Machine} {dirs : Set Nat} (h : Arranged v N C)
    (hC : Carries v.machine.store m.store X) (hX : ∀ f ∈ v.files, f ∉ X)
    (hOn : EntriesOn m.store N' C') (hDirs : N'.dirs = dirs)
    (hApart : ∀ f ∈ v.files, f ∉ dirs ∧ f ∉ C') :
    Arranged { v with machine := m, dirs := dirs } N' C' where
  entriesOn := hOn
  dirs := hDirs
  alive f hf := hC.alive f (h.alive f hf)
  marked f hf k hk := by
    have hSame := slot_congr (hC.inode f (h.alive f hf) (hX f hf)) k
    rw [hSame] at hk ⊢
    obtain ⟨hData, hBit⟩ := h.marked f hf k hk
    exact ⟨hData, (hC.marked _ hData hBit).1⟩
  apart := hApart

/-- Inodes may be allocated which nobody names. -/
theorem strayed {m : Machine} (h : Arranged v N C) (hStray : Strayed v.machine.store m.store) :
    Arranged { v with machine := m } N C ∧ Prolongs v N C { v with machine := m } N C := by
  have hOn := h.entriesOn
  refine ⟨h.of_carries hStray.carries (fun _ _ hX => hX.elim) (hOn.stray_alloc hStray) h.dirs
    h.apart, subset_rfl, fun p hp => ?_, hStray.carries.mono (Set.empty_subset _)⟩
  have hOwn : m.store.directBlocks p = v.machine.store.directBlocks p :=
    directBlocks_congr (hStray.old p (hOn.dirs_alive (h.dirs ▸ hp)))
  have hKids : C.flatMap m.store.directBlocks = C.flatMap v.machine.store.directBlocks :=
    List.flatMap_congr fun c hc => directBlocks_congr (hStray.old c (hOn.childEntries.alive hc))
  rw [entryBlocks, entryBlocks, hOwn, hKids]

/-- A new inode, a directory or a file. -/
theorem grown {type : FileType} {id : Nat} {m : Machine} (h : Arranged v N C)
    (hRun : create type v.machine = .ok id m) :
    (type = .T_DIR → Arranged { v with machine := m, dirs := insert id v.dirs } (N.grow type id) C) ∧
    (type ≠ .T_DIR →
      Arranged { v with machine := m, files := insert id v.files } (N.grow type id) C) ∧
    Prolongs v N C { v with machine := m } (N.grow type id) C := by
  have hCreate : wp (create type) (fun id m => IsInum id ∧ ¬v.machine.store.Alive id ∧
      ∃ now, m.store = v.machine.store.putInode id (freshInode type now)) (fun _ _ => True)
      v.machine :=
    wp_allocInode type (fun id now m hInum hDead _ hStore => ⟨hInum, hDead, now, hStore⟩)
      fun _ => trivial
  have hPost := wp_ok hCreate hRun
  obtain ⟨hInum, hDead, now, hStore⟩ := hPost
  have hStray : Strayed v.machine.store m.store := hStore ▸ Strayed.freshInode hDead type now
  have hGrown : EntriesOn m.store (N.grow type id) C := hStore ▸ h.entriesOn.grow hInum hDead
  have hOld := h.strayed hStray
  refine ⟨fun hType => ?_, fun hType => ?_, hOld.2.dirs, hOld.2.blocks, hOld.2.carries⟩
  · have hDirs : (N.grow type id).dirs = insert id N.dirs := if_pos hType
    refine h.of_carries hStray.carries (fun _ _ hX => hX.elim) hGrown (hDirs.trans (by rw [h.dirs]))
      fun f hf => ⟨?_, (h.apart f hf).2⟩
    rintro (rfl | hMem)
    · exact hDead (h.alive f hf)
    · exact (h.apart f hf).1 hMem
  · have hSame : N.grow type id = N := by rw [Entries.grow, if_neg hType]
    have hBlank : ∀ k, m.store.slot id k = 0 := fun k => by
      rw [hStore, slot_putInode_self, freshInode_slot]
    refine ⟨hGrown, by rw [hSame]; exact h.dirs, ?_, ?_, ?_⟩
    · rintro f (rfl | hf)
      · change m.store.Alive f
        rw [hStore, Alive, putInode_inode, if_pos rfl]
        exact FileType.code_toUInt16_ne_zero type
      · exact hOld.1.alive f hf
    · rintro f (rfl | hf) k hk
      · exact absurd (hBlank k) hk
      · exact hOld.1.marked f hf k hk
    · rintro f (rfl | hf)
      · refine ⟨fun hMem => hDead (h.entriesOn.dirs_alive (h.dirs ▸ hMem)), fun hMem => ?_⟩
        exact hDead (h.entriesOn.childEntries.alive hMem)
      · exact h.apart f hf

/-- A file took a string. The directories and the other files did not change. -/
theorem stored {f : Nat} {m : Machine} (h : Arranged v N C) (hf : f ∈ v.files)
    (hC : Carries v.machine.store m.store {f}) (hZero : m.store.data 0 = v.machine.store.data 0)
    (hMarked : ∀ k, m.store.slot f k ≠ 0 →
      IsData (m.store.slot f k) ∧ m.store.bit (m.store.slot f k) = true) :
    Arranged { v with machine := m } N C ∧ Prolongs v N C { v with machine := m } N C := by
  obtain ⟨hDir, hKid⟩ := h.apart f hf
  have hDirs : ∀ p ∈ N.dirs, p ∉ ({f} : Set Nat) := fun p hp he => hDir (h.dirs ▸ he ▸ hp)
  have hKids : ∀ c ∈ C, c ∉ ({f} : Set Nat) := fun c hc he => hKid (he ▸ hc)
  have hOn := h.entriesOn.carry hC hDirs hKids hZero
  refine ⟨⟨hOn, h.dirs, fun g hg => hC.alive g (h.alive g hg), fun g hg k hk => ?_, h.apart⟩,
    subset_rfl, fun p hp => ?_, hC.mono (Set.subset_univ _)⟩
  · by_cases he : g = f
    · subst he
      exact hMarked k hk
    · have hSame := slot_congr (hC.inode g (h.alive g hg) he) k
      change m.store.slot g k ≠ 0 at hk
      change IsData (m.store.slot g k) ∧ m.store.bit (m.store.slot g k) = true
      rw [hSame] at hk ⊢
      obtain ⟨hData, hBit⟩ := h.marked g hg k hk
      exact ⟨hData, (hC.marked _ hData hBit).1⟩
  · have hp' : p ∈ N.dirs := h.dirs ▸ hp
    have hOwn : m.store.directBlocks p = v.machine.store.directBlocks p :=
      directBlocks_congr (hC.inode p (h.entriesOn.dirs_alive hp') (hDirs p hp'))
    have hShared : C.flatMap m.store.directBlocks = C.flatMap v.machine.store.directBlocks :=
      List.flatMap_congr fun c hc =>
        directBlocks_congr (hC.inode c (h.entriesOn.childEntries.alive hc) (hKids c hc))
    rw [entryBlocks, entryBlocks, hOwn, hShared]

/-- An entry was added. -/
theorem entered {p : Nat} {e : Entry} {m : Machine} (h : Arranged v N C) (hp : p ∈ v.dirs)
    (hOn : EntriesOn m.store (N.enter p e) C') (hFiled : Filed v.machine.store m.store p C C') :
    Arranged { v with machine := m } (N.enter p e) C' ∧
      Prolongs v N C { v with machine := m } (N.enter p e) C' := by
  have hp' : p ∈ N.dirs := h.dirs ▸ hp
  refine ⟨h.of_carries hFiled.carries (fun f hf hX => ?_) hOn
    ((Entries.enter_dirs N p e).trans h.dirs) fun f hf => ⟨(h.apart f hf).1, fun hc => ?_⟩,
    subset_rfl, fun q hq => (h.entriesOn.enter_blocks hp' hFiled hOn).1 q (h.dirs ▸ hq),
    hFiled.carries.mono (Set.subset_univ _)⟩
  · rcases hX with he | hc
    · exact (h.apart f hf).1 (Set.mem_singleton_iff.mp he ▸ hp)
    · exact (h.apart f hf).2 hc
  · rcases hFiled.kids with rfl | ⟨c, hDead, rfl⟩
    · exact (h.apart f hf).2 hc
    · rw [List.mem_append, List.mem_singleton] at hc
      rcases hc with hc | rfl
      · exact (h.apart f hf).2 hc
      · exact hDead (h.alive f hf)

end Arranged

/-- `put` on a file whose slots hold marked blocks. -/
theorem wp_put_marked {m : Machine} {f : Nat} (hStack : maxDepth < stack) (hAlive : m.store.Alive f)
    (hMarked : ∀ k, m.store.slot f k ≠ 0 →
      IsData (m.store.slot f k) ∧ m.store.bit (m.store.slot f k) = true) (buf : List Byte) :
    wp (put stack f buf)
      (fun _ m' => Carries m.store m'.store {f} ∧ m'.store.data 0 = m.store.data 0 ∧
        ∀ k, m'.store.slot f k ≠ 0 →
          IsData (m'.store.slot f k) ∧ m'.store.bit (m'.store.slot f k) = true)
      (fun _ m' => Grows m.store m'.store) m := by
  obtain ⟨hLe, hLt⟩ := toInt_toNat_le buf.length
  have hDepth := levels_lt_maxDepth hLt
  rw [put, maskId_of_isInum (isInum_of_alive hAlive)]
  refine wp_mono (wp_writeFile stack m f buf _ hAlive (fun k hk => (hMarked k hk).2) hLe (by omega)
    hDepth) (fun _ m' hPost => ?_) fun _ m' hFailed => ?_
  · split at hPost
    · subst hPost
      exact ⟨Carries.refl _ _, rfl, hMarked⟩
    · obtain ⟨σ₁, hR, -⟩ := hPost.rewrites
      refine ⟨hR.carries, hR.data_zero, fun k hk => ?_⟩
      have hLow : k < 101 := by
        by_contra hHigh
        exact hk (Inode.slot_of_le _ (by omega))
      rcases hR.slot k hLow with hOld | hFresh
      · rw [hOld] at hk ⊢
        obtain ⟨hData, hBit⟩ := hMarked k hk
        exact ⟨hData, (hR.carries.marked _ hData hBit).1⟩
      · rw [hR.bit]
        exact ⟨hFresh.1.1, hFresh.1.2.1⟩
  · obtain ⟨_, _, hProgress⟩ := hFailed.progress
    exact hProgress.grows

/-- One call. -/
theorem Arranged.step (hStack : maxDepth < stack) (h : Arranged v N C) (hStep : Adds stack v w) :
    ∃ N' C', Arranged w N' C' ∧ Prolongs v N C w N' C' := by
  obtain ⟨depth, rfl⟩ : ∃ depth, stack = depth + 2 :=
    ⟨stack - 2, by rw [maxDepth_eq] at hStack; omega⟩
  cases hStep with
  | createDir hRun =>
      obtain ⟨hDir, -, hLater⟩ := h.grown hRun
      exact ⟨_, C, hDir rfl, Set.subset_insert _ _, hLater.blocks, hLater.carries⟩
  | createFile hType hRun =>
      obtain ⟨-, hFile, hLater⟩ := h.grown hRun
      exact ⟨_, C, hFile hType, hLater.dirs, hLater.blocks, hLater.carries⟩
  | @put f buf m hFile hRun =>
      have hPost := wp_ok (wp_put_marked hStack (h.alive f hFile) (h.marked f hFile) buf) hRun
      exact ⟨N, C, h.stored hFile hPost.1 hPost.2.1 hPost.2.2⟩
  | @putFailed f buf m hFile hRun =>
      have hGrows := wp_error (wp_put_marked hStack (h.alive f hFile) (h.marked f hFile) buf) hRun
      have hC := hGrows.carries
      refine ⟨N, C, h.stored hFile (hC.mono (Set.empty_subset _)) hGrows.data_zero fun k hk => ?_⟩
      have hSame := slot_congr (hC.inode f (h.alive f hFile) (Set.notMem_empty f)) k
      rw [hSame] at hk ⊢
      obtain ⟨hData, hBit⟩ := h.marked f hFile k hk
      exact ⟨hData, (hC.marked _ hData hBit).1⟩
  | @addToDir p id name m hDir hRun =>
      have hCall := h.entriesOn.wp_addToDir (h.dirs.symm ▸ hDir)
        (Nat.mod_lt id (Nat.two_pow_pos 32)) depth name
      rw [addToDir_mod] at hCall
      obtain ⟨-, C', hOn, hFiled⟩ := wp_ok hCall hRun
      exact ⟨_, C', h.entered hDir hOn hFiled⟩
  | @addToDirFailed p id name m hDir hRun =>
      have hCall := h.entriesOn.wp_addToDir (h.dirs.symm ▸ hDir)
        (Nat.mod_lt id (Nat.two_pow_pos 32)) depth name
      rw [addToDir_mod] at hCall
      have hStop := wp_error hCall hRun
      cases hStop with
      | full _ _ hStray => exact ⟨N, C, h.strayed hStray⟩
      | crash hStop _ _ => exact absurd rfl hStop.2

theorem Arranged.run (hStack : maxDepth < stack) (h : Arranged v N C)
    (hRun : ReflTransGen (Adds stack) v w) : ∃ N' C', Arranged w N' C' ∧ Prolongs v N C w N' C' := by
  induction hRun with
  | refl => exact ⟨N, C, h, Prolongs.refl v N C⟩
  | tail _ last ih =>
      obtain ⟨N₁, C₁, hMid, hLater⟩ := ih
      obtain ⟨N₂, C₂, hEnd, hLast⟩ := hMid.step hStack last
      exact ⟨N₂, C₂, hEnd, hLater.trans hLast⟩

theorem Reached.arranged (hStack : maxDepth < stack) (h : Reached stack clock v) :
    ∃ N C, Arranged v N C := by
  obtain ⟨_, ⟨m, hInit, rfl⟩, hRun⟩ := h
  obtain ⟨N, C, hEnd, -⟩ := (Arranged.start hInit).run hStack hRun
  exact ⟨N, C, hEnd⟩

/-- An entry can be added while there is room. -/
theorem Arranged.exists_entered {p : Nat} (h : Arranged v N C) (hp : p ∈ v.dirs)
    (hBlocks : 0 < v.machine.store.freeBlocks) (hPlace : Place v.machine.store N p)
    (depth id : Nat) (name : CString)
    (hName : name.bytes.length ≤ 508) :
    ∃ m C', addToDir (depth + 2) p id name v.machine = .ok () m ∧
      Arranged { v with machine := m } (N.enter p (id % 2 ^ 32, name)) C' ∧
      Filed v.machine.store m.store p C C' := by
  have hCall := h.entriesOn.wp_addToDir (h.dirs.symm ▸ hp)
    (Nat.mod_lt id (Nat.two_pow_pos 32)) depth name
  rw [addToDir_mod] at hCall
  cases hResult : addToDir (depth + 2) p id name v.machine with
  | ok _ m =>
      obtain ⟨-, C', hOn, hFiled⟩ := wp_ok hCall hResult
      exact ⟨m, C', rfl, (h.entered hp hOn hFiled).1, hFiled⟩
  | error e m =>
      have hStop := wp_error hCall hResult
      cases hStop with
      | overflow _ _ hLong => omega
      | full hNone _ _ => omega
      | crash _ hNowhere _ => exact absurd hPlace hNowhere

/-- A root directory with `n` entries for inode 2, and nothing else. -/
theorem exists_root_entries (depth : Nat) {n : Nat} (hn : n ≤ 1000) :
    ∃ v N C, Reached (depth + 2) (fun _ => 0) v ∧ Arranged v N C ∧ v.dirs = {1} ∧
      (N.listing 1).length = n ∧ (∀ e ∈ N.listing 1, e.1 = 2) ∧
      2095612 ≤ v.machine.store.freeBlocks + n ∧ 1023 ≤ v.machine.store.freeInodes + n := by
  induction n with
  | zero =>
      obtain ⟨m, hInit, hInodes, hBlocks⟩ := exists_start fun _ => 0
      exact ⟨_, _, _, Reach.start ⟨m, hInit, rfl⟩, Arranged.start hInit, rfl, rfl,
        fun e he => absurd he List.not_mem_nil, hBlocks.ge, hInodes.ge⟩
  | succ n ih =>
      obtain ⟨v, N, C, ⟨m, hInit, hRun⟩, h, hDirs, hLength, hInums, hBlocks, hInodes⟩ :=
        ih (by omega)
      have hp : 1 ∈ v.dirs := hDirs ▸ rfl
      have hSole : N.dirs = {1} := h.dirs.trans hDirs
      have hTotal : N.shared.length ≤ (N.listing 1).length := by
        cases hLarge : N.large 1 with
        | false =>
            rw [h.entriesOn.sole_shared hSole hLarge]
            exact Nat.zero_le _
        | true =>
            rw [Entries.listing_large hLarge, List.length_append]
            exact Nat.le_add_left _ _
      have hPlace : Place v.machine.store N 1 := Or.inr fun _ => ⟨by omega, by omega⟩
      obtain ⟨m', C', hCall, hNext, hFiled⟩ :=
        h.exists_entered hp (by omega) hPlace depth 2 (row 0)
          (by rw [row_length]; exact Nat.zero_le 508)
      have hListing : (N.enter 1 (2, row 0)).listing 1 = N.listing 1 ++ [(2, row 0)] :=
        h.entriesOn.sole_listing_enter hSole (2, row 0)
      have hFewer := hFiled.blocks
      have hFewerInodes := hFiled.inodes
      refine ⟨_, _, C', ⟨m, hInit, hRun.tail (.addToDir hp hCall)⟩, hNext, hDirs, ?_, ?_, ?_, ?_⟩
      · change ((N.enter 1 (2, row 0)).listing 1).length = n + 1
        rw [hListing, List.length_append, hLength]
        rfl
      · change ∀ e ∈ (N.enter 1 (2, row 0)).listing 1, e.1 = 2
        rw [hListing]
        intro e he
        rcases List.mem_append.mp he with hOld | hNew
        · exact hInums e hOld
        · rw [List.mem_singleton.mp hNew]
      · change 2095612 ≤ m'.store.freeBlocks + (n + 1)
        omega
      · change 1023 ≤ m'.store.freeInodes + (n + 1)
        omega

end Runs

end ExtentServer

end InodeFS
