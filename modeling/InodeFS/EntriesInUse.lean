import InodeFS.AllEntries
import InodeFS.Client
import InodeFS.Isolation

/-! The directories of a client, whose entries name inodes in use, and what `create`,
`mkdir` and `ln` do to them. -/
namespace InodeFS

open Bytes Exec Paging Store

namespace ChfsClient

/-- The store holds the entries `N`, with the children `C` in block 0. -/
structure EntriesInUse (σ : Store) (N : Entries) (C : List Nat) : Prop where
  childEntries : σ.ChildEntries C N.shared
  row : ∀ p ∈ N.dirs, σ.Row p (N.own p) (N.large p)
  kids : ∀ c ∈ C, c ∉ N.dirs
  stray : ∀ p, p ∉ N.dirs → N.own p = [] ∧ N.large p = false
  used : N.shared ≠ [] ↔ ∃ p, N.large p = true
  alive : ∀ e, N.Has e → σ.Alive e.1
  inums : (N.shared.map Prod.fst).Nodup

namespace EntriesInUse

variable {σ σ' : Store} {N : Entries} {p i : Nat} {C C' : List Nat} {e : Entry} {X : Set Nat}

theorem entriesOn (h : EntriesInUse σ N C) : EntriesOn σ N C := ⟨h.childEntries, h.row, h.kids, h.stray, h.used⟩

theorem of_entriesOn (h : EntriesOn σ N C) (hAlive : ∀ e, N.Has e → σ.Alive e.1)
    (hInums : (N.shared.map Prod.fst).Nodup) : EntriesInUse σ N C :=
  ⟨h.childEntries, h.row, h.kids, h.stray, h.used, hAlive, hInums⟩

theorem dirs_alive (h : EntriesInUse σ N C) (hp : p ∈ N.dirs) : σ.Alive p := (h.row p hp).alive

theorem mem_dirs (h : EntriesInUse σ N C) (hp : N.large p = true) : p ∈ N.dirs := by
  by_contra hNot
  rw [(h.stray p hNot).2] at hp
  cases hp

/-- A directory is large when it lists more than 100 entries. -/
theorem length_listing (h : EntriesInUse σ N C) (hp : p ∈ N.dirs) :
    N.large p = true ↔ 100 < (N.listing p).length := by
  have hRow := h.row p hp
  constructor
  · intro hLarge
    have hFull := hRow.full hLarge
    have hne := List.length_pos_of_ne_nil (h.used.mpr ⟨p, hLarge⟩)
    rw [Entries.listing_large hLarge, List.length_append]
    omega
  · intro hLength
    by_contra hSmall
    have hFew := hRow.few
    rw [Entries.listing_small (by simpa using hSmall)] at hLength
    omega

/-- Entries name inodes of their own, and there are 1024 inodes. -/
theorem shared_length_le {m : Machine} (h : EntriesInUse m.store N C) : N.shared.length ≤ 1024 := by
  have hSub : (N.shared.map Prod.fst).toFinset ⊆ Finset.Icc 1 1024 := by
    intro i hi
    obtain ⟨e, he, rfl⟩ := List.mem_map.mp (List.mem_toFinset.mp hi)
    exact Finset.mem_Icc.mpr (isInum_iff.mp (isInum_of_alive (h.alive e (Or.inl he))))
  have hCard := Finset.card_le_card hSub
  rw [List.toFinset_card_of_nodup h.inums, List.length_map, Nat.card_Icc] at hCard
  exact hCard

theorem start {clock : Nat → UInt32} {m : Machine}
    (hInit : initInodeManager (Machine.zeroed clock) = .ok () m) :
    EntriesInUse m.store Entries.start [] := by
  refine of_entriesOn (EntriesOn.start hInit) (fun e he => ?_) List.nodup_nil
  rcases he with he | ⟨p, he⟩
  · exact absurd he List.not_mem_nil
  · exact absurd he List.not_mem_nil

/-- Changes elsewhere leave the directories alone. -/
theorem carry (h : EntriesInUse σ N C) (hC : Carries σ σ' X) (hDirs : ∀ p ∈ N.dirs, p ∉ X)
    (hKids : ∀ c ∈ C, c ∉ X) (hZero : σ'.data 0 = σ.data 0) : EntriesInUse σ' N C :=
  of_entriesOn (h.entriesOn.carry hC hDirs hKids hZero) (fun e he => hC.alive _ (h.alive e he)) h.inums

theorem stray_alloc (h : EntriesInUse σ N C) (hStray : Strayed σ σ') : EntriesInUse σ' N C :=
  h.carry hStray.carries (fun _ _ hX => hX.elim) (fun _ _ hX => hX.elim) (by rw [hStray.data])

/-- A new inode, and a new directory if it has that type. -/
theorem grow {type : FileType} {now : UInt32} (h : EntriesInUse σ N C) (hInum : IsInum i)
    (hDead : ¬σ.Alive i) :
    EntriesInUse (σ.putInode i (freshInode type now)) (N.grow type i) C :=
  of_entriesOn (h.entriesOn.grow hInum hDead)
    (fun e he => (Strayed.freshInode hDead type now).carries.alive _ (h.alive e he)) h.inums

/-- A new entry in `p`, for an inode that the shared entries do not name. -/
theorem enter (h : EntriesInUse σ N C) (hNew : e.1 ∉ N.shared.map Prod.fst) (hAlive : σ.Alive e.1)
    (hOn : EntriesOn σ' (N.enter p e) C') (hFiled : Filed σ σ' p C C') :
    EntriesInUse σ' (N.enter p e) C' := by
  refine of_entriesOn hOn (fun d hd => ?_) ?_
  · rcases Entries.has_enter hd with hOld | rfl
    · exact hFiled.carries.alive _ (h.alive d hOld)
    · exact hFiled.carries.alive _ hAlive
  · rw [Entries.enter]
    split
    · exact h.inums
    · rw [Entries.share_shared, List.map_append, List.map_singleton]
      refine List.nodup_append.mpr ⟨h.inums, List.nodup_singleton _, fun a ha b hb he => ?_⟩
      rw [List.mem_singleton.mp hb] at he
      exact hNew (he ▸ ha)

end EntriesInUse

/-- What `create`, `mkdir` and `ln` do for a new name: an inode is allocated, and
the entry is added. -/
structure Made (σ σ' : Store) (N : Entries) (type : FileType) (p i : Nat) (name : CString)
    (C C' : List Nat) (now : UInt32) : Prop where
  dir : p ∈ N.dirs
  inum : IsInum i
  dead : ¬σ.Alive i
  inUse : EntriesInUse σ' ((N.grow type i).enter p (i, name)) C'
  filed : Filed (σ.putInode i (freshInode type now)) σ' p C C'

section Calls

variable {m : Machine} {N : Entries} {p stack inoOut : Nat} {C : List Nat} {type : FileType}
  {name : CString}

theorem readdir_row {s : List Entry} {l : List Entry} {large : Bool} (h : m.store.ChildEntries C s)
    (hRow : m.store.Row p l large) :
    readdir m (stack + 2) p = .ok (l ++ if large then s else []) :=
  readDir_entriesOn h hRow

namespace EntriesInUse

theorem readdir_eq (h : EntriesInUse m.store N C) (hp : p ∈ N.dirs) :
    readdir m (stack + 2) p = .ok (N.listing p) :=
  readdir_row h.childEntries (h.row p hp)

theorem lookup_eq (h : EntriesInUse m.store N C) (hp : p ∈ N.dirs) (stack : Nat) (name : CString) :
    lookup m (stack + 2) p name =
      .ok (((N.listing p).find? fun e => name == e.2).map Prod.fst) := by
  rw [lookup, h.readdir_eq hp]
  rfl

end EntriesInUse

theorem find?_of_notMem {l : List Entry} (hName : name ∉ l.map Prod.snd) :
    l.find? (fun d => name == d.2) = none := by
  refine List.find?_eq_none.mpr fun d hd => ?_
  simpa using fun he : name = d.2 => hName (he ▸ List.mem_map_of_mem hd)

theorem exists_find? {l : List Entry} (hName : name ∈ l.map Prod.snd) :
    ∃ e ∈ l, l.find? (fun d => name == d.2) = some e ∧ e.2 = name := by
  obtain ⟨d, hd, hName⟩ := List.mem_map.mp hName
  cases hFind : l.find? (fun d => name == d.2) with
  | none => exact absurd hName.symm (by simpa using List.find?_eq_none.mp hFind d hd)
  | some e =>
      have hEq : name = e.2 := by simpa using List.find?_some hFind
      exact ⟨e, List.mem_of_find?_eq_some hFind, rfl, hEq.symm⟩

namespace EntriesInUse

/-- A name that is listed is not created again, and nothing changes. -/
theorem createNode_exist (h : EntriesInUse m.store N C) (type : FileType) (stack inoOut : Nat)
    (hp : p ∈ N.dirs) (hName : name ∈ (N.listing p).map Prod.snd) :
    createNode type (stack + 2) p name inoOut m = .ok (.EXIST, inoOut) m := by
  obtain ⟨e, -, hFind, -⟩ := exists_find? hName
  have hLookup := h.lookup_eq hp stack name
  rw [hFind] at hLookup
  simp only [createNode, bind, EStateM.bind, query, hLookup]
  rfl

theorem createNode_new (h : EntriesInUse m.store N C) (hp : p ∈ N.dirs)
    (hNew : name ∉ (N.listing p).map Prod.snd) :
    createNode type (stack + 2) p name inoOut m = (do
      let i ← ExtentServer.create type
      ExtentServer.addToDir (stack + 2) p i name
      return (Status.OK, i)) m := by
  have hLookup := h.lookup_eq hp stack name
  rw [find?_of_notMem hNew] at hLookup
  simp only [createNode, bind, EStateM.bind, query, hLookup, Option.map_none]

theorem wp_addToDir {e : Entry} (h : EntriesInUse m.store N C) (hp : p ∈ N.dirs)
    (hAlive : m.store.Alive e.1) (hInum : e.1 ∉ N.shared.map Prod.fst)
    (hName : e.2.bytes.length ≤ 508) :
    wp (ExtentServer.addToDir (stack + 2) p e.1 e.2)
      (fun _ m' => ∃ C', EntriesInUse m'.store (N.enter p e) C' ∧ Filed m.store m'.store p C C')
      (fun _ m' => Halted m.store m'.store) m := by
  have hRange := isInum_iff.mp (isInum_of_alive hAlive)
  have hShared := h.shared_length_le
  refine wp_mono (h.entriesOn.wp_addToDir hp (show e.1 < 2 ^ 32 by omega) _ _) (fun _ m' hPost => ?_)
    fun e' m' hStop => ?_
  · obtain ⟨-, C', hOn, hFiled⟩ := hPost
    exact ⟨C', h.enter hInum hAlive hOn hFiled, hFiled⟩
  · cases hStop with
    | overflow _ _ hLong => omega
    | full hNone _ hStray => exact ⟨Or.inl hNone, hStray⟩
    | crash _ hNowhere hStray =>
        refine ⟨Or.inr (Nat.eq_zero_of_not_pos fun hSome => hNowhere (Or.inr fun _ => ⟨hSome, ?_⟩)), hStray⟩
        omega

theorem wp_createNode (h : EntriesInUse m.store N C) (type : FileType) (stack inoOut : Nat)
    (hp : p ∈ N.dirs) (hNew : name ∉ (N.listing p).map Prod.snd) (hName : name.bytes.length ≤ 508) :
    wp (createNode type (stack + 2) p name inoOut)
      (fun r m' => ∃ i C' now, r = (.OK, i) ∧ Made m.store m'.store N type p i name C C' now)
      (fun _ m' => (m.store.freeBlocks = 0 ∨ m.store.freeInodes ≤ 1) ∧
        Strayed m.store m'.store) m := by
  rw [wp, h.createNode_new hp hNew]
  change wp (ExtentServer.create type >>= _) _ _ m
  rw [wp_bind]
  refine wp_allocInode type (fun i now m₁ hInum hDead _ hStore => ?_) fun hAll =>
    ⟨Or.inr ((freeInodes_eq_zero hAll).trans_le (Nat.zero_le 1)), Strayed.refl m.store⟩
  have hGrown : EntriesInUse m₁.store (N.grow type i) C := hStore ▸ h.grow hInum hDead
  have hStray : Strayed m.store m₁.store := hStore ▸ Strayed.freshInode hDead type now
  have hAlive : m₁.store.Alive i := by
    rw [hStore, Alive, putInode_inode, if_pos rfl]
    exact FileType.code_toUInt16_ne_zero type
  have hFresh : i ∉ (N.grow type i).shared.map Prod.fst := by
    intro hMem
    obtain ⟨e, he, rfl⟩ := List.mem_map.mp hMem
    exact hDead (h.alive e (Or.inl he))
  have hOne : m₁.store.freeInodes + 1 = m.store.freeInodes := by
    rw [hStore]
    exact freeInodes_putInode hInum hDead (FileType.code_toUInt16_ne_zero type)
  rw [wp_bind]
  refine wp_mono (hGrown.wp_addToDir (e := (i, name)) (Entries.mem_grow_dirs hp type i) hAlive hFresh
    hName) (fun _ m' hPost => ?_) fun _ m' hHalted => ⟨?_, hStray.trans hHalted.strayed⟩
  · obtain ⟨C', hInUse, hFiled⟩ := hPost
    exact ⟨i, C', now, rfl, hp, hInum, hDead, hInUse, hStore ▸ hFiled⟩
  · rcases hHalted.short with hNone | hNone
    · have hSame : m₁.store.freeBlocks = m.store.freeBlocks := freeBlocks_congr hStray.bit
      exact Or.inl (hSame ▸ hNone)
    · exact Or.inr (by omega)

end EntriesInUse

end Calls

namespace Entries

variable {N : Entries} {p i : Nat} {e : Entry} {type : FileType}

/-- No inum is listed twice, except that large directories list the same. -/
structure Distinct (N : Entries) : Prop where
  inums : ∀ p, ((N.own p ++ N.shared).map Prod.fst).Nodup
  once : ∀ p q, p ≠ q → ∀ d ∈ N.own p, ∀ e ∈ N.own q, d.1 ≠ e.1

theorem Distinct.grow (h : N.Distinct) (type : FileType) (i : Nat) : (N.grow type i).Distinct :=
  ⟨h.inums, h.once⟩

theorem notMem_of_new (hNew : ∀ d, N.Has d → e.1 ≠ d.1) (p : Nat) :
    e.1 ∉ (N.own p ++ N.shared).map Prod.fst := by
  intro hMem
  obtain ⟨d, hd, hEq⟩ := List.mem_map.mp hMem
  exact hNew d ((List.mem_append.mp hd).elim (fun hOwn => Or.inr ⟨p, hOwn⟩) Or.inl) hEq.symm

theorem Distinct.put (h : N.Distinct) (hNew : ∀ d, N.Has d → e.1 ≠ d.1) (p : Nat) :
    (N.put p e).Distinct := by
  have hCases : ∀ a, ∀ d ∈ (N.put p e).own a, d ∈ N.own a ∨ a = p ∧ d = e := by
    intro a d hd
    rw [put_own] at hd
    split at hd
    · rename_i ha
      subst ha
      rw [List.mem_append, List.mem_singleton] at hd
      exact hd.imp id fun he => ⟨rfl, he⟩
    · exact Or.inl hd
  constructor
  · intro q
    rw [put_own, put_shared]
    by_cases hq : q = p
    · subst hq
      rw [if_pos rfl, List.append_assoc]
      refine (List.Perm.nodup_iff ?_).mpr (List.nodup_cons.mpr ⟨notMem_of_new hNew q, h.inums q⟩)
      exact List.perm_middle.map Prod.fst
    · rw [if_neg hq]
      exact h.inums q
  · intro a b hab d hd f hf
    rcases hCases a d hd with hOld | ⟨ha, hEq⟩
    · rcases hCases b f hf with hOld' | ⟨hb, hEq'⟩
      · exact h.once a b hab d hOld f hOld'
      · exact hEq' ▸ (hNew d (Or.inr ⟨a, hOld⟩)).symm
    · rcases hCases b f hf with hOld' | ⟨hb, -⟩
      · exact hEq ▸ hNew f (Or.inr ⟨b, hOld'⟩)
      · exact absurd (ha.trans hb.symm) hab

theorem Distinct.share (h : N.Distinct) (hNew : ∀ d, N.Has d → e.1 ≠ d.1) (p : Nat) :
    (N.share p e).Distinct := by
  refine ⟨fun q => ?_, h.once⟩
  rw [share_own, share_shared, ← List.append_assoc, List.map_append]
  refine (List.Perm.nodup_iff (List.perm_append_singleton e.1 _)).mpr ?_
  exact List.nodup_cons.mpr ⟨notMem_of_new hNew q, h.inums q⟩

theorem Distinct.enter (h : N.Distinct) (hNew : ∀ d, N.Has d → e.1 ≠ d.1) (p : Nat) :
    (N.enter p e).Distinct := by
  rw [Entries.enter]
  split
  · exact h.put hNew p
  · exact h.share hNew p

end Entries

/-- Nothing was ever written to a file: the blocks in use are entry blocks. -/
structure OnlyEntries (σ : Store) (N : Entries) (C : List Nat) : Prop where
  inUse : EntriesInUse σ N C
  apart : σ.Apart
  blank : ∀ i, i ∉ N.dirs → i ∉ C → σ.size i = 0 ∧ ∀ k, σ.slot i k = 0
  distinct : N.Distinct

namespace OnlyEntries

variable {σ σ' : Store} {N : Entries} {p i : Nat} {C C' : List Nat} {type : FileType}
  {name : CString} {now : UInt32}

theorem start {clock : Nat → UInt32} {m : Machine}
    (hInit : initInodeManager (Machine.zeroed clock) = .ok () m) :
    OnlyEntries m.store Entries.start [] := by
  have hInUse := EntriesInUse.start hInit
  obtain ⟨now, hStore⟩ := wp_ok (wp_initInodeManager clock) hInit
  have hDead : ∀ i, ¬Store.blank.Alive i := fun i hi => hi rfl
  have hStray : Strayed Store.blank m.store := by
    rw [hStore]
    exact Strayed.freshInode (hDead 1) .T_DIR now
  have hNone : Store.blank.Apart :=
    ⟨fun i hi => (hDead i hi).elim, fun i _ hi => (hDead i hi).elim⟩
  exact ⟨hInUse, hStray.apart hNone, fun i _ _ => hStray.blank ⟨rfl, Inode.cleared_slot⟩,
    fun _ => List.nodup_nil, fun _ _ _ d hd => absurd hd List.not_mem_nil⟩

theorem stray_alloc (h : OnlyEntries σ N C) (hStray : Strayed σ σ') : OnlyEntries σ' N C where
  inUse := h.inUse.stray_alloc hStray
  apart := hStray.apart h.apart
  blank i hi hc := hStray.blank (h.blank i hi hc)
  distinct := h.distinct

/-- `create`, `mkdir` or `ln` with a new name. -/
theorem made (h : OnlyEntries σ N C) (hMade : Made σ σ' N type p i name C C' now) :
    OnlyEntries σ' ((N.grow type i).enter p (i, name)) C' where
  inUse := hMade.inUse
  apart := hMade.filed.apart ((Strayed.freshInode hMade.dead type now).apart h.apart)
  blank j hj hc := by
    rw [Entries.enter_dirs] at hj
    have hOld : j ∉ N.dirs := fun hMem => hj (Entries.mem_grow_dirs hMem type i)
    have hcOld : j ∉ C := by
      rcases hMade.filed.kids with rfl | ⟨c, -, rfl⟩
      · exact hc
      · exact fun hMem => hc (List.mem_append_left _ hMem)
    have hSame := hMade.filed.inode j (fun he => hOld (he ▸ hMade.dir)) hc
    rw [size_congr hSame]
    simp only [slot_congr hSame]
    exact (h.stray_alloc (Strayed.freshInode hMade.dead type now)).blank j hOld hcOld
  distinct := by
    refine (h.distinct.grow type i).enter (fun d hd he => ?_) p
    have hEq : i = d.1 := he
    exact hMade.dead (hEq ▸ h.inUse.alive d hd)

end OnlyEntries

end ChfsClient
end InodeFS
