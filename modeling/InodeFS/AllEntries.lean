import InodeFS.ChildEntries
import InodeFS.Session

/-! All directories together. A directory keeps its first 100 entries itself. The
entries behind them go to the children that block 0 lists, and every large
directory lists all of those, its own and the others'. -/
namespace InodeFS

open Bytes Exec Paging Store

namespace ChfsClient

/-- The entries on the disk: the directories with the entries of their own, and
what the large ones share. -/
structure Entries where
  dirs : Set Nat
  own : Nat → List Entry
  large : Nat → Bool
  shared : List Entry

namespace Entries

def start : Entries := { dirs := {1}, own := fun _ => [], large := fun _ => false, shared := [] }

/-- What `readdir` returns. -/
def listing (N : Entries) (p : Nat) : List Entry := N.own p ++ if N.large p then N.shared else []

def grow (N : Entries) (type : FileType) (i : Nat) : Entries :=
  { N with dirs := if type = .T_DIR then insert i N.dirs else N.dirs }

/-- A new entry in a slot of `p`. -/
def put (N : Entries) (p : Nat) (e : Entry) : Entries :=
  { N with own := Function.update N.own p (N.own p ++ [e]) }

/-- A new entry behind the slots of `p`. -/
def share (N : Entries) (p : Nat) (e : Entry) : Entries :=
  { N with large := Function.update N.large p true, shared := N.shared ++ [e] }

def enter (N : Entries) (p : Nat) (e : Entry) : Entries :=
  if (N.own p).length < 100 then N.put p e else N.share p e

/-- The entries anywhere on the disk. -/
def Has (N : Entries) (e : Entry) : Prop := e ∈ N.shared ∨ ∃ p, e ∈ N.own p

variable {N : Entries} {p q i : Nat} {e : Entry} {type : FileType}

@[simp] theorem grow_own : (N.grow type i).own = N.own := rfl
@[simp] theorem grow_large : (N.grow type i).large = N.large := rfl
@[simp] theorem grow_shared : (N.grow type i).shared = N.shared := rfl
@[simp] theorem put_large : (N.put p e).large = N.large := rfl
@[simp] theorem put_shared : (N.put p e).shared = N.shared := rfl
@[simp] theorem share_own : (N.share p e).own = N.own := rfl
@[simp] theorem share_shared : (N.share p e).shared = N.shared ++ [e] := rfl

@[simp] theorem put_own (q : Nat) :
    (N.put p e).own q = if q = p then N.own p ++ [e] else N.own q := by
  simp [put, Function.update_apply]

@[simp] theorem share_large (q : Nat) :
    (N.share p e).large q = if q = p then true else N.large q := by
  simp [share, Function.update_apply]

theorem mem_grow_dirs (h : q ∈ N.dirs) (type : FileType) (i : Nat) : q ∈ (N.grow type i).dirs := by
  rw [grow]
  split
  · exact Or.inr h
  · exact h

theorem listing_small (h : N.large p = false) : N.listing p = N.own p := by
  simp [listing, h]

theorem listing_large (h : N.large p = true) : N.listing p = N.own p ++ N.shared := by
  simp [listing, h]

theorem has_of_listing (h : e ∈ N.listing p) : N.Has e := by
  rw [listing, List.mem_append] at h
  rcases h with hOwn | hShared
  · exact Or.inr ⟨p, hOwn⟩
  · split at hShared
    · exact Or.inl hShared
    · exact absurd hShared List.not_mem_nil

theorem has_put {d : Entry} (h : (N.put p e).Has d) : N.Has d ∨ d = e := by
  rcases h with hShared | ⟨q, hOwn⟩
  · exact Or.inl (Or.inl hShared)
  · rw [put_own] at hOwn
    split at hOwn
    · rw [List.mem_append, List.mem_singleton] at hOwn
      exact hOwn.imp (fun h => Or.inr ⟨p, h⟩) id
    · exact Or.inl (Or.inr ⟨q, hOwn⟩)

theorem has_share {d : Entry} (h : (N.share p e).Has d) : N.Has d ∨ d = e := by
  rcases h with hShared | hOwn
  · rw [share_shared, List.mem_append, List.mem_singleton] at hShared
    exact hShared.imp Or.inl id
  · exact Or.inl (Or.inr hOwn)

theorem has_enter {d : Entry} (h : (N.enter p e).Has d) : N.Has d ∨ d = e := by
  rw [enter] at h
  split at h
  · exact has_put h
  · exact has_share h

theorem enter_dirs (N : Entries) (p : Nat) (e : Entry) : (N.enter p e).dirs = N.dirs := by
  rw [enter]
  split <;> rfl

end Entries

/-- The directories and the children `C` in block 0 are arranged as `N` says. An
entry may name any inum, in use or not. -/
structure EntriesOn (σ : Store) (N : Entries) (C : List Nat) : Prop where
  childEntries : σ.ChildEntries C N.shared
  row : ∀ p ∈ N.dirs, σ.Row p (N.own p) (N.large p)
  kids : ∀ c ∈ C, c ∉ N.dirs
  stray : ∀ p, p ∉ N.dirs → N.own p = [] ∧ N.large p = false
  used : N.shared ≠ [] ↔ ∃ p, N.large p = true

namespace EntriesOn

variable {σ σ' : Store} {N : Entries} {p i : Nat} {C C' : List Nat} {e : Entry} {X : Set Nat}

theorem dirs_alive (h : EntriesOn σ N C) (hp : p ∈ N.dirs) : σ.Alive p := (h.row p hp).alive

theorem start {clock : Nat → UInt32} {m : Machine}
    (hInit : initInodeManager (Machine.zeroed clock) = .ok () m) :
    EntriesOn m.store Entries.start [] := by
  obtain ⟨now, hStore⟩ := wp_ok (wp_initInodeManager clock) hInit
  rw [hStore]
  refine ⟨⟨?_, List.nodup_nil, rfl, fun j hj => absurd hj (Nat.not_lt_zero j)⟩, fun p hp => ?_,
    fun c hc => absurd hc List.not_mem_nil, fun _ _ => ⟨rfl, rfl⟩, ?_⟩
  · rw [Table, putInode_data]
    exact inumBuf_zeros
  · obtain rfl : p = 1 := hp
    exact Row.empty (isInum_iff.mpr (by omega)) rfl
  · constructor
    · exact fun hne => absurd rfl hne
    · rintro ⟨_, hLarge⟩
      cases hLarge

/-- Changes elsewhere leave the directories alone. -/
theorem carry (h : EntriesOn σ N C) (hC : Carries σ σ' X) (hDirs : ∀ p ∈ N.dirs, p ∉ X)
    (hKids : ∀ c ∈ C, c ∉ X) (hZero : σ'.data 0 = σ.data 0) : EntriesOn σ' N C where
  childEntries := h.childEntries.carry hC hKids hZero
  row p hp := (h.row p hp).carry hC (hDirs p hp)
  kids := h.kids
  stray := h.stray
  used := h.used

theorem stray_alloc (h : EntriesOn σ N C) (hStray : Strayed σ σ') : EntriesOn σ' N C :=
  h.carry hStray.carries (fun _ _ hX => hX.elim) (fun _ _ hX => hX.elim) (by rw [hStray.data])

/-- A new inode, and a new directory if it has that type. -/
theorem grow {type : FileType} {now : UInt32} (h : EntriesOn σ N C) (hInum : IsInum i)
    (hDead : ¬σ.Alive i) :
    EntriesOn (σ.putInode i (freshInode type now)) (N.grow type i) C := by
  have hOld := h.stray_alloc (Strayed.freshInode hDead type now)
  by_cases hType : type = .T_DIR
  · have hDirs : (N.grow type i).dirs = insert i N.dirs := if_pos hType
    have hNew : i ∉ N.dirs := fun hi => hDead (h.dirs_alive hi)
    refine { hOld with row := fun p hp => ?_, kids := fun c hc hMem => ?_, stray := fun p hp => ?_ }
    · rcases hDirs ▸ hp with rfl | hp
      · rw [Entries.grow_own, Entries.grow_large, (h.stray p hNew).1, (h.stray p hNew).2]
        exact Row.empty hInum hType
      · exact hOld.row p hp
    · rcases hDirs ▸ hMem with rfl | hMem
      · exact hDead (h.childEntries.alive hc)
      · exact h.kids c hc hMem
    · exact h.stray p fun hMem => hp (hDirs ▸ Or.inr hMem)
  · have hSame : N.grow type i = N := by rw [Entries.grow, if_neg hType]
    rw [hSame]
    exact hOld

/-- The entry went to a slot of `p`. -/
theorem put (h : EntriesOn σ N C) (hp : p ∈ N.dirs) (hSmall : (N.own p).length < 100)
    (hAdd : Added σ σ' p e) : EntriesOn σ' (N.put p e) C where
  childEntries := h.childEntries.carry hAdd.carries (fun c hc he => h.kids c hc (he ▸ hp)) hAdd.zero
  row q hq := by
    rw [Entries.put_own]
    by_cases he : q = p
    · subst he
      rw [if_pos rfl]
      exact (h.row q hq).add hSmall hAdd
    · rw [if_neg he]
      exact (h.row q hq).carry hAdd.carries he
  kids := h.kids
  stray q hq := by
    have hne : q ≠ p := fun he => hq (he ▸ hp)
    rw [Entries.put_own, if_neg hne]
    exact h.stray q hq
  used := h.used

/-- The entry went behind the slots of `p`. -/
theorem share (h : EntriesOn σ N C) (hp : p ∈ N.dirs)
    (hE : Entered σ σ' p (N.own p) C C' N.shared e) : EntriesOn σ' (N.share p e) C' := by
  have hKids : ∀ c ∈ C', c ∉ N.dirs := by
    rcases hE.filed.kids with rfl | ⟨c, hDead, rfl⟩
    · exact h.kids
    · intro d hd
      rw [List.mem_append, List.mem_singleton] at hd
      rcases hd with hd | rfl
      · exact h.kids d hd
      · exact fun hMem => hDead (h.dirs_alive hMem)
  refine ⟨hE.childEntries, fun q hq => ?_, hKids, fun q hq => ?_, ?_⟩
  · rw [Entries.share_large]
    by_cases he : q = p
    · subst he
      rw [if_pos rfl]
      exact hE.row
    · rw [if_neg he]
      refine (h.row q hq).carry hE.filed.carries ?_
      rintro (hqp | hqC)
      · exact he hqp
      · exact h.kids q hqC hq
  · have hne : q ≠ p := fun he => hq (he ▸ hp)
    rw [Entries.share_large, if_neg hne]
    exact h.stray q hq
  · constructor
    · exact fun _ => ⟨p, by simp⟩
    · intro _
      simp

end EntriesOn

/-- There is a place for one entry more in the directory `p`: a slot of its own, or a child
that is not full or can be allocated. -/
def Place (σ : Store) (N : Entries) (p : Nat) : Prop :=
  (N.own p).length < 100 ∨ σ.PlaceBehind N.shared

/-- `add_to_dir` from any state of the directories. -/
theorem EntriesOn.wp_addToDir {m : Machine} {N : Entries} {p i : Nat} {C : List Nat}
    (h : EntriesOn m.store N C) (hp : p ∈ N.dirs) (hi : i < 2 ^ 32) (stack : Nat) (name : CString) :
    wp (ExtentServer.addToDir (stack + 2) p i name)
      (fun _ m' => name.bytes.length ≤ 508 ∧
        ∃ C', EntriesOn m'.store (N.enter p (i, name)) C' ∧ Filed m.store m'.store p C C')
      (fun e m' => Refused m.store m'.store (Place m.store N p) name e) m := by
  have hRow := h.row p hp
  have hRange := isInum_iff.mp hRow.lists.inum
  rw [ExtentServer.addToDir, Nat.mod_eq_of_lt (by omega), Nat.mod_eq_of_lt hi, Entries.enter]
  by_cases hSmall : (N.own p).length < 100
  · have hSize : m.store.size p < 100 := by
      rw [hRow.size, hRow.not_large hSmall]
      exact hSmall
    rw [if_pos hSmall]
    refine wp_mono (wp_addToDir_small hRow.lists.inum hRow.lists.dir hSize hi)
      (fun _ m' hPost => ⟨hPost.1, C, h.put hp hSmall hPost.2, hPost.2.filed hSize fun hc => h.kids p hc hp⟩)
      fun e m' hStop => hStop.mono ⟨fun _ => Or.inl hSmall, fun _ => trivial⟩
  · have hFew := hRow.few
    rw [if_neg hSmall]
    refine wp_mono (wp_addToDir_full h.childEntries hRow (by omega) (fun hc => h.kids p hc hp) hi)
      (fun _ m' hPost => ?_) fun e m' hStop =>
        hStop.mono ⟨Or.inr, fun hPlace => hPlace.resolve_left hSmall⟩
    obtain ⟨hName, C', hE⟩ := hPost
    exact ⟨hName, C', h.share hp hE, hE.filed⟩

section Listing

variable {m : Machine} {p stack : Nat} {C : List Nat} {l s : List Entry} {large : Bool}

theorem readDir_entriesOn (h : m.store.ChildEntries C s) (hRow : m.store.Row p l large) :
    ExtentServer.readDir m (stack + 2) p = .ok (l ++ if large then s else []) := by
  have hRange := isInum_iff.mp hRow.lists.inum
  rw [ExtentServer.readDir, Nat.mod_eq_of_lt (by omega)]
  cases large with
  | false =>
      rw [readDir_row hRow]
      exact congrArg Except.ok (List.append_nil l).symm
  | true => exact readDir_childEntries h hRow

theorem EntriesOn.readDir_eq {N : Entries} (h : EntriesOn m.store N C) (hp : p ∈ N.dirs) :
    ExtentServer.readDir m (stack + 2) p = .ok (N.listing p) :=
  readDir_entriesOn h.childEntries (h.row p hp)

end Listing

/-- Names of different lengths, to fill directories. -/
def row (k : Nat) : CString where
  bytes := List.replicate k 97
  nul_free h := absurd (List.mem_replicate.mp h).2 (by decide)

theorem row_length (k : Nat) : (row k).bytes.length = k := List.length_replicate

end ChfsClient
end InodeFS
