import InodeFS.Removal
import InodeFS.Discard
import InodeFS.Unlink

/-! What `unlink` does to the directories of a client: the entry goes, and the last entry
takes its place. A large directory gives up the last of the shared entries. -/
namespace InodeFS

open Bytes Exec Paging Store

namespace ChfsClient

namespace Entries

variable {N : Entries} {p q k : Nat} {d e : Entry}

/-- The entries after the one at index `k` of `p` was removed. -/
def cut (N : Entries) (p k : Nat) : Entries :=
  { N with
    own := Function.update N.own p ((swapOut (N.listing p) k).take 100)
    shared := if N.large p then (swapOut (N.listing p) k).drop 100 else N.shared }

@[simp] theorem cut_dirs : (N.cut p k).dirs = N.dirs := rfl
@[simp] theorem cut_large : (N.cut p k).large = N.large := rfl

theorem cut_own_self : (N.cut p k).own p = (swapOut (N.listing p) k).take 100 :=
  Function.update_self _ _ _

theorem cut_own_of_ne (h : q ≠ p) : (N.cut p k).own q = N.own q := Function.update_of_ne h _ _

theorem cut_shared_small (h : N.large p = false) : (N.cut p k).shared = N.shared := by
  simp [cut, h]

theorem cut_shared_large (h : N.large p = true) :
    (N.cut p k).shared = (swapOut (N.listing p) k).drop 100 := by
  simp [cut, h]

theorem cut_own_small (h : N.large p = false) (hFew : (N.own p).length ≤ 100) :
    (N.cut p k).own p = swapOut (N.own p) k := by
  rw [cut_own_self, listing_small h, List.take_of_length_le]
  rw [length_swapOut]
  omega

/-- The listing of the directory itself. -/
theorem cut_listing (hFew : (N.own p).length ≤ 100) :
    (N.cut p k).listing p = swapOut (N.listing p) k := by
  cases hLarge : N.large p with
  | false =>
      rw [listing_small (by rw [cut_large, hLarge]), cut_own_small hLarge hFew, listing_small hLarge]
  | true =>
      rw [listing_large (by rw [cut_large, hLarge]), cut_own_self, cut_shared_large hLarge,
        List.take_append_drop]

variable (hk : k < (N.listing p).length)
include hk

theorem mem_cut_own (h : d ∈ (N.cut p k).own p) : d ∈ N.listing p := by
  rw [cut_own_self] at h
  exact mem_of_mem_swapOut hk (List.mem_of_mem_take h)

theorem has_cut (h : (N.cut p k).Has d) : N.Has d := by
  rcases h with hShared | ⟨q, hOwn⟩
  · cases hLarge : N.large p with
    | false =>
        rw [cut_shared_small hLarge] at hShared
        exact Or.inl hShared
    | true =>
        rw [cut_shared_large hLarge] at hShared
        exact has_of_listing (mem_of_mem_swapOut hk (List.mem_of_mem_drop hShared))
  · by_cases hq : q = p
    · subst hq
      exact has_of_listing (mem_cut_own hk hOwn)
    · rw [cut_own_of_ne hq] at hOwn
      exact Or.inr ⟨q, hOwn⟩

/-- The shared entries lose one, or none. -/
theorem cut_shared_subperm (hFull : N.large p = true → (N.own p).length = 100 ∧ N.shared ≠ []) :
    List.Subperm (N.cut p k).shared N.shared := by
  cases hLarge : N.large p with
  | false =>
      rw [cut_shared_small hLarge]
  | true =>
      obtain ⟨hOwn, hNe⟩ := hFull hLarge
      rw [listing_large hLarge] at hk
      rw [cut_shared_large hLarge, listing_large hLarge, ← hOwn]
      exact swapOut_drop_subperm hNe hk

end Entries

namespace EntriesOn

variable {σ σ' : Store} {N : Entries} {C : List Nat} {p k x i y j : Nat} {gone : Prop}

/-- The entry is removed in the arrangement of the directories. No child became empty. -/
theorem cut (h : EntriesOn σ N C) (hA : σ.Apart) (hp : p ∈ N.dirs) (hk : k < (N.listing p).length)
    (hM : Moved σ σ' gone x i y j) (hP : σ.Places x i y j) (hx : x = p ∨ x ∈ C)
    (hy : y = p ∨ y ∈ C)
    (hRow : σ'.Row p ((N.cut p k).own p) (N.large p))
    (hChildEntries : σ'.ChildEntries C (N.cut p k).shared)
    (hMore : N.large p = true → 1 < N.shared.length) : EntriesOn σ' (N.cut p k) C where
  childEntries := hChildEntries
  row q hq := by
    by_cases he : q = p
    · subst he
      exact hRow
    · have hApart : ∀ z, z = p ∨ z ∈ C → q ≠ z := by
        rintro z (rfl | hz) rfl
        · exact he rfl
        · exact h.kids q hz hq
      have hOld := h.row q hq
      obtain ⟨hData, hBit⟩ := hA.marked y hP.last_alive j (by
        have := hP.last
        have := hP.low
        omega)
      rw [Entries.cut_own_of_ne he]
      refine hM.row hP hA hOld (fun hGone => hApart y hy hGone.2)
        (fun hEq => absurd hEq (hApart y hy)) ⟨hData, hBit, rfl⟩ ?_ fun t _ => ?_
      · rw [if_neg (hApart y hy), Nat.sub_zero]
      · rw [if_neg fun hEq => hApart x hx hEq.1]
  kids := h.kids
  stray q hq := by
    have hne : q ≠ p := fun he => hq (he ▸ hp)
    rw [Entries.cut_own_of_ne hne]
    exact h.stray q hq
  used := by
    rw [Entries.cut_large, ← h.used]
    cases hLarge : N.large p with
    | false => rw [Entries.cut_shared_small hLarge]
    | true =>
        have hFull := (h.row p hp).full hLarge
        have hMany := hMore hLarge
        have hLength : (N.cut p k).shared.length = N.shared.length - 1 := by
          rw [Entries.cut_shared_large hLarge, List.length_drop, length_swapOut,
            Entries.listing_large hLarge, List.length_append, hFull]
          omega
        exact iff_of_true (List.ne_nil_of_length_pos (by omega)) (List.ne_nil_of_length_pos (by omega))

end EntriesOn

namespace Entries.Distinct

variable {N : Entries} {p k : Nat} {e : Entry}

theorem listing_inums (h : N.Distinct) (p : Nat) : ((N.listing p).map Prod.fst).Nodup := by
  refine (h.inums p).sublist (List.Sublist.map _ ?_)
  rw [listing]
  refine (List.append_sublist_append_left _).mpr ?_
  split
  · exact List.Sublist.refl _
  · exact List.nil_sublist _

/-- The inum of the removed entry is not listed any more. -/
theorem ne_of_has_cut (h : N.Distinct) (hk : (N.listing p)[k]? = some e) {d : Entry}
    (hd : (N.cut p k).Has d) : d.1 ≠ e.1 := by
  obtain ⟨hLt, hGet⟩ := List.getElem?_eq_some_iff.mp hk
  have hInums := h.listing_inums p
  -- within the listing of `p`
  have hGone : ∀ d ∈ swapOut (N.listing p) k, d.1 ≠ e.1 := by
    intro d hd he
    have hMem := (swapOut_perm hLt).mem_iff.mp hd
    obtain ⟨t, ht, hNe, hEq⟩ := List.mem_eraseIdx_iff_getElem.mp hMem
    refine hNe ((List.getElem?_inj (by simpa using ht) hInums).mp ?_)
    rw [List.getElem?_map, List.getElem?_map, List.getElem?_eq_getElem ht, hk, hEq]
    exact congrArg some he
  have he : e ∈ N.listing p := List.mem_of_getElem? hk
  have hAcross : ∀ q, ∀ a ∈ N.own q, ∀ b ∈ N.shared, a.1 ≠ b.1 := by
    intro q a ha b hb
    have hNodup := h.inums q
    rw [List.map_append] at hNodup
    exact (List.nodup_append.mp hNodup).2.2 _ (List.mem_map_of_mem ha) _ (List.mem_map_of_mem hb)
  rcases hd with hShared | ⟨q, hOwn⟩
  · cases hLarge : N.large p with
    | false =>
        rw [cut_shared_small hLarge] at hShared
        rw [listing_small hLarge] at he
        exact (hAcross p e he d hShared).symm
    | true =>
        rw [cut_shared_large hLarge] at hShared
        exact hGone d (List.mem_of_mem_drop hShared)
  · by_cases hq : q = p
    · subst hq
      rw [cut_own_self] at hOwn
      exact hGone d (List.mem_of_mem_take hOwn)
    · rw [cut_own_of_ne hq] at hOwn
      rw [listing, List.mem_append] at he
      rcases he with hSelf | hBehind
      · exact h.once q p hq d hOwn e hSelf
      · split at hBehind
        · exact hAcross q d hOwn e hBehind
        · exact absurd hBehind List.not_mem_nil

theorem cut (h : N.Distinct) (hk : k < (N.listing p).length)
    (hFull : N.large p = true → (N.own p).length = 100 ∧ N.shared ≠ [])
    (hFew : (N.own p).length ≤ 100) : (N.cut p k).Distinct := by
  have hShared := cut_shared_subperm hk hFull
  have hMem : ∀ d ∈ (N.cut p k).own p, d ∈ N.own p ∨ d ∈ N.shared ∧ N.large p = true := by
    intro d hd
    have hIn := mem_cut_own hk hd
    rw [listing, List.mem_append] at hIn
    refine hIn.imp_right fun hBehind => ?_
    split at hBehind
    · rename_i hLarge
      exact ⟨hBehind, hLarge⟩
    · exact absurd hBehind List.not_mem_nil
  have hOnce : ∀ q ≠ p, ∀ d ∈ (N.cut p k).own p, ∀ f ∈ N.own q, d.1 ≠ f.1 := by
    intro q hq d hd f hf
    rcases hMem d hd with hOwn | ⟨hBehind, -⟩
    · exact h.once p q hq.symm d hOwn f hf
    · have hNodup := h.inums q
      rw [List.map_append] at hNodup
      exact ((List.nodup_append.mp hNodup).2.2 _ (List.mem_map_of_mem hf) _
        (List.mem_map_of_mem hBehind)).symm
  constructor
  · intro q
    by_cases hq : q = p
    · subst hq
      cases hLarge : N.large q with
      | false =>
          rw [cut_own_small hLarge hFew, cut_shared_small hLarge]
          rw [listing_small hLarge] at hk
          have hPerm := ((swapOut_perm hk).append_right N.shared).map Prod.fst
          refine hPerm.nodup_iff.mpr ((h.inums q).sublist (List.Sublist.map _ ?_))
          exact (List.append_sublist_append_right _).mpr (List.eraseIdx_sublist _ _)
      | true =>
          have hSame : (N.cut q k).own q ++ (N.cut q k).shared = swapOut (N.listing q) k := by
            rw [← cut_listing hFew, listing_large (by rw [cut_large, hLarge])]
          have hAll := h.inums q
          rw [← listing_large hLarge] at hAll
          rw [hSame]
          refine ((swapOut_perm hk).map Prod.fst).nodup_iff.mpr (hAll.sublist (List.Sublist.map _ ?_))
          exact List.eraseIdx_sublist _ _
    · rw [cut_own_of_ne hq]
      obtain ⟨t, hPerm, hSub⟩ := (List.subperm_append_left (N.own q)).mpr hShared
      exact (hPerm.map Prod.fst).nodup_iff.mp ((h.inums q).sublist (hSub.map Prod.fst))
  · intro a b hab d hd f hf
    by_cases ha : a = p
    · subst ha
      rw [cut_own_of_ne hab.symm] at hf
      exact hOnce b hab.symm d hd f hf
    · rw [cut_own_of_ne ha] at hd
      by_cases hb : b = p
      · subst hb
        exact (hOnce a ha f hf d hd).symm
      · rw [cut_own_of_ne hb] at hf
        exact h.once a b hab d hd f hf

end Entries.Distinct

section Clear

variable {σ : Store} {N : Entries} {C : List Nat} {i : Nat}

theorem putInode_cleared_ne {j : Nat} (h : j ≠ i) :
    (σ.putInode i Inode.cleared).inode j = σ.inode j := by
  rw [putInode_inode, if_neg h]

/-- An inode that is no directory and no child is freed. -/
theorem EntriesOn.clear (h : EntriesOn σ N C) (hi : i ∉ N.dirs) (hC : i ∉ C) :
    EntriesOn (σ.putInode i Inode.cleared) N C where
  childEntries := h.childEntries.congr rfl fun _ hc _ hRow => hRow.congr
    (putInode_cleared_ne fun he => hC (he ▸ hc)) fun k hk => ⟨(hRow.lists.entry k hk).2.1, rfl⟩
  row p hp := (h.row p hp).congr (putInode_cleared_ne fun he => hi (he ▸ hp)) fun k hk =>
    ⟨((h.row p hp).lists.entry k hk).2.1, rfl⟩
  kids := h.kids
  stray := h.stray
  used := h.used

theorem alive_clear_iff (j : Nat) :
    (σ.putInode i Inode.cleared).Alive j ↔ σ.Alive j ∧ j ≠ i := by
  by_cases hj : j = i
  · subst hj
    refine iff_of_false (fun hAlive => ?_) fun hBoth => hBoth.2 rfl
    rw [Alive, putInode_inode, if_pos rfl] at hAlive
    exact hAlive rfl
  · rw [Alive, putInode_cleared_ne hj]
    exact (and_iff_left hj).symm

theorem apart_clear (h : σ.Apart) : (σ.putInode i Inode.cleared).Apart := by
  refine h.shrink (fun j hj k hk => ?_) fun j hj k hk => ?_
  · obtain ⟨hAlive, hne⟩ := (alive_clear_iff j).mp hj
    rw [size_congr (putInode_cleared_ne hne)] at hk
    exact ⟨hAlive, hk, slot_congr (putInode_cleared_ne hne) k⟩
  · obtain ⟨hAlive, hne⟩ := (alive_clear_iff j).mp hj
    rw [size_congr (putInode_cleared_ne hne)] at hk
    exact (h.marked j hAlive k hk).2

end Clear

section Calls

variable {m : Machine} {N : Entries} {C : List Nat} {p stack : Nat} {name : CString} {e : Entry}

/-- `unlink` frees the inode and then removes the entry. -/
theorem unlink_steps {l : List Entry} {m₁ m₂ : Machine} (hRead : readdir m stack p = .ok l)
    (hFind : (l.find? fun file => file.2 == name) = some e)
    (hRemove : ExtentServer.remove stack e.1 m = .ok () m₁)
    (hEntry : ExtentServer.removeFromDir stack p e.1 m₁ = .ok () m₂) :
    unlink stack p name m = .ok .OK m₂ := by
  simp only [unlink, bind, EStateM.bind, query, hRead, hFind, hRemove, hEntry]
  rfl

/-- The inode of an empty file is cleared. -/
theorem remove_blank {i : Nat} (hAlive : m.store.Alive i) (hSize : m.store.size i = 0)
    (hSlot : ∀ k, m.store.slot i k = 0) (stack : Nat) :
    ∃ m', ExtentServer.remove (stack + 1) i m = .ok () m' ∧
      m'.store = m.store.putInode i Inode.cleared := by
  have hRange := isInum_iff.mp (isInum_of_alive hAlive)
  have hMask : maskId i = i := Nat.mod_eq_of_lt (by omega)
  have hRemove : wp (removeFile (stack + 1) i) (fun _ m' => m'.store = m.store.putInode i Inode.cleared)
      (fun _ _ => False) m := wp_removeFile_harmless hAlive hSlot (Or.inl (by omega))
  obtain ⟨_, m', hRun, hStore⟩ := exists_ok_of_wp hRemove
  refine ⟨m', ?_, hStore⟩
  rw [ExtentServer.remove, hMask]
  exact hRun

/-- A removal that empties no child and does not meet index 100. -/
theorem EntriesOn.exists_cut (h : EntriesOn m.store N C) (hA : m.store.Apart) (hp : p ∈ N.dirs)
    {inum k : Nat} (hFirst : FirstAt (N.listing p) inum k)
    (hRoom : N.large p = true → k ≠ 100 ∧ N.shared.length % 100 ≠ 1) (stack : Nat) :
    ∃ m' x i y j, removeFromDir (stack + 2) p inum m = .ok () m' ∧
      Moved m.store m'.store False x i y j ∧ m.store.Places x i y j ∧ (x = p ∨ x ∈ C) ∧
      (y = p ∨ y ∈ C) ∧ EntriesOn m'.store (N.cut p k) C := by
  have hRow := h.row p hp
  have hFew := hRow.few
  have hk := hFirst.lt
  have hBlankChildren := h.childEntries.blankChildren
  have hpC : p ∉ C ++ [] := by
    rw [List.append_nil]
    exact fun hc => h.kids p hc hp
  cases hLarge : N.large p with
  | false =>
      rw [hLarge] at hRow
      rw [Entries.listing_small hLarge] at hFirst
      obtain ⟨m', hRun, hMoved, hP, hRow', hBlankChildren'⟩ := hBlankChildren.removed_small hA hRow hpC hFirst stack
      refine ⟨m', p, k, p, _, hRun, hMoved, hP, Or.inl rfl, Or.inl rfl,
        h.cut hA hp hk hMoved hP (Or.inl rfl) (Or.inl rfl) ?_ ?_ fun he => ?_⟩
      · rw [Entries.cut_own_small hLarge hFew, hLarge]
        exact hRow'
      · rw [Entries.cut_shared_small hLarge]
        exact hBlankChildren'.childEntries
      · rw [hLarge] at he
        cases he
  | true =>
      have hFull := hRow.full hLarge
      obtain ⟨hNot, hMore⟩ := hRoom hLarge
      have hSome := List.length_pos_of_ne_nil (h.used.mpr ⟨p, hLarge⟩)
      have hCount := h.childEntries.count
      rw [hLarge] at hRow
      rw [Entries.listing_large hLarge] at hFirst
      obtain ⟨m', x, i, y, j, hRun, hMoved, hP, hx, hy, hRow', hBlankChildren'⟩ :=
        hBlankChildren.removed_large hA hRow hpC hFirst (by omega) hNot stack
      have hAll : C.take ((N.shared.length + 98) / 100) = C := List.take_of_length_le (by omega)
      have hNone : C.drop ((N.shared.length + 98) / 100) ++ [] = [] := by
        rw [List.append_nil, List.drop_of_length_le (by omega)]
      have hMoved' : Moved m.store m'.store False x i y j :=
        ⟨fun a => (hMoved.alive a).trans (by
          rw [show ((N.shared.length - 1) % 100 = 0) = False from eq_false (by omega)]),
          hMoved.type, hMoved.size, hMoved.slot, hMoved.bit, hMoved.data⟩
      rw [hAll, hNone] at hBlankChildren'
      refine ⟨m', x, i, y, j, hRun, hMoved', hP, hx, Or.inr hy,
        h.cut hA hp hk hMoved' hP hx (Or.inr hy) ?_ ?_ fun _ => by omega⟩
      · rw [Entries.cut_own_self, hLarge, Entries.listing_large hLarge]
        exact hRow'
      · rw [Entries.cut_shared_large hLarge, Entries.listing_large hLarge]
        exact hBlankChildren'.childEntries

namespace Entries.Distinct

/-- An entry is the first one with its inum. -/
theorem firstAt (h : N.Distinct) {k : Nat} (hk : (N.listing p)[k]? = some e) :
    FirstAt (N.listing p) e.1 k := by
  refine ⟨⟨e, hk, rfl⟩, fun d hd he => ?_⟩
  obtain ⟨t, ht, rfl⟩ := List.getElem_of_mem hd
  rw [List.length_take] at ht
  rw [List.getElem_take] at he
  have hLt : t < ((N.listing p).map Prod.fst).length := by
    rw [List.length_map]
    omega
  have hSame : ((N.listing p).map Prod.fst)[t]? = ((N.listing p).map Prod.fst)[k]? := by
    rw [List.getElem?_map, List.getElem?_map, hk, List.getElem?_eq_getElem (by omega)]
    exact congrArg some he
  have := (List.getElem?_inj hLt (h.listing_inums p)).mp hSame
  omega

end Entries.Distinct

/-- The inode of a listed file is freed, and the directories stay as they are. -/
theorem OnlyEntries.remove_file (h : OnlyEntries m.store N C) (he : N.Has e)
    (hFile : (m.store.inode e.1).isDir = false) (stack : Nat) :
    ∃ m', ExtentServer.remove (stack + 1) e.1 m = .ok () m' ∧
      m'.store = m.store.putInode e.1 Inode.cleared ∧ EntriesOn m'.store N C ∧ m'.store.Apart := by
  have hS := h.inUse
  have hDirs : e.1 ∉ N.dirs := fun hi => by
    have hDir := (hS.row e.1 hi).lists.dir
    rw [hFile] at hDir
    cases hDir
  have hKids : e.1 ∉ C := fun hc => by
    obtain ⟨l, hChild⟩ := hS.childEntries.mem hc
    have hDir := hChild.lists.dir
    rw [hFile] at hDir
    cases hDir
  obtain ⟨hSize, hSlot⟩ := h.blank e.1 hDirs hKids
  obtain ⟨m', hRun, hStore⟩ := remove_blank (hS.alive e he) hSize hSlot stack
  exact ⟨m', hRun, hStore, hStore ▸ hS.entriesOn.clear hDirs hKids, hStore ▸ apart_clear h.apart⟩

theorem OnlyEntries.removeFromDir_ids (h : OnlyEntries m.store N C) (hp : p ∈ N.dirs) (he : N.Has e)
    (stack : Nat) : ExtentServer.removeFromDir stack p e.1 = removeFromDir stack p e.1 := by
  have hRange := isInum_iff.mp (isInum_of_alive (h.inUse.alive e he))
  have hRangeP := isInum_iff.mp (h.inUse.row p hp).lists.inum
  rw [ExtentServer.removeFromDir, Nat.mod_eq_of_lt (by omega), Nat.mod_eq_of_lt (by omega)]

/-- A slot in use of a directory or of a child is that of an entry. -/
theorem EntriesOn.holds_slot {σ : Store} {x i : Nat} (h : EntriesOn σ N C) (hx : x ∈ N.dirs ∨ x ∈ C)
    (hi : i < min (σ.size x) 100) : ∃ d, N.Has d ∧ σ.HoldsEntry (σ.slot x i) d := by
  have hRow : ∃ l large, σ.Row x l large ∧ ∀ d ∈ l, N.Has d := by
    rcases hx with hx | hx
    · exact ⟨_, _, h.row x hx, fun d hd => Or.inr ⟨x, hd⟩⟩
    · obtain ⟨j, hj, rfl⟩ := List.getElem_of_mem hx
      exact ⟨_, _, h.childEntries.child j hj, fun d hd => Or.inl (mem_of_mem_page hd)⟩
  obtain ⟨l, large, hRow, hAll⟩ := hRow
  have hLt : i < l.length := by
    have hSize := hRow.size
    have hFull := hRow.full
    cases large with
    | false => simp at hSize; omega
    | true => have := hFull rfl; omega
  exact ⟨l[i], hAll _ (List.getElem_mem hLt), hRow.lists.entry i hLt⟩

/-- Blocks and inodes were freed, none were taken. -/
structure Frees (σ σ' : Store) : Prop where
  bit : ∀ b, σ'.bit b = true → σ.bit b = true
  alive : ∀ i, σ'.Alive i → σ.Alive i
  type : ∀ i, σ'.Alive i → (σ'.inode i).type = (σ.inode i).type

/-- Removal of a listed file leaves the directories without the entry, and frees a block
with an entry. -/
theorem OnlyEntries.unlink (h : OnlyEntries m.store N C) (hp : p ∈ N.dirs)
    (hFind : ((N.listing p).find? fun file => file.2 == name) = some e)
    (hFile : (m.store.inode e.1).isDir = false) {k : Nat} (hk : (N.listing p)[k]? = some e)
    (hRoom : N.large p = true → k ≠ 100 ∧ N.shared.length % 100 ≠ 1) (stack : Nat) :
    ∃ m', ChfsClient.unlink (stack + 2) p name m = .ok .OK m' ∧ OnlyEntries m'.store (N.cut p k) C ∧
      Frees m.store m'.store ∧ ∃ b d, N.Has d ∧ m.store.HoldsEntry b d ∧ m'.store.bit b = false := by
  have hS := h.inUse
  have hLt := (List.getElem?_eq_some_iff.mp hk).1
  have hHas : N.Has e := Entries.has_of_listing (List.mem_of_getElem? hk)
  have hRow := hS.row p hp
  obtain ⟨m₁, hRemove, hStore, hOn₁, hApart₁⟩ := h.remove_file hHas hFile (stack + 1)
  obtain ⟨m', x, i, y, j, hEntry, hMoved, hP, hx, hy, hOn⟩ :=
    hOn₁.exists_cut hApart₁ hp (h.distinct.firstAt hk) hRoom stack
  rw [← h.removeFromDir_ids hp hHas] at hEntry
  have hFull : N.large p = true → (N.own p).length = 100 ∧ N.shared ≠ [] := fun hLarge =>
    ⟨hRow.full hLarge, hS.used.mpr ⟨p, hLarge⟩⟩
  obtain ⟨d, hd, hHolds⟩ := hOn₁.holds_slot (hx.imp (fun he => he ▸ hp) id) hP.hole
  have hFreed : m'.store.bit (m₁.store.slot x i) = false := by
    rw [hMoved.bit, if_pos rfl]
  rw [HoldsEntry, hStore] at hHolds
  refine ⟨m', unlink_steps (hS.readdir_eq hp) hFind hRemove hEntry, ⟨?_, hMoved.apart hP hApart₁,
    fun a ha hc => ?_, h.distinct.cut hLt hFull hRow.few⟩,
    ⟨fun b hb => ?_, fun a ha => ?_, fun a ha => ?_⟩, _, d, hd, hHolds, hStore ▸ hFreed⟩
  · refine EntriesInUse.of_entriesOn hOn (fun d hd => ?_) ?_
    · refine (hMoved.alive d.1).mpr ⟨?_, fun hGone => hGone.1⟩
      rw [hStore]
      exact (alive_clear_iff d.1).mpr
        ⟨hS.alive d (Entries.has_cut hLt hd), h.distinct.ne_of_has_cut hk hd⟩
    · obtain ⟨t, hPerm, hSub⟩ := Entries.cut_shared_subperm hLt hFull
      exact (hPerm.map Prod.fst).nodup_iff.mp (hS.inums.sublist (hSub.map Prod.fst))
  · have hOther : ∀ z, z = p ∨ z ∈ C → a ≠ z := by
      rintro z (rfl | hz) rfl
      · exact ha hp
      · exact hc hz
    have hOld : m₁.store.size a = 0 ∧ ∀ t, m₁.store.slot a t = 0 := by
      rw [hStore]
      by_cases he : a = e.1
      · rw [he, size_putInode_self]
        simp only [slot_putInode_self]
        exact ⟨rfl, Inode.cleared_slot⟩
      · rw [size_congr (putInode_cleared_ne he)]
        simp only [slot_congr (putInode_cleared_ne he)]
        exact h.blank a ha hc
    refine ⟨by rw [hMoved.size, if_neg (hOther y hy), hOld.1], fun t => ?_⟩
    have hLast : ¬(a = y ∧ t = j) := fun hEq => hOther y hy hEq.1
    have hHole : ¬(a = x ∧ t = i) := fun hEq => hOther x hx hEq.1
    rw [hMoved.slot, if_neg hLast, if_neg hHole, hOld.2]
  · rw [hMoved.bit, hStore] at hb
    split at hb
    · cases hb
    · exact hb
  · have hAlive := ((hMoved.alive a).mp ha).1
    rw [hStore] at hAlive
    exact ((alive_clear_iff a).mp hAlive).1
  · have hAlive := ((hMoved.alive a).mp ha).1
    rw [hStore] at hAlive
    rw [hMoved.type a ha, hStore, putInode_cleared_ne ((alive_clear_iff a).mp hAlive).2]

/-- When the last child holds one entry, its inode goes and stays listed. -/
theorem OnlyEntries.unlink_emptying (h : OnlyEntries m.store N C) (hp : p ∈ N.dirs) (hLarge : N.large p = true)
    (hOne : N.shared.length % 100 = 1) (hMore : 1 < N.shared.length)
    {rest : List Entry} (hFirst : N.listing p = e :: rest)
    (hFile : (m.store.inode e.1).isDir = false) (stack : Nat) :
    ∃ m' C' d l s, ChfsClient.unlink (stack + 2) p e.2 m = .ok .OK m' ∧
      m'.store.Row p l true ∧ m'.store.BlankChildren C' [d] s ∧ s.length + 1 = N.shared.length ∧
      (∀ i, m'.store.Alive i ↔ m.store.Alive i ∧ i ≠ e.1 ∧ i ≠ d) ∧ m.store.Alive d ∧
      (∀ b, m'.store.bit b = true → m.store.bit b = true) ∧ p ∉ C' ∧ l ++ s ⊆ N.listing p := by
  have hS := h.inUse
  have hk : (N.listing p)[0]? = some e := by rw [hFirst, List.getElem?_cons_zero]
  have hLt := (List.getElem?_eq_some_iff.mp hk).1
  have hHas : N.Has e := Entries.has_of_listing (List.mem_of_getElem? hk)
  have hFind : (N.listing p).find? (fun file => file.2 == e.2) = some e := by
    rw [hFirst]
    exact List.find?_cons_of_pos (beq_self_eq_true e.2)
  obtain ⟨m₁, hRemove, hStore, hOn₁, hApart₁⟩ := h.remove_file hHas hFile (stack + 1)
  have hRow := hOn₁.row p hp
  have hFull := hRow.full hLarge
  have hBlankChildren := hOn₁.childEntries.blankChildren
  have hpC : p ∉ C ++ [] := by
    rw [List.append_nil]
    exact fun hc => h.inUse.kids p hc hp
  have hAt := h.distinct.firstAt hk
  rw [hLarge] at hRow
  rw [Entries.listing_large hLarge] at hAt
  obtain ⟨m', x, i, y, j, hEntry, hMoved, hP, hx, hy, hRow', hBlankChildren'⟩ :=
    hBlankChildren.removed_large hApart₁ hRow hpC hAt hMore (by omega) stack
  rw [← h.removeFromDir_ids hp hHas] at hEntry
  have hCount := hS.childEntries.count
  obtain ⟨d, hd⟩ : ∃ d, C.drop ((N.shared.length + 98) / 100) = [d] := by
    refine List.length_eq_one_iff.mp ?_
    rw [List.length_drop]
    omega
  rw [hd, List.append_nil] at hBlankChildren'
  have hdC : d ∈ C := List.mem_of_mem_drop (hd ▸ List.mem_cons_self)
  -- the child that is empty now was not before
  have hLast : d = y := by
    by_contra hne
    obtain ⟨t, ht, rfl⟩ := List.getElem_of_mem hdC
    have hSize := hMoved.size C[t]
    have hOld := hBlankChildren.childSizes.size t ht
    rw [if_neg hne, (hBlankChildren'.childSizes.empty _ List.mem_cons_self).2] at hSize
    omega
  refine ⟨m', _, d, _, _, unlink_steps (hS.readdir_eq hp) hFind hRemove hEntry, hRow', hBlankChildren', ?_,
    fun i => ?_, hS.childEntries.alive hdC, fun b hb => ?_,
    fun hc => hpC (by simpa using List.mem_of_mem_take hc), ?_⟩
  · rw [List.length_drop, length_swapOut, List.length_append, hFull]
    omega
  · rw [hMoved.alive, hStore, alive_clear_iff, ← hLast]
    constructor
    · rintro ⟨⟨hAlive, hne⟩, hStays⟩
      exact ⟨hAlive, hne, fun hd => hStays ⟨by omega, hd⟩⟩
    · rintro ⟨hAlive, hne, hd⟩
      exact ⟨⟨hAlive, hne⟩, fun hGone => hd hGone.2⟩
  · rw [hMoved.bit, hStore] at hb
    split at hb
    · cases hb
    · exact hb
  · rw [List.take_append_drop, Entries.listing_large hLarge]
    rw [Entries.listing_large hLarge] at hLt
    exact fun a ha => mem_of_mem_swapOut hLt ha

end Calls

end ChfsClient
end InodeFS
