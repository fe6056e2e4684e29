import InodeFS.Vacancy
import InodeFS.Deposit

/-! Runs that create names and unlink files. A new name is found again as long as no
child of a large directory was emptied before, and no other name in block 0 hides it. -/
namespace InodeFS

open Bytes Exec Paging Store

namespace ChfsClient

/-- The calls that make names and remove them: `create`, `mkdir`, `ln` and `unlink` of
what is listed and no directory. -/
def Links (stack : Nat) (h : History) (m : Machine) : Call → Prop
  | .unlink parent name => parent ∈ (nameMap h).dirs ∧ ∃ l e, readdir m stack parent = .ok l ∧
      (l.find? fun file => file.2 == name) = some e ∧ ¬RefersToDir m e
  | call => call.Names h

/-- An `unlink` in a large directory leaves an entry in the last child and does not name
the entry at index 100. -/
def SparesChildren (stack : Nat) (m : Machine) : Call → Prop
  | .unlink parent name => ∀ l, readdir m stack parent = .ok l → l.length ≤ 100 ∨
      l.length % 100 ≠ 1 ∧ (l.findIdx? fun file => file.2 == name) ≠ some 100
  | _ => True

/-- The name leads to the new inum, and what was listed before is listed still. -/
def Survives (stack : Nat) (m m' : Machine) (p i : Nat) (name : CString) : Prop :=
  lookup m' stack p name = .ok (some i) ∧ ∀ e, Listed m stack p e → Listed m' stack p e

/-- The directory is about to become large, and large directories show this name behind
their own entries. -/
def Hidden (stack : Nat) (h : History) (m : Machine) (p : Nat) (name : CString) : Prop :=
  (∃ l, readdir m stack p = .ok l ∧ l.length = 100) ∧
  ∃ q ∈ (nameMap h).dirs, ∃ l, readdir m stack q = .ok l ∧ name ∈ (l.drop 100).map Prod.snd

section Runs

variable {stack : Nat} {clock : Nat → UInt32} {h : History} {m m' : Machine} {N : Entries}
  {C : List Nat} {p i inoOut : Nat} {name : CString} {type : FileType}

theorem perform_unlink {reply : Reply} (hRun : perform stack (.unlink p name) m = .ok reply m') :
    ∃ status, unlink stack p name m = .ok status m' ∧ reply = .unlink status := by
  simp only [perform, bind, EStateM.bind] at hRun
  cases hUnlink : unlink stack p name m with
  | ok status m₁ =>
      rw [hUnlink] at hRun
      injection hRun with hReply hSame
      exact ⟨status, congrArg _ hSame, hReply.symm⟩
  | error e m₁ =>
      rw [hUnlink] at hRun
      cases hRun

theorem perform_unlink_error {e : Stop} (hRun : perform stack (.unlink p name) m = .error e m') :
    unlink stack p name m = .error e m' := by
  simp only [perform, bind, EStateM.bind] at hRun
  cases hUnlink : unlink stack p name m with
  | ok status m₁ =>
      rw [hUnlink] at hRun
      cases hRun
  | error e' m₁ =>
      rw [hUnlink] at hRun
      injection hRun with he hSame
      rw [he, hSame]

theorem isDir_of_not_refers {e : Entry} (hInum : IsInum e.1) (h : ¬RefersToDir m e) :
    (m.store.inode e.1).isDir = false := by
  by_contra hDir
  exact h ⟨_, getInode_some hInum, by simpa using hDir⟩

/-- An admitted `unlink` names a file that the directory lists. -/
theorem OnlyEntries.exists_named (hOnlyEntries : OnlyEntries m.store N C) (hDirs : N.dirs = (nameMap h).dirs)
    (hCall : Links (stack + 2) h m (.unlink p name)) :
    ∃ k e, (N.listing p).findIdx? (fun file => file.2 == name) = some k ∧
      ((N.listing p).find? fun file => file.2 == name) = some e ∧ (N.listing p)[k]? = some e ∧
      (m.store.inode e.1).isDir = false := by
  obtain ⟨hp, l, e, hRead, hFind, hFile⟩ := hCall
  rw [← hDirs] at hp
  have hS := hOnlyEntries.inUse
  have hReaddir : readdir m (stack + 2) p = .ok (N.listing p) := hS.readdir_eq hp
  obtain rfl := Except.ok.inj (hReaddir.symm.trans hRead)
  obtain ⟨k, hk⟩ : ∃ k, (N.listing p).findIdx? (fun file => file.2 == name) = some k := by
    rw [List.find?_eq_getElem?_findIdx] at hFind
    have hLt := (List.getElem?_eq_some_iff.mp hFind).1
    exact ⟨_, List.findIdx?_eq_some_of_exists (List.findIdx_lt_length.mp hLt)⟩
  have hGet : (N.listing p)[k]? = some e := by
    rw [List.find?_eq_getElem?_findIdx] at hFind
    obtain rfl := (List.findIdx?_eq_some_iff_findIdx_eq.mp hk).2
    exact hFind
  have hAlive := hS.alive e (Entries.has_of_listing (List.mem_of_getElem? hGet))
  exact ⟨k, e, hk, hFind, hGet, isDir_of_not_refers (isInum_of_alive hAlive) hFile⟩

/-- The first file that a directory lists may be removed. -/
theorem OnlyEntries.links_first {e : Entry} {rest : List Entry} (hOnlyEntries : OnlyEntries m.store N C)
    (hDirs : N.dirs = (nameMap h).dirs) (hp : p ∈ N.dirs) (hFirst : N.listing p = e :: rest)
    (hFile : (m.store.inode e.1).isDir = false) (stack : Nat) :
    Links (stack + 2) h m (.unlink p e.2) := by
  have hS := hOnlyEntries.inUse
  have hHas : N.Has e := Entries.has_of_listing (p := p) (hFirst ▸ List.mem_cons_self)
  refine ⟨hDirs ▸ hp, _, e, hS.readdir_eq hp, ?_, ?_⟩
  · rw [hFirst]
    exact List.find?_cons_of_pos (beq_self_eq_true e.2)
  · rintro ⟨ino, hFound, hDir⟩
    rw [getInode_some (isInum_of_alive (hS.alive e hHas))] at hFound
    obtain rfl := Option.some.inj (Except.ok.inj hFound)
    rw [hFile] at hDir
    cases hDir

/-- An admitted `unlink` removes the first entry with the name. -/
theorem OnlyEntries.unlink_cut (hOnlyEntries : OnlyEntries m.store N C) (hDirs : N.dirs = (nameMap h).dirs)
    (hCall : Links (stack + 2) h m (.unlink p name))
    (hSpares : SparesChildren (stack + 2) m (.unlink p name)) :
    ∃ m' k, (N.listing p).findIdx? (fun file => file.2 == name) = some k ∧
      ChfsClient.unlink (stack + 2) p name m = .ok .OK m' ∧ OnlyEntries m'.store (N.cut p k) C := by
  have hS := hOnlyEntries.inUse
  have hp : p ∈ N.dirs := hDirs ▸ hCall.1
  have hRow := hS.row p hp
  obtain ⟨k, e, hk, hFind, hGet, hFile⟩ := hOnlyEntries.exists_named hDirs hCall
  have hRoom : N.large p = true → k ≠ 100 ∧ N.shared.length % 100 ≠ 1 := by
    intro hLarge
    have hMany := (hS.length_listing hp).mp hLarge
    obtain ⟨hMore, hNot⟩ := (hSpares _ (hS.readdir_eq hp)).resolve_left (by omega)
    have hFull := hRow.full hLarge
    rw [hk] at hNot
    rw [Entries.listing_large hLarge, List.length_append] at hMore
    exact ⟨fun he => hNot (congrArg some he), by omega⟩
  obtain ⟨m', hRun, hNext, -⟩ := hOnlyEntries.unlink hp hFind hFile hGet hRoom stack
  exact ⟨m', k, hk, hRun, hNext⟩

/-- An admitted `unlink` keeps the arrangement of the directories. -/
theorem OnlyEntries.unlink_ok (hOnlyEntries : OnlyEntries m.store N C) (hDirs : N.dirs = (nameMap h).dirs)
    (hCall : Links (stack + 2) h m (.unlink p name))
    (hSpares : SparesChildren (stack + 2) m (.unlink p name)) :
    ∃ m' N', ChfsClient.unlink (stack + 2) p name m = .ok .OK m' ∧ OnlyEntries m'.store N' C ∧
      N'.dirs = N.dirs := by
  obtain ⟨m', k, -, hRun, hNext⟩ := hOnlyEntries.unlink_cut hDirs hCall hSpares
  exact ⟨m', _, hRun, hNext, Entries.cut_dirs⟩

/-- After every run of such calls only entries take blocks. -/
theorem Run.onlyEntries_links (hRun : Run (stack + 2) clock
      (fun h m call => Links (stack + 2) h m call ∧ SparesChildren (stack + 2) m call) h m) :
    ∃ N C, OnlyEntries m.store N C ∧ N.dirs = (nameMap h).dirs := by
  induction hRun with
  | start hInit => exact ⟨Entries.start, [], OnlyEntries.start hInit, rfl⟩
  | @step h m m' call reply prior hCall hLast ih =>
      obtain ⟨N, C, hOnlyEntries, hDirs⟩ := ih
      have hNames : call.Names h → ∃ N C, OnlyEntries m'.store N C ∧
          N.dirs = (nameMap (h ++ [(call, reply)])).dirs := by
        intro hName
        rcases hOnlyEntries.inUse.perform_cases hDirs hName hLast with ⟨rfl, hSame⟩ | hNew
        · exact ⟨N, C, hOnlyEntries, by rw [nameMap_append, NameMap.after_of_ne hSame, hDirs]⟩
        · obtain ⟨type, p, name, inoOut, i, C', now, rfl, rfl, -, hMade⟩ := hNew
          exact ⟨_, C', hOnlyEntries.made hMade, nameMap_dirs_made hDirs type p i inoOut name⟩
      cases call with
      | unlink p name =>
          obtain ⟨m₁, N', hOk, hNext, hSame⟩ := hOnlyEntries.unlink_ok hDirs hCall.1 hCall.2
          obtain ⟨status, hUnlink, rfl⟩ := perform_unlink hLast
          rw [hOk] at hUnlink
          injection hUnlink with _ hMachine
          subst hMachine
          exact ⟨N', C, hNext, by rw [nameMap_append, hSame, hDirs]; rfl⟩
      | node => exact hNames hCall.1
      | lookup => exact hNames hCall.1
      | readdir => exact hNames hCall.1
      | _ => exact hCall.1.elim
  | @failed h m m' call prior hCall hLast ih =>
      obtain ⟨N, C, hOnlyEntries, hDirs⟩ := ih
      have hNone : ∀ i, Reply.badAlloc ≠ .node .OK i := fun i hi => by cases hi
      rw [nameMap_append, NameMap.after_of_ne hNone]
      have hNames : call.Names h → ∃ N C, OnlyEntries m'.store N C ∧ N.dirs = (nameMap h).dirs :=
        fun hName =>
          ⟨N, C, hOnlyEntries.stray_alloc (hOnlyEntries.inUse.perform_error hDirs hName hLast), hDirs⟩
      cases call with
      | unlink p name =>
          obtain ⟨m₁, N', hOk, -⟩ := hOnlyEntries.unlink_ok hDirs hCall.1 hCall.2
          rw [perform_unlink_error hLast] at hOk
          cases hOk
      | node => exact hNames hCall.1
      | lookup => exact hNames hCall.1
      | readdir => exact hNames hCall.1
      | _ => exact hCall.1.elim

theorem listed_iff (hS : EntriesInUse m.store N C) (hp : p ∈ N.dirs) {e : Entry} :
    Listed m (stack + 2) p e ↔ e ∈ N.listing p := by
  rw [Listed, hS.readdir_eq hp]
  exact ⟨fun ⟨_, hRead, he⟩ => Except.ok.inj hRead ▸ he, fun he => ⟨_, rfl, he⟩⟩

/-- The entries behind the slots of the directory once it has one entry more. -/
def Entries.behind (N : Entries) (p : Nat) : List Entry :=
  if (N.own p).length < 100 then [] else N.shared

theorem Entries.listing_enter {e : Entry} (hNot : (N.own p).length < 100 → N.large p = false) :
    (N.enter p e).listing p = N.own p ++ N.behind p ++ [e] := by
  rw [enter, behind]
  split
  · rename_i hSmall
    rw [listing_small (by rw [put_large, hNot hSmall]), put_own, if_pos rfl, List.append_nil]
  · rw [listing_large (by rw [share_large, if_pos rfl]), share_own, share_shared,
      List.append_assoc]

theorem Entries.has_behind {e : Entry} (he : e ∈ N.own p ++ N.behind p) : N.Has e := by
  rcases List.mem_append.mp he with hOwn | hBehind
  · exact Or.inr ⟨p, hOwn⟩
  · rw [behind] at hBehind
    split at hBehind
    · exact absurd hBehind List.not_mem_nil
    · exact Or.inl hBehind

theorem EntriesInUse.hidden_iff (hS : EntriesInUse m.store N C) (hDirs : N.dirs = (nameMap h).dirs)
    (hp : p ∈ N.dirs) : Hidden (stack + 2) h m p name ↔
      (N.listing p).length = 100 ∧ name ∈ N.shared.map Prod.snd := by
  rw [Hidden, hS.readdir_eq hp, ← hDirs]
  refine and_congr ⟨fun ⟨_, hRead, hLength⟩ => Except.ok.inj hRead ▸ hLength, fun hLength =>
    ⟨_, rfl, hLength⟩⟩ ⟨?_, fun hName => ?_⟩
  · rintro ⟨q, hq, l, hRead, hName⟩
    rw [hS.readdir_eq hq] at hRead
    obtain rfl := Except.ok.inj hRead
    have hFew := (hS.row q hq).few
    cases hLarge : N.large q with
    | false =>
        rw [Entries.listing_small hLarge, List.drop_of_length_le hFew] at hName
        exact absurd hName List.not_mem_nil
    | true =>
        rwa [Entries.listing_large hLarge, ← (hS.row q hq).full hLarge, List.drop_left] at hName
  · have hSome : N.shared ≠ [] := fun hNil => by
      rw [hNil] at hName
      exact absurd hName List.not_mem_nil
    obtain ⟨q, hLarge⟩ := hS.used.mp hSome
    have hq := hS.mem_dirs hLarge
    refine ⟨q, hq, _, hS.readdir_eq hq, ?_⟩
    rwa [Entries.listing_large hLarge, ← (hS.row q hq).full hLarge, List.drop_left]

/-- A large directory shows these entries already. -/
theorem EntriesInUse.mem_behind (hS : EntriesInUse m.store N C) (hp : p ∈ N.dirs) {e : Entry}
    (he : e ∈ N.listing p) : e ∈ N.own p ++ N.behind p := by
  rw [Entries.listing, List.mem_append] at he
  refine List.mem_append.mpr (he.imp_right fun hBehind => ?_)
  cases hLarge : N.large p with
  | false =>
      rw [hLarge] at hBehind
      exact absurd hBehind List.not_mem_nil
  | true =>
      have hFull := (hS.row p hp).full hLarge
      rw [hLarge] at hBehind
      rw [Entries.behind, if_neg (by omega)]
      exact hBehind

/-- The name is hidden when it is among them. -/
theorem EntriesInUse.hidden_iff_behind (hS : EntriesInUse m.store N C) (hDirs : N.dirs = (nameMap h).dirs)
    (hp : p ∈ N.dirs) (hNew : name ∉ (N.listing p).map Prod.snd) :
    Hidden (stack + 2) h m p name ↔ name ∈ (N.behind p).map Prod.snd := by
  have hRow := hS.row p hp
  have hFew := hRow.few
  rw [hS.hidden_iff hDirs hp, Entries.behind]
  by_cases hSmall : (N.own p).length < 100
  · rw [if_pos hSmall, Entries.listing_small (hRow.not_large hSmall)]
    exact iff_of_false (fun hBoth => by omega) List.not_mem_nil
  · rw [if_neg hSmall]
    refine and_iff_right_of_imp fun hName => ?_
    cases hLarge : N.large p with
    | false =>
        rw [Entries.listing_small hLarge]
        omega
    | true =>
        rw [Entries.listing_large hLarge, List.map_append] at hNew
        exact absurd (List.mem_append_right _ hName) hNew

/-- Where only entries take blocks, a new name is found exactly when no large directory hides it, and
the other entries stay in any case. -/
theorem Made.survives_iff {C' : List Nat} {now : UInt32} (hS : EntriesInUse m.store N C)
    (hDirs : N.dirs = (nameMap h).dirs) (hNew : name ∉ (N.listing p).map Prod.snd)
    (hMade : Made m.store m'.store N type p i name C C' now) :
    Survives (stack + 2) m m' p i name ↔ ¬Hidden (stack + 2) h m p name := by
  have hp := hMade.dir
  have hp' : p ∈ ((N.grow type i).enter p (i, name)).dirs := by
    rw [Entries.enter_dirs]
    exact Entries.mem_grow_dirs hp type i
  have hListing : ((N.grow type i).enter p (i, name)).listing p =
      N.own p ++ N.behind p ++ [(i, name)] :=
    Entries.listing_enter (N := N.grow type i) (hS.row p hp).not_large
  have hOwn : name ∉ (N.own p).map Prod.snd := fun hMem =>
    hNew (List.map_subset _ (List.subset_append_left _ _) hMem)
  have hStill : ∀ e, Listed m (stack + 2) p e → Listed m' (stack + 2) p e := by
    intro e he
    rw [listed_iff hS hp] at he
    rw [listed_iff hMade.inUse hp', hListing]
    exact List.mem_append_left _ (hS.mem_behind hp he)
  rw [hS.hidden_iff_behind hDirs hp hNew, Survives, hMade.inUse.lookup_eq hp', hListing]
  refine (and_iff_left hStill).trans ⟨fun hFound hBehind => ?_, fun hNone => ?_⟩
  · have hName : name ∈ (N.own p ++ N.behind p).map Prod.snd := by
      rw [List.map_append]
      exact List.mem_append_right _ hBehind
    obtain ⟨d, hd, hFind, -⟩ := exists_find? hName
    rw [List.find?_append, hFind] at hFound
    have hInum : d.1 = i := Option.some.inj (Except.ok.inj hFound)
    exact hMade.dead (hInum ▸ hS.alive d (Entries.has_behind hd))
  · have hAll : name ∉ (N.own p ++ N.behind p).map Prod.snd := by
      rw [List.map_append, List.mem_append]
      exact not_or.mpr ⟨hOwn, hNone⟩
    rw [List.find?_append, find?_of_notMem hAll, List.find?_singleton, beq_self_eq_true]
    rfl

/-- A root directory with `n` files in it. -/
structure RootFiles (stack : Nat) (h : History) (m : Machine) (N : Entries) (C : List Nat) (n : Nat) :
    Prop where
  run : Run (stack + 2) (fun _ => 0) (fun h _ call => call.Names h) h m
  room : ∀ call, (call, .badAlloc) ∉ h
  onlyEntries : OnlyEntries m.store N C
  dirs : N.dirs = {1}
  map : (nameMap h).dirs = {1}
  length : (N.listing 1).length = n
  entry : ∀ e, N.Has e → (m.store.inode e.1).isDir = false ∧ e.2.bytes.length < n
  blocks : 2095612 ≤ m.store.freeBlocks + n
  inodes : 1023 ≤ m.store.freeInodes + 2 * n

theorem RootFiles.next {n : Nat} (hRoot : RootFiles stack h m N C n) (hn : n ≤ 300) (hType : type ≠ .T_DIR) :
    ∃ i m' N' C', createNode type (stack + 2) 1 (row n) 0 m = .ok (.OK, i) m' ∧ ¬m.store.Alive i ∧
      RootFiles stack (h ++ [(.node type 1 (row n) 0, .node .OK i)]) m' N' C' (n + 1) := by
  have hOnlyEntries := hRoot.onlyEntries
  have hS := hOnlyEntries.inUse
  have hBlocks := hRoot.blocks
  have hInodes := hRoot.inodes
  have hp : 1 ∈ N.dirs := hRoot.dirs ▸ rfl
  have hNew : row n ∉ (N.listing 1).map Prod.snd := row_notMem (fun e he => (hRoot.entry e he).2) 1
  have hName : (row n).bytes.length ≤ 508 := by
    rw [row_length]
    omega
  obtain ⟨r, m', hCreate, i, C', now, rfl, hMade⟩ := exists_ok_of_wp
    (wp_mono (hS.wp_createNode type stack 0 hp hNew hName) (fun _ _ hPost => hPost)
      fun _ _ hShort => by omega)
  have hPerform : perform (stack + 2) (.node type 1 (row n) 0) m = .ok (.node .OK i) m' := by
    simp only [perform, bind, EStateM.bind, hCreate]
    rfl
  have hCall : (Call.node type 1 (row n) 0).Names h := ⟨hRoot.map ▸ rfl, hName⟩
  have hGrow : N.grow type i = N := by
    rw [Entries.grow, if_neg hType]
  have hNext := hOnlyEntries.made hMade
  have hPlain := hMade.plain hS hType
  rw [hGrow] at hNext hPlain
  have hFiled := hMade.filed
  have hBlocks' := hFiled.blocks
  rw [freeBlocks_congr (Strayed.freshInode hMade.dead type now).bit] at hBlocks'
  have hInodes' := freeInodes_made hMade
  have hOther : ∀ j, j ∉ N.dirs → j ∉ C' → m'.store.inode j =
      (m.store.putInode i (freshInode type now)).inode j :=
    fun j hj hc => hFiled.inode j (fun he => hj (he ▸ hp)) hc
  refine ⟨i, m', _, C', hCreate, hMade.dead, hRoot.run.step hCall hPerform, fun call hMem => ?_, hNext, ?_,
    ?_, ?_, fun e he => ?_, by omega, by omega⟩
  · rcases List.mem_append.mp hMem with hMem | hMem
    · exact hRoot.room call hMem
    · cases List.mem_singleton.mp hMem
  · rw [Entries.enter_dirs, hRoot.dirs]
  · rw [nameMap_append, NameMap.after, NameMap.grow, if_neg hType]
    exact hRoot.map
  · rw [hS.entriesOn.sole_listing_enter hRoot.dirs, List.length_append, hRoot.length]
    rfl
  · rcases Entries.has_enter he with hOld | rfl
    · obtain ⟨hFile, hLength⟩ := hRoot.entry e hOld
      have hAlive := hS.alive e hOld
      have hne : e.1 ≠ i := fun hEq => hMade.dead (hEq ▸ hAlive)
      have hPlainOld : Plain m.store N C e.1 := by
        refine ⟨hAlive, fun hMem => ?_, fun hMem => ?_⟩
        · have hDir := (hS.row e.1 hMem).lists.dir
          rw [hFile] at hDir
          cases hDir
        · obtain ⟨l, hChild⟩ := hS.childEntries.mem hMem
          have hDir := hChild.lists.dir
          rw [hFile] at hDir
          cases hDir
      rw [hOther e.1 hPlainOld.dirs (hPlainOld.made hMade).kids, putInode_inode, if_neg hne]
      exact ⟨hFile, by omega⟩
    · have hDirs : i ∉ N.dirs := fun hMem => hMade.dead (hS.dirs_alive hMem)
      rw [hOther i hDirs hPlain.kids, putInode_inode, if_pos rfl, row_length]
      refine ⟨?_, Nat.lt_succ_self n⟩
      cases type with
      | T_DIR => exact absurd rfl hType
      | _ => rfl

theorem RootFiles.start (stack : Nat) {m : Machine}
    (hInit : initInodeManager (Machine.zeroed fun _ => 0) = .ok () m)
    (hInodes : m.store.freeInodes = 1023) (hBlocks : m.store.freeBlocks = 2095612) :
    RootFiles stack [] m Entries.start [] 0 :=
  ⟨Run.start hInit, fun _ => List.not_mem_nil, OnlyEntries.start hInit, rfl, rfl, rfl,
    fun e he => (Entries.not_has_start e he).elim, hBlocks.ge, hInodes.ge⟩

theorem exists_root_files (stack : Nat) {n : Nat} (hn : n ≤ 301) : ∃ h m N C, RootFiles stack h m N C n := by
  induction n with
  | zero =>
      obtain ⟨m, hInit, hInodes, hBlocks⟩ := ExtentServer.exists_start fun _ => 0
      exact ⟨[], m, _, _, .start stack hInit hInodes hBlocks⟩
  | succ n ih =>
      obtain ⟨h, m, N, C, hRoot⟩ := ih (by omega)
      obtain ⟨i, m', N', C', -, -, hNext⟩ :=
        hRoot.next (by omega) (fun he : FileType.T_FILE = .T_DIR => by cases he)
      exact ⟨_, m', N', C', hNext⟩

/-- A run without `unlink` spares the children. -/
theorem Run.spares (hRun : Run stack clock (fun h _ call => call.Names h) h m) :
    Run stack clock (fun h m call => Links stack h m call ∧ SparesChildren stack m call) h m :=
  hRun.mono fun h m call hCall => by
    cases call with
    | unlink => exact hCall.elim
    | _ => exact ⟨hCall, trivial⟩

theorem RootFiles.map_unlink {n : Nat} (hRoot : RootFiles stack h m N C n) (name : CString) :
    (nameMap (h ++ [(.unlink 1 name, .unlink .OK)])).dirs = {1} := by
  rw [nameMap_append]
  exact hRoot.map

/-- The first file may be removed. -/
theorem RootFiles.exists_admitted {n : Nat} (hRoot : RootFiles stack h m N C n) (hSome : 0 < n)
    (hOne : n % 100 ≠ 1) : ∃ (e : Entry) (rest : List Entry), N.listing 1 = e :: rest ∧
      Links (stack + 2) h m (.unlink 1 e.2) ∧ SparesChildren (stack + 2) m (.unlink 1 e.2) := by
  have hS := hRoot.onlyEntries.inUse
  have hp : 1 ∈ N.dirs := hRoot.dirs ▸ rfl
  have hLength := hRoot.length
  obtain ⟨e, rest, hFirst⟩ := List.exists_cons_of_length_pos (show 0 < (N.listing 1).length by omega)
  have hHas : N.Has e := Entries.has_of_listing (p := 1) (hFirst ▸ List.mem_cons_self)
  have hRead : readdir m (stack + 2) 1 = .ok (N.listing 1) := hS.readdir_eq hp
  refine ⟨e, rest, hFirst, hRoot.onlyEntries.links_first (hRoot.dirs.trans hRoot.map.symm) hp hFirst
    (hRoot.entry e hHas).1 stack, fun l hl => Or.inr ?_⟩
  obtain rfl := Except.ok.inj (hRead.symm.trans hl)
  refine ⟨by omega, ?_⟩
  rw [hFirst, List.findIdx?_cons, if_pos (beq_self_eq_true e.2)]
  exact nofun

/-- The first of the files is gone from the root. -/
structure FirstRemoved (stack : Nat) (h : History) (m : Machine) (N : Entries) (C : List Nat) (n : Nat)
    (e : Entry) (m' : Machine) : Prop where
  admitted : Links (stack + 2) h m (.unlink 1 e.2)
  performed : perform (stack + 2) (.unlink 1 e.2) m = .ok (.unlink .OK) m'
  run : Run (stack + 2) (fun _ => 0)
    (fun h m call => Links (stack + 2) h m call ∧ SparesChildren (stack + 2) m call)
    (h ++ [(.unlink 1 e.2, .unlink .OK)]) m'
  onlyEntries : OnlyEntries m'.store (N.cut 1 0) C
  listed : readdir m' (stack + 2) 1 = .ok ((N.cut 1 0).listing 1)
  length : ((N.cut 1 0).listing 1).length = n - 1
  rest : ∀ d, (N.cut 1 0).Has d → N.Has d ∧ d.1 ≠ e.1
  frees : Frees m.store m'.store
  freed : ∃ b d, N.Has d ∧ m.store.HoldsEntry b d ∧ m'.store.bit b = false

theorem RootFiles.exists_removed {n : Nat} (hRoot : RootFiles stack h m N C n) (hSome : 0 < n)
    (hOne : n % 100 ≠ 1) : ∃ e m', FirstRemoved stack h m N C n e m' := by
  have hOnlyEntries := hRoot.onlyEntries
  have hp : 1 ∈ N.dirs := hRoot.dirs ▸ rfl
  have hLength := hRoot.length
  have hRow := hOnlyEntries.inUse.row 1 hp
  obtain ⟨e, rest, hFirst, hCall, hSpares⟩ := hRoot.exists_admitted hSome hOne
  have hGet : (N.listing 1)[0]? = some e := by rw [hFirst, List.getElem?_cons_zero]
  have hLt : 0 < (N.listing 1).length := by omega
  have hFind : (N.listing 1).find? (fun file => file.2 == e.2) = some e := by
    rw [hFirst]
    exact List.find?_cons_of_pos (beq_self_eq_true e.2)
  have hRoom : N.large 1 = true → 0 ≠ 100 ∧ N.shared.length % 100 ≠ 1 := by
    intro hLarge
    have hFull := hRow.full hLarge
    rw [Entries.listing_large hLarge, List.length_append] at hLength
    exact ⟨nofun, by omega⟩
  have hFile := (hRoot.entry e (Entries.has_of_listing (List.mem_of_getElem? hGet))).1
  obtain ⟨m', hUnlink, hNext, hFrees, hFreed⟩ := hOnlyEntries.unlink hp hFind hFile hGet hRoom stack
  have hPerform : perform (stack + 2) (.unlink 1 e.2) m = .ok (.unlink .OK) m' := by
    simp only [perform, bind, EStateM.bind, hUnlink]
    rfl
  have hp' : 1 ∈ (N.cut 1 0).dirs := by rwa [Entries.cut_dirs]
  refine ⟨e, m', hCall, hPerform, hRoot.run.spares.step ⟨hCall, hSpares⟩ hPerform, hNext,
    hNext.inUse.readdir_eq hp', ?_, fun d hd => ?_, hFrees, hFreed⟩
  · rw [Entries.cut_listing hRow.few, length_swapOut, hLength]
  · exact ⟨Entries.has_cut hLt hd, hOnlyEntries.distinct.ne_of_has_cut hGet hd⟩

/-- In runs whose calls of `unlink` spare the children, a name that was created is found
and hides nothing exactly when no large directory hides it. -/
theorem create_survives_iff (hStack : 2 ≤ stack)
    (hRun : Run stack clock
      (fun h m call => Links stack h m call ∧ SparesChildren stack m call) h m)
    (hCall : (Call.node type p name inoOut).Names h) (hNew : ∀ e, Listed m stack p e → e.2 ≠ name)
    (hCreate : createNode type stack p name inoOut m = .ok (.OK, i) m') :
    Survives stack m m' p i name ↔ ¬Hidden stack h m p name := by
  obtain ⟨d, rfl⟩ := Nat.exists_eq_add_of_le' hStack
  obtain ⟨N, C, hOnlyEntries, hDirs⟩ := hRun.onlyEntries_links
  obtain ⟨hp, hName⟩ := hCall
  rw [← hDirs] at hp
  have hS := hOnlyEntries.inUse
  have hAbsent : name ∉ (N.listing p).map Prod.snd := by
    intro hMem
    obtain ⟨e, he, hEq⟩ := List.mem_map.mp hMem
    exact hNew e ((listed_iff hS hp).mpr he) hEq
  have hPost := wp_ok (hS.wp_createNode type d inoOut hp hAbsent hName) hCreate
  obtain ⟨j, C', now, hReply, hMade⟩ := hPost
  cases hReply
  exact hMade.survives_iff hS hDirs hAbsent

/-- A root with one child lost its first file and gets a name more. -/
theorem create_survives_after_unlink : ∃ (h : History) (m m' : Machine) (e : Entry) (l : List Entry)
    (i : Nat), Run 2 (fun _ => 0) (fun h m call => Links 2 h m call ∧ SparesChildren 2 m call)
      (h ++ [(.unlink 1 e.2, .unlink .OK)]) m ∧ readdir m 2 1 = .ok l ∧ l.length = 149 ∧
    createNode .T_FILE 2 1 (row 300) 0 m = .ok (.OK, i) m' ∧ Survives 2 m m' 1 i (row 300) := by
  obtain ⟨h, m₀, N, C, hRoot⟩ := exists_root_files 0 (n := 150) (by omega)
  have hBlocks₀ := hRoot.blocks
  have hInodes₀ := hRoot.inodes
  obtain ⟨e, m, hRemoved⟩ := hRoot.exists_removed (by omega) (by omega)
  have hBlocks := freeBlocks_mono hRemoved.frees.bit
  have hInodes := freeInodes_mono hRemoved.frees.alive
  have hS := hRemoved.onlyEntries.inUse
  have hRead := hRemoved.listed
  have hLength := hRemoved.length
  have hp : 1 ∈ (N.cut 1 0).dirs := by rw [Entries.cut_dirs, hRoot.dirs]; rfl
  have hNew : row 300 ∉ ((N.cut 1 0).listing 1).map Prod.snd := row_notMem (fun d hd => by
    have hShort := (hRoot.entry d (hRemoved.rest d hd).1).2
    omega) 1
  have hName : (row 300).bytes.length ≤ 508 := by rw [row_length]; omega
  have hNames : (Call.node .T_FILE 1 (row 300) 0).Names (h ++ [(.unlink 1 e.2, .unlink .OK)]) :=
    ⟨hRoot.map_unlink e.2 ▸ rfl, hName⟩
  obtain ⟨r, m', hCreate, i, C', now, rfl, -⟩ := exists_ok_of_wp
    (wp_mono (hS.wp_createNode .T_FILE 0 0 hp hNew hName) (fun _ _ hPost => hPost)
      fun _ _ hShort => by omega)
  refine ⟨h, m, m', e, _, i, hRemoved.run, hRead, hLength, hCreate, ?_⟩
  refine (create_survives_iff (Nat.le_refl 2) hRemoved.run hNames (fun d hd hEq => ?_) hCreate).mpr ?_
  · exact hNew (List.mem_map.mpr ⟨d, (listed_iff hS hp).mp hd, hEq⟩)
  · rintro ⟨⟨l, hl, hFull⟩, -⟩
    obtain rfl := Except.ok.inj (hRead.symm.trans hl)
    omega

theorem lookup_absent {l : List Entry} (hRead : readdir m stack p = .ok l)
    (hAbsent : name ∉ l.map Prod.snd) : lookup m stack p name = .ok none := by
  rw [lookup, hRead]
  exact congrArg (fun found => Except.ok (Option.map Prod.fst found)) (find?_of_notMem hAbsent)

theorem readdir_blankChildren {D : List Nat} {l s : List Entry} (h : m.store.BlankChildren C D s)
    (hRow : m.store.Row p l true) (stack : Nat) : readdir m (stack + 2) p = .ok (l ++ s) := by
  have hRange := isInum_iff.mp hRow.lists.inum
  rw [readdir, ExtentServer.readDir, Nat.mod_eq_of_lt (by omega)]
  exact h.readDir_eq hRow stack

/-- A call with a new name allocates the first free inode, and then adds the entry. -/
theorem wp_createNode_absent {Q : Status × Nat → Machine → Prop} {E : Stop → Machine → Prop} {l : List Entry}
    (type : FileType) (inoOut : Nat) (hp : IsInum p) (hRead : readdir m stack p = .ok l)
    (hAbsent : name ∉ l.map Prod.snd)
    (hOk : ∀ i now m₁, IsInum i → ¬m.store.Alive i → (∀ j, IsInum j → j < i → m.store.Alive j) →
      m₁.store = m.store.putInode i (freshInode type now) →
        wp (addToDir stack p i name) (fun _ m₂ => Q (.OK, i) m₂) E m₁)
    (hFull : (∀ j, IsInum j → m.store.Alive j) → E .segfault m) :
    wp (createNode type stack p name inoOut) Q E m := by
  have hRange := isInum_iff.mp hp
  rw [createNode, wp_bind, wp_query_ok (f := (lookup · stack p name)) (lookup_absent hRead hAbsent), wp_bind]
  refine wp_allocInode type (fun i now m₁ hInum hDead hFirst hStore => ?_) hFull
  have hRangeI := isInum_iff.mp hInum
  rw [wp_bind, ExtentServer.addToDir, Nat.mod_eq_of_lt (by omega), Nat.mod_eq_of_lt (by omega)]
  exact hOk i now m₁ hInum hDead hFirst hStore

/-- The first empty child is no directory: the entry is dropped, and everything is listed as it was. -/
theorem wp_addToDir_stays {D : List Nat} {d i : Nat} {l s : List Entry}
    (hBlankChildren : m.store.BlankChildren C (d :: D) s) (hRow : m.store.Row p l true)
    (hZero : s.length % 100 = 0) (hDir : (m.store.inode d).isDir = false) (hpC : p ∉ C) (stack : Nat) :
    wp (addToDir (stack + 2) p i name) (fun _ m' => m'.store.Row p l true ∧
      m'.store.BlankChildren C (d :: D) s ∧ (∀ j, m'.store.Alive j ↔ m.store.Alive j) ∧
      m'.store.bit = m.store.bit) (fun _ _ => False) m := by
  refine wp_mono (wp_addToDir_dropped hBlankChildren hRow (hRow.full rfl) hZero hDir)
    (fun _ m' hPost => ?_) fun _ _ hFalse => hFalse
  obtain ⟨mtime, ctime, hStore⟩ := hPost
  have hTouch : Carries m.store m'.store {p} := hStore ▸ Carries.putInode rfl
  refine ⟨?_, ?_, fun j => ?_, hStore ▸ rfl⟩
  · exact hStore ▸ hRow.touch (hRow.full rfl) (Carries.refl _ ∅) (Set.notMem_empty p) mtime ctime
  · refine hBlankChildren.carry hTouch (fun c hc he => hpC (he ▸ hc)) (fun a ha => ?_) (by rw [hStore]; rfl)
    have hne : a ≠ p := by
      rintro rfl
      have hSize := hRow.size
      rw [(hBlankChildren.childSizes.empty a ha).2] at hSize
      cases hSize
    have hSame : m'.store.inode a = m.store.inode a := by
      rw [hStore, putInode_inode, if_neg hne]
    rw [size_congr hSame]
    simp only [slot_congr hSame]
    exact ⟨(hBlankChildren.childSizes.empty a ha).2, hBlankChildren.blank a ha⟩
  · rw [hStore]
    exact alive_putInode_iff (rfl : (touchedInode (m.store.inode p) mtime ctime).type = _) j

/-- While the first empty child is gone, `create` allocates an inode that is not listed. -/
theorem wp_createNode_lost {D : List Nat} {d : Nat} {l s : List Entry}
    (hBlankChildren : m.store.BlankChildren C (d :: D) s) (hRow : m.store.Row p l true)
    (hZero : s.length % 100 = 0) (hDead : ¬m.store.Alive d) (hpC : p ∉ C)
    (hAbsent : name ∉ (l ++ s).map Prod.snd) (stack inoOut : Nat) :
    wp (createNode .T_FILE (stack + 2) p name inoOut) (fun r m' => ∃ i, r = (.OK, i) ∧
      lookup m' (stack + 2) p name = .ok none) (fun _ _ => False) m := by
  refine wp_createNode_absent .T_FILE inoOut hRow.lists.inum (readdir_blankChildren hBlankChildren hRow stack)
    hAbsent (fun i now m₁ hInum hNew _ hStore₁ => ?_) fun hAllAlive =>
      hDead (hAllAlive d (hBlankChildren.childSizes.empty d List.mem_cons_self).1)
  have hStray : Strayed m.store m₁.store := hStore₁ ▸ Strayed.freshInode hNew .T_FILE now
  have hPlain : (m₁.store.inode d).isDir = false := by
    rw [hStore₁, putInode_inode]
    split
    · rfl
    · have hType : (m.store.inode d).type = 0 := not_not.mp hDead
      rw [Inode.isDir, hType]
      rfl
  refine wp_mono (wp_addToDir_stays (hBlankChildren.stray_alloc hStray)
    (hRow.carry hStray.carries (Set.notMem_empty p)) hZero hPlain hpC stack) (fun _ m₂ hPost => ⟨i, rfl, ?_⟩)
    fun _ _ hFalse => hFalse
  exact lookup_absent (readdir_blankChildren hPost.2.1 hPost.1 stack) hAbsent

/-- Block 0 lists the child `d` behind one that is full, but `d` was freed. -/
structure Dangling (h : History) (m : Machine) (C : List Nat) (d : Nat) (l s : List Entry) : Prop where
  run : Run 2 (fun _ => 0) (Links 2) h m
  room : ∀ call, (call, .badAlloc) ∉ h
  root : 1 ∈ (nameMap h).dirs
  row : m.store.Row 1 l true
  blankChildren : m.store.BlankChildren C [d] s
  full : s.length = 100
  dead : ¬m.store.Alive d
  notChild : 1 ∉ C
  short : ∀ e ∈ l ++ s, e.2.bytes.length < 300

theorem Dangling.absent {d : Nat} {l s : List Entry} (hDangling : Dangling h m C d l s) :
    ChfsClient.row 300 ∉ (l ++ s).map Prod.snd := by
  intro hMem
  obtain ⟨a, ha, hEq⟩ := List.mem_map.mp hMem
  have hLt := hDangling.short a ha
  rw [hEq, row_length] at hLt
  omega

/-- Two children, the second with one entry, and one file is removed. -/
theorem RootFiles.exists_dangling (hRoot : RootFiles 0 h m N C 201) :
    ∃ h' m' C' d a l s, Dangling h' m' C' d l s ∧
      (∀ i, m'.store.Alive i ↔ m.store.Alive i ∧ i ≠ a ∧ i ≠ d) ∧ m.store.Alive d ∧
      ∀ b, m'.store.bit b = true → m.store.bit b = true := by
  have hOnlyEntries := hRoot.onlyEntries
  have hS := hOnlyEntries.inUse
  have hLength := hRoot.length
  have hp : 1 ∈ N.dirs := hRoot.dirs ▸ rfl
  have hLarge : N.large 1 = true := (hS.length_listing hp).mpr (by omega)
  have hFull := (hS.row 1 hp).full hLarge
  have hSplit := hLength
  rw [Entries.listing_large hLarge, List.length_append] at hSplit
  obtain ⟨e, rest, hFirst⟩ := List.exists_cons_of_length_pos
    (show 0 < (N.listing 1).length by omega)
  have hHas : N.Has e := Entries.has_of_listing (p := 1) (hFirst ▸ List.mem_cons_self)
  have hFile := (hRoot.entry e hHas).1
  -- the file is removed, and its last child with it
  obtain ⟨m₁, C₁, d, l, s, hUnlink, hRow, hBlankChildren, hLess, hAlive, hOld, hBit, hpC, hSub⟩ :=
    hOnlyEntries.unlink_emptying hp hLarge (by omega) (by omega) hFirst hFile 0
  have hPerform : perform 2 (.unlink 1 e.2) m = .ok (.unlink .OK) m₁ := by
    simp only [perform, bind, EStateM.bind, hUnlink]
    rfl
  have hStart : Run 2 (fun _ => 0) (Links 2) h m := hRoot.run.mono fun h m call hCall => by
    cases call with
    | unlink => exact hCall.elim
    | _ => exact hCall
  have hCall : Links 2 h m (.unlink 1 e.2) :=
    hOnlyEntries.links_first (hRoot.dirs.trans hRoot.map.symm) hp hFirst hFile 0
  refine ⟨_, m₁, C₁, d, e.1, l, s, ⟨hStart.step hCall hPerform, fun call hMem => ?_, ?_, hRow,
    hBlankChildren, by omega, fun hd => ((hAlive d).mp hd).2.2 rfl, hpC, fun a ha => ?_⟩, hAlive, hOld, hBit⟩
  · rcases List.mem_append.mp hMem with hMem | hMem
    · exact hRoot.room call hMem
    · cases List.mem_singleton.mp hMem
  · rw [hRoot.map_unlink]
    rfl
  · have hLt := (hRoot.entry a (Entries.has_of_listing (hSub ha))).2
    omega

/-- The next name is lost. -/
theorem create_lost : ∃ (h : History) (m m' : Machine) (name : CString) (i : Nat),
    Run 2 (fun _ => 0) (Links 2) h m ∧ (Call.node .T_FILE 1 name 0).Names h ∧
      (∀ e, Listed m 2 1 e → e.2 ≠ name) ∧
      createNode .T_FILE 2 1 name 0 m = .ok (.OK, i) m' ∧ lookup m' 2 1 name = .ok none := by
  obtain ⟨h, m, N, C, hRoot⟩ := exists_root_files 0 (n := 201) (by omega)
  obtain ⟨h₁, m₁, C₁, d, -, l, s, hDangling, -⟩ := hRoot.exists_dangling
  have hBlankChildren := hDangling.blankChildren
  have hFull := hDangling.full
  have hAbsent := hDangling.absent
  have hName : (row 300).bytes.length ≤ 508 := by rw [row_length]; omega
  obtain ⟨r, m', hCreate, i, rfl, hLost⟩ := exists_ok_of_wp (wp_createNode_lost hBlankChildren hDangling.row
    (by omega) hDangling.dead hDangling.notChild hAbsent 0 0)
  refine ⟨h₁, m₁, m', row 300, i, hDangling.run, ⟨hDangling.root, hName⟩, fun a ha hEq => ?_, hCreate, hLost⟩
  obtain ⟨l', hRead, hMem⟩ := ha
  rw [readdir_blankChildren hBlankChildren hDangling.row 0] at hRead
  obtain rfl := Except.ok.inj hRead
  exact hAbsent (hEq ▸ List.mem_map_of_mem hMem)

end Runs
end ChfsClient
end InodeFS
