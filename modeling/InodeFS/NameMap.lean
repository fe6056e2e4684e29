import InodeFS.History
import InodeFS.EntriesInUse

/-! Directories as ordered name maps. While at most one directory is large, block
0 holds the children of that directory only, and every directory lists the names
created in it, in the order of creation. -/
namespace InodeFS

open Bytes Exec Store

namespace ChfsClient

/-- What `create`, `mkdir` and `ln` have made: the directories, and the entries of
each in the order of creation. -/
structure NameMap where
  dirs : Set Nat
  entries : Nat → List Entry

namespace NameMap

/-- The root is there from the start. -/
def start : NameMap := { dirs := {1}, entries := fun _ => [] }

def grow (N : NameMap) (type : FileType) (i : Nat) : NameMap :=
  { N with dirs := if type = .T_DIR then insert i N.dirs else N.dirs }

def enter (N : NameMap) (p : Nat) (e : Entry) : NameMap :=
  { N with entries := Function.update N.entries p (N.entries p ++ [e]) }

/-- One call. Only a new name changes the map. -/
def after (N : NameMap) : Call × Reply → NameMap
  | (.node type p name _, .node .OK i) => (N.grow type i).enter p (i, name)
  | _ => N

/-- At most one directory has more than 100 entries. -/
def OneLarge (N : NameMap) : Prop :=
  ∀ p q, 100 < (N.entries p).length → 100 < (N.entries q).length → p = q

variable {N : NameMap} {p q i : Nat} {e : Entry}

theorem grow_of_ne {type : FileType} (h : type ≠ .T_DIR) (N : NameMap) (i : Nat) :
    N.grow type i = N := by
  rw [grow, if_neg h]

theorem enter_self (N : NameMap) (p : Nat) (e : Entry) :
    (N.enter p e).entries p = N.entries p ++ [e] := Function.update_self _ _ _

theorem enter_of_ne (N : NameMap) (e : Entry) (h : q ≠ p) :
    (N.enter p e).entries q = N.entries q := Function.update_of_ne h _ _

theorem length_le_enter (N : NameMap) (p : Nat) (e : Entry) (q : Nat) :
    (N.entries q).length ≤ ((N.enter p e).entries q).length := by
  by_cases h : q = p
  · rw [h, enter_self, List.length_append]
    exact Nat.le_add_right _ _
  · rw [enter_of_ne N e h]

/-- No call takes an entry away. -/
theorem length_le_after (N : NameMap) (x : Call × Reply) (q : Nat) :
    (N.entries q).length ≤ ((N.after x).entries q).length := by
  obtain ⟨call, reply⟩ := x
  cases call with
  | node type p name inoOut =>
      cases reply with
      | node status i =>
          cases status with
          | OK => exact length_le_enter (N.grow type i) p (i, name) q
          | _ => exact Nat.le_refl _
      | _ => exact Nat.le_refl _
  | _ => exact Nat.le_refl _

theorem after_of_ne {call : Call} {reply : Reply} (h : ∀ i, reply ≠ .node .OK i) (N : NameMap) :
    N.after (call, reply) = N := by
  cases call with
  | node type p name inoOut =>
      cases reply with
      | node status i =>
          cases status with
          | OK => exact absurd rfl (h i)
          | _ => rfl
      | _ => rfl
  | _ => rfl

end NameMap

def nameMap (h : History) : NameMap := h.foldl NameMap.after NameMap.start

theorem nameMap_append (h : History) (x : Call × Reply) :
    nameMap (h ++ [x]) = (nameMap h).after x := by
  rw [nameMap, List.foldl_append]
  rfl

section Calls

variable {stack : Nat} {h : History} {m m' : Machine} {N : Entries} {C : List Nat}

/-- `create`, `mkdir` and `ln` in directories, with names that fit, `lookup` and
`readdir`. -/
def Call.Names (h : History) : Call → Prop
  | .node _ parent name _ => parent ∈ (nameMap h).dirs ∧ name.bytes.length ≤ 508
  | .lookup _ _ => True
  | .readdir _ => True
  | _ => False

theorem perform_node {type : FileType} {p inoOut : Nat} {name : CString} {reply : Reply}
    (hRun : perform stack (.node type p name inoOut) m = .ok reply m') :
    ∃ r, createNode type stack p name inoOut m = .ok r m' ∧ reply = .node r.1 r.2 := by
  simp only [perform, bind, EStateM.bind] at hRun
  cases hCreate : createNode type stack p name inoOut m with
  | ok r m₁ =>
      rw [hCreate] at hRun
      injection hRun with hReply hSame
      exact ⟨r, congrArg _ hSame, hReply.symm⟩
  | error e m₁ =>
      rw [hCreate] at hRun
      cases hRun

theorem perform_node_error {type : FileType} {p inoOut : Nat} {name : CString} {e : Stop}
    (hRun : perform stack (.node type p name inoOut) m = .error e m') :
    createNode type stack p name inoOut m = .error e m' := by
  simp only [perform, bind, EStateM.bind] at hRun
  cases hCreate : createNode type stack p name inoOut m with
  | ok r m₁ =>
      rw [hCreate] at hRun
      cases hRun
  | error e' m₁ =>
      rw [hCreate] at hRun
      injection hRun with he hSame
      rw [he, hSame]

/-- A call that only reads. -/
theorem perform_query {α : Type} {f : Machine → Except Stop α} {g : α → Reply} {reply : Reply}
    (hRun : (do return g (← query f) : Action Reply) m = .ok reply m') :
    m' = m ∧ ∃ a, reply = g a := by
  simp only [bind, EStateM.bind, query] at hRun
  cases hf : f m with
  | ok a =>
      rw [hf] at hRun
      injection hRun with hReply hSame
      exact ⟨hSame.symm, a, hReply.symm⟩
  | error e =>
      rw [hf] at hRun
      cases hRun

theorem perform_query_error {α : Type} {f : Machine → Except Stop α} {g : α → Reply} {e : Stop}
    (hRun : (do return g (← query f) : Action Reply) m = .error e m') : m' = m := by
  simp only [bind, EStateM.bind, query] at hRun
  cases hf : f m with
  | ok a =>
      rw [hf] at hRun
      cases hRun
  | error e' =>
      rw [hf] at hRun
      injection hRun with _ hSame
      exact hSame.symm

/-- A call changes nothing, or it creates a new name. -/
theorem EntriesInUse.perform_cases {call : Call} {reply : Reply} (hS : EntriesInUse m.store N C)
    (hDirs : N.dirs = (nameMap h).dirs) (hCall : call.Names h)
    (hRun : perform (stack + 2) call m = .ok reply m') :
    (m' = m ∧ ∀ i, reply ≠ .node .OK i) ∨
    ∃ type p name inoOut i C' now, call = .node type p name inoOut ∧ reply = .node .OK i ∧
      name ∉ (N.listing p).map Prod.snd ∧ Made m.store m'.store N type p i name C C' now := by
  cases call with
  | node type p name inoOut =>
      obtain ⟨hp, hName⟩ := hCall
      obtain ⟨r, hCreate, rfl⟩ := perform_node hRun
      rw [← hDirs] at hp
      by_cases hOld : name ∈ (N.listing p).map Prod.snd
      · rw [hS.createNode_exist type stack inoOut hp hOld] at hCreate
        injection hCreate with hReply hSame
        subst hReply hSame
        exact Or.inl ⟨rfl, nofun⟩
      · obtain ⟨i, C', now, rfl, hMade⟩ :=
          wp_ok (hS.wp_createNode type stack inoOut hp hOld hName) hCreate
        exact Or.inr ⟨type, p, name, inoOut, i, C', now, rfl, rfl, hOld, hMade⟩
  | lookup p name =>
      obtain ⟨rfl, a, rfl⟩ := perform_query (f := (lookup · (stack + 2) p name)) hRun
      exact Or.inl ⟨rfl, nofun⟩
  | readdir p =>
      obtain ⟨rfl, a, rfl⟩ := perform_query (f := (readdir · (stack + 2) p)) hRun
      exact Or.inl ⟨rfl, nofun⟩
  | _ => exact hCall.elim

/-- A call that fails leaves inodes behind, and nothing else. -/
theorem EntriesInUse.perform_error {call : Call} {e : Stop} (hS : EntriesInUse m.store N C)
    (hDirs : N.dirs = (nameMap h).dirs) (hCall : call.Names h)
    (hRun : perform (stack + 2) call m = .error e m') : Strayed m.store m'.store := by
  cases call with
  | node type p name inoOut =>
      obtain ⟨hp, hName⟩ := hCall
      have hCreate := perform_node_error hRun
      rw [← hDirs] at hp
      by_cases hOld : name ∈ (N.listing p).map Prod.snd
      · rw [hS.createNode_exist type stack inoOut hp hOld] at hCreate
        cases hCreate
      · exact (wp_error (hS.wp_createNode type stack inoOut hp hOld hName) hCreate).2
  | lookup p name =>
      obtain rfl := perform_query_error (f := (lookup · (stack + 2) p name)) hRun
      exact Strayed.refl m'.store
  | readdir p =>
      obtain rfl := perform_query_error (f := (readdir · (stack + 2) p)) hRun
      exact Strayed.refl m'.store
  | _ => exact hCall.elim

theorem nameMap_dirs_made (hDirs : N.dirs = (nameMap h).dirs) (type : FileType) (p i inoOut : Nat)
    (name : CString) : ((N.grow type i).enter p (i, name)).dirs =
      (nameMap (h ++ [(.node type p name inoOut, .node .OK i)])).dirs := by
  rw [nameMap_append, Entries.enter_dirs, Entries.grow, hDirs]
  rfl

end Calls

/-- What `create` and `ln` have made. -/
def files (h : History) : Set Nat :=
  {i | ∃ type p name inoOut, type ≠ FileType.T_DIR ∧
    (Call.node type p name inoOut, Reply.node .OK i) ∈ h}

/-- An inode that is neither a directory nor a child of one. -/
structure Plain (σ : Store) (N : Entries) (C : List Nat) (i : Nat) : Prop where
  alive : σ.Alive i
  dirs : i ∉ N.dirs
  kids : i ∉ C

theorem files_append {h : History} {x : Call × Reply} {i : Nat} (hi : i ∈ files (h ++ [x])) :
    i ∈ files h ∨ ∃ type p name inoOut, type ≠ FileType.T_DIR ∧
      x = (Call.node type p name inoOut, Reply.node .OK i) := by
  obtain ⟨type, p, name, inoOut, hType, hMem⟩ := hi
  rcases List.mem_append.mp hMem with hOld | hNew
  · exact Or.inl ⟨type, p, name, inoOut, hType, hOld⟩
  · exact Or.inr ⟨type, p, name, inoOut, hType, (List.mem_singleton.mp hNew).symm⟩

section Runs

variable {stack : Nat} {clock : Nat → UInt32} {h : History} {m m' : Machine}

/-- A new name leaves the files alone. -/
theorem Plain.made {σ σ' : Store} {N : Entries} {C C' : List Nat} {type : FileType} {p i j : Nat}
    {name : CString} {now : UInt32} (hPlain : Plain σ N C j)
    (hMade : Made σ σ' N type p i name C C' now) :
    Plain σ' ((N.grow type i).enter p (i, name)) C' j := by
  have hStray := Strayed.freshInode hMade.dead type now
  have hne : j ≠ i := fun he => hMade.dead (he ▸ hPlain.alive)
  refine ⟨hMade.filed.carries.alive j (hStray.carries.alive j hPlain.alive), ?_, ?_⟩
  · rw [Entries.enter_dirs, Entries.grow]
    split
    · rintro (hEq | hMem)
      · exact hne hEq
      · exact hPlain.dirs hMem
    · exact hPlain.dirs
  · rcases hMade.filed.kids with rfl | ⟨c, hDead, rfl⟩
    · exact hPlain.kids
    · rw [List.mem_append, List.mem_singleton]
      rintro (hMem | rfl)
      · exact hPlain.kids hMem
      · exact hDead (hStray.carries.alive j hPlain.alive)

/-- The new inode is a file itself when it is no directory. -/
theorem Made.plain {σ σ' : Store} {N : Entries} {C C' : List Nat} {type : FileType} {p i : Nat}
    {name : CString} {now : UInt32} (hMade : Made σ σ' N type p i name C C' now)
    (hS : EntriesInUse σ N C) (hType : type ≠ .T_DIR) :
    Plain σ' ((N.grow type i).enter p (i, name)) C' i := by
  have hAlive : (σ.putInode i (freshInode type now)).Alive i := by
    rw [Alive, putInode_inode, if_pos rfl]
    exact FileType.code_toUInt16_ne_zero type
  refine ⟨hMade.filed.carries.alive i hAlive, ?_, ?_⟩
  · rw [Entries.enter_dirs, Entries.grow, if_neg hType]
    exact fun hi => hMade.dead (hS.dirs_alive hi)
  · rcases hMade.filed.kids with rfl | ⟨c, hDead, rfl⟩
    · exact fun hi => hMade.dead (hS.childEntries.alive hi)
    · rw [List.mem_append, List.mem_singleton]
      rintro (hMem | rfl)
      · exact hMade.dead (hS.childEntries.alive hMem)
      · exact hDead hAlive

/-- After every run that creates names only entries take blocks. -/
theorem Run.onlyEntries (hRun : Run (stack + 2) clock (fun h _ call => call.Names h) h m) :
    ∃ N C, OnlyEntries m.store N C ∧ N.dirs = (nameMap h).dirs ∧ ∀ i ∈ files h, Plain m.store N C i := by
  induction hRun with
  | start hInit =>
      refine ⟨Entries.start, [], OnlyEntries.start hInit, rfl, fun i hi => ?_⟩
      obtain ⟨_, _, _, _, -, hMem⟩ := hi
      exact absurd hMem List.not_mem_nil
  | @step h m m' call reply prior hCall hLast ih =>
      obtain ⟨N, C, hOnlyEntries, hDirs, hFiles⟩ := ih
      rcases hOnlyEntries.inUse.perform_cases hDirs hCall hLast with ⟨rfl, hSame⟩ | hNew
      · refine ⟨N, C, hOnlyEntries, by rw [nameMap_append, NameMap.after_of_ne hSame, hDirs],
          fun i hi => ?_⟩
        rcases files_append hi with hOld | ⟨_, _, _, _, -, hEq⟩
        · exact hFiles i hOld
        · exact absurd (congrArg Prod.snd hEq) (hSame i)
      · obtain ⟨type, p, name, inoOut, i, C', now, rfl, rfl, -, hMade⟩ := hNew
        refine ⟨_, C', hOnlyEntries.made hMade, nameMap_dirs_made hDirs type p i inoOut name,
          fun j hj => ?_⟩
        rcases files_append hj with hOld | ⟨type', p', name', inoOut', hType, hEq⟩
        · exact (hFiles j hOld).made hMade
        · cases hEq
          exact hMade.plain hOnlyEntries.inUse hType
  | @failed h m m' call prior hCall hLast ih =>
      obtain ⟨N, C, hOnlyEntries, hDirs, hFiles⟩ := ih
      have hStray := hOnlyEntries.inUse.perform_error hDirs hCall hLast
      have hNone : ∀ i, Reply.badAlloc ≠ .node .OK i := nofun
      refine ⟨N, C, hOnlyEntries.stray_alloc hStray, ?_, fun i hi => ?_⟩
      · rw [nameMap_append, NameMap.after_of_ne hNone, hDirs]
      · rcases files_append hi with hOld | ⟨_, _, _, _, -, hEq⟩
        · exact ⟨hStray.carries.alive i (hFiles i hOld).alive, (hFiles i hOld).dirs,
            (hFiles i hOld).kids⟩
        · cases hEq

/-- The listings are the entries of the map. -/
structure Mapped (N : Entries) (M : NameMap) : Prop where
  dirs : N.dirs = M.dirs
  listing : ∀ p, N.listing p = M.entries p
  names : ∀ p, ((M.entries p).map Prod.snd).Nodup

/-- While no other directory is large, an entry goes to the end of one listing. -/
theorem Mapped.made {σ σ' : Store} {N : Entries} {M : NameMap} {C C' : List Nat} {type : FileType}
    {p i big : Nat} {name : CString} {now : UInt32} (hMap : Mapped N M) (hS : EntriesInUse σ N C)
    (hMade : Made σ σ' N type p i name C C' now) (hNew : name ∉ (N.listing p).map Prod.snd)
    (hBig : ∀ q ≠ big, (((M.grow type i).enter p (i, name)).entries q).length ≤ 100) :
    Mapped ((N.grow type i).enter p (i, name)) ((M.grow type i).enter p (i, name)) := by
  have hOld : ∀ q ≠ big, N.large q = false := by
    intro q hq
    by_contra hLarge
    have hLength := (hS.length_listing (hS.mem_dirs (by simpa using hLarge))).mp (by simpa using hLarge)
    rw [hMap.listing] at hLength
    have := NameMap.length_le_enter (M.grow type i) p (i, name) q
    have hSame : ((M.grow type i).entries q).length = (M.entries q).length := rfl
    have := hBig q hq
    omega
  have hRow := hS.row p hMade.dir
  have hEntries : (M.grow type i).entries = M.entries := rfl
  refine ⟨?_, fun q => ?_, fun q => ?_⟩
  · rw [Entries.enter_dirs, Entries.grow, hMap.dirs]
    rfl
  · rw [Entries.enter, Entries.grow_own]
    by_cases hSmall : (N.own p).length < 100
    · have hNot := hRow.not_large hSmall
      rw [if_pos hSmall, Entries.listing, Entries.put_own, Entries.put_large, Entries.put_shared,
        Entries.grow_own, Entries.grow_large, Entries.grow_shared]
      by_cases hq : q = p
      · subst hq
        rw [NameMap.enter_self, hEntries, ← hMap.listing, Entries.listing_small hNot, if_pos rfl,
          hNot]
        exact List.append_nil _
      · rw [NameMap.enter_of_ne _ _ hq, hEntries, ← hMap.listing, if_neg hq]
        rfl
    · have hpBig : p = big := by
        by_contra hne
        have hLe := hBig p hne
        rw [NameMap.enter_self, hEntries, ← hMap.listing, Entries.listing_small (hOld p hne),
          List.length_append, List.length_singleton] at hLe
        omega
      rw [if_neg hSmall, Entries.listing, Entries.share_own, Entries.share_large,
        Entries.share_shared, Entries.grow_own, Entries.grow_large, Entries.grow_shared]
      by_cases hq : q = p
      · subst hq
        rw [NameMap.enter_self, hEntries, ← hMap.listing, if_pos rfl, if_pos rfl]
        cases hLarge : N.large q with
        | true => rw [Entries.listing_large hLarge, List.append_assoc]
        | false =>
            have hNone : N.shared = [] := by
              by_contra hne
              obtain ⟨r, hr⟩ := hS.used.mp hne
              by_cases hrq : r = q
              · rw [hrq, hLarge] at hr
                cases hr
              · rw [hOld r (hpBig ▸ hrq)] at hr
                cases hr
            rw [Entries.listing_small hLarge, hNone, List.nil_append]
      · rw [NameMap.enter_of_ne _ _ hq, hEntries, ← hMap.listing, if_neg hq]
        have hNot := hOld q (hpBig ▸ hq)
        rw [Entries.listing_small hNot, hNot]
        exact List.append_nil _
  · by_cases hq : q = p
    · subst hq
      rw [NameMap.enter_self, hEntries, List.map_append, List.map_singleton]
      rw [hMap.listing] at hNew
      refine List.nodup_append.mpr ⟨hMap.names q, List.nodup_singleton _, fun a ha b hb he => ?_⟩
      have hEq : a = name := he.trans (List.mem_singleton.mp hb)
      exact hNew (hEq ▸ ha)
    · rw [NameMap.enter_of_ne _ _ hq]
      exact hMap.names q

/-- The store holds the map of the history. -/
theorem Run.mapped {big : Nat}
    (hRun : Run (stack + 2) clock (fun h _ call => call.Names h) h m)
    (hRoom : ∀ call, (call, .badAlloc) ∉ h)
    (hBig : ∀ p ≠ big, ((nameMap h).entries p).length ≤ 100) :
    ∃ N C, EntriesInUse m.store N C ∧ Mapped N (nameMap h) := by
  induction hRun with
  | start hInit =>
      exact ⟨Entries.start, [], EntriesInUse.start hInit, rfl, fun _ => rfl, fun _ => List.nodup_nil⟩
  | @step h m m' call reply prior hCall hLast ih =>
      have hBefore : ∀ p ≠ big, ((nameMap h).entries p).length ≤ 100 := fun p hp =>
        (NameMap.length_le_after _ (call, reply) p).trans (nameMap_append h _ ▸ hBig p hp)
      obtain ⟨N, C, hS, hMap⟩ := ih (fun c hc => hRoom c (List.mem_append_left _ hc)) hBefore
      rw [nameMap_append] at hBig ⊢
      rcases hS.perform_cases hMap.dirs hCall hLast with ⟨rfl, hSame⟩ | hNew
      · rw [NameMap.after_of_ne hSame]
        exact ⟨N, C, hS, hMap⟩
      · obtain ⟨type, p, name, inoOut, i, C', now, rfl, rfl, hNew, hMade⟩ := hNew
        exact ⟨_, C', hMade.inUse, hMap.made hS hMade hNew hBig⟩
  | @failed h m m' call prior hCall hLast ih =>
      exact absurd (List.mem_append_right h List.mem_cons_self) (hRoom call)

/-- A run of calls that all returned, and the entries that its last state holds. -/
structure Reached (stack : Nat) (clock : Nat → UInt32) (h : History) (m : Machine) (N : Entries) :
    Prop where
  run : Run stack clock (fun h _ call => call.Names h) h m
  room : ∀ call, (call, .badAlloc) ∉ h
  onlyEntries : ∃ C, OnlyEntries m.store N C
  dirs : N.dirs = (nameMap h).dirs

theorem freeInodes_made {σ σ' : Store} {N : Entries} {C C' : List Nat} {type : FileType} {p i : Nat}
    {name : CString} {now : UInt32} (h : Made σ σ' N type p i name C C' now) :
    σ.freeInodes ≤ σ'.freeInodes + 2 := by
  have hOne : (σ.putInode i (freshInode type now)).freeInodes + 1 = σ.freeInodes :=
    freeInodes_putInode h.inum h.dead (FileType.code_toUInt16_ne_zero type)
  have := h.filed.inodes
  omega

theorem Reached.create {p : Nat} {N : Entries} (hReached : Reached (stack + 2) clock h m N)
    (type : FileType) (name : CString) (hp : p ∈ N.dirs)
    (hNew : name ∉ (N.listing p).map Prod.snd) (hName : name.bytes.length ≤ 508)
    (hBlocks : 0 < m.store.freeBlocks) (hInodes : 2 ≤ m.store.freeInodes) :
    ∃ i m', createNode type (stack + 2) p name 0 m = .ok (.OK, i) m' ∧ ¬m.store.Alive i ∧
      Reached (stack + 2) clock (h ++ [(.node type p name 0, .node .OK i)]) m'
        ((N.grow type i).enter p (i, name)) ∧
      m'.store.freeBlocks + 1 = m.store.freeBlocks ∧
      m.store.freeInodes ≤ m'.store.freeInodes + 2 := by
  obtain ⟨C, hOnlyEntries⟩ := hReached.onlyEntries
  obtain ⟨r, m', hCreate, i, C', now, rfl, hMade⟩ := exists_ok_of_wp
    (wp_mono (hOnlyEntries.inUse.wp_createNode type stack 0 hp hNew hName)
      (fun _ _ hPost => hPost) fun _ _ hShort => by omega)
  have hPerform : perform (stack + 2) (.node type p name 0) m = .ok (.node .OK i) m' := by
    simp only [perform, bind, EStateM.bind, hCreate]
    rfl
  refine ⟨i, m', hCreate, hMade.dead, ⟨hReached.run.step ⟨hReached.dirs ▸ hp, hName⟩ hPerform,
    fun call hMem => ?_, ⟨C', hOnlyEntries.made hMade⟩, nameMap_dirs_made hReached.dirs type p i 0 name⟩,
    hMade.filed.blocks, freeInodes_made hMade⟩
  rcases List.mem_append.mp hMem with hMem | hMem
  · exact hReached.room call hMem
  · cases List.mem_singleton.mp hMem

/-- The directory `p` got `count` entries more. -/
structure Filled (N N' : Entries) (p count : Nat) : Prop where
  dirs : N'.dirs = N.dirs
  own : ∀ q ≠ p, N'.own q = N.own q
  large : ∀ q ≠ p, N'.large q = N.large q
  self : N'.large p = true ↔ N.large p = true ∨ 100 < (N.own p).length + count
  length : (N'.own p).length = min 100 ((N.own p).length + count)
  shared : N'.shared.length = N.shared.length + ((N.own p).length + count - 100)

theorem Filled.enter {N N' : Entries} {p count i : Nat} {name : CString} (h : Filled N N' p count)
    (hFew : (N.own p).length ≤ 100) :
    Filled N ((N'.grow .T_FILE i).enter p (i, name)) p (count + 1) := by
  have hLength := h.length
  have hShared := h.shared
  have hGrow : N'.grow .T_FILE i = N' := rfl
  rw [hGrow, Entries.enter]
  by_cases hSmall : (N'.own p).length < 100
  · rw [if_pos hSmall]
    refine ⟨h.dirs, fun q hq => ?_, h.large, ?_, ?_, ?_⟩
    · rw [Entries.put_own, if_neg hq, h.own q hq]
    · rw [Entries.put_large, h.self]
      exact or_congr_right (by omega)
    · rw [Entries.put_own, if_pos rfl, List.length_append, List.length_singleton]
      omega
    · rw [Entries.put_shared]
      omega
  · rw [if_neg hSmall]
    refine ⟨h.dirs, h.own, fun q hq => ?_, ?_, ?_, ?_⟩
    · rw [Entries.share_large, if_neg hq, h.large q hq]
    · rw [Entries.share_large, if_pos rfl]
      exact ⟨fun _ => Or.inr (by omega), fun _ => rfl⟩
    · rw [Entries.share_own]
      omega
    · rw [Entries.share_shared, List.length_append, List.length_singleton]
      omega

theorem row_notMem {N : Entries} {first : Nat} (hNames : ∀ e, N.Has e → e.2.bytes.length < first)
    (p : Nat) : row first ∉ (N.listing p).map Prod.snd := by
  intro hMem
  obtain ⟨e, he, hRow⟩ := List.mem_map.mp hMem
  have hLt := hNames e (Entries.has_of_listing he)
  rw [hRow, row_length] at hLt
  omega

/-- A directory gets `count` files more. -/
theorem Reached.fill {p : Nat} {N : Entries} (hReached : Reached (stack + 2) clock h m N)
    (hp : p ∈ N.dirs) (first count : Nat) (hNames : ∀ e, N.Has e → e.2.bytes.length < first)
    (hLast : first + count ≤ 509) (hBlocks : count ≤ m.store.freeBlocks)
    (hInodes : 2 * count ≤ m.store.freeInodes) :
    ∃ h' m' N', Reached (stack + 2) clock h' m' N' ∧ Filled N N' p count ∧
      (∀ e, N'.Has e → e.2.bytes.length < first + count) ∧
      ((nameMap h').entries p).length = ((nameMap h).entries p).length + count ∧
      (∀ q ≠ p, (nameMap h').entries q = (nameMap h).entries q) ∧ (∀ x ∈ h, x ∈ h') ∧
      m'.store.freeBlocks + count = m.store.freeBlocks ∧
      m.store.freeInodes ≤ m'.store.freeInodes + 2 * count := by
  have hFew : (N.own p).length ≤ 100 := by
    obtain ⟨C, hOnlyEntries⟩ := hReached.onlyEntries
    exact (hOnlyEntries.inUse.row p hp).few
  induction count with
  | zero =>
      refine ⟨h, m, N, hReached, ⟨rfl, fun _ _ => rfl, fun _ _ => rfl, ?_, ?_, ?_⟩, hNames, rfl,
        fun _ _ => rfl, fun _ hx => hx, rfl, Nat.le_add_right _ _⟩
      · exact ⟨Or.inl, fun hLarge => hLarge.resolve_right (by omega)⟩
      · rw [Nat.add_zero, Nat.min_eq_right hFew]
      · omega
  | succ count ih =>
      obtain ⟨h', m', N', hReached', hFilled, hNames', hLength, hOther, hKeep, hBlocks', hInodes'⟩ :=
        ih (by omega) (by omega) (by omega)
      obtain ⟨i, m₁, -, -, hReached₁, hBlocks₁, hInodes₁⟩ := hReached'.create .T_FILE _
        (hFilled.dirs ▸ hp) (row_notMem hNames' p) (by rw [row_length]; omega) (by omega) (by omega)
      refine ⟨_, m₁, _, hReached₁, hFilled.enter hFew, fun e he => ?_, ?_, fun q hq => ?_,
        fun x hx => List.mem_append_left _ (hKeep x hx), by omega, by omega⟩
      · rcases Entries.has_enter he with hOld | rfl
        · exact (hNames' e hOld).trans (by omega)
        · rw [row_length]
          omega
      · rw [nameMap_append, NameMap.after, NameMap.grow_of_ne (by decide), NameMap.enter_self,
          List.length_append, List.length_singleton, hLength]
        omega
      · rw [nameMap_append, NameMap.after, NameMap.grow_of_ne (by decide),
          NameMap.enter_of_ne _ _ hq, hOther q hq]

theorem exists_reached_start (stack : Nat) : ∃ m,
    Reached (stack + 2) (fun _ => 0) [] m Entries.start ∧ m.store.freeInodes = 1023 ∧
      m.store.freeBlocks = 2095612 := by
  obtain ⟨m, hInit, hInodes, hBlocks⟩ := ExtentServer.exists_start fun _ => 0
  exact ⟨m, ⟨Run.start hInit, fun _ => List.not_mem_nil, ⟨[], OnlyEntries.start hInit⟩, rfl⟩, hInodes,
    hBlocks⟩

theorem Entries.not_has_start (e : Entry) : ¬Entries.start.Has e := by
  rintro (he | ⟨p, he⟩)
  · exact absurd he List.not_mem_nil
  · exact absurd he List.not_mem_nil

/-- The large directory, or any other when there is none. -/
theorem NameMap.OneLarge.exists_big {N : NameMap} (h : N.OneLarge) :
    ∃ big, ∀ p ≠ big, (N.entries p).length ≤ 100 := by
  by_cases hLarge : ∃ q, 100 < (N.entries q).length
  · obtain ⟨q, hq⟩ := hLarge
    refine ⟨q, fun p hp => ?_⟩
    by_contra hOther
    exact hp (h p q (Nat.lt_of_not_le hOther) hq)
  · exact ⟨1, fun p _ => Nat.le_of_not_lt fun hp => hLarge ⟨p, hp⟩⟩

/-- A name is listed at most once. -/
theorem find?_of_mem {l : List Entry} (hNames : (l.map Prod.snd).Nodup) {e : Entry} (he : e ∈ l) :
    l.find? (fun d => e.2 == d.2) = some e := by
  induction l with
  | nil => exact absurd he List.not_mem_nil
  | cons d rest ih =>
      rw [List.map_cons, List.nodup_cons] at hNames
      rcases List.mem_cons.mp he with rfl | he
      · exact List.find?_cons_of_pos (by simp)
      · have hne : e.2 ≠ d.2 := fun hEq => hNames.1 (hEq ▸ List.mem_map_of_mem he)
        rw [List.find?_cons_of_neg (by simpa using hne)]
        exact ih hNames.2 he

/-- `readdir` and `lookup` answer from the map of the calls made so far. A name that is in the
map cannot be created again, and another one can while there is room. -/
theorem name_maps (hStack : 2 ≤ stack)
    (hRun : Run stack clock (fun h _ call => call.Names h) h m)
    (hRoom : ∀ call, (call, .badAlloc) ∉ h) (hOne : (nameMap h).OneLarge) {p : Nat}
    (hp : p ∈ (nameMap h).dirs) :
    readdir m stack p = .ok ((nameMap h).entries p) ∧
    (((nameMap h).entries p).map Prod.snd).Nodup ∧
    (∀ i name, (i, name) ∈ (nameMap h).entries p → lookup m stack p name = .ok (some i)) ∧
    (∀ name, (∀ i, (i, name) ∉ (nameMap h).entries p) → lookup m stack p name = .ok none) ∧
    (∀ type i name inoOut, (i, name) ∈ (nameMap h).entries p →
      perform stack (.node type p name inoOut) m = .ok (.node .EXIST inoOut) m) ∧
    ∀ type name inoOut, (∀ i, (i, name) ∉ (nameMap h).entries p) → name.bytes.length ≤ 508 →
      0 < m.store.freeBlocks → 2 ≤ m.store.freeInodes →
      ∃ i m', perform stack (.node type p name inoOut) m = .ok (.node .OK i) m' := by
  obtain ⟨d, rfl⟩ := Nat.exists_eq_add_of_le' hStack
  obtain ⟨big, hBig⟩ := hOne.exists_big
  obtain ⟨N, C, hS, hMap⟩ := hRun.mapped hRoom hBig
  rw [← hMap.dirs] at hp
  have hLookup := hS.lookup_eq hp d
  have hReaddir : readdir m (d + 2) p = .ok (N.listing p) := hS.readdir_eq hp
  rw [hMap.listing] at hLookup hReaddir
  have hAbsent : ∀ name, (∀ i, (i, name) ∉ (nameMap h).entries p) →
      name ∉ ((nameMap h).entries p).map Prod.snd := by
    intro name hNone hMem
    obtain ⟨⟨i, n⟩, he, rfl⟩ := List.mem_map.mp hMem
    exact hNone i he
  refine ⟨hReaddir, hMap.names p, fun i name he => ?_, fun name hNone => ?_,
    fun type i name inoOut he => ?_, fun type name inoOut hNone hName hBlocks hInodes => ?_⟩
  · rw [hLookup, find?_of_mem (hMap.names p) he]
    rfl
  · rw [hLookup, find?_of_notMem (hAbsent name hNone)]
    rfl
  · have hListed : name ∈ (N.listing p).map Prod.snd := by
      rw [hMap.listing]
      exact List.mem_map_of_mem he
    have hExist := hS.createNode_exist type d inoOut hp hListed
    simp only [InodeFS.ChfsClient.perform, bind, EStateM.bind, hExist]
    rfl
  · have hNew : name ∉ (N.listing p).map Prod.snd := hMap.listing p ▸ hAbsent name hNone
    obtain ⟨r, m', hCreate, i, C', now, rfl, -⟩ := exists_ok_of_wp
      (wp_mono (hS.wp_createNode type d inoOut hp hNew hName) (fun _ _ hPost => hPost)
        fun _ _ hShort => by omega)
    refine ⟨i, m', ?_⟩
    simp only [InodeFS.ChfsClient.perform, bind, EStateM.bind, hCreate]
    rfl

/-- One entry more than the root has slots for. -/
theorem name_maps_large_root : ∃ (h : History) (m : Machine),
    ((nameMap h).entries 1).length = 101 ∧ readdir m 2 1 = .ok ((nameMap h).entries 1) := by
  obtain ⟨m, hStart, hInodes, hBlocks⟩ := exists_reached_start 0
  obtain ⟨h, m', N', hReached, hFilled, -, hLength, hOther, -⟩ := hStart.fill (p := 1) rfl 0 101
    (fun e he => (Entries.not_has_start e he).elim) (by omega) (by omega) (by omega)
  have hOne : (nameMap h).OneLarge := by
    have hRoot : ∀ q, 100 < ((nameMap h).entries q).length → q = 1 := by
      intro q hq
      by_contra hne
      rw [hOther q hne] at hq
      exact absurd hq (Nat.not_lt_zero 100)
    exact fun p q hp hq => (hRoot p hp).trans (hRoot q hq).symm
  have hDir : 1 ∈ (nameMap h).dirs := by
    rw [← hReached.dirs, hFilled.dirs]
    rfl
  exact ⟨h, m', hLength, (name_maps (Nat.le_refl 2) hReached.run hReached.room hOne hDir).1⟩

end Runs
end ChfsClient
end InodeFS
