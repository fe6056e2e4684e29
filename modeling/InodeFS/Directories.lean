import InodeFS.Creation

/-! The directories of a run as an abstract state. Each directory has at most 100 entries
of its own, and the large ones share a list of the others. Every run of `create`,
`mkdir`, `ln`, `unlink`, `lookup` and `readdir` that spares the children is a trace of
that state, and with at most one large directory each one is a map of its own. -/
namespace InodeFS

open Bytes Exec Paging Store

namespace ChfsClient

namespace Entries

/-- What a call may reply, and the entries after it. -/
inductive Step : Entries → Call → Reply → Entries → Prop where
  | made {N : Entries} {type : FileType} {p inoOut i : Nat} {name : CString} (hp : p ∈ N.dirs)
      (hNew : name ∉ (N.listing p).map Prod.snd) (hDirs : i ∉ N.dirs) (hFresh : ∀ e, N.Has e → e.1 ≠ i) :
      Step N (.node type p name inoOut) (.node .OK i) ((N.grow type i).enter p (i, name))
  | found {N : Entries} {type : FileType} {p inoOut : Nat} {name : CString} (hp : p ∈ N.dirs)
      (hOld : name ∈ (N.listing p).map Prod.snd) :
      Step N (.node type p name inoOut) (.node .EXIST inoOut) N
  | refused {N : Entries} {type : FileType} {p inoOut : Nat} {name : CString} (hp : p ∈ N.dirs)
      (hNew : name ∉ (N.listing p).map Prod.snd) :
      Step N (.node type p name inoOut) .badAlloc N
  | lookup {N : Entries} {p : Nat} (hp : p ∈ N.dirs) (name : CString) :
      Step N (.lookup p name)
        (.lookup (((N.listing p).find? fun content => name == content.2).map Prod.fst)) N
  | readdir {N : Entries} {p : Nat} (hp : p ∈ N.dirs) : Step N (.readdir p) (.readdir (N.listing p)) N
  | unlink {N : Entries} {p k : Nat} {name : CString} (hp : p ∈ N.dirs)
      (hk : (N.listing p).findIdx? (fun file => file.2 == name) = some k) :
      Step N (.unlink p name) (.unlink .OK) (N.cut p k)
  /-- Nothing is said about what no directory answers. -/
  | lookupElsewhere {N : Entries} {p : Nat} (hp : p ∉ N.dirs) (name : CString) (reply : Reply) :
      Step N (.lookup p name) reply N
  | readdirElsewhere {N : Entries} {p : Nat} (hp : p ∉ N.dirs) (reply : Reply) :
      Step N (.readdir p) reply N

/-- The histories that lead from the empty root to these entries. -/
inductive Trace : History → Entries → Prop where
  | start : Trace [] start
  | step {h : History} {N N' : Entries} {call : Call} {reply : Reply} (prior : Trace h N)
      (last : Step N call reply N') : Trace (h ++ [(call, reply)]) N'

end Entries

section Runs

variable {stack : Nat} {clock : Nat → UInt32} {h : History} {m m' : Machine} {N : Entries}
  {C : List Nat} {p i inoOut : Nat} {name : CString} {type : FileType}

/-- One call on the machine is one call on the entries. -/
theorem OnlyEntries.names_step {call : Call} {reply : Reply} (hOnlyEntries : OnlyEntries m.store N C)
    (hDirs : N.dirs = (nameMap h).dirs) (hCall : call.Names h)
    (hRun : perform (stack + 2) call m = .ok reply m') :
    ∃ N' C', N.Step call reply N' ∧ OnlyEntries m'.store N' C' ∧
      N'.dirs = (nameMap (h ++ [(call, reply)])).dirs := by
  have hS := hOnlyEntries.inUse
  have hSame : ∀ a : Reply, reply = a → (∀ i, a ≠ .node .OK i) →
      N.dirs = (nameMap (h ++ [(call, reply)])).dirs := fun a ha hNone => by
    rw [nameMap_append, NameMap.after_of_ne (ha ▸ hNone), hDirs]
  cases call with
  | node type p name inoOut =>
      obtain ⟨hp, hName⟩ := hCall
      rw [← hDirs] at hp
      obtain ⟨r, hCreate, rfl⟩ := perform_node hRun
      by_cases hOld : name ∈ (N.listing p).map Prod.snd
      · rw [hS.createNode_exist type stack inoOut hp hOld] at hCreate
        injection hCreate with hReply hMachine
        subst hReply hMachine
        exact ⟨N, C, .found hp hOld, hOnlyEntries, hSame _ rfl fun i hi => by cases hi⟩
      · obtain ⟨i, C', now, rfl, hMade⟩ :=
          wp_ok (hS.wp_createNode type stack inoOut hp hOld hName) hCreate
        have hFresh : ∀ e, N.Has e → e.1 ≠ i := fun e he hEq => hMade.dead (hEq ▸ hS.alive e he)
        exact ⟨_, C', .made hp hOld (fun hMem => hMade.dead (hS.dirs_alive hMem)) hFresh,
          hOnlyEntries.made hMade, nameMap_dirs_made hDirs type p i inoOut name⟩
  | lookup p name =>
      by_cases hp : p ∈ N.dirs
      · have hLookup := hS.lookup_eq hp stack name
        simp only [perform, bind, EStateM.bind, query, hLookup] at hRun
        injection hRun with hReply hMachine
        subst hReply hMachine
        exact ⟨N, C, .lookup hp name, hOnlyEntries, hSame _ rfl fun i hi => by cases hi⟩
      · obtain ⟨rfl, a, rfl⟩ := perform_query (f := (lookup · (stack + 2) p name)) hRun
        exact ⟨N, C, .lookupElsewhere hp name _, hOnlyEntries, hSame _ rfl fun i hi => by cases hi⟩
  | readdir p =>
      by_cases hp : p ∈ N.dirs
      · have hRead : readdir m (stack + 2) p = .ok (N.listing p) := hS.readdir_eq hp
        simp only [perform, bind, EStateM.bind, query, hRead] at hRun
        injection hRun with hReply hMachine
        subst hReply hMachine
        exact ⟨N, C, .readdir hp, hOnlyEntries, hSame _ rfl fun i hi => by cases hi⟩
      · obtain ⟨rfl, a, rfl⟩ := perform_query (f := (readdir · (stack + 2) p)) hRun
        exact ⟨N, C, .readdirElsewhere hp _, hOnlyEntries, hSame _ rfl fun i hi => by cases hi⟩
  | _ => exact hCall.elim

/-- A call that throws `bad_alloc` was to make a new name. -/
theorem OnlyEntries.names_refused {call : Call} (hOnlyEntries : OnlyEntries m.store N C)
    (hDirs : N.dirs = (nameMap h).dirs) (hCall : call.Names h)
    (hRun : perform (stack + 2) call m = .error .badAlloc m') :
    N.Step call .badAlloc N ∧ OnlyEntries m'.store N C := by
  have hS := hOnlyEntries.inUse
  refine ⟨?_, hOnlyEntries.stray_alloc (hS.perform_error hDirs hCall hRun)⟩
  cases call with
  | node type p name inoOut =>
      have hp := hCall.1
      rw [← hDirs] at hp
      refine .refused hp fun hOld => ?_
      have hCreate := perform_node_error hRun
      rw [hS.createNode_exist type stack inoOut hp hOld] at hCreate
      cases hCreate
  | lookup p name =>
      refine .lookupElsewhere (fun hp => ?_) name _
      simp only [perform, bind, EStateM.bind, query, hS.lookup_eq hp stack name] at hRun
      cases hRun
  | readdir p =>
      refine .readdirElsewhere (fun hp => ?_) _
      have hRead : readdir m (stack + 2) p = .ok (N.listing p) := hS.readdir_eq hp
      simp only [perform, bind, EStateM.bind, query, hRead] at hRun
      cases hRun
  | _ => exact hCall.elim

/-- What every call on the entries keeps holds at the end of a run that spares the
children. -/
theorem Run.follows {allowed : History → Machine → Call → Prop} {I : History → Entries → Prop}
    (hLinks : ∀ h m call, allowed h m call →
      Links (stack + 2) h m call ∧ SparesChildren (stack + 2) m call)
    (hStart : I [] Entries.start)
    (hNext : ∀ h m N C call reply N', allowed h m call → OnlyEntries m.store N C →
      N.dirs = (nameMap h).dirs → N.Step call reply N' → I h N → I (h ++ [(call, reply)]) N')
    (hRun : Run (stack + 2) clock allowed h m) :
    ∃ N C, I h N ∧ OnlyEntries m.store N C ∧ N.dirs = (nameMap h).dirs := by
  induction hRun with
  | start hInit => exact ⟨Entries.start, [], hStart, OnlyEntries.start hInit, rfl⟩
  | @step h m m' call reply prior hAllowed hLast ih =>
      obtain ⟨N, C, hI, hOnlyEntries, hDirs⟩ := ih
      obtain ⟨hCall, hSpares⟩ := hLinks h m call hAllowed
      have hNames : call.Names h → ∃ N C, I (h ++ [(call, reply)]) N ∧
          OnlyEntries m'.store N C ∧ N.dirs = (nameMap (h ++ [(call, reply)])).dirs := fun hName => by
        obtain ⟨N', C', hStep, hOnlyEntries', hDirs'⟩ := hOnlyEntries.names_step hDirs hName hLast
        exact ⟨N', C', hNext h m N C call reply N' hAllowed hOnlyEntries hDirs hStep hI, hOnlyEntries', hDirs'⟩
      cases call with
      | unlink p name =>
          obtain ⟨m₁, k, hk, hOk, hOnlyEntries'⟩ := hOnlyEntries.unlink_cut hDirs hCall hSpares
          obtain ⟨status, hUnlink, rfl⟩ := perform_unlink hLast
          rw [hOk] at hUnlink
          injection hUnlink with hStatus hMachine
          subst hStatus hMachine
          have hStep : N.Step (.unlink p name) (.unlink .OK) (N.cut p k) := .unlink (hDirs ▸ hCall.1) hk
          refine ⟨N.cut p k, C, hNext h m N C _ _ _ hAllowed hOnlyEntries hDirs hStep hI, hOnlyEntries', ?_⟩
          rw [nameMap_append, Entries.cut_dirs, hDirs]
          rfl
      | node => exact hNames hCall
      | lookup => exact hNames hCall
      | readdir => exact hNames hCall
      | _ => exact hCall.elim
  | @failed h m m' call prior hAllowed hLast ih =>
      obtain ⟨N, C, hI, hOnlyEntries, hDirs⟩ := ih
      obtain ⟨hCall, hSpares⟩ := hLinks h m call hAllowed
      have hNone : ∀ i, Reply.badAlloc ≠ .node .OK i := fun i hi => by cases hi
      rw [nameMap_append, NameMap.after_of_ne hNone]
      have hNames : call.Names h → ∃ N C, I (h ++ [(call, .badAlloc)]) N ∧
          OnlyEntries m'.store N C ∧ N.dirs = (nameMap h).dirs := fun hName => by
        obtain ⟨hStep, hOnlyEntries'⟩ := hOnlyEntries.names_refused hDirs hName hLast
        exact ⟨N, C, hNext h m N C call _ N hAllowed hOnlyEntries hDirs hStep hI, hOnlyEntries', hDirs⟩
      cases call with
      | unlink p name =>
          obtain ⟨m₁, k, -, hOk, -⟩ := hOnlyEntries.unlink_cut hDirs hCall hSpares
          rw [perform_unlink_error hLast] at hOk
          cases hOk
      | node => exact hNames hCall
      | lookup => exact hNames hCall
      | readdir => exact hNames hCall
      | _ => exact hCall.elim

/-- Every run that spares the children is a trace of the entries, and its last state
answers as they do. -/
theorem directories_refine (hStack : 2 ≤ stack)
    (hRun : Run stack clock (fun h m call => Links stack h m call ∧ SparesChildren stack m call) h m) :
    ∃ N, Entries.Trace h N ∧ N.dirs = (nameMap h).dirs ∧ ∀ p ∈ N.dirs,
      readdir m stack p = .ok (N.listing p) ∧ ∀ name, lookup m stack p name =
        .ok (((N.listing p).find? fun content => name == content.2).map Prod.fst) := by
  obtain ⟨d, rfl⟩ := Nat.exists_eq_add_of_le' hStack
  obtain ⟨N, C, hTrace, hOnlyEntries, hDirs⟩ := hRun.follows (fun _ _ _ hCall => hCall) .start
    fun h m N C call reply N' _ _ _ hStep hTrace => Entries.Trace.step hTrace hStep
  exact ⟨N, hTrace, hDirs, fun p hp => ⟨hOnlyEntries.inUse.readdir_eq hp, hOnlyEntries.inUse.lookup_eq hp d⟩⟩

/-- A root with one child, from which the first file was removed. -/
theorem directories_refine_unlink : ∃ (h : History) (m : Machine) (name : CString) (N : Entries),
    Entries.Trace (h ++ [(.unlink 1 name, .unlink .OK)]) N ∧ (N.listing 1).length = 149 ∧
    readdir m 2 1 = .ok (N.listing 1) := by
  obtain ⟨h, m₀, N, C, hRoot⟩ := exists_root_files 0 (n := 150) (by omega)
  obtain ⟨e, m, hRemoved⟩ := hRoot.exists_removed (by omega) (by omega)
  obtain ⟨N', hTrace, hDirs, hAnswers⟩ := directories_refine (Nat.le_refl 2) hRemoved.run
  have hRead := (hAnswers 1 (by rw [hDirs, hRoot.map_unlink]; rfl)).1
  refine ⟨h, m, e.2, N', hTrace, ?_, hRead⟩
  rw [Except.ok.inj (hRead.symm.trans hRemoved.listed), hRemoved.length]

end Runs

/-- One call, for a map that knows only what was made and what was unlinked. -/
def remaining (M : Nat → List Entry) : Call × Reply → Nat → List Entry
  | (.node _ p name _, .node .OK i) => Function.update M p (M p ++ [(i, name)])
  | (.unlink p name, .unlink .OK) =>
      Function.update M p ((M p).eraseP fun file => file.2 == name)
  | _ => M

/-- What was made in each directory and not unlinked since. -/
def current (h : History) : Nat → List Entry := h.foldl remaining fun _ => []

theorem current_append (h : History) (x : Call × Reply) :
    current (h ++ [x]) = remaining (current h) x := by
  rw [current, List.foldl_append]
  rfl

/-- At most one directory lists more than 100 entries. -/
def OneLarge (stack : Nat) (h : History) (m : Machine) : Prop :=
  ∀ p ∈ (nameMap h).dirs, ∀ q ∈ (nameMap h).dirs, ∀ l l', readdir m stack p = .ok l →
    readdir m stack q = .ok l' → 100 < l.length → 100 < l'.length → p = q

namespace Entries

variable {N N' : Entries} {M : Nat → List Entry} {p q k : Nat} {e : Entry} {call : Call}
  {reply : Reply}

def One (N : Entries) : Prop := ∀ p q, N.large p = true → N.large q = true → p = q

/-- Every directory lists what the map says, up to the order, and no name twice. -/
def Agrees (N : Entries) (M : Nat → List Entry) : Prop :=
  ∀ p, (N.listing p).Perm (M p) ∧ ((M p).map Prod.snd).Nodup

/-- A new entry shows in its own directory. -/
theorem listing_enter_one {C : List Nat} {σ : Store} (hS : EntriesInUse σ N C) (hp : p ∈ N.dirs)
    (hOne : (N.enter p e).One) (q : Nat) :
    (N.enter p e).listing q = if q = p then N.listing p ++ [e] else N.listing q := by
  have hRow := hS.row p hp
  by_cases hSmall : (N.own p).length < 100
  · have hNot := hRow.not_large hSmall
    rw [enter, if_pos hSmall]
    by_cases hq : q = p
    · subst hq
      rw [if_pos rfl, listing, put_own, if_pos rfl, put_large, hNot, listing_small hNot]
      exact List.append_nil _
    · rw [if_neg hq, listing, put_own, if_neg hq, put_large, put_shared, listing]
  · rw [enter, if_neg hSmall] at hOne ⊢
    have hOther : ∀ q, q ≠ p → N.large q = false := fun q hq => by
      by_contra hLarge
      refine hq (hOne q p ?_ (by rw [share_large, if_pos rfl]))
      rw [share_large, if_neg hq]
      simpa using hLarge
    by_cases hq : q = p
    · subst hq
      rw [if_pos rfl, listing_large (by rw [share_large, if_pos rfl]), share_own, share_shared]
      cases hLarge : N.large q with
      | true => rw [listing_large hLarge, List.append_assoc]
      | false =>
          have hNil : N.shared = [] := by
            by_contra hSome
            obtain ⟨r, hr⟩ := hS.used.mp hSome
            by_cases hrq : r = q
            · rw [hrq, hLarge] at hr
              cases hr
            · rw [hOther r hrq] at hr
              cases hr
          rw [listing_small hLarge, hNil, List.nil_append]
    · have hNot := hOther q hq
      rw [if_neg hq, listing_small (by rw [share_large, if_neg hq, hNot]), listing_small hNot, share_own]

/-- An entry that goes shows in its own directory. -/
theorem listing_cut_one {C : List Nat} {σ : Store} (hS : EntriesInUse σ N C) (hp : p ∈ N.dirs)
    (hOne : N.One) (q : Nat) :
    (N.cut p k).listing q = if q = p then swapOut (N.listing p) k else N.listing q := by
  by_cases hq : q = p
  · subst hq
    rw [if_pos rfl, cut_listing (hS.row q hp).few]
  · rw [if_neg hq, listing, cut_own_of_ne hq, cut_large, listing]
    cases hLarge : N.large q with
    | false => rfl
    | true =>
        have hNot : N.large p = false := by
          by_contra hBoth
          exact hq (hOne q p hLarge (by simpa using hBoth))
        rw [cut_shared_small hNot]

theorem Agrees.update (h : N.Agrees M) {l : List Entry}
    (hListing : ∀ q, N'.listing q = if q = p then N'.listing p else N.listing q)
    (hPerm : (N'.listing p).Perm l) (hNames : (l.map Prod.snd).Nodup) :
    N'.Agrees (Function.update M p l) := by
  intro q
  rw [hListing]
  by_cases hq : q = p
  · subst hq
    rw [if_pos rfl, Function.update_self]
    exact ⟨hPerm, hNames⟩
  · rw [if_neg hq, Function.update_of_ne hq]
    exact h q

/-- One call keeps the agreement. -/
theorem Agrees.step {C : List Nat} {σ : Store} (h : N.Agrees M) (hS : EntriesInUse σ N C) (hOne : N.One)
    (hOne' : N'.One) (hStep : N.Step call reply N') : N'.Agrees (remaining M (call, reply)) := by
  cases hStep with
  | @made type p inoOut i name hp hNew hDirs hFresh =>
      obtain ⟨hPerm, hNames⟩ := h p
      have hGrow : (N.grow type i).enter p (i, name) = (N.enter p (i, name)).grow type i := by
        by_cases hSmall : (N.own p).length < 100
        · rw [enter, enter, grow_own, if_pos hSmall, if_pos hSmall]
          rfl
        · rw [enter, enter, grow_own, if_neg hSmall, if_neg hSmall]
          rfl
      have hOnly := listing_enter_one hS hp (show (N.enter p (i, name)).One by rwa [hGrow] at hOne')
      rw [hGrow]
      refine h.update (fun q => ?_) ?_ ?_
      · have hq := hOnly q
        have hSelf := hOnly p
        rw [if_pos rfl] at hSelf
        rw [← hSelf] at hq
        exact hq
      · refine (List.Perm.of_eq ?_).trans (hPerm.append_right _)
        exact (hOnly p).trans (if_pos rfl)
      · rw [List.map_append, List.map_singleton]
        refine List.nodup_append.mpr ⟨hNames, List.nodup_singleton _, fun a ha b hb hEq => ?_⟩
        obtain rfl : b = name := List.mem_singleton.mp hb
        exact hNew ((hPerm.map Prod.snd).mem_iff.mpr (hEq ▸ ha))
  | @unlink p k name hp hk =>
      obtain ⟨hPerm, hNames⟩ := h p
      have hOnly := listing_cut_one (k := k) hS hp hOne
      have hLt : k < (N.listing p).length := (List.findIdx?_eq_some_iff_getElem.mp hk).1
      have hErase : (N.listing p).eraseIdx k = (N.listing p).eraseP fun file => file.2 == name := by
        rw [List.eraseP_eq_eraseIdx, hk]
      refine h.update (fun q => ?_) ?_ ?_
      · have hq := hOnly q
        have hSelf := hOnly p
        rw [if_pos rfl] at hSelf
        rw [← hSelf] at hq
        exact hq
      · rw [hOnly p, if_pos rfl]
        refine (swapOut_perm hLt).trans (hErase ▸ hPerm.eraseP _ ?_)
        refine (List.pairwise_map.mp ((hPerm.map Prod.snd).nodup_iff.mpr hNames)).imp
          fun {a b} hne ha hb => hne ?_
        exact (eq_of_beq ha).trans (eq_of_beq hb).symm
      · exact hNames.sublist ((List.eraseP_sublist).map Prod.snd)
  | found | refused | lookup | readdir | lookupElsewhere | readdirElsewhere =>
      exact h

end Entries

section Runs

variable {stack : Nat} {clock : Nat → UInt32} {h : History} {m : Machine} {N : Entries}
  {C : List Nat} {p : Nat}

theorem OnlyEntries.one (hOnlyEntries : OnlyEntries m.store N C) (hDirs : N.dirs = (nameMap h).dirs)
    (hOne : OneLarge (stack + 2) h m) : N.One := by
  have hS := hOnlyEntries.inUse
  intro p q hp hq
  have hpDirs := hS.mem_dirs hp
  have hqDirs := hS.mem_dirs hq
  exact hOne p (hDirs ▸ hpDirs) q (hDirs ▸ hqDirs) _ _ (hS.readdir_eq hpDirs) (hS.readdir_eq hqDirs)
    ((hS.length_listing hpDirs).mp hp) ((hS.length_listing hqDirs).mp hq)

/-- The entry that a name finds does not depend on the order. -/
theorem find?_perm {l l' : List Entry} (hPerm : l.Perm l') (hNames : (l'.map Prod.snd).Nodup)
    (name : CString) :
    l.find? (fun content => name == content.2) = l'.find? (fun content => name == content.2) := by
  by_cases hMem : name ∈ l'.map Prod.snd
  · obtain ⟨e, he, rfl⟩ := List.mem_map.mp hMem
    rw [find?_of_mem hNames he, find?_of_mem ((hPerm.map Prod.snd).nodup_iff.mpr hNames)
      (hPerm.mem_iff.mpr he)]
  · rw [find?_of_notMem hMem, find?_of_notMem fun hOld => hMem ((hPerm.map Prod.snd).mem_iff.mp hOld)]

/-- While at most one directory is large, each directory lists what was made in it and not
unlinked since, and a name finds the inum that it was made with. -/
theorem directories_are_maps (hStack : 2 ≤ stack)
    (hRun : Run stack clock (fun h m call =>
      (Links stack h m call ∧ SparesChildren stack m call) ∧ OneLarge stack h m) h m)
    (hOne : OneLarge stack h m) (hp : p ∈ (nameMap h).dirs) :
    ((current h p).map Prod.snd).Nodup ∧
      (∃ l, readdir m stack p = .ok l ∧ l.Perm (current h p)) ∧
      ∀ name, lookup m stack p name =
        .ok (((current h p).find? fun content => name == content.2).map Prod.fst) := by
  obtain ⟨d, rfl⟩ := Nat.exists_eq_add_of_le' hStack
  -- the agreement is lost only when a second directory becomes large
  obtain ⟨N, C, hAgrees, hOnlyEntries, hDirs⟩ := hRun.follows (fun _ _ _ hCall => hCall.1)
    (I := fun h N => N.One → N.Agrees (current h)) (fun _ p => ⟨.refl _, List.nodup_nil⟩)
    fun h m N C call reply N' hCall hOnlyEntries hDirs hStep ih hOne' => by
      have hBefore := hOnlyEntries.one hDirs hCall.2
      rw [current_append]
      exact (ih hBefore).step hOnlyEntries.inUse hBefore hOne' hStep
  obtain ⟨hPerm, hNames⟩ := hAgrees (hOnlyEntries.one hDirs hOne) p
  rw [← hDirs] at hp
  refine ⟨hNames, ⟨_, hOnlyEntries.inUse.readdir_eq hp, hPerm⟩, fun name => ?_⟩
  rw [hOnlyEntries.inUse.lookup_eq hp, find?_perm hPerm hNames]

theorem OneLarge.of_root (hDirs : (nameMap h).dirs ⊆ {1}) (stack : Nat) (m : Machine) :
    OneLarge stack h m := by
  intro p hp q hq _ _ _ _ _ _
  exact (hDirs hp).trans (hDirs hq).symm

theorem NameMap.dirs_subset_after (N : NameMap) (x : Call × Reply) : N.dirs ⊆ (N.after x).dirs := by
  obtain ⟨call, reply⟩ := x
  intro p hp
  cases call with
  | node type q name inoOut =>
      cases reply with
      | node status i =>
          cases status with
          | OK =>
              change p ∈ (N.grow type i).dirs
              rw [NameMap.grow]
              split
              · exact Or.inr hp
              · exact hp
          | _ => exact hp
      | _ => exact hp
  | _ => exact hp

/-- In a run that makes no directory none but the root is large. -/
theorem Run.only_root {allowed : History → Machine → Call → Prop} (hRun : Run stack clock allowed h m)
    (hDirs : (nameMap h).dirs ⊆ {1}) :
    Run stack clock (fun h m call => allowed h m call ∧ OneLarge stack h m) h m := by
  induction hRun with
  | start hInit => exact .start hInit
  | @step h m m' call reply prior hCall hLast ih =>
      rw [nameMap_append] at hDirs
      have hBefore := (NameMap.dirs_subset_after (nameMap h) (call, reply)).trans hDirs
      have hAllowed : allowed h m call ∧ OneLarge stack h m := ⟨hCall, .of_root hBefore stack m⟩
      exact (ih hBefore).step hAllowed hLast
  | @failed h m m' call prior hCall hLast ih =>
      rw [nameMap_append] at hDirs
      have hBefore := (NameMap.dirs_subset_after (nameMap h) (call, .badAlloc)).trans hDirs
      have hAllowed : allowed h m call ∧ OneLarge stack h m := ⟨hCall, .of_root hBefore stack m⟩
      exact (ih hBefore).failed hAllowed hLast

/-- A root with one child, from which the first file was removed. -/
theorem directories_are_maps_unlink : ∃ (h : History) (m : Machine) (l : List Entry),
    readdir m 2 1 = .ok l ∧ l.length = 149 ∧ l.Perm (current h 1) ∧ ((current h 1).map Prod.snd).Nodup ∧
      ∀ name, lookup m 2 1 name =
        .ok (((current h 1).find? fun content => name == content.2).map Prod.fst) := by
  obtain ⟨h, m₀, N, C, hRoot⟩ := exists_root_files 0 (n := 150) (by omega)
  obtain ⟨e, m, hRemoved⟩ := hRoot.exists_removed (by omega) (by omega)
  have hDirs := (hRoot.map_unlink e.2).le
  obtain ⟨hNames, ⟨l, hRead, hPerm⟩, hLookup⟩ := directories_are_maps (Nat.le_refl 2)
    (hRemoved.run.only_root hDirs) (.of_root hDirs 2 m) (by rw [hRoot.map_unlink]; rfl)
  obtain rfl := Except.ok.inj (hRead.symm.trans hRemoved.listed)
  exact ⟨_, m, _, hRead, hRemoved.length, hPerm, hNames, hLookup⟩

end Runs
end ChfsClient
end InodeFS
