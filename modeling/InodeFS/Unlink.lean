import InodeFS.NameMap

/-! `unlink` never reports a failure: it returns `OK` for a name that is not there,
and it removes directories like files. -/
namespace InodeFS.ChfsClient

open Bytes Exec Store

section Unlink

variable {m m' : Machine} {stack p : Nat} {name : CString}

/-- `readdir` of `p` returns this entry. -/
def Listed (m : Machine) (stack p : Nat) (e : Entry) : Prop :=
  ∃ l, readdir m stack p = .ok l ∧ e ∈ l

/-- The inode that an entry refers to is a directory. -/
def RefersToDir (m : Machine) (e : Entry) : Prop :=
  ∃ ino, getInode m e.1 = .ok (some ino) ∧ ino.isDir = true

/-- What `unlink` should refuse: a name that is not listed, and a directory. -/
def Rejects (stack p : Nat) (name : CString) (m : Machine) : Prop :=
  ((∀ e, Listed m stack p e → e.2 ≠ name) →
    ∃ m', unlink stack p name m = .ok .NOENT m' ∧ m'.disk = m.disk) ∧
  ∀ e, Listed m stack p e → e.2 = name → RefersToDir m e →
    ∃ status m', unlink stack p name m = .ok status m' ∧ status ≠ .OK ∧ m'.disk = m.disk

/-- Whatever it did, `unlink` returns `OK`. -/
theorem unlink_status {status : Status} (hRun : unlink stack p name m = .ok status m') :
    status = .OK := by
  have hAll : wp (unlink stack p name) (fun status _ => status = .OK) (fun _ _ => True) m := by
    rw [unlink, wp_bind, wp_query]
    cases readdir m stack p with
    | error e => trivial
    | ok l =>
        cases hFind : l.find? fun file => file.2 == name with
        | none =>
            simp only [hFind]
            rfl
        | some file =>
            simp only [hFind]
            rw [wp_bind]
            refine wp_of_forall _ (fun _ _ => ?_) fun _ _ => trivial
            rw [wp_bind]
            exact wp_of_forall _ (fun _ _ => rfl) fun _ _ => trivial
  have hStatus := wp_ok hAll hRun
  exact hStatus

/-- An absent name changes nothing. -/
theorem unlink_absent {l : List Entry} (hRead : readdir m stack p = .ok l)
    (hAbsent : name ∉ l.map Prod.snd) : unlink stack p name m = .ok .OK m := by
  have hNone : l.find? (fun file => file.2 == name) = none := by
    refine List.find?_eq_none.mpr fun e he => ?_
    simpa using fun hName : e.2 = name => hAbsent (hName ▸ List.mem_map_of_mem he)
  simp only [unlink, bind, EStateM.bind, query, hRead, hNone]
  rfl

/-- `unlink` treats a name as it should exactly when the name is listed and refers
to no directory. -/
theorem unlink_rejects_iff (m : Machine) (stack p : Nat) (name : CString) :
    Rejects stack p name m ↔ (∃ e, Listed m stack p e ∧ e.2 = name) ∧
      ∀ e, Listed m stack p e → e.2 = name → ¬RefersToDir m e := by
  constructor
  · rintro ⟨hAbsent, hDir⟩
    refine ⟨?_, fun e hListed hName hRefers => ?_⟩
    · by_contra hNone
      obtain ⟨m', hRun, -⟩ := hAbsent fun e hListed hName => hNone ⟨e, hListed, hName⟩
      cases unlink_status hRun
    · obtain ⟨status, m', hRun, hne, -⟩ := hDir e hListed hName hRefers
      exact hne (unlink_status hRun)
  · rintro ⟨⟨e, hListed, hName⟩, hPlain⟩
    exact ⟨fun hAbsent => absurd hName (hAbsent e hListed),
      fun d hListed' hName' hRefers => absurd hRefers (hPlain d hListed' hName')⟩

/-- The root of a fresh file system, with a directory in it: a wrong name and the
name of the directory. -/
theorem unlink_accepts_anything : ∃ (h : History) (m : Machine),
    Run 2 (fun _ => 0) (fun h _ call => call.Names h) h m ∧
      (unlink 2 1 (row 2) m = .ok .OK m ∧ ∀ e, Listed m 2 1 e → e.2 ≠ row 2) ∧
      (∃ e, Listed m 2 1 e ∧ e.2 = row 1 ∧ RefersToDir m e) ∧
      ∀ status m', unlink 2 1 (row 1) m = .ok status m' → status = .OK := by
  obtain ⟨m₀, hStart, hInodes, hBlocks⟩ := exists_reached_start 0
  obtain ⟨q, m, -, -, hReached, -⟩ := hStart.create .T_DIR (row 1) (p := 1) rfl
    List.not_mem_nil (by rw [row_length]; omega) (by omega) (by omega)
  obtain ⟨C, hOnlyEntries⟩ := hReached.onlyEntries
  generalize hN : (Entries.start.grow .T_DIR q).enter 1 (q, row 1) = N at hReached hOnlyEntries
  have hRoot : 1 ∈ N.dirs := hN ▸ Or.inr rfl
  have hq : q ∈ N.dirs := hN ▸ Or.inl rfl
  have hListing : N.listing 1 = [(q, row 1)] := by
    rw [← hN]
    rfl
  have hRead : readdir m 2 1 = .ok (N.listing 1) := hOnlyEntries.inUse.readdir_eq hRoot
  rw [hListing] at hRead
  have hOther : row 2 ≠ row 1 := fun he => by
    have hLength := congrArg (fun name : CString => name.bytes.length) he
    simp only [row_length] at hLength
    omega
  have hAbsent : row 2 ∉ [(q, row 1)].map Prod.snd := by simpa using hOther
  have hRow := hOnlyEntries.inUse.row q hq
  refine ⟨_, m, hReached.run, ⟨unlink_absent hRead hAbsent, ?_⟩, ⟨(q, row 1), ?_, rfl, ?_⟩,
    fun status m' hRun => unlink_status hRun⟩
  · rintro e ⟨l, hRead', he⟩ hName
    rw [hRead] at hRead'
    obtain rfl := Except.ok.inj hRead'
    exact hAbsent (hName ▸ List.mem_map_of_mem he)
  · exact ⟨_, hRead, List.mem_cons_self⟩
  · exact ⟨_, getInode_some hRow.lists.inum, hRow.lists.dir⟩

end Unlink
end InodeFS.ChfsClient
