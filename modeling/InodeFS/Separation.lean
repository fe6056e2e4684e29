import InodeFS.NameMap

/-! Two directories. Creating a name in one of them changes the listing of the
other exactly when both put entries behind their own slots. -/
namespace InodeFS

open Bytes Exec Store

namespace ChfsClient

section Listings

variable {σ : Store} {N : Entries} {C : List Nat} {p q : Nat} {e : Entry}

/-- A directory that is not full has less than 100 entries in all. -/
theorem EntriesInUse.own_lt_iff (h : EntriesInUse σ N C) (hp : p ∈ N.dirs) :
    (N.own p).length < 100 ↔ (N.listing p).length < 100 := by
  have hRow := h.row p hp
  constructor
  · intro hSmall
    rwa [Entries.listing_small (hRow.not_large hSmall)]
  · intro hLength
    rw [Entries.listing, List.length_append] at hLength
    omega

/-- What a new entry in `p` does to another directory. -/
theorem EntriesInUse.listing_enter_iff (h : EntriesInUse σ N C) (hp : p ∈ N.dirs) (hq : q ∈ N.dirs)
    (hne : q ≠ p) : (N.enter p e).listing q = N.listing q ↔
      (N.listing p).length < 100 ∨ (N.listing q).length ≤ 100 := by
  rw [← h.own_lt_iff hp, Entries.enter]
  by_cases hSmall : (N.own p).length < 100
  · rw [if_pos hSmall, Entries.listing, Entries.put_own, if_neg hne]
    exact ⟨fun _ => Or.inl hSmall, fun _ => rfl⟩
  · rw [if_neg hSmall, Entries.listing, Entries.share_own, Entries.share_large, if_neg hne,
      Entries.share_shared]
    have hLarge := h.length_listing hq
    cases hCase : N.large q with
    | false =>
        rw [Entries.listing_small hCase]
        exact ⟨fun _ => Or.inr (h.row q hq).few, fun _ => List.append_nil _⟩
    | true =>
        have hMany := hLarge.mp hCase
        rw [Entries.listing_large hCase]
        constructor
        · intro hSame
          have hLength := congrArg List.length hSame
          simp only [if_true, List.length_append, List.length_singleton] at hLength
          omega
        · rintro (hOwn | hFew)
          · exact absurd hOwn hSmall
          · rw [Entries.listing_large hCase] at hMany
            omega

end Listings

section Separation

variable {stack inoOut : Nat} {clock : Nat → UInt32} {h : History} {m m' : Machine} {p q i : Nat}
  {N : Entries} {C C' : List Nat} {type : FileType} {name : CString} {now : UInt32}

/-- The listing of another directory after a new name was created. -/
theorem Made.readdir_iff (hMade : Made m.store m'.store N type p i name C C' now)
    (hS : EntriesInUse m.store N C) (hq : q ∈ N.dirs) (hne : q ≠ p) (stack : Nat) :
    readdir m' (stack + 2) q = .ok (N.listing q) ↔
      (N.listing p).length < 100 ∨ (N.listing q).length ≤ 100 := by
  have hGrown : EntriesInUse (m.store.putInode i (freshInode type now)) (N.grow type i) C :=
    hS.grow hMade.inum hMade.dead
  have hIff := hGrown.listing_enter_iff (e := (i, name)) (Entries.mem_grow_dirs hMade.dir type i)
    (Entries.mem_grow_dirs hq type i) hne
  have hq' : q ∈ ((N.grow type i).enter p (i, name)).dirs := by
    rw [Entries.enter_dirs]
    exact Entries.mem_grow_dirs hq type i
  rw [hMade.inUse.readdir_eq hq', Except.ok.injEq]
  exact hIff

/-- A further `create`, `mkdir` or `ln` in `p` leaves the listing of `q` alone
exactly when the name is there already, or `p` has a free slot of its own, or `q`
has no entries behind its slots. -/
theorem separation_iff (hStack : 2 ≤ stack)
    (hRun : Run stack clock (fun h _ call => call.Names h) h m) (hp : p ∈ (nameMap h).dirs)
    (hq : q ∈ (nameMap h).dirs) (hne : p ≠ q) (hName : name.bytes.length ≤ 508)
    (hBlocks : 1 ≤ m.store.freeBlocks) (hInodes : 2 ≤ m.store.freeInodes) :
    ∃ lp lq, readdir m stack p = .ok lp ∧ readdir m stack q = .ok lq ∧
      ((∃ r m', createNode type stack p name inoOut m = .ok r m' ∧ readdir m' stack q = .ok lq) ↔
        name ∈ lp.map Prod.snd ∨ lp.length < 100 ∨ lq.length ≤ 100) := by
  obtain ⟨d, rfl⟩ := Nat.exists_eq_add_of_le' hStack
  obtain ⟨N, C, hOnlyEntries, hDirs, -⟩ := hRun.onlyEntries
  have hS := hOnlyEntries.inUse
  rw [← hDirs] at hp hq
  refine ⟨N.listing p, N.listing q, hS.readdir_eq hp, hS.readdir_eq hq, ?_⟩
  by_cases hOld : name ∈ (N.listing p).map Prod.snd
  · refine ⟨fun _ => Or.inl hOld, fun _ => ?_⟩
    exact ⟨_, m, hS.createNode_exist type d inoOut hp hOld, hS.readdir_eq hq⟩
  · obtain ⟨r, m', hCreate, i, C', now, rfl, hMade⟩ := exists_ok_of_wp
      (wp_mono (hS.wp_createNode type d inoOut hp hOld hName) (fun _ _ hPost => hPost)
        fun _ _ hShort => by omega)
    have hIff := hMade.readdir_iff hS hq hne.symm d
    constructor
    · rintro ⟨r', m₁, hRun', hSame⟩
      rw [hCreate] at hRun'
      injection hRun' with _ hMachine
      rw [← hMachine] at hSame
      exact Or.inr (hIff.mp hSame)
    · rintro (hListed | hRoom)
      · exact absurd hListed hOld
      · exact ⟨_, m', hCreate, hIff.mpr hRoom⟩

/-- A second directory with more than 100 entries, while the root has exactly 100. -/
theorem exists_large_beside_root : ∃ (h : History) (m : Machine) (N : Entries) (q : Nat),
    Reached 2 (fun _ => 0) h m N ∧ 1 ∈ N.dirs ∧ q ∈ N.dirs ∧ q ≠ 1 ∧
      (N.listing 1).length = 100 ∧ (N.listing q).length = 101 ∧
      (∀ e, N.Has e → e.2.bytes.length < 201) ∧ 1 ≤ m.store.freeBlocks ∧
      2 ≤ m.store.freeInodes := by
  obtain ⟨m₀, hStart, hInodes₀, hBlocks₀⟩ := exists_reached_start 0
  obtain ⟨q, m₁, -, hDead, hMkdir, hBlocks₁, hInodes₁⟩ := hStart.create .T_DIR (row 0)
    (p := 1) rfl List.not_mem_nil (Nat.zero_le _) (by omega) (by omega)
  have hne : q ≠ 1 := by
    obtain ⟨C, hOnlyEntries⟩ := hStart.onlyEntries
    exact fun he => hDead (he ▸ hOnlyEntries.inUse.dirs_alive rfl)
  generalize hN₁ : (Entries.start.grow .T_DIR q).enter 1 (q, row 0) = N₁ at hMkdir
  have hDirs : N₁.dirs = {q, 1} := hN₁ ▸ rfl
  have hOwn : (N₁.own q).length = 0 ∧ (N₁.own 1).length = 1 := by
    rw [← hN₁]
    simp [Entries.enter, Entries.start, hne]
  have hNone : ∀ r, N₁.large r = false := fun r => hN₁ ▸ rfl
  have hShared : N₁.shared.length = 0 := hN₁ ▸ rfl
  have hNames : ∀ e, N₁.Has e → e.2.bytes.length < 1 := by
    intro e he
    rw [← hN₁] at he
    rcases Entries.has_enter he with hOld | rfl
    · exact (Entries.not_has_start e hOld).elim
    · rw [row_length]
      omega
  obtain ⟨h₂, m₂, N₂, hReached₂, hFilled₂, hNames₂, -, -, -, hBlocks₂, hInodes₂⟩ :=
    hMkdir.fill (p := q) (hDirs ▸ Or.inl rfl) 1 101 hNames (by omega) (by omega) (by omega)
  obtain ⟨h₃, m₃, N₃, hReached₃, hFilled₃, hNames₃, -, -, -, hBlocks₃, hInodes₃⟩ :=
    hReached₂.fill (p := 1) (hFilled₂.dirs ▸ hDirs ▸ Or.inr rfl) 102 99 hNames₂ (by omega)
      (by omega) (by omega)
  have hRootOwn : (N₂.own 1).length = 1 := by
    rw [hFilled₂.own 1 hne.symm]
    exact hOwn.2
  have hRoot : N₃.large 1 = false := by
    by_contra hLarge
    have hSelf := hFilled₃.self.mp (by simpa using hLarge)
    rw [hFilled₂.large 1 hne.symm, hNone] at hSelf
    rcases hSelf with hFalse | hMany
    · cases hFalse
    · omega
  have hLarge : N₃.large q = true := by
    rw [hFilled₃.large q hne, hFilled₂.self]
    exact Or.inr (by omega)
  have hLength₂ := hFilled₂.length
  have hLength₃ := hFilled₃.length
  have hShared₂ := hFilled₂.shared
  have hShared₃ := hFilled₃.shared
  refine ⟨h₃, m₃, N₃, q, hReached₃, ?_, ?_, hne, ?_, ?_, fun e he => ?_, by omega, by omega⟩
  · rw [hFilled₃.dirs, hFilled₂.dirs, hDirs]
    exact Or.inr rfl
  · rw [hFilled₃.dirs, hFilled₂.dirs, hDirs]
    exact Or.inl rfl
  · rw [Entries.listing_small hRoot]
    omega
  · rw [Entries.listing_large hLarge, List.length_append, hFilled₃.own q hne]
    omega
  · exact hNames₃ e he

/-- A name created in the root shows up in the other directory. -/
theorem create_shows_elsewhere : ∃ (h : History) (m m' : Machine) (q i : Nat)
    (lq : List (Nat × CString)),
    Run 2 (fun _ => 0) (fun h _ call => call.Names h) h m ∧ 1 ∈ (nameMap h).dirs ∧
    q ∈ (nameMap h).dirs ∧ 1 ≠ q ∧ createNode .T_FILE 2 1 (row 201) 0 m = .ok (.OK, i) m' ∧
    readdir m 2 q = .ok lq ∧ readdir m' 2 q ≠ .ok lq := by
  obtain ⟨h, m, N, q, hReached, hRoot, hq, hne, hFull, hLarge, hNames, hBlocks, hInodes⟩ :=
    exists_large_beside_root
  obtain ⟨C, hOnlyEntries⟩ := hReached.onlyEntries
  have hS := hOnlyEntries.inUse
  obtain ⟨r, m', hCreate, i, C', now, rfl, hMade⟩ := exists_ok_of_wp
    (wp_mono (hS.wp_createNode .T_FILE 0 0 hRoot (row_notMem hNames 1)
      (by rw [row_length]; omega)) (fun _ _ hPost => hPost) fun _ _ hShort => by omega)
  refine ⟨h, m, m', q, i, N.listing q, hReached.run, hReached.dirs ▸ hRoot, hReached.dirs ▸ hq,
    hne.symm, hCreate, hS.readdir_eq hq, fun hSame => ?_⟩
  have := (hMade.readdir_iff hS hq hne 0).mp hSame
  omega

/-- The root of a fresh file system and a directory in it. -/
theorem separation_of_two : ∃ (h : History) (m : Machine) (q : Nat)
    (lp lq : List (Nat × CString)), Run 2 (fun _ => 0) (fun h _ call => call.Names h) h m ∧
      readdir m 2 1 = .ok lp ∧ readdir m 2 q = .ok lq ∧
      ((∃ r m', createNode .T_FILE 2 1 (row 201) 0 m = .ok r m' ∧ readdir m' 2 q = .ok lq) ↔
        row 201 ∈ lp.map Prod.snd ∨ lp.length < 100 ∨ lq.length ≤ 100) := by
  obtain ⟨h, m, N, q, hReached, hRoot, hq, hne, -, -, -, hBlocks, hInodes⟩ :=
    exists_large_beside_root
  obtain ⟨lp, lq, hSep⟩ : ∃ lp lq, readdir m 2 1 = .ok lp ∧ readdir m 2 q = .ok lq ∧
      ((∃ r m', createNode .T_FILE 2 1 (row 201) 0 m = .ok r m' ∧ readdir m' 2 q = .ok lq) ↔
        row 201 ∈ lp.map Prod.snd ∨ lp.length < 100 ∨ lq.length ≤ 100) := separation_iff
    (Nat.le_refl 2) hReached.run (hReached.dirs ▸ hRoot) (hReached.dirs ▸ hq) hne.symm
    (by rw [row_length]; omega) hBlocks hInodes
  exact ⟨h, m, q, lp, lq, hReached.run, hSep⟩

end Separation
end ChfsClient
end InodeFS
