import InodeFS.Overwrite
import InodeFS.NameMap

/-! `read` and `write` of `chfs_client` on files beside directories of any size. A
large directory is no tree of its own, so the invariant is about the trees of the
files only. -/
namespace InodeFS

open Bytes Exec Ownership Store

namespace Store

variable {σ σ' : Store} {A P : Set Nat} {i : Nat}

/-- Trees with marked blocks are read as before when their inodes did not change. -/
theorem Carries.sameOn {X : Set Nat} (h : Carries σ σ' X) (hS : σ.Sound A σ.Marked)
    (hP : P ⊆ A) (hX : ∀ i ∈ P, i ∉ X) : SameOn σ σ' P where
  inode i hi := h.inode i (hS.alive i (hP hi)) (hX i hi)
  data i hi k hk := by
    obtain ⟨hData, hBit⟩ := hS.slot_mem (hP hi) hk
    exact (h.marked _ hData hBit).2

theorem Carries.sound {X : Set Nat} (h : Carries σ σ' X) (hS : σ.Sound A σ.Marked)
    (hX : ∀ i ∈ A, i ∉ X) : σ'.Sound A σ'.Marked := by
  refine (hS.congr (h.sameOn hS (fun _ hi => hi) hX) fun b hb => (h.marked b hb.1 hb.2).1).mono
    (fun b hb => ⟨hb.1, (h.marked b hb.1 hb.2).1⟩) fun _ hb => hb

theorem resized_refits (hS : σ.Sound A σ.Marked) (hi : i ∈ A) (now : UInt32) :
    Refits σ A i (resized (σ.inode i) 0 now) := by
  have hZero : (resized (σ.inode i) 0 now).size.toNat = 0 := resized_size _ 0 now
  refine ⟨rfl, by omega, fun k _ => Or.inl rfl, fun k hk l hl he hne => ?_, fun k hk => ?_,
    fun hSize => ?_⟩
  · exact (owns_nodup_iff σ).mp (hS.forest.owns_nodup i hi) k hk l hl he hne
  · omega
  · omega

end Store

namespace ChfsClient

/-- The files `F` are roots of trees among the inodes `A`, which have nothing to do
with the directories. -/
structure Kept (σ : Store) (N : Entries) (C : List Nat) (F A : Set Nat) : Prop where
  inUse : EntriesInUse σ N C
  sound : σ.Sound A σ.Marked
  files : F ⊆ A
  roots : ∀ f ∈ F, ∀ j ∈ A, f ∉ σ.kids j
  dirs : ∀ i ∈ A, i ∉ N.dirs
  kids : ∀ i ∈ A, i ∉ C
  holds : ∀ f ∈ F, ∃ s : List Byte, s.length < 2 ^ 31 ∧ σ.Holds maxDepth f s

namespace Kept

variable {σ σ' σ₁ : Store} {N N' : Entries} {C C' : List Nat} {F A X : Set Nat} {f i : Nat}
  {s : List Byte}

theorem start {clock : Nat → UInt32} {m : Machine}
    (hInit : initInodeManager (Machine.zeroed clock) = .ok () m) :
    Kept m.store Entries.start [] ∅ ∅ where
  inUse := EntriesInUse.start hInit
  sound := (Sound.empty _).mono (Set.empty_subset _) fun _ hb => hb
  files := Set.empty_subset _
  roots _ hf := hf.elim
  dirs _ hi := hi.elim
  kids _ hi := hi.elim
  holds _ hf := hf.elim

theorem short (h : Kept σ N C F A) (hf : f ∈ F) : (σ.content maxDepth f).length < 2 ^ 31 := by
  obtain ⟨s, hLen, hHolds⟩ := h.holds f hf
  rw [hHolds.content]
  exact (readBack_length_le maxDepth s).trans_lt hLen

theorem shallow (h : Kept σ N C F A) (hf : f ∈ F) : σ.shape.Shallow maxDepth f :=
  h.sound.forest.shallow f (h.files hf)

/-- What happens elsewhere leaves the files alone. -/
theorem carry (h : Kept σ N C F A) (hC : Carries σ σ' X) (hX : ∀ i ∈ A, i ∉ X)
    (hInUse : EntriesInUse σ' N' C') (hDirs : ∀ i ∈ A, i ∉ N'.dirs) (hKids : ∀ i ∈ A, i ∉ C') :
    Kept σ' N' C' F A := by
  have hSame : SameOn σ σ' A := hC.sameOn h.sound (fun _ hi => hi) hX
  refine ⟨hInUse, hC.sound h.sound hX, h.files, fun f hf j hj => ?_, hDirs, hKids,
    fun f hf => ?_⟩
  · rw [hSame.kids hj]
    exact h.roots f hf j hj
  · obtain ⟨s, hLen, hHolds⟩ := h.holds f hf
    exact ⟨s, hLen, hHolds.congr hSame h.sound.forest.kids_mem (h.files hf)⟩

theorem grows (h : Kept σ N C F A) (hGrows : Grows σ σ') : Kept σ' N C F A :=
  h.carry hGrows.carries (fun _ _ hX => hX.elim)
    (h.inUse.carry hGrows.carries (fun _ _ hX => hX.elim) (fun _ _ hX => hX.elim)
      hGrows.data_zero) h.dirs h.kids

theorem stray_alloc (h : Kept σ N C F A) (hStray : Strayed σ σ') : Kept σ' N C F A :=
  h.carry hStray.carries (fun _ _ hX => hX.elim) (h.inUse.stray_alloc hStray) h.dirs h.kids

/-- The files without `f` and their trees. -/
theorem closed_without (h : Kept σ N C F A) (hf : f ∈ F) :
    ∀ i ∈ A \ {f}, ∀ c ∈ σ.kids i, c ∈ A \ {f} := by
  intro i hi c hc
  refine ⟨h.sound.forest.kids_mem i hi.1 c hc, fun he => ?_⟩
  obtain rfl : c = f := he
  exact h.roots c hf i hi.1 hc

/-- A new inode that is no directory is a file. -/
theorem newFile {type : FileType} {now : UInt32} (h : Kept σ N C F A) (hInum : IsInum i)
    (hDead : ¬σ.Alive i) (hType : type ≠ .T_DIR) :
    Kept (σ.putInode i (freshInode type now)) (N.grow type i) C (insert i F) (insert i A) := by
  have hNone := FileType.code_toUInt16_ne_zero type
  have hGrows : Grows σ (σ.putInode i (freshInode type now)) :=
    Grows.putInode hInum hDead hNone rfl (freshInode_slot type now)
  have hBorn : Born σ (σ.putInode i (freshInode type now)) = {i} := born_putInode hNone hDead
  have hSame := hGrows.sameOn h.sound
  have hKids : (σ.putInode i (freshInode type now)).kids i = [] :=
    kids_putInode_of_size_le (Nat.zero_le 100)
  have hi : i ∉ A := fun hi => hDead (h.sound.alive i hi)
  have hGrow : N.grow type i = N := by rw [Entries.grow, if_neg hType]
  have hSound := hGrows.extend h.sound
  rw [hBorn, Set.union_singleton] at hSound
  rw [hGrow]
  refine ⟨hGrow ▸ h.inUse.grow hInum hDead, hSound.mono ?_ fun _ hb => hb,
    Set.insert_subset_insert h.files, ?_, ?_, ?_, ?_⟩
  · rintro b (hb | hb)
    · exact ⟨hb.1, hb.2⟩
    · exact ⟨hb.1, hb.2.1⟩
  · rintro f hf j (rfl | hj)
    · rw [hKids]
      exact List.not_mem_nil
    · rw [hSame.kids hj]
      rcases hf with rfl | hf
      · exact fun hMem => hi (h.sound.forest.kids_mem j hj f hMem)
      · exact h.roots f hf j hj
  · rintro j (rfl | hj)
    · exact fun hMem => hDead (h.inUse.dirs_alive hMem)
    · exact h.dirs j hj
  · rintro j (rfl | hj)
    · exact fun hMem => hDead (h.inUse.childEntries.alive hMem)
    · exact h.kids j hj
  · rintro f (rfl | hf)
    · exact ⟨[], Nat.two_pow_pos 31, holds_freshInode σ f maxDepth type now⟩
    · obtain ⟨s, hLen, hHolds⟩ := h.holds f hf
      exact ⟨s, hLen, hHolds.congr hSame h.sound.forest.kids_mem (h.files hf)⟩

/-- `set_attr` to 0 puts the file back without blocks. -/
theorem emptied (h : Kept σ N C F A) (hf : f ∈ F) (now : UInt32) :
    Kept (σ.putInode f (resized (σ.inode f) 0 now)) N C F A := by
  have hA := h.files hf
  have hRefits := resized_refits h.sound hA now
  have hPut : Carries σ (σ.putInode f (resized (σ.inode f) 0 now)) {f} := Carries.putInode rfl
  have hSame : SameOn σ (σ.putInode f (resized (σ.inode f) 0 now)) (A \ {f}) :=
    hPut.sameOn h.sound (fun _ hi => hi.1) fun _ hi => hi.2
  refine ⟨h.inUse.carry hPut (fun p hp he => h.dirs f hA (he ▸ hp))
    (fun c hc he => h.kids f hA (he ▸ hc)) rfl, hRefits.sound h.sound hA, h.files,
    fun g hg j hj hMem => h.roots g hg j hj ((hRefits.kids_sublist j).subset hMem), h.dirs, h.kids,
    fun g hg => ?_⟩
  by_cases he : g = f
  · subst he
    have hSize : (σ.putInode g (resized (σ.inode g) 0 now)).size g = 0 :=
      size_putInode_self.trans (resized_size _ 0 now)
    exact ⟨[], Nat.two_pow_pos 31, holds_nil hSize maxDepth⟩
  · obtain ⟨s, hLen, hHolds⟩ := h.holds g hg
    exact ⟨s, hLen, hHolds.congr hSame (h.closed_without hf) ⟨h.files hg, he⟩⟩

/-- `write_file` stored a string in a file. -/
theorem wrote (h : Kept σ N C F A) (hf : f ∈ F) (hWrote : Wrote σ σ' f s) (hLen : s.length < 2 ^ 31) :
    ∃ A', Kept σ' N C F A' := by
  obtain ⟨σ₁, hR, -⟩ := hWrote.rewrites
  refine ⟨A ∪ Born σ σ₁, ?_⟩
  have hA := h.files hf
  have hPut := hR.carries
  have hZero := hR.data_zero
  have hSame : SameOn σ σ' (A \ {f}) := hPut.sameOn h.sound (fun _ hi => hi.1) fun _ hi => hi.2
  have hBorn : SameOn σ₁ σ' (Born σ σ₁) := hR.sameOn fun i hi he => hi.2 (he ▸ hR.old)
  refine ⟨h.inUse.carry hPut (fun p hp he => h.dirs f hA (he ▸ hp))
    (fun c hc he => h.kids f hA (he ▸ hc)) hZero,
    (hR.sound h.sound hA (h.roots f hf)).mono ?_ fun _ hb => hb,
    h.files.trans Set.subset_union_left, ?_, ?_, ?_, fun g hg => ?_⟩
  · rintro b (hb | hb)
    · exact ⟨hb.1, (hPut.marked b hb.1 hb.2).1⟩
    · exact ⟨hb.1, hR.bit ▸ hb.2.1⟩
  · rintro g hg j (hj | hj) hMem
    · by_cases he : j = f
      · exact (hR.kid g (he ▸ hMem)).1.2 (h.sound.alive g (h.files hg))
      · rw [hSame.kids ⟨hj, he⟩] at hMem
        exact h.roots g hg j hj hMem
    · rw [hBorn.kids hj] at hMem
      exact (hR.grows.sound.forest.kids_mem j hj g hMem).2 (h.sound.alive g (h.files hg))
  · rintro i (hi | hi)
    · exact h.dirs i hi
    · exact fun hMem => hi.2 (h.inUse.dirs_alive hMem)
  · rintro i (hi | hi)
    · exact h.kids i hi
    · exact fun hMem => hi.2 (h.inUse.childEntries.alive hMem)
  · by_cases he : g = f
    · exact ⟨s, hLen, he ▸ hWrote.holds maxDepth (levels_lt_maxDepth hLen)⟩
    · obtain ⟨t, hLen', hHolds⟩ := h.holds g hg
      exact ⟨t, hLen', hHolds.congr hSame (h.closed_without hf) ⟨h.files hg, he⟩⟩

/-- `create`, `mkdir` and `ln` with a new name. -/
theorem made {type : FileType} {p : Nat} {name : CString} {now : UInt32} (h : Kept σ N C F A)
    (hMade : Made σ σ' N type p i name C C' now) :
    ∃ A', Kept σ' ((N.grow type i).enter p (i, name)) C'
      (if type = .T_DIR then F else insert i F) A' := by
  have hStray := Strayed.freshInode hMade.dead type now
  have hFiled := hMade.filed
  -- The entry went to `p` and to children, old or new.
  have hLast : ∀ {F' A' : Set Nat},
      Kept (σ.putInode i (freshInode type now)) (N.grow type i) C F' A' →
      Kept σ' ((N.grow type i).enter p (i, name)) C' F' A' := by
    intro F' A' hKept
    have hDir := Entries.mem_grow_dirs hMade.dir type i
    refine hKept.carry hFiled.carries ?_ hMade.inUse ?_ fun j hj => ?_
    · rintro j hj (hjp | hjC)
      · exact hKept.dirs j hj (hjp ▸ hDir)
      · exact hKept.kids j hj hjC
    · rw [Entries.enter_dirs]
      exact hKept.dirs
    · rcases hFiled.kids with rfl | ⟨c, hDead, rfl⟩
      · exact hKept.kids j hj
      · rw [List.mem_append, List.mem_singleton]
        rintro (hMem | rfl)
        · exact hKept.kids j hj hMem
        · exact hDead (hKept.sound.alive j hj)
  by_cases hType : type = .T_DIR
  · rw [if_pos hType]
    refine ⟨A, hLast (h.carry hStray.carries (fun _ _ hX => hX.elim)
      (h.inUse.grow hMade.inum hMade.dead) (fun j hj => ?_) h.kids)⟩
    rw [Entries.grow, if_pos hType]
    rintro (rfl | hMem)
    · exact hMade.dead (h.sound.alive j hj)
    · exact h.dirs j hj hMem
  · rw [if_neg hType]
    exact ⟨_, hLast (h.newFile hMade.inum hMade.dead hType)⟩

end Kept

section Programs

variable {m : Machine} {N : Entries} {C : List Nat} {F A : Set Nat} {f stack off : Nat}
  {data : List Byte}

theorem Kept.get_eq (h : Kept m.store N C F A) (hf : f ∈ F) (hStack : maxDepth < stack) :
    ExtentServer.get m stack f = .ok (m.store.content maxDepth f) := by
  rw [ExtentServer.get, ExtentServer.maskId_of_isInum (h.sound.inum f (h.files hf))]
  exact readFile_eq h.sound.readable (h.files hf) (h.shallow hf) hStack

/-- `read` returns a slice of the content; the sum `off + size` may wrap. -/
theorem Kept.read_eq (h : Kept m.store N C F A) (hf : f ∈ F) (hStack : maxDepth < stack)
    (size off : Nat) :
    read m stack f size off = .ok (((m.store.content maxDepth f).drop off).take size) := by
  have hShort := h.short hf
  have hMod : (m.store.content maxDepth f).length % 2 ^ 32 = (m.store.content maxDepth f).length :=
    Nat.mod_eq_of_lt (by omega)
  have hSum := Nat.mod_le (off + size) (2 ^ 64)
  simp only [read, h.get_eq hf hStack, bind, Except.bind, hMod]
  split_ifs with hBefore hAll
  · rw [List.drop_eq_nil_of_le (by omega), List.take_nil]
    rfl
  · rw [List.take_of_length_le (by rw [List.length_drop]; omega)]
    rfl
  · rfl

/-- The computed size of a file is 0 only when it has no blocks. -/
theorem Kept.size_eq_zero {σ : Store} (h : Kept σ N C F A) (hf : f ∈ F)
    (hSize : σ.fileSize maxDepth f = 0) : σ.size f = 0 := by
  obtain ⟨s, hLen, hHolds⟩ := h.holds f hf
  rw [hHolds.fileSize (by rw [blocksFor_eq]; omega)] at hSize
  have hNil : s = [] := by
    by_contra hne
    have := measured_pos maxDepth hne
    omega
  rw [hHolds.size_eq, hNil]
  rfl

/-- The file is empty now, and everything is where it was. -/
structure Reset (σ σ₁ : Store) (N : Entries) (C : List Nat) (F A : Set Nat) (f : Nat) : Prop where
  kept : Kept σ₁ N C F A
  size : σ₁.size f = 0
  blocks : σ₁.freeBlocks = σ.freeBlocks
  inodes : σ₁.freeInodes = σ.freeInodes

theorem Reset.content {σ σ₁ : Store} (h : Reset σ σ₁ N C F A f) : σ₁.content maxDepth f = [] :=
  (holds_nil h.size maxDepth).content.trans (readBack_of_le (Nat.zero_le _) maxDepth)

theorem Emptied.reset {σ σ₁ : Store} (hEmptied : Emptied σ σ₁ f (σ.fileSize maxDepth f))
    (h : Kept σ N C F A) (hf : f ∈ F) : Reset σ σ₁ N C F A f := by
  refine ⟨?_, hEmptied.size_eq (h.size_eq_zero hf), freeBlocks_congr hEmptied.bit,
    freeInodes_congr hEmptied.alive⟩
  obtain ⟨-, rfl⟩ | ⟨now, rfl⟩ := hEmptied.cases
  · exact h
  · exact h.emptied hf now

theorem Kept.getFileSize_eq (h : Kept m.store N C F A) (hf : f ∈ F) (hStack : maxDepth < stack) :
    getFileSize m stack f = .ok (m.store.fileSize maxDepth f) :=
  InodeFS.getFileSize_eq h.sound.readable (h.files hf) (h.shallow hf) hStack

/-- What `write` does. A string that is too long for an `int` is dropped; in any
case the file was emptied before `put` was called. -/
theorem Kept.wp_write (h : Kept m.store N C F A) (hf : f ∈ F) (hStack : maxDepth < stack)
    (off : Nat) (data : List Byte) :
    wp (write stack f off data)
      (fun r m' => r = (.OK, data.length) ∧ ∃ σ₁, Reset m.store σ₁ N C F A f ∧
        (off + data.length < 2 ^ 31 ∧
            Wrote σ₁ m'.store f (written (m.store.content maxDepth f) off data) ∨
          2 ^ 31 ≤ off + data.length ∧ m'.store = σ₁))
      (fun e m' => ∃ σ₁, Reset m.store σ₁ N C F A f ∧
        (e ≠ .badAlloc ∧ m'.store = σ₁ ∧ 2 ^ 32 ≤ off + data.length ∨
          off + data.length < 2 ^ 31 ∧ Failed σ₁ m'.store
            (written (m.store.content maxDepth f) off data).length 0 0 e)) m := by
  have hShort := h.short hf
  have hLength := written_length (m.store.content maxDepth f) off data
  refine wp_mono (ChfsClient.wp_write (h.sound.alive f (h.files hf)) hStack (h.get_eq hf hStack)
    (h.getFileSize_eq hf hStack) off data) (fun r m' hPost => ?_) fun e m' hStop => ?_
  · obtain ⟨hStatus, hLoop, σ₁, hEmptied, hPut⟩ := hPost
    have hReset := hEmptied.reset h hf
    refine ⟨hStatus, σ₁, hReset, ?_⟩
    by_cases hInt : off + data.length < 2 ^ 31
    · rw [ExtentServer.toInt_of_lt (by omega), if_neg (by omega), Int.toNat_natCast, List.take_length] at hPut
      obtain ⟨σ₂, new, inodes, hStore, hPlaced⟩ := hPut
      have hA := hReset.kept.files hf
      rw [hStore]
      exact Or.inl ⟨hInt, hPlaced.wrote (hReset.kept.sound.alive f hA)
        (SlotsMarked.of_sound hReset.kept.sound hA) (levels_lt_maxDepth (by omega))⟩
    · have hNeg : toInt (written (m.store.content maxDepth f) off data).length < 0 := by
        rw [toInt]
        omega
      rw [if_pos hNeg] at hPut
      exact Or.inr ⟨by omega, hPut⟩
  · obtain ⟨σ₁, hEmptied, ⟨hSame, hOver⟩ | ⟨hLoop, hFail⟩⟩ := hStop
    · refine ⟨σ₁, hEmptied.reset h hf, Or.inl ⟨?_, hSame, ?_⟩⟩
      · rintro rfl
        exact overwrite_ne_badAlloc hOver
      · by_contra hNear
        rw [overwrite_eq _ (by omega)] at hOver
        cases hOver
    · by_cases hInt : off + data.length < 2 ^ 31
      · rw [ExtentServer.toInt_of_lt (by omega), Int.toNat_natCast] at hFail
        exact ⟨σ₁, hEmptied.reset h hf, Or.inr ⟨hInt, hFail⟩⟩
      · have hNone : (toInt (written (m.store.content maxDepth f) off data).length).toNat = 0 := by
          rw [toInt]
          omega
        rw [hNone] at hFail
        exact absurd hFail not_failed_zero

end Programs

section Runs

variable {stack : Nat} {clock : Nat → UInt32} {h : History} {m m' : Machine} {N : Entries}
  {C : List Nat} {f off : Nat} {data : List Byte}

/-- `create`, `mkdir` and `ln` in directories, with names that fit, `write` on
files, and everything that only reads. -/
def Call.OnFiles (h : History) : Call → Prop
  | .node _ parent name _ => parent ∈ (nameMap h).dirs ∧ name.bytes.length ≤ 508
  | .write ino _ _ => ino ∈ files h
  | .setattr _ _ => False
  | .unlink _ _ => False
  | _ => True

theorem Run.onFiles (hRun : Run stack clock (fun h _ call => call.Names h) h m) :
    Run stack clock (fun h _ call => call.OnFiles h) h m :=
  hRun.mono fun h m call hCall => by
    cases call with
    | node => exact hCall
    | lookup => trivial
    | readdir => trivial
    | _ => exact hCall.elim

theorem perform_write {ino : Nat} {reply : Reply}
    (hRun : perform stack (.write ino off data) m = .ok reply m') :
    ∃ r, write stack ino off data m = .ok r m' ∧ reply = .write r.1 r.2 := by
  simp only [perform, bind, EStateM.bind] at hRun
  cases hWrite : write stack ino off data m with
  | ok r m₁ =>
      rw [hWrite] at hRun
      injection hRun with hReply hSame
      exact ⟨r, congrArg _ hSame, hReply.symm⟩
  | error e m₁ =>
      rw [hWrite] at hRun
      cases hRun

theorem perform_write_ok {ino : Nat} {r : Status × Nat} (hWrite : write stack ino off data m = .ok r m') :
    perform stack (.write ino off data) m = .ok (.write r.1 r.2) m' := by
  simp only [perform, bind, EStateM.bind, hWrite]
  rfl

theorem perform_write_error {ino : Nat} {e : Stop}
    (hRun : perform stack (.write ino off data) m = .error e m') :
    write stack ino off data m = .error e m' := by
  simp only [perform, bind, EStateM.bind] at hRun
  cases hWrite : write stack ino off data m with
  | ok r m₁ =>
      rw [hWrite] at hRun
      cases hRun
  | error e' m₁ =>
      rw [hWrite] at hRun
      injection hRun with he hSame
      rw [he, hSame]

/-- The disk after a run: directories, and files beside them. -/
structure AfterRun (h : History) (m : Machine) (N : Entries) (C : List Nat) (A : Set Nat) : Prop where
  kept : Kept m.store N C (files h) A
  dirs : N.dirs = (nameMap h).dirs

theorem files_of_ne {call : Call} {reply : Reply} (hReply : ∀ i, reply ≠ .node .OK i)
    (h : History) : files (h ++ [(call, reply)]) = files h := by
  ext i
  constructor
  · intro hi
    rcases files_append hi with hOld | ⟨_, _, _, _, -, hEq⟩
    · exact hOld
    · exact absurd (congrArg Prod.snd hEq) (hReply i)
  · rintro ⟨type, p, name, inoOut, hType, hMem⟩
    exact ⟨type, p, name, inoOut, hType, List.mem_append_left _ hMem⟩

/-- A call that makes no name and leaves the files where they are. -/
theorem AfterRun.same {A A' : Set Nat} {call : Call} {reply : Reply} (hS : AfterRun h m N C A)
    (hReply : ∀ i, reply ≠ .node .OK i) (hKept : Kept m'.store N C (files h) A') :
    AfterRun (h ++ [(call, reply)]) m' N C A' where
  kept := by
    rw [files_of_ne hReply]
    exact hKept
  dirs := by rw [nameMap_append, NameMap.after_of_ne hReply, hS.dirs]

theorem files_made {type : FileType} {p i inoOut : Nat} {name : CString} (h : History) :
    files (h ++ [(.node type p name inoOut, .node .OK i)]) =
      if type = .T_DIR then files h else insert i (files h) := by
  have hOld : ∀ j ∈ files h, j ∈ files (h ++ [(.node type p name inoOut, .node .OK i)]) := by
    rintro j ⟨type', p', name', inoOut', hType, hMem⟩
    exact ⟨type', p', name', inoOut', hType, List.mem_append_left _ hMem⟩
  by_cases hType : type = .T_DIR
  · rw [if_pos hType]
    refine Set.Subset.antisymm (fun j hj => ?_) hOld
    rcases files_append hj with hj | ⟨type', _, _, _, hNot, hEq⟩
    · exact hj
    · cases hEq
      exact absurd hType hNot
  · rw [if_neg hType]
    refine Set.Subset.antisymm (fun j hj => ?_) ?_
    · rcases files_append hj with hj | ⟨_, _, _, _, -, hEq⟩
      · exact Or.inr hj
      · cases hEq
        exact Or.inl rfl
    · rintro j (rfl | hj)
      · exact ⟨type, p, name, inoOut, hType, List.mem_append_right _ List.mem_cons_self⟩
      · exact hOld j hj

/-- A `write` that returned. -/
theorem Kept.written_ok {A : Set Nat} {F : Set Nat} {r : Status × Nat}
    (h : Kept m.store N C F A) (hf : f ∈ F) (hStack : maxDepth < stack)
    (hRun : write stack f off data m = .ok r m') : ∃ A', Kept m'.store N C F A' := by
  obtain ⟨-, σ₁, hReset, ⟨hInt, hWrote⟩ | ⟨-, hSame⟩⟩ := wp_ok (h.wp_write hf hStack off data) hRun
  · refine hReset.kept.wrote hf hWrote ?_
    have := h.short hf
    rw [written_length]
    omega
  · exact ⟨A, hSame ▸ hReset.kept⟩

/-- A `write` that ran out of blocks. -/
theorem Kept.written_failed {A : Set Nat} {F : Set Nat} (h : Kept m.store N C F A) (hf : f ∈ F)
    (hStack : maxDepth < stack) (hRun : write stack f off data m = .error .badAlloc m') :
    Kept m'.store N C F A := by
  obtain ⟨σ₁, hReset, ⟨he, -⟩ | ⟨-, hFail⟩⟩ := wp_error (h.wp_write hf hStack off data) hRun
  · exact absurd rfl he
  · obtain ⟨_, _, hProgress⟩ := hFail.progress
    exact hReset.kept.grows hProgress.grows

theorem Run.afterRun (hStack : maxDepth < stack)
    (hRun : Run stack clock (fun h _ call => call.OnFiles h) h m) :
    ∃ N C A, AfterRun h m N C A := by
  have hDepth := maxDepth_eq
  obtain ⟨d, rfl⟩ := Nat.exists_eq_add_of_le' (show 2 ≤ stack by omega)
  induction hRun with
  | start hInit =>
      refine ⟨Entries.start, [], ∅, ?_, rfl⟩
      have hNone : files [] = ∅ := Set.eq_empty_of_forall_notMem fun i hi => by
        obtain ⟨_, _, _, _, -, hMem⟩ := hi
        exact absurd hMem List.not_mem_nil
      rw [hNone]
      exact Kept.start hInit
  | @step h m m' call reply prior hCall hLast ih =>
      obtain ⟨N, C, A, hS⟩ := ih
      cases call with
      | node type p name inoOut =>
          rcases hS.kept.inUse.perform_cases hS.dirs
            (show (Call.node type p name inoOut).Names h from hCall) hLast with ⟨rfl, hReply⟩ | hNew
          · exact ⟨N, C, A, hS.same hReply hS.kept⟩
          · obtain ⟨type, p, name, inoOut, i, C', now, hEq, rfl, -, hMade⟩ := hNew
            cases hEq
            obtain ⟨A', hKept⟩ := hS.kept.made hMade
            refine ⟨_, C', A', ?_, nameMap_dirs_made hS.dirs type p i inoOut name⟩
            rw [files_made]
            exact hKept
      | write ino off data =>
          obtain ⟨r, hWrite, rfl⟩ := perform_write hLast
          obtain ⟨A', hKept⟩ := hS.kept.written_ok hCall hStack hWrite
          exact ⟨N, C, A', hS.same nofun hKept⟩
      | setattr => exact hCall.elim
      | unlink => exact hCall.elim
      | lookup p name =>
          obtain ⟨rfl, a, rfl⟩ := perform_query (f := (lookup · (d + 2) p name)) hLast
          exact ⟨N, C, A, hS.same nofun hS.kept⟩
      | readdir p =>
          obtain ⟨rfl, a, rfl⟩ := perform_query (f := (readdir · (d + 2) p)) hLast
          exact ⟨N, C, A, hS.same nofun hS.kept⟩
      | getattr ino =>
          obtain ⟨rfl, a, rfl⟩ := perform_query (f := (ExtentServer.getattr · (d + 2) ino)) hLast
          exact ⟨N, C, A, hS.same nofun hS.kept⟩
      | read ino size off =>
          obtain ⟨rfl, a, rfl⟩ := perform_query (f := (read · (d + 2) ino size off)) hLast
          exact ⟨N, C, A, hS.same nofun hS.kept⟩
  | @failed h m m' call prior hCall hLast ih =>
      obtain ⟨N, C, A, hS⟩ := ih
      cases call with
      | node type p name inoOut =>
          have hStray := hS.kept.inUse.perform_error hS.dirs
            (show (Call.node type p name inoOut).Names h from hCall) hLast
          exact ⟨N, C, A, hS.same nofun (hS.kept.stray_alloc hStray)⟩
      | write ino off data =>
          have hKept := hS.kept.written_failed hCall hStack (perform_write_error hLast)
          exact ⟨N, C, A, hS.same nofun hKept⟩
      | setattr => exact hCall.elim
      | unlink => exact hCall.elim
      | lookup p name =>
          obtain rfl := perform_query_error (f := (lookup · (d + 2) p name)) hLast
          exact ⟨N, C, A, hS.same nofun hS.kept⟩
      | readdir p =>
          obtain rfl := perform_query_error (f := (readdir · (d + 2) p)) hLast
          exact ⟨N, C, A, hS.same nofun hS.kept⟩
      | getattr ino =>
          obtain rfl := perform_query_error (f := (ExtentServer.getattr · (d + 2) ino)) hLast
          exact ⟨N, C, A, hS.same nofun hS.kept⟩
      | read ino size off =>
          obtain rfl := perform_query_error (f := (read · (d + 2) ino size off)) hLast
          exact ⟨N, C, A, hS.same nofun hS.kept⟩

/-- A `write` that returned took the blocks of the new content. -/
theorem Kept.blocks_written {A F : Set Nat} (h : Kept m.store N C F A) (hf : f ∈ F) (hStack : maxDepth < stack)
    {r : Status × Nat} (hRun : write stack f off data m = .ok r m') :
    m'.store.freeBlocks + (if off + data.length < 2 ^ 31 then
      blocksNeeded (max (m.store.content maxDepth f).length (off + data.length)) else 0) =
      m.store.freeBlocks := by
  obtain ⟨-, σ₁, hReset, ⟨hInt, hWrote⟩ | ⟨hLong, hSame⟩⟩ := wp_ok (h.wp_write hf hStack off data) hRun
  · obtain ⟨σ₂, hRewrites, hProgress⟩ := hWrote.rewrites
    rw [if_pos hInt, ← written_length, freeBlocks_congr hRewrites.bit, hProgress.blocks, hReset.blocks]
  · rw [if_neg (by omega), hSame, hReset.blocks, Nat.add_zero]

theorem Kept.inodes_written {A F : Set Nat} (h : Kept m.store N C F A) (hf : f ∈ F) (hStack : maxDepth < stack)
    {r : Status × Nat} (hRun : write stack f off data m = .ok r m') :
    m'.store.freeInodes + (if off + data.length < 2 ^ 31 then
      inodesNeeded (max (m.store.content maxDepth f).length (off + data.length)) else 0) =
      m.store.freeInodes := by
  obtain ⟨-, σ₁, hReset, ⟨hInt, hWrote⟩ | ⟨hLong, hSame⟩⟩ := wp_ok (h.wp_write hf hStack off data) hRun
  · obtain ⟨σ₂, hRewrites, hProgress⟩ := hWrote.rewrites
    rw [if_pos hInt, ← written_length, freeInodes_congr fun i => hRewrites.alive_iff, hProgress.inodes,
      hReset.inodes]
  · rw [if_neg (by omega), hSame, hReset.inodes, Nat.add_zero]

/-- With room for the new string `write` stores it. -/
theorem Kept.exists_write {A F : Set Nat} (h : Kept m.store N C F A) (hf : f ∈ F)
    (hStack : maxDepth < stack) (hEnd : off + data.length < 2 ^ 31)
    (hBlocks : blocksNeeded (max (m.store.content maxDepth f).length (off + data.length)) ≤
      m.store.freeBlocks)
    (hInodes : inodesNeeded (max (m.store.content maxDepth f).length (off + data.length)) ≤
      m.store.freeInodes) :
    ∃ m' A', write stack f off data m = .ok (.OK, data.length) m' ∧ Kept m'.store N C F A' ∧
      m'.store.content maxDepth f =
        readBack maxDepth (written (m.store.content maxDepth f) off data) := by
  have hShort := h.short hf
  rw [← written_length] at hBlocks hInodes
  obtain ⟨r, m', hRun, rfl, σ₁, hReset, hCases⟩ := exists_ok_of_wp
    (wp_mono (h.wp_write hf hStack off data) (fun _ _ hPost => hPost) fun e m' hStop => by
      obtain ⟨σ₁, hReset, ⟨-, hLoop⟩ | ⟨-, hFail⟩⟩ := hStop
      · omega
      · have hCause := hFail.cause
        rw [hReset.blocks, hReset.inodes] at hCause
        omega)
  rcases hCases with ⟨-, hWrote⟩ | ⟨hLong, -⟩
  · have hLen : (written (m.store.content maxDepth f) off data).length < 2 ^ 31 := by
      rw [written_length]
      omega
    obtain ⟨A', hKept⟩ := hReset.kept.wrote hf hWrote hLen
    exact ⟨m', A', hRun, hKept, (hWrote.holds maxDepth (levels_lt_maxDepth hLen)).content⟩
  · omega

/-- `read` returns the slices of `c`. -/
def Reads (m : Machine) (stack f : Nat) (c : List Byte) : Prop :=
  ∀ size off, read m stack f size off = .ok ((c.drop off).take size)

theorem Kept.reads_iff {A F : Set Nat} (h : Kept m.store N C F A) (hf : f ∈ F)
    (hStack : maxDepth < stack) (c : List Byte) :
    Reads m stack f c ↔ m.store.content maxDepth f = c := by
  constructor
  · intro hReads
    have hAll := (h.read_eq hf hStack (max (m.store.content maxDepth f).length c.length) 0).symm.trans
      (hReads _ 0)
    rw [List.drop_zero, List.drop_zero, List.take_of_length_le (Nat.le_max_left _ _),
      List.take_of_length_le (Nat.le_max_right _ _)] at hAll
    exact Except.ok.inj hAll
  · rintro rfl
    exact h.read_eq hf hStack

/-- A `write` that returned is a step of the run. -/
theorem Run.write_ok {r : Status × Nat}
    (hRun : Run stack clock (fun h _ call => call.OnFiles h) h m) (hf : f ∈ files h)
    (hWrite : write stack f off data m = .ok r m') :
    Run stack clock (fun h _ call => call.OnFiles h) (h ++ [(.write f off data, .write r.1 r.2)]) m' := by
  have hCall : (Call.write f off data).OnFiles h := hf
  exact hRun.step hCall (perform_write_ok hWrite)

/-- After a `write` with room enough, `read` shows the new content exactly when
the content has no zero byte at its end or before the boundary of a piece. -/
theorem read_after_write (hStack : maxDepth < stack)
    (hRun : Run stack clock (fun h _ call => call.OnFiles h) h m) (hf : f ∈ files h)
    (hEnd : off + data.length < 2 ^ 31) :
    ∃ c, Reads m stack f c ∧
      (blocksNeeded (max c.length (off + data.length)) ≤ m.store.freeBlocks →
        inodesNeeded (max c.length (off + data.length)) ≤ m.store.freeInodes →
        ((∃ m', write stack f off data m = .ok (.OK, data.length) m' ∧
          Reads m' stack f (written c off data)) ↔ Storable (written c off data))) := by
  obtain ⟨N, C, A, hS⟩ := hRun.afterRun hStack
  refine ⟨m.store.content maxDepth f, (hS.kept.reads_iff hf hStack _).mpr rfl,
    fun hBlocks hInodes => ?_⟩
  have hShort := hS.kept.short hf
  obtain ⟨m', A', hWrite, hKept, hContent⟩ := hS.kept.exists_write hf hStack hEnd hBlocks hInodes
  have hLen : (written (m.store.content maxDepth f) off data).length < 2 ^ 31 := by
    rw [written_length]
    omega
  rw [← readBack_eq_self_iff (levels_lt_maxDepth hLen)]
  constructor
  · rintro ⟨m₁, hWrite', hReads⟩
    rw [hWrite] at hWrite'
    injection hWrite' with _ hSame
    subst hSame
    exact hContent.symm.trans ((hKept.reads_iff hf hStack _).mp hReads)
  · intro hBack
    exact ⟨m', hWrite, (hKept.reads_iff hf hStack _).mpr (hContent.trans hBack)⟩

end Runs

section Witness

/-- The log of a new file in the root. -/
def newFileLog (f : Nat) : History := [(.node .T_FILE 1 (row 0) 0, .node .OK f)]

theorem mem_files_newFileLog (f : Nat) (h : History) : f ∈ files (newFileLog f ++ h) :=
  ⟨.T_FILE, 1, row 0, 0, nofun, List.mem_cons_self⟩

/-- A fresh file system with one new file in it. -/
theorem exists_empty_file : ∃ (m : Machine) (f : Nat),
    Run (maxDepth + 1) (fun _ => 0) (fun h _ call => call.OnFiles h) (newFileLog f) m ∧
      Reads m (maxDepth + 1) f [] ∧ 2095000 ≤ m.store.freeBlocks ∧ 1000 ≤ m.store.freeInodes := by
  obtain ⟨m₀, hStart, hInodes₀, hBlocks₀⟩ := exists_reached_start 327
  obtain ⟨f, m, -, -, hReached, hBlocks, hInodes⟩ := hStart.create .T_FILE (row 0) (p := 1)
    rfl List.not_mem_nil (Nat.zero_le _) (by omega) (by omega)
  obtain ⟨N, C, hOnlyEntries, hDirs, hFiles⟩ := hReached.run.onlyEntries
  have hf : f ∈ files (newFileLog f) := mem_files_newFileLog f []
  have hPlain := hFiles f hf
  have hRun : Run (maxDepth + 1) (fun _ => 0) (fun h _ call => call.OnFiles h) (newFileLog f) m :=
    hReached.run.onFiles
  obtain ⟨N', C', A, hS⟩ := hRun.afterRun (Nat.lt_succ_self maxDepth)
  refine ⟨m, f, hRun, ?_, by omega, by omega⟩
  rw [hS.kept.reads_iff hf (Nat.lt_succ_self maxDepth)]
  exact (holds_nil (hOnlyEntries.blank f hPlain.dirs hPlain.kids).1 maxDepth).content.trans
    (readBack_of_le (Nat.zero_le _) maxDepth)

/-- A string, written to a new file. -/
theorem exists_string_write {s : List Byte} (hLen : s.length < 2 ^ 31)
    (hBlocks : blocksNeeded s.length ≤ 2095000) (hInodes : inodesNeeded s.length ≤ 1000) :
    ∃ (m m' : Machine) (f : Nat),
    Run (maxDepth + 1) (fun _ => 0) (fun h _ call => call.OnFiles h) (newFileLog f) m ∧
      Reads m (maxDepth + 1) f [] ∧ blocksNeeded s.length ≤ m.store.freeBlocks ∧
      inodesNeeded s.length ≤ m.store.freeInodes ∧
      write (maxDepth + 1) f 0 s m = .ok (.OK, s.length) m' ∧
      Reads m' (maxDepth + 1) f (readBack maxDepth s) ∧
      2095000 ≤ m'.store.freeBlocks + blocksNeeded s.length ∧
      1000 ≤ m'.store.freeInodes + inodesNeeded s.length := by
  have hStack := Nat.lt_succ_self maxDepth
  obtain ⟨m, f, hRun, hEmpty, hFree, hFree'⟩ := exists_empty_file
  have hf : f ∈ files (newFileLog f) := mem_files_newFileLog f []
  obtain ⟨N, C, A, hS⟩ := hRun.afterRun hStack
  have hNil := (hS.kept.reads_iff hf hStack []).mp hEmpty
  have hMax : max ([] : List Byte).length (0 + s.length) = s.length := by
    rw [List.length_nil, Nat.zero_add, Nat.zero_max]
  have hEnd : 0 + s.length < 2 ^ 31 := by omega
  obtain ⟨m', A', hWrite, hKept, hContent⟩ := hS.kept.exists_write hf hStack hEnd
    (by rw [hNil, hMax]; exact hBlocks.trans hFree) (by rw [hNil, hMax]; exact hInodes.trans hFree')
  have hTaken := hS.kept.blocks_written hf hStack hWrite
  have hTaken' := hS.kept.inodes_written hf hStack hWrite
  rw [hNil, if_pos hEnd, hMax] at hTaken hTaken'
  rw [hNil, written_nil] at hContent
  exact ⟨m, m', f, hRun, hEmpty, hBlocks.trans hFree, hInodes.trans hFree', hWrite,
    (hKept.reads_iff hf hStack _).mpr hContent, by omega, by omega⟩

/-- A file of `n` letters. -/
theorem exists_letters_run {n : Nat} (hLen : n < 2 ^ 31) (hBlocks : blocksNeeded n ≤ 2095000)
    (hInodes : inodesNeeded n ≤ 1000) : ∃ (m : Machine) (f : Nat),
    Run (maxDepth + 1) (fun _ => 0) (fun h _ call => call.OnFiles h)
        (newFileLog f ++ [(.write f 0 (List.replicate n 97), .write .OK n)]) m ∧
      Reads m (maxDepth + 1) f (List.replicate n 97) ∧
      2095000 ≤ m.store.freeBlocks + blocksNeeded n ∧ 1000 ≤ m.store.freeInodes + inodesNeeded n := by
  have hLength : (List.replicate n (97 : Byte)).length = n := List.length_replicate
  have hStorable : Storable (List.replicate n (97 : Byte)) :=
    storable_of_nul_free (nul_free_replicate n (by decide))
  obtain ⟨m, m', f, hRun, -, -, -, hWrite, hReads, hFree, hFree'⟩ := exists_string_write
    (s := List.replicate n 97) (by rwa [hLength]) (by rwa [hLength]) (by rwa [hLength])
  rw [(readBack_eq_self_iff (levels_lt_maxDepth (by rwa [hLength]))).mpr hStorable] at hReads
  have hNext := hRun.write_ok (mem_files_newFileLog f []) hWrite
  rw [hLength] at hNext hFree hFree'
  exact ⟨m', f, hNext, hReads, hFree, hFree'⟩

/-- A zero byte is not read back. -/
theorem written_zero_is_dropped : ∃ (h : History) (m m' : Machine) (f : Nat),
    Run (maxDepth + 1) (fun _ => 0) (fun h _ call => call.OnFiles h) h m ∧ f ∈ files h ∧
      Reads m (maxDepth + 1) f [] ∧ blocksNeeded 1 ≤ m.store.freeBlocks ∧
      inodesNeeded 1 ≤ m.store.freeInodes ∧ write (maxDepth + 1) f 0 [0] m = .ok (.OK, 1) m' ∧
      read m' (maxDepth + 1) f 1 0 = .ok [] := by
  obtain ⟨m, m', f, hRun, hEmpty, hBlocks, hInodes, hWrite, hReads, -⟩ :=
    exists_string_write (s := [0]) (by decide) (by decide) (by decide)
  exact ⟨newFileLog f, m, m', f, hRun, mem_files_newFileLog f [], hEmpty, hBlocks, hInodes, hWrite,
    hReads 1 0⟩

/-- A gap without a boundary at its end or inside. -/
theorem storable_gap {c t : List Byte} {off : Nat} (hc : (0 : Byte) ∉ c) (ht : (0 : Byte) ∉ t)
    (hne : t ≠ []) (hLe : c.length ≤ off)
    (hGap : ∀ k, 51200 * k < off + t.length → k % 128 ≠ 1 → 51200 * k ≤ c.length ∨ off < 51200 * k) :
    Storable (written c off t) := by
  have hFront : (c ++ List.replicate (off - c.length) 0).length = off := by
    rw [List.length_append, List.length_replicate]
    omega
  rw [written_behind hLe]
  refine ⟨fun _ hLast => ?_, fun k hk hShort hMod => ?_⟩
  · rw [List.getLast_append_of_ne_nil _ hne] at hLast
    exact ht (hLast ▸ List.getLast_mem hne)
  · rw [List.length_append, hFront] at hShort
    rw [directSize_eq] at hShort ⊢
    rcases hGap k hShort hMod with hBefore | hBehind
    · rw [List.append_assoc, byteAt_append_left _ (by omega)]
      exact byteAt_ne_zero hc (by omega)
    · have hPos : 51200 * k - 1 = (c ++ List.replicate (off - c.length) 0).length + (51200 * k - 1 - off) := by
        rw [hFront]
        omega
      rw [hPos, byteAt_append_right]
      exact byteAt_ne_zero ht (by omega)

/-- The last letter, the gap and the byte behind it. -/
theorem drop_written_gap {n g : Nat} :
    ((written (List.replicate (n + 1) 97) (n + 1 + g) [98]).drop n).take (g + 2) =
      97 :: List.replicate g 0 ++ [98] := by
  have hFront : (List.replicate n (97 : Byte)).length = n := List.length_replicate
  have hLength : (List.replicate (n + 1) (97 : Byte)).length = n + 1 := List.length_replicate
  rw [written_behind (by omega), hLength, Nat.add_sub_cancel_left, List.replicate_succ',
    List.append_assoc, List.append_assoc, List.drop_left' hFront]
  refine List.take_of_length_le ?_
  simp only [List.length_append, List.length_replicate, List.length_singleton]
  omega

/-- A byte behind the end of a file with three child inodes. -/
theorem read_after_write_gap : ∃ (h : History) (m m' : Machine) (f : Nat),
    Run (maxDepth + 1) (fun _ => 0) (fun h _ call => call.OnFiles h) h m ∧ f ∈ files h ∧
      Reads m (maxDepth + 1) f (List.replicate 170000 97) ∧
      write (maxDepth + 1) f 200000 [98] m = .ok (.OK, 1) m' ∧
      read m' (maxDepth + 1) f 30002 169999 = .ok (97 :: List.replicate 30000 0 ++ [98]) := by
  have hStack := Nat.lt_succ_self maxDepth
  obtain ⟨m, f, hRun, hLetters, hFree, hFree'⟩ := exists_letters_run (n := 170000) (by decide)
    (by decide) (by decide)
  have hf := mem_files_newFileLog f [(.write f 0 (List.replicate 170000 97), .write .OK 170000)]
  have hLength : (List.replicate 170000 (97 : Byte)).length = 170000 := List.length_replicate
  obtain ⟨c, hReads, hIff⟩ :=
    read_after_write hStack hRun hf (show 200000 + [(98 : Byte)].length < 2 ^ 31 by decide)
  have hSame : c = List.replicate 170000 97 := by
    obtain ⟨N, C, A, hS⟩ := hRun.afterRun hStack
    rw [hS.kept.reads_iff hf hStack] at hReads hLetters
    exact hReads.symm.trans hLetters
  have hNeeds : blocksNeeded 170000 = 334 ∧ inodesNeeded 170000 = 3 ∧ blocksNeeded 200001 = 392 ∧
      inodesNeeded 200001 = 3 := by decide
  have hMax : max c.length (200000 + [(98 : Byte)].length) = 200001 := by
    rw [hSame, hLength, List.length_singleton]
    omega
  rw [hMax, hSame] at hIff
  obtain ⟨m', hWrite, hReads'⟩ := (hIff (by omega) (by omega)).mpr
    (storable_gap (nul_free_replicate _ (by decide)) (by decide) (by decide) (by omega)
      fun k hk hMod => by rw [List.length_singleton] at hk; omega)
  exact ⟨_, m, m', f, hRun, hf, hLetters, hWrite,
    (hReads' 30002 169999).trans (congrArg Except.ok (drop_written_gap (n := 169999) (g := 30000)))⟩

end Witness

end ChfsClient
end InodeFS
