import InodeFS.RoundTrip

/-! The buffers of `read_file` and the indices it uses on them. For every direct
block it plants a terminator one past the end of its local buffer, and the loop
that drops trailing zero bytes looks at a byte before it checks that there is one. -/
namespace InodeFS

open Bytes Exec Ownership Store

/-- An index used on one of the buffers of `read_file`. -/
inductive Access where
  /-- `buf`, of `BLOCK_SIZE` bytes. -/
  | local (index : Nat)
  /-- `inum_buf`, of 128 entries. -/
  | child (index : Nat)
  /-- The output buffer, of `allocated` bytes. -/
  | output (index : Int) (allocated : Nat)
  deriving DecidableEq

def Access.InBounds : Access → Prop
  | .local index => index < blockSize
  | .child index => index < nindirect
  | .output index allocated => 0 ≤ index ∧ index < allocated

instance (a : Access) : Decidable a.InBounds :=
  match a with
  | .local _ => inferInstanceAs (Decidable (_ < _))
  | .child _ => inferInstanceAs (Decidable (_ < _))
  | .output _ _ => inferInstanceAs (Decidable (_ ∧ _))

/-- What `read_file` leaves in its output parameters, the size of the buffer it
allocated, and the indices it used on the way. -/
structure ReadTrace where
  data : List Byte
  allocated : Nat
  accesses : List Access

/-- One round of the loop over the direct blocks: the block is read into the local
buffer, the terminator is written, and `array_to_string` copies the buffer. -/
def blockAccesses : List Access :=
  (List.range blockSize).map .local ++ [.local blockSize] ++ (List.range blockSize).map .local

/-- The `while` that drops trailing zero bytes, with `adj_size` bytes left. The byte
is looked at first. The second result is the final `adj_size`. -/
def dropZeros (out : List Byte) (allocated : Nat) : Nat → List Access × Nat
  | 0 => ([.output (-1) allocated], 0)
  | adjSize + 1 =>
      if byteAt out adjSize = 0 then
        let (accesses, size) := dropZeros out allocated adjSize
        (.output adjSize allocated :: accesses, size)
      else ([.output adjSize allocated], adjSize + 1)

/-- `inode_manager::read_file` with the indices it uses. -/
def readFileTraced (m : Machine) : Nat → Nat → Except Stop ReadTrace
  | 0, _ => throw .stackOverflow
  | stack + 1, inum => do
      match ← getInode m inum with
      | none => return { data := [], allocated := 0, accesses := [] }
      | some ino =>
          let directBufs ← readDirect m ino
          let children ← mapChildren m ino (readFileTraced m stack)
          let out := directBufs.flatMap Block.bytes ++ (children.map ReadTrace.data).flatten
          let (trimming, size) := dropZeros out (out.length + 1) out.length
          return {
            data := out.take size
            allocated := out.length + 1
            accesses :=
              directBufs.flatMap (fun _ => blockAccesses) ++
              (if ino.size.toNat > ndirect then
                (List.range nindirect).map .child ++
                  (List.range (min (children.length + 1) nindirect)).map .child
              else []) ++
              children.flatMap (fun child => child.accesses ++
                (List.range child.data.length).map fun i => .output i child.allocated) ++
              (List.range (out.length + 1)).map (fun i => .output i (out.length + 1)) ++
              trimming }

section Trace

variable {m : Machine} {stack i : Nat}

/-- The loop keeps the bytes up to the last one that is not zero. -/
theorem dropZeros_size (out : List Byte) (allocated : Nat) {adjSize : Nat}
    (h : adjSize ≤ out.length) :
    (dropZeros out allocated adjSize).2 = (trim (out.take adjSize)).length := by
  induction adjSize with
  | zero => rfl
  | succ adjSize ih =>
      have hLt : adjSize < out.length := by omega
      have hByte : byteAt out adjSize = (out[adjSize]).toNat := by
        rw [byteAt, List.getElem?_eq_getElem hLt]
        rfl
      rw [dropZeros, ← List.take_concat_get' _ _ hLt, hByte]
      by_cases hZero : out[adjSize] = 0
      · rw [if_pos (by rw [hZero]; rfl), hZero, trim_append_zero]
        exact ih (by omega)
      · have hne : out[adjSize].toNat ≠ 0 := fun h => hZero (UInt8.toNat_inj.mp h)
        rw [if_neg hne, trim_append_ne _ hZero, List.length_append,
          List.length_take_of_le hLt.le]
        rfl

theorem take_dropZeros (out : List Byte) (allocated : Nat) :
    out.take (dropZeros out allocated out.length).2 = trim out := by
  rw [dropZeros_size out allocated (Nat.le_refl _), List.take_length]
  exact (List.prefix_iff_eq_take.mp (trim_isPrefix out)).symm

/-- Only the look before the first byte is out of bounds. -/
theorem dropZeros_bounds {out : List Byte} {allocated adjSize : Nat} (h : adjSize ≤ allocated)
    {a : Access} (ha : a ∈ (dropZeros out allocated adjSize).1) :
    a.InBounds ∨ a = .output (-1) allocated := by
  induction adjSize with
  | zero => exact Or.inr (List.mem_singleton.mp ha)
  | succ adjSize ih =>
      have hHere : (Access.output adjSize allocated).InBounds := ⟨by omega, by omega⟩
      rw [dropZeros] at ha
      split at ha
      · rcases List.mem_cons.mp ha with rfl | ha
        · exact Or.inl hHere
        · exact ih (by omega) ha
      · rw [List.mem_singleton.mp ha]
        exact Or.inl hHere

theorem map_mapM {α β γ : Type} (f : α → Except Stop β) (g : β → γ) (l : List α) :
    (l.mapM f).map (List.map g) = l.mapM fun a => (f a).map g := by
  induction l with
  | nil => rfl
  | cons a rest ih =>
      rw [List.mapM_cons, List.mapM_cons, ← ih]
      cases f a with
      | error e => rfl
      | ok b =>
          cases rest.mapM f with
          | error e => rfl
          | ok bs => rfl

theorem map_mapChildren {α β : Type} (m : Machine) (ino : Inode) (visit : Nat → Except Stop α)
    (g : α → β) : (mapChildren m ino visit).map (List.map g) =
      mapChildren m ino fun c => (visit c).map g := by
  unfold mapChildren
  split
  · cases readBlock m (ino.slot ndirect) with
    | error e => rfl
    | ok inums => exact map_mapM visit g _
  · rfl

/-- The trace belongs to the read: it returns the same bytes. -/
theorem readFileTraced_data (m : Machine) (stack i : Nat) :
    (readFileTraced m stack i).map ReadTrace.data = readFile m stack i := by
  induction stack generalizing i with
  | zero => rfl
  | succ stack ih =>
      rw [readFileTraced, readFile]
      cases getInode m i with
      | error e => rfl
      | ok found =>
          cases found with
          | none => rfl
          | some ino =>
              have hChildren := map_mapChildren m ino (readFileTraced m stack) ReadTrace.data
              rw [funext ih] at hChildren
              cases hDirect : readDirect m ino with
              | error e =>
                  simp only [bind, Except.bind, hDirect]
                  rfl
              | ok directBufs =>
                  simp only [bind, Except.bind, hDirect, ← hChildren]
                  cases mapChildren m ino (readFileTraced m stack) with
                  | error e => rfl
                  | ok children => exact congrArg Except.ok (take_dropZeros _ _)

theorem mem_of_mapChildren {α : Type} {ino : Inode} {visit : Nat → Except Stop α} {children : List α}
    {x : α} (h : mapChildren m ino visit = .ok children) (hx : x ∈ children) :
    ∃ c, visit c = .ok x := by
  unfold mapChildren at h
  split at h
  · cases hRead : readBlock m (ino.slot ndirect) with
    | error e =>
        rw [hRead] at h
        cases h
    | ok inums =>
        rw [hRead] at h
        exact mem_of_mapM h hx
  · obtain rfl := Except.ok.inj h
    exact absurd hx List.not_mem_nil

/-- The parts of a trace. -/
theorem readFileTraced_cases {t : ReadTrace} (h : readFileTraced m (stack + 1) i = .ok t) :
    t = { data := [], allocated := 0, accesses := [] } ∨
    ∃ ino directBufs children, getInode m i = .ok (some ino) ∧ readDirect m ino = .ok directBufs ∧
      mapChildren m ino (readFileTraced m stack) = .ok children ∧
      let out := directBufs.flatMap Block.bytes ++ (children.map ReadTrace.data).flatten
      t.data = trim out ∧ t.allocated = out.length + 1 ∧ t.accesses =
        directBufs.flatMap (fun _ => blockAccesses) ++
        (if ino.size.toNat > ndirect then
          (List.range nindirect).map .child ++
            (List.range (min (children.length + 1) nindirect)).map .child
        else []) ++
        children.flatMap (fun child => child.accesses ++
          (List.range child.data.length).map fun i => .output i child.allocated) ++
        (List.range (out.length + 1)).map (fun i => .output i (out.length + 1)) ++
        (dropZeros out (out.length + 1) out.length).1 := by
  rw [readFileTraced] at h
  cases hFound : getInode m i with
  | error e =>
      rw [hFound] at h
      cases h
  | ok found =>
      rw [hFound] at h
      cases found with
      | none => exact Or.inl (Except.ok.inj h).symm
      | some ino =>
          cases hDirect : readDirect m ino with
          | error e =>
              simp only [bind, Except.bind, hDirect] at h
              cases h
          | ok directBufs =>
              cases hChildren : mapChildren m ino (readFileTraced m stack) with
              | error e =>
                  simp only [bind, Except.bind, hDirect, hChildren] at h
                  cases h
              | ok children =>
                  simp only [bind, Except.bind, hDirect, hChildren] at h
                  obtain rfl := Except.ok.inj h
                  exact Or.inr ⟨ino, directBufs, children, rfl, hDirect, hChildren,
                    take_dropZeros _ _, rfl, rfl⟩

theorem mem_blockAccesses {a : Access} (h : a ∈ blockAccesses) :
    a.InBounds ∨ a = .local blockSize := by
  rw [blockAccesses, List.mem_append, List.mem_append, List.mem_map, List.mem_singleton] at h
  rcases h with (⟨k, hk, rfl⟩ | rfl) | ⟨k, hk, rfl⟩
  · exact Or.inl (List.mem_range.mp hk)
  · exact Or.inr rfl
  · exact Or.inl (List.mem_range.mp hk)

/-- There are two ways out of bounds: behind the local buffer, and before the
output buffer. The list of children is never left. -/
theorem readFileTraced_bounds {t : ReadTrace} (h : readFileTraced m stack i = .ok t) :
    t.data.length ≤ t.allocated ∧ ∀ a ∈ t.accesses,
      a.InBounds ∨ a = .local blockSize ∨ ∃ allocated, a = .output (-1) allocated := by
  induction stack generalizing i t with
  | zero => cases h
  | succ stack ih =>
      rcases readFileTraced_cases h with rfl | ⟨ino, directBufs, children, -, -, hChildren, hData,
        hAllocated, hAccesses⟩
      · exact ⟨Nat.le_refl 0, fun a ha => absurd ha List.not_mem_nil⟩
      refine ⟨?_, fun a ha => ?_⟩
      · rw [hData, hAllocated]
        exact (trim_length_le _).trans (Nat.le_succ _)
      rw [hAccesses] at ha
      simp only [List.mem_append] at ha
      rcases ha with (((ha | ha) | ha) | ha) | ha
      · obtain ⟨_, -, ha⟩ := List.mem_flatMap.mp ha
        exact (mem_blockAccesses ha).imp id Or.inl
      · split at ha
        · simp only [List.mem_append, List.mem_map, List.mem_range] at ha
          rcases ha with ⟨k, hk, rfl⟩ | ⟨k, hk, rfl⟩
          · exact Or.inl hk
          · exact Or.inl (show k < nindirect by omega)
        · exact absurd ha List.not_mem_nil
      · obtain ⟨child, hMem, ha⟩ := List.mem_flatMap.mp ha
        obtain ⟨c, hVisit⟩ := mem_of_mapChildren hChildren hMem
        obtain ⟨hFit, hBounds⟩ := ih hVisit
        simp only [List.mem_append, List.mem_map, List.mem_range] at ha
        rcases ha with ha | ⟨k, hk, rfl⟩
        · exact hBounds a ha
        · exact Or.inl ⟨by omega, by omega⟩
      · obtain ⟨k, hk, rfl⟩ := List.mem_map.mp ha
        have := List.mem_range.mp hk
        exact Or.inl ⟨by omega, by omega⟩
      · exact (dropZeros_bounds (Nat.le_succ _) ha).imp id fun he => Or.inr ⟨_, he⟩

/-- An inode with a block writes past the local buffer, and one without reads
before the output buffer. -/
theorem exists_out_of_bounds {P : Set Nat} (hR : m.store.Readable P) (hi : i ∈ P) {t : ReadTrace}
    (h : readFileTraced m (stack + 1) i = .ok t) : ∃ a ∈ t.accesses, ¬a.InBounds := by
  have hFound := getInode_some (m := m) (hR.inum i hi)
  rcases readFileTraced_cases h with rfl | ⟨ino, directBufs, children, hIno, hDirect, hChildren, -, -,
    hAccesses⟩
  · rw [readFileTraced, hFound] at h
    cases hBufs : readDirect m (m.store.inode i) with
    | error e =>
        simp only [bind, Except.bind, hBufs] at h
        cases h
    | ok bufs =>
        cases hKids : mapChildren m (m.store.inode i) (readFileTraced m stack) with
        | error e =>
            simp only [bind, Except.bind, hBufs, hKids] at h
            cases h
        | ok kids =>
            simp only [bind, Except.bind, hBufs, hKids] at h
            have hZero := congrArg ReadTrace.allocated (Except.ok.inj h)
            exact absurd hZero (Nat.succ_ne_zero _)
  rw [hFound] at hIno
  obtain rfl := Option.some.inj (Except.ok.inj hIno)
  rw [readDirect_eq hR hi] at hDirect
  obtain rfl := Except.ok.inj hDirect
  rw [hAccesses]
  by_cases hSize : m.store.size i = 0
  · have hNone : children = [] := by
      have hSmall : ¬(m.store.inode i).size.toNat > ndirect := by
        have hSame : (m.store.inode i).size.toNat = m.store.size i := rfl
        omega
      rw [mapChildren, if_neg hSmall] at hChildren
      exact (Except.ok.inj hChildren).symm
    refine ⟨.output (-1) 1, List.mem_append_right _ ?_, by decide⟩
    rw [hNone, hSize]
    exact List.mem_singleton_self _
  · refine ⟨.local blockSize, ?_, by decide⟩
    simp only [List.mem_append]
    refine Or.inl (Or.inl (Or.inl (Or.inl ?_)))
    refine List.mem_flatMap.mpr ⟨m.store.data (m.store.slot i 0), ?_, ?_⟩
    · exact List.mem_map_of_mem (List.mem_range.mpr (by omega))
    · rw [blockAccesses]
      simp

/-- Where `read_file` returns, its trace is there. -/
theorem exists_trace {c : List Byte} (hRead : readFile m stack i = .ok c) :
    ∃ t, readFileTraced m stack i = .ok t ∧ t.data = c := by
  have hData := readFileTraced_data m stack i
  rw [hRead] at hData
  cases hTrace : readFileTraced m stack i with
  | error e =>
      rw [hTrace] at hData
      cases hData
  | ok t =>
      rw [hTrace] at hData
      exact ⟨t, rfl, Except.ok.inj hData⟩

/-- On every inode in use `read_file` leaves one of its buffers. -/
theorem read_file_leaves_buffers {clock : Nat → UInt32} {s : ExtentServer.Session}
    (hStack : maxDepth < stack)
    (hRun : ExtentServer.Run stack clock (fun _ call => call.KeepsSize) s)
    (hAlive : s.machine.store.Alive i) :
    ∃ t, readFileTraced s.machine stack i = .ok t ∧ readFile s.machine stack i = .ok t.data ∧
      (∃ a ∈ t.accesses, ¬a.InBounds) ∧
      ∀ a ∈ t.accesses,
        a.InBounds ∨ a = .local blockSize ∨ ∃ allocated, a = .output (-1) allocated := by
  have hIntact := (hRun.faithful hStack).intact
  have hR := hIntact.sound.readable
  have hRead := readFile_eq hR hAlive (hIntact.sound.forest.shallow i hAlive) hStack
  obtain ⟨t, hTrace, hData⟩ := exists_trace hRead
  obtain ⟨d, rfl⟩ : ∃ d, stack = d + 1 := ⟨stack - 1, by omega⟩
  exact ⟨t, hTrace, hData ▸ hRead, exists_out_of_bounds hR hAlive hTrace,
    (readFileTraced_bounds hTrace).2⟩

/-- A file of 60000 letters, which has a child inode. -/
theorem read_letters_leaves_buffer : ∃ (s : ExtentServer.Session) (id : Nat) (t : ReadTrace),
    ExtentServer.Run (maxDepth + 1) (fun _ => 0) (fun _ call => call.KeepsSize) s ∧ id ∈ s.live ∧
    readFileTraced s.machine (maxDepth + 1) id = .ok t ∧ t.data = List.replicate 60000 97 ∧
    ∃ a ∈ t.accesses, ¬a.InBounds := by
  have hStack := Nat.lt_succ_self maxDepth
  have hNeeds : blocksNeeded 60000 = 119 ∧ inodesNeeded 60000 = 1 := by decide
  obtain ⟨s, id, -, hRun, hLive, -, -, hGet, -⟩ := ExtentServer.exists_letters
    (show 60000 < 2 ^ 31 by decide) (by omega) (by omega)
  have hAlive := (hRun.faithful hStack).intact.alive id hLive
  obtain ⟨t, hTrace, hRead, hOut, -⟩ := read_file_leaves_buffers hStack hRun hAlive
  rw [ExtentServer.get, ExtentServer.maskId_of_isInum (isInum_of_alive hAlive), hRead] at hGet
  exact ⟨s, id, t, hRun, hLive, hTrace, Except.ok.inj hGet, hOut⟩

/-- A new file, which is empty. -/
theorem read_empty_file : ∃ (s : ExtentServer.Session) (id : Nat) (t : ReadTrace),
    ExtentServer.Run (maxDepth + 1) (fun _ => 0) (fun _ call => call.KeepsSize) s ∧ id ∈ s.live ∧
      readFileTraced s.machine (maxDepth + 1) id = .ok t ∧ t.data = [] ∧
      ∃ a ∈ t.accesses, ¬a.InBounds := by
  obtain ⟨s, id, hRun, hLive, -, -, hSize, -⟩ := ExtentServer.exists_new_file
  have hIntact := (hRun.faithful (Nat.lt_succ_self maxDepth)).intact
  have hAlive := hIntact.alive id hLive
  have hNil : s.machine.store.content maxDepth id = [] := by
    have hKids : s.machine.store.kids id = [] := kids_of_size_le (by omega)
    rw [maxDepth_eq, content, direct, hSize, hKids]
    rfl
  have hRead := readFile_eq hIntact.sound.readable hAlive
    (hIntact.sound.forest.shallow id hAlive) (Nat.lt_succ_self maxDepth)
  obtain ⟨t, hTrace, hData⟩ := exists_trace hRead
  exact ⟨s, id, t, hRun, hLive, hTrace, hData.trans hNil,
    exists_out_of_bounds hIntact.sound.readable hAlive hTrace⟩

end Trace
end InodeFS
