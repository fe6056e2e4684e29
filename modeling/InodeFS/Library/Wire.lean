import InodeFS.Library.Bytes

/-! Formats of values in a byte buffer that is read from front to back. A read that finds too
few bytes clears a flag for good. -/
namespace Wire

open Bytes

structure Reader where
  buf : List Byte
  ind : Nat
  ok : Bool

namespace Reader

def rest (u : Reader) : List Byte := u.buf.drop u.ind

def skip (u : Reader) (n : Nat) : Reader := { u with ind := u.ind + n }

def okdone (u : Reader) : Bool := u.ok && u.ind == u.buf.length

theorem rest_skip {u : Reader} {bs tail : List Byte} (h : u.rest = bs ++ tail) :
    (u.skip bs.length).rest = tail := by
  rw [rest, skip, ← List.drop_drop]
  change u.rest.drop bs.length = tail
  rw [h, List.drop_left]

theorem skip_skip (u : Reader) (n k : Nat) : (u.skip n).skip k = u.skip (n + k) := by
  simp only [skip, Nat.add_assoc]

theorem okdone_iff {u : Reader} (hInd : u.ind ≤ u.buf.length) : u.okdone = true ↔ u.ok = true ∧ u.rest = [] := by
  simp only [okdone, rest, Bool.and_eq_true, beq_iff_eq, List.drop_eq_nil_iff]
  exact and_congr_right fun _ => ⟨fun h => h.ge, fun h => hInd.antisymm h⟩

end Reader

/-- How values are written, and a reader that gives them back, that stops at the first byte
after them, and that notices when bytes are missing. -/
structure Format (α : Type) where
  bytes : α → List Byte
  Fits : α → Prop
  read : Reader → α × Reader
  read_bytes : ∀ {u a tail}, u.ok = true → Fits a → u.rest = bytes a ++ tail →
    read u = (a, u.skip (bytes a).length)
  read_short : ∀ {u a tail}, Fits a → bytes a = u.rest ++ tail → tail ≠ [] → (read u).2.ok = false
  read_failed : ∀ {u}, u.ok = false → (read u).2.ok = false

/-- A proper beginning of two parts is one of the first part, or all of it and a proper
beginning of the second. -/
theorem short_append {bs cs rest tail : List Byte} (h : bs ++ cs = rest ++ tail) :
    (∃ more, bs = rest ++ more ∧ more ≠ []) ∨ ∃ after, rest = bs ++ after ∧ cs = after ++ tail := by
  obtain ⟨after, hRest, hCs⟩ | ⟨more, hBs, hTail'⟩ := List.append_eq_append_iff.mp h
  · exact Or.inr ⟨after, hRest, hCs⟩
  · cases more with
    | nil => exact Or.inr ⟨[], by rw [hBs, List.append_nil, List.append_nil], hTail'.symm⟩
    | cons b more => exact Or.inl ⟨b :: more, hBs, List.cons_ne_nil b more⟩

namespace Format

variable {α β γ : Type}

/-- One value after the other. -/
def prod (A : Format α) (B : Format β) : Format (α × β) where
  bytes p := A.bytes p.1 ++ B.bytes p.2
  Fits p := A.Fits p.1 ∧ B.Fits p.2
  read u := (((A.read u).1, (B.read (A.read u).2).1), (B.read (A.read u).2).2)
  read_bytes {u p tail} hOk hFits hRest := by
    rw [List.append_assoc] at hRest
    have hB := B.read_bytes (u := u.skip (A.bytes p.1).length) hOk hFits.2 (Reader.rest_skip hRest)
    rw [A.read_bytes hOk hFits.1 hRest]
    simp only [hB, Reader.skip_skip, List.length_append]
  read_short {u p tail} hFits hShort hTail := by
    obtain ⟨more, hA, hMore⟩ | ⟨after, hRest, hB⟩ := short_append hShort
    · exact B.read_failed (A.read_short hFits.1 hA hMore)
    · by_cases hOk : u.ok = true
      · simp only [A.read_bytes hOk hFits.1 hRest]
        exact B.read_short hFits.2 (by rw [Reader.rest_skip hRest, hB]) hTail
      · exact B.read_failed (A.read_failed (Bool.eq_false_of_not_eq_true hOk))
  read_failed h := B.read_failed (A.read_failed h)

/-- The values seen through a renaming of their parts. -/
def rename (A : Format α) (e : α ≃ β) : Format β where
  bytes b := A.bytes (e.symm b)
  Fits b := A.Fits (e.symm b)
  read u := (e (A.read u).1, (A.read u).2)
  read_bytes hOk hFits hRest := by
    rw [A.read_bytes hOk hFits hRest, e.apply_symm_apply]
  read_short hFits hShort hTail := A.read_short hFits hShort hTail
  read_failed h := A.read_failed h

/-- `n` values, each taken in by `step`. -/
def loop (A : Format α) (step : β → α → β) : Nat → Reader → β → β × Reader
  | 0, u, b => (b, u)
  | n + 1, u, b => loop A step n (A.read u).2 (step b (A.read u).1)

variable {A : Format α} {step : β → α → β}

theorem loop_bytes {xs : List α} {u : Reader} {tail : List Byte} (b : β) (hOk : u.ok = true)
    (hFits : ∀ x ∈ xs, A.Fits x) (hRest : u.rest = xs.flatMap A.bytes ++ tail) :
    A.loop step xs.length u b = (xs.foldl step b, u.skip (xs.flatMap A.bytes).length) := by
  induction xs generalizing u b with
  | nil => rfl
  | cons x xs ih =>
      rw [List.flatMap_cons, List.append_assoc] at hRest
      have hNext := ih (u := u.skip (A.bytes x).length) (step b x) hOk
        (fun y hy => hFits y (List.mem_cons_of_mem x hy)) (Reader.rest_skip hRest)
      rw [List.length_cons, loop, A.read_bytes hOk (hFits x List.mem_cons_self) hRest, hNext,
        Reader.skip_skip, List.flatMap_cons, List.length_append, List.foldl_cons]

theorem loop_failed (n : Nat) {u : Reader} (b : β) (h : u.ok = false) : (A.loop step n u b).2.ok = false := by
  induction n generalizing u b with
  | zero => exact h
  | succ n ih => exact ih _ (A.read_failed h)

theorem loop_short {xs : List α} {u : Reader} {tail : List Byte} (b : β) (hFits : ∀ x ∈ xs, A.Fits x)
    (hShort : xs.flatMap A.bytes = u.rest ++ tail) (hTail : tail ≠ []) :
    (A.loop step xs.length u b).2.ok = false := by
  induction xs generalizing u b with
  | nil => exact absurd (List.append_eq_nil_iff.mp hShort.symm).2 hTail
  | cons x xs ih =>
      rw [List.flatMap_cons] at hShort
      have hx := hFits x List.mem_cons_self
      obtain ⟨more, hA, hMore⟩ | ⟨after, hRest, hAfter⟩ := short_append hShort
      · exact loop_failed xs.length (step b (A.read u).1) (A.read_short hx hA hMore)
      · by_cases hOk : u.ok = true
        · rw [List.length_cons, loop, A.read_bytes hOk hx hRest]
          exact ih _ (fun y hy => hFits y (List.mem_cons_of_mem x hy))
            (by rw [Reader.rest_skip hRest, hAfter])
        · exact loop_failed xs.length (step b (A.read u).1) (A.read_failed (Bool.eq_false_of_not_eq_true hOk))

/-- A number of items as a word, and then the items, taken in one by one. -/
theorem loop_counted {N : Format UInt32} {xs : List α} {u : Reader} {tail : List Byte} (b : β) (hOk : u.ok = true)
    (hLen : xs.length < 2 ^ 32) (hN : N.Fits (UInt32.ofNat xs.length)) (hFits : ∀ x ∈ xs, A.Fits x)
    (hRest : u.rest = N.bytes (UInt32.ofNat xs.length) ++ xs.flatMap A.bytes ++ tail) :
    A.loop step (N.read u).1.toNat (N.read u).2 b =
      (xs.foldl step b, u.skip (N.bytes (UInt32.ofNat xs.length) ++ xs.flatMap A.bytes).length) := by
  rw [List.append_assoc] at hRest
  have hLoop : A.loop step _ (u.skip _) b = _ := loop_bytes b hOk hFits (Reader.rest_skip hRest)
  rw [N.read_bytes hOk hN hRest]
  simp only [UInt32.toNat_ofNat_of_lt' hLen, hLoop, Reader.skip_skip, List.length_append]

def counted (N : Format UInt32) (A : Format α) (items : β → List α) (empty : β) (step : β → α → β)
    (hItems : ∀ b, (items b).foldl step empty = b) : Format β where
  bytes b := N.bytes (UInt32.ofNat (items b).length) ++ (items b).flatMap A.bytes
  Fits b := (items b).length < 2 ^ 32 ∧ N.Fits (UInt32.ofNat (items b).length) ∧ ∀ x ∈ items b, A.Fits x
  read u := A.loop step (N.read u).1.toNat (N.read u).2 empty
  read_bytes {u b tail} hOk hFits hRest := by
    obtain ⟨hLen, hN, hA⟩ := hFits
    rw [loop_counted empty hOk hLen hN hA hRest, hItems]
  read_short {u b tail} hFits hShort hTail := by
    obtain ⟨hLen, hN, hA⟩ := hFits
    obtain ⟨more, hBytes, hMore⟩ | ⟨after, hRest, hAfter⟩ := short_append hShort
    · exact loop_failed _ _ (N.read_short hN hBytes hMore)
    · by_cases hOk : u.ok = true
      · simp only [N.read_bytes hOk hN hRest, UInt32.toNat_ofNat_of_lt' hLen]
        exact loop_short _ hA (by rw [Reader.rest_skip hRest, hAfter]) hTail
      · exact loop_failed _ _ (N.read_failed (Bool.eq_false_of_not_eq_true hOk))
  read_failed h := loop_failed _ _ (N.read_failed h)

/-- Values of a fixed number of bytes. -/
def fixed (n : Nat) (bytes : α → List Byte) (value : List Byte → α) (hLen : ∀ a, (bytes a).length = n)
    (hValue : ∀ a, value (bytes a) = a) : Format α where
  bytes := bytes
  Fits _ := True
  read u :=
    if n ≤ u.rest.length then (value (u.rest.take n), u.skip n) else (value [], { u with ok := false })
  read_bytes {u a tail} hOk hFits hRest := by
    have hEnough : n ≤ u.rest.length := by
      rw [hRest, List.length_append, hLen]
      exact Nat.le_add_right _ _
    rw [if_pos hEnough, hRest, List.take_left' (hLen a), hValue, hLen]
  read_short {u a tail} hFits hShort hTail := by
    have hSum := congrArg List.length hShort
    rw [hLen, List.length_append] at hSum
    have hPos := List.length_pos_iff.mpr hTail
    rw [if_neg (by omega)]
  read_failed {u} h := by
    split_ifs
    · exact h
    · rfl

/-- A message is taken as done if and only if nothing is missing and nothing is left over. -/
theorem okdone_read (A : Format α) {u : Reader} {a : α} {bs : List Byte} (hOk : u.ok = true)
    (hInd : u.ind ≤ u.buf.length) (hFits : A.Fits a) (hRest : u.rest = bs)
    (hBytes : (∃ tail, bs = A.bytes a ++ tail) ∨ ∃ tail, A.bytes a = bs ++ tail) :
    (A.read u).2.okdone = true ↔ bs = A.bytes a := by
  obtain ⟨tail, hTail⟩ | ⟨tail, hTail⟩ := hBytes
  · have hu := hRest.trans hTail
    rw [A.read_bytes hOk hFits hu, hTail, List.append_right_eq_self]
    have hLen : u.buf.length = u.ind + (A.bytes a).length + tail.length := by
      have := congrArg List.length hu
      simp only [Reader.rest, List.length_drop, List.length_append] at this
      omega
    rw [Reader.okdone_iff (by simp only [Reader.skip]; omega), Reader.rest_skip hu]
    exact ⟨fun h => h.2, fun h => ⟨hOk, h⟩⟩
  · by_cases hNil : tail = []
    · rw [hNil, List.append_nil] at hTail
      have hu : u.rest = A.bytes a ++ [] := by rw [List.append_nil, hTail, hRest]
      rw [A.read_bytes hOk hFits hu, hTail]
      have hLen := congrArg List.length hu
      simp only [Reader.rest, List.length_drop, List.append_nil] at hLen
      simp only [Reader.okdone, Reader.skip, hOk, Bool.true_and, beq_iff_eq, iff_true]
      rw [← hTail]
      omega
    · have hShort := A.read_short (u := u) hFits (by rw [hTail, hRest]) hNil
      refine iff_of_false (fun h => ?_) fun h => hNil ?_
      · rw [Reader.okdone, hShort] at h
        cases h
      · rw [h] at hTail
        exact List.append_right_eq_self.mp hTail.symm

end Format
open Std in
/-- A map is rebuilt from its entries. -/
theorem foldl_insert_toList {κ β : Type} {cmp : κ → κ → Ordering} [TransCmp cmp] [LawfulEqCmp cmp]
    (d : ExtTreeMap κ β cmp) : d.toList.foldl (fun d p => d.insert p.1 p.2) ∅ = d := by
  classical
  rw [← ExtTreeMap.insertMany_list_eq_foldl]
  ext k v
  cases hk : d[k]? with
  | some w =>
      have hMem := ExtTreeMap.mem_toList_iff_getElem?_eq_some.mpr hk
      rw [ExtTreeMap.getElem?_insertMany_list_of_mem ReflCmp.compare_self
        ExtTreeMap.distinct_keys_toList hMem]
  | none =>
      have hNot : (d.toList.map Prod.fst).contains k = false := by
        rw [List.contains_eq_mem, decide_eq_false_iff_not, ExtTreeMap.map_fst_toList_eq_keys,
          ExtTreeMap.mem_keys, ← ExtTreeMap.isSome_getElem?_iff_mem, hk]
        exact Bool.false_ne_true
      rw [ExtTreeMap.getElem?_insertMany_list_of_contains_eq_false hNot, ExtTreeMap.getElem?_empty]

end Wire
