import Mathlib

/-! A list cut into pages of a fixed length. Only the last page may be shorter,
and an element that is added at the end goes to that page or begins a new one. -/
namespace Paging

variable {α : Type} {n j : Nat} {l : List α}

/-- The `j`-th page of `n` elements. -/
def page (n : Nat) (l : List α) (j : Nat) : List α := (l.drop (n * j)).take n

theorem page_length (n : Nat) (l : List α) (j : Nat) :
    (page n l j).length = min n (l.length - n * j) := by
  rw [page, List.length_take, List.length_drop]

theorem page_eq_nil (h : l.length ≤ n * j) : page n l j = [] := by
  rw [page, List.drop_of_length_le h, List.take_nil]

theorem mem_of_mem_page {a : α} (h : a ∈ page n l j) : a ∈ l :=
  List.mem_of_mem_drop (List.mem_of_mem_take h)

/-- The pages in order are the list. -/
theorem flatMap_page (n : Nat) (l : List α) (r : Nat) :
    (List.range r).flatMap (page n l) = l.take (n * r) := by
  induction r with
  | zero => simp
  | succ r ih =>
      rw [List.range_succ, List.flatMap_append, ih, List.flatMap_singleton, page, Nat.mul_succ,
        List.take_add]

/-- A full page does not change. -/
theorem page_append_of_le (t : List α) (h : n * (j + 1) ≤ l.length) :
    page n (l ++ t) j = page n l j := by
  rw [Nat.mul_succ] at h
  rw [page, page, List.drop_append_of_le_length (by omega), List.take_append_of_le_length]
  rw [List.length_drop]
  omega

theorem page_append_last (a : α) (h : n * j ≤ l.length) (hRoom : l.length < n * (j + 1)) :
    page n (l ++ [a]) j = page n l j ++ [a] := by
  rw [Nat.mul_succ] at hRoom
  have hTail : (l.drop (n * j)).length < n := by
    rw [List.length_drop]
    omega
  rw [page, page, List.drop_append_of_le_length h, List.take_of_length_le hTail.le,
    List.take_of_length_le]
  rw [List.length_append, List.length_singleton]
  omega

/-- Without its last element a list loses an element of its last page only. -/
theorem page_dropLast_of_lt (h : n * (j + 1) < l.length) : page n l.dropLast j = page n l j := by
  have hSplit := List.dropLast_append_getLast (List.ne_nil_of_length_pos (Nat.zero_lt_of_lt h))
  have hPage := page_append_of_le (n := n) (j := j) (l := l.dropLast)
    [l.getLast (List.ne_nil_of_length_pos (Nat.zero_lt_of_lt h))] (by
      rw [List.length_dropLast]
      omega)
  rw [hSplit] at hPage
  exact hPage.symm

theorem page_dropLast_last (h : n * j < l.length) (hLast : l.length ≤ n * (j + 1)) :
    page n l.dropLast j = (page n l j).dropLast := by
  have hSplit := List.dropLast_append_getLast (List.ne_nil_of_length_pos (Nat.zero_lt_of_lt h))
  have hLength : l.dropLast.length = l.length - 1 := List.length_dropLast
  have hPage := page_append_last (n := n) (j := j) (l := l.dropLast)
    (l.getLast (List.ne_nil_of_length_pos (Nat.zero_lt_of_lt h))) (by omega) (by omega)
  rw [hSplit] at hPage
  rw [hPage, List.dropLast_concat]

/-- An element of one page is an element of the whole list, when the pages before
it are full. -/
theorem flatten_set {L : List (List α)} {p : List α} {k : Nat} (a : α) (hPage : L[j]? = some p)
    (hk : k < p.length) (hFull : ∀ i < j, ∀ q, L[i]? = some q → q.length = n) :
    (L.set j (p.set k a)).flatten = L.flatten.set (n * j + k) a := by
  induction j generalizing L with
  | zero =>
      cases L with
      | nil => cases hPage
      | cons q rest =>
          obtain rfl : q = p := Option.some.inj hPage
          rw [List.set_cons_zero, List.flatten_cons, List.flatten_cons, Nat.mul_zero, Nat.zero_add,
            List.set_append_left _ _ hk]
  | succ j ih =>
      cases L with
      | nil => cases hPage
      | cons q rest =>
          have hLength : q.length = n := hFull 0 (Nat.succ_pos j) q rfl
          have hRest := ih (L := rest) hPage fun i hi => hFull (i + 1) (Nat.succ_lt_succ hi)
          have hIndex : n * (j + 1) + k - q.length = n * j + k := by
            rw [hLength, Nat.mul_succ]
            omega
          rw [List.set_cons_succ, List.flatten_cons, List.flatten_cons, hRest,
            List.set_append_right _ _ (by rw [hLength, Nat.mul_succ]; omega), hIndex]

section Parts

variable {β : Type} {t : List β} {g g' : β → List α} {k : Nat}

/-- The parts are pages: behind a part that is not full there is nothing. -/
def Packed (n : Nat) (t : List β) (g : β → List α) : Prop :=
  ∀ (j : Nat) (c : β), t[j]? = some c →
    (g c).length = n ∨ ∀ (i : Nat) (d : β), j < i → t[i]? = some d → g d = []

theorem Packed.tail {c : β} (h : Packed n (c :: t) g) : Packed n t g := by
  intro j d hd
  refine (h (j + 1) d hd).imp_right fun hNone i x hi hx => ?_
  exact hNone (i + 1) x (Nat.succ_lt_succ hi) hx

/-- Either the first part is full, or it is all there is. -/
theorem Packed.head {c : β} (h : Packed n (c :: t) g) :
    (g c).length = n ∨ ∀ d ∈ t, g d = [] := by
  refine (h 0 c rfl).imp_right fun hNone d hd => ?_
  obtain ⟨i, hi⟩ := List.mem_iff_getElem?.mp hd
  exact hNone (i + 1) d (Nat.succ_pos i) hi

/-- The first `k` elements are the first of each part. -/
theorem Packed.flatMap_take (h : Packed n t g)
    (hTake : ∀ j c, t[j]? = some c → g' c = (g c).take (k - n * j)) :
    t.flatMap g' = (t.flatMap g).take k := by
  induction t generalizing k with
  | nil => simp
  | cons c rest ih =>
      have hHead := hTake 0 c rfl
      rw [Nat.mul_zero, Nat.sub_zero] at hHead
      rw [List.flatMap_cons, List.flatMap_cons, hHead, List.take_append]
      refine congrArg _ ?_
      rcases h.head with hLength | hNone
      · rw [hLength]
        refine ih h.tail fun j d hd => ?_
        have hNext := hTake (j + 1) d hd
        rwa [Nat.mul_succ, Nat.add_comm (n * j), Nat.sub_add_eq] at hNext
      · have hNone' : ∀ d ∈ rest, g' d = [] := fun d hd => by
          obtain ⟨i, hi⟩ := List.mem_iff_getElem?.mp hd
          rw [hTake (i + 1) d hi, hNone d hd, List.take_nil]
        rw [List.flatMap_eq_nil_iff.mpr hNone, List.flatMap_eq_nil_iff.mpr hNone', List.take_nil]

/-- The element at index `k` is in the part at index `k / n`, or further back when
the last part is longer. -/
theorem Packed.getElem?_flatMap (h : Packed n t g) {a : α} (ha : (t.flatMap g)[k]? = some a) :
    ∃ j c, t[j]? = some c ∧ n * j ≤ k ∧ (g c)[k - n * j]? = some a := by
  induction t generalizing k with
  | nil => cases ha
  | cons c rest ih =>
      rw [List.flatMap_cons] at ha
      rcases Nat.lt_or_ge k (g c).length with hHere | hLater
      · rw [List.getElem?_append_left hHere] at ha
        exact ⟨0, c, rfl, Nat.zero_le k, ha⟩
      · rw [List.getElem?_append_right hLater] at ha
        rcases h.head with hLength | hNone
        · rw [hLength] at ha hLater
          obtain ⟨j, d, hd, hj, hIn⟩ := ih h.tail ha
          have hIndex : k - n * (j + 1) = k - n - n * j := by
            rw [Nat.mul_succ, Nat.add_comm, Nat.sub_add_eq]
          refine ⟨j + 1, d, hd, ?_, hIndex ▸ hIn⟩
          rw [Nat.mul_succ]
          omega
        · rw [List.flatMap_eq_nil_iff.mpr hNone] at ha
          cases ha

theorem Packed.mem_drop_flatMap (h : Packed n t g) {a : α} :
    a ∈ (t.flatMap g).drop k ↔ ∃ j c, t[j]? = some c ∧ a ∈ (g c).drop (k - n * j) := by
  induction t generalizing k with
  | nil => simp
  | cons c rest ih =>
      rw [List.flatMap_cons, List.drop_append, List.mem_append]
      have hRest : a ∈ (rest.flatMap g).drop (k - (g c).length) ↔
          ∃ j d, rest[j]? = some d ∧ a ∈ (g d).drop (k - n * (j + 1)) := by
        rcases h.head with hLength | hNone
        · rw [hLength, ih h.tail]
          simp only [Nat.mul_succ, Nat.add_comm (n * _), Nat.sub_add_eq]
        · rw [List.flatMap_eq_nil_iff.mpr hNone, List.drop_nil]
          refine iff_of_false List.not_mem_nil ?_
          rintro ⟨j, d, hd, hMem⟩
          rw [hNone d (List.mem_of_getElem? hd), List.drop_nil] at hMem
          exact List.not_mem_nil hMem
      rw [hRest]
      constructor
      · rintro (hHead | ⟨j, d, hd, hMem⟩)
        · exact ⟨0, c, rfl, hHead⟩
        · exact ⟨j + 1, d, hd, hMem⟩
      · rintro ⟨_ | j, d, hd, hMem⟩
        · obtain rfl : c = d := Option.some.inj hd
          exact Or.inl hMem
        · exact Or.inr ⟨j, d, hd, hMem⟩

end Parts

end Paging
