import InodeFS.Library.Pages

/-! Removal of an element whose place is taken by the last one. The list gets shorter at
its end, so a list cut into pages changes in the page with the hole and in the last page. -/
namespace Paging

variable {α : Type} {l s t : List α} {a : α} {k j : Nat}

/-- The last element goes to index `k`. -/
def swapOut (l : List α) (k : Nat) : List α :=
  match l.getLast? with
  | none => []
  | some a => (l.set k a).dropLast

theorem swapOut_append_singleton (l : List α) (a : α) (k : Nat) :
    swapOut (l ++ [a]) k = ((l ++ [a]).set k a).dropLast := by
  rw [swapOut, List.getLast?_concat]

/-- The hole is not the last place. -/
theorem swapOut_of_lt (a : α) (h : k < l.length) : swapOut (l ++ [a]) k = l.set k a := by
  rw [swapOut_append_singleton, List.set_append_left _ _ h, List.dropLast_concat]

/-- The last place is the hole. -/
theorem swapOut_of_eq (l : List α) (a : α) : swapOut (l ++ [a]) l.length = l := by
  rw [swapOut_append_singleton, List.set_append_right _ _ (Nat.le_refl _), Nat.sub_self,
    List.set_cons_zero, List.dropLast_concat]

@[simp] theorem length_swapOut (l : List α) (k : Nat) : (swapOut l k).length = l.length - 1 := by
  rcases List.eq_nil_or_concat l with rfl | ⟨init, a, rfl⟩
  · rfl
  · rw [List.concat_eq_append, swapOut_append_singleton, List.length_dropLast, List.length_set]

theorem getElem?_swapOut (h : j < l.length - 1) :
    (swapOut l k)[j]? = if j = k then l.getLast? else l[j]? := by
  rcases List.eq_nil_or_concat l with rfl | ⟨init, a, rfl⟩
  · exact absurd h (Nat.not_lt_zero j)
  · rw [List.concat_eq_append] at h ⊢
    have hj : j < init.length := by simpa using h
    rw [swapOut_append_singleton, List.getElem?_dropLast, if_pos (by simpa using hj),
      List.getElem?_set, List.getLast?_concat]
    by_cases he : k = j
    · subst he
      rw [if_pos rfl, if_pos rfl, if_pos (by simp; omega)]
    · rw [if_neg he, if_neg (Ne.symm he)]

/-- One element is gone, and the others are there in some order. -/
theorem swapOut_perm (h : k < l.length) : List.Perm (swapOut l k) (l.eraseIdx k) := by
  rcases List.eq_nil_or_concat l with rfl | ⟨init, a, rfl⟩
  · exact absurd h (Nat.not_lt_zero k)
  · rw [List.concat_eq_append] at h ⊢
    rcases Nat.lt_or_ge k init.length with hLt | hGe
    · rw [swapOut_of_lt a hLt, List.eraseIdx_append_of_lt_length hLt]
      exact (List.set_perm_cons_eraseIdx hLt a).trans (List.perm_append_singleton a _).symm
    · obtain rfl : k = init.length := by
        rw [List.length_append, List.length_singleton] at h
        omega
      rw [swapOut_of_eq, List.eraseIdx_append_of_length_le (Nat.le_refl _), Nat.sub_self]
      exact (List.append_nil init).symm ▸ List.Perm.refl _

/-- The hole is in the front part, and the last element is in the back part. -/
theorem swapOut_append_left (a : α) (h : k < l.length) :
    swapOut (l ++ (s ++ [a])) k = l.set k a ++ s := by
  rw [← List.append_assoc, swapOut_of_lt a (by rw [List.length_append]; omega),
    List.set_append_left _ _ h]

theorem swapOut_append_right (hs : s ≠ []) (h : l.length ≤ k) :
    swapOut (l ++ s) k = l ++ swapOut s (k - l.length) := by
  rcases List.eq_nil_or_concat s with rfl | ⟨init, a, rfl⟩
  · exact absurd rfl hs
  · rw [List.concat_eq_append, ← List.append_assoc, swapOut_append_singleton, List.append_assoc,
      List.set_append_right _ _ h, swapOut_append_singleton,
      List.dropLast_append_of_ne_nil (by simp)]

/-- The back part loses an element, its last one or the one at the hole. -/
theorem swapOut_drop_subperm (hs : s ≠ []) (hk : k < (l ++ s).length) :
    List.Subperm ((swapOut (l ++ s) k).drop l.length) s := by
  rcases Nat.lt_or_ge k l.length with hLt | hGe
  · rcases List.eq_nil_or_concat s with rfl | ⟨init, a, rfl⟩
    · exact absurd rfl hs
    · rw [List.concat_eq_append, swapOut_append_left a hLt, List.drop_left' (by simp)]
      exact (List.sublist_append_left init [a]).subperm
  · rw [List.length_append] at hk
    rw [swapOut_append_right hs hGe, List.drop_left]
    exact (swapOut_perm (by omega)).subperm.trans (List.eraseIdx_sublist s _).subperm

theorem mem_of_mem_swapOut (h : k < l.length) (ha : a ∈ swapOut l k) : a ∈ l :=
  List.mem_of_mem_eraseIdx ((swapOut_perm h).mem_iff.mp ha)

end Paging
