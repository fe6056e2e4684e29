import Mathlib

/-! Forests of nodes which own resources. Each node owns a list of resources
and lists its children. In a forest no resource has two owners, no child has
two parents, and every path downwards is short. The nodes and the resources are
arbitrary types. -/
namespace Ownership

variable {ν β : Type}

/-- What each node owns, and which children it lists. -/
structure Shape (ν β : Type) where
  owns : ν → List β
  kids : ν → List ν

namespace Shape

/-- Every path of children below `i` has at most `n` edges. -/
def Shallow (S : Shape ν β) : Nat → ν → Prop
  | 0, i => S.kids i = []
  | n + 1, i => ∀ c ∈ S.kids i, S.Shallow n c

/-- The nodes of the tree at `i` down to depth `n`, with `i` first. -/
def nodes (S : Shape ν β) : Nat → ν → List ν
  | 0, i => [i]
  | n + 1, i => i :: (S.kids i).flatMap (S.nodes n)

variable {S S' : Shape ν β} {i c x : ν} {n k : Nat}

theorem Shallow.succ (h : S.Shallow n i) : S.Shallow (n + 1) i := by
  induction n generalizing i with
  | zero =>
      intro c hc
      have hNil : S.kids i = [] := h
      simp [hNil] at hc
  | succ n ih => exact fun c hc => ih (h c hc)

theorem Shallow.mono (h : S.Shallow n i) (hle : n ≤ k) : S.Shallow k i := by
  induction hle with
  | refl => exact h
  | step _ ih => exact ih.succ

theorem shallow_of_kids_nil (h : S.kids i = []) (n : Nat) : S.Shallow n i :=
  Shallow.mono (n := 0) h (Nat.zero_le n)

/-- Dropping children keeps every path short. -/
theorem Shallow.subset {P : Set ν} (hClosed : ∀ j ∈ P, ∀ c ∈ S.kids j, c ∈ P)
    (hSub : ∀ j ∈ P, S'.kids j ⊆ S.kids j) (hi : i ∈ P) (h : S.Shallow n i) : S'.Shallow n i := by
  induction n generalizing i with
  | zero =>
      have hNil : S.kids i = [] := h
      exact List.subset_nil.mp (hNil ▸ hSub i hi)
  | succ n ih =>
      intro c hc
      have hOld := hSub i hi hc
      exact ih (hClosed i hi c hOld) (h c hOld)

/-- A tree only depends on the children of the nodes in a closed set. -/
theorem Shallow.congr {P : Set ν} (hClosed : ∀ j ∈ P, ∀ c ∈ S.kids j, c ∈ P)
    (hKids : ∀ j ∈ P, S'.kids j = S.kids j) (hi : i ∈ P) (h : S.Shallow n i) :
    S'.Shallow n i := by
  induction n generalizing i with
  | zero => exact (hKids i hi).trans h
  | succ n ih =>
      intro c hc
      rw [hKids i hi] at hc
      exact ih (hClosed i hi c hc) (h c hc)

theorem nodes_congr {P : Set ν} (hClosed : ∀ j ∈ P, ∀ c ∈ S.kids j, c ∈ P)
    (hKids : ∀ j ∈ P, S'.kids j = S.kids j) (n : Nat) (hi : i ∈ P) :
    S'.nodes n i = S.nodes n i := by
  induction n generalizing i with
  | zero => rfl
  | succ n ih =>
      rw [nodes, nodes, hKids i hi]
      congr 1
      exact List.flatMap_congr fun c hc => ih (hClosed i hi c hc)

theorem mem_nodes_self (S : Shape ν β) (n : Nat) (i : ν) : i ∈ S.nodes n i := by
  cases n <;> simp [nodes]

theorem mem_nodes_of_kid (hc : c ∈ S.kids i) (hx : x ∈ S.nodes n c) : x ∈ S.nodes (n + 1) i := by
  rw [nodes]
  exact List.mem_cons_of_mem _ (List.mem_flatMap.mpr ⟨c, hc, hx⟩)

/-- The nodes of a shallow tree are closed under children. -/
theorem kid_mem_nodes (h : S.Shallow n i) (hx : x ∈ S.nodes n i) (hc : c ∈ S.kids x) :
    c ∈ S.nodes n i := by
  induction n generalizing i with
  | zero =>
      have hNil : S.kids i = [] := h
      obtain rfl : x = i := by simpa [nodes] using hx
      simp [hNil] at hc
  | succ n ih =>
      rw [nodes, List.mem_cons] at hx
      rcases hx with rfl | hx
      · exact mem_nodes_of_kid hc (mem_nodes_self S n c)
      · obtain ⟨d, hd, hx⟩ := List.mem_flatMap.mp hx
        exact mem_nodes_of_kid hd (ih (h d hd) hx)

/-- A node other than the root is listed by a node of the tree. -/
theorem exists_parent (hx : x ∈ S.nodes n i) : x = i ∨ ∃ p ∈ S.nodes n i, x ∈ S.kids p := by
  induction n generalizing i with
  | zero => exact Or.inl (by simpa [nodes] using hx)
  | succ n ih =>
      rw [nodes, List.mem_cons] at hx
      rcases hx with rfl | hx
      · exact Or.inl rfl
      · obtain ⟨d, hd, hx⟩ := List.mem_flatMap.mp hx
        rcases ih hx with rfl | ⟨p, hp, hxp⟩
        · exact Or.inr ⟨i, mem_nodes_self S _ i, hd⟩
        · exact Or.inr ⟨p, mem_nodes_of_kid hd hp, hxp⟩

theorem nodes_subset {P : Set ν} (hClosed : ∀ j ∈ P, ∀ c ∈ S.kids j, c ∈ P) (hi : i ∈ P)
    (hx : x ∈ S.nodes n i) : x ∈ P := by
  induction n generalizing i with
  | zero =>
      obtain rfl : x = i := by simpa [nodes] using hx
      exact hi
  | succ n ih =>
      rw [nodes, List.mem_cons] at hx
      rcases hx with rfl | hx
      · exact hi
      · obtain ⟨d, hd, hx⟩ := List.mem_flatMap.mp hx
        exact ih (hClosed i hi d hd) hx

end Shape

open Shape

/-- The nodes `A` form a forest of depth at most `depth` which owns resources
of `M` only. -/
structure IsForest (S : Shape ν β) (depth : Nat) (A : Set ν) (M : Set β) : Prop where
  owns_mem : ∀ i ∈ A, ∀ b ∈ S.owns i, b ∈ M
  owns_nodup : ∀ i ∈ A, (S.owns i).Nodup
  owns_unique : ∀ i ∈ A, ∀ j ∈ A, ∀ b, b ∈ S.owns i → b ∈ S.owns j → i = j
  kids_mem : ∀ i ∈ A, ∀ c ∈ S.kids i, c ∈ A
  kids_nodup : ∀ i ∈ A, (S.kids i).Nodup
  kids_unique : ∀ i ∈ A, ∀ j ∈ A, ∀ c, c ∈ S.kids i → c ∈ S.kids j → i = j
  shallow : ∀ i ∈ A, S.Shallow depth i

namespace IsForest

variable {S S' : Shape ν β} {depth : Nat} {A B : Set ν} {M N : Set β} {p c d r x : ν} {n k : Nat}

theorem mono (h : IsForest S depth A M) (hSub : M ⊆ N) : IsForest S depth A N :=
  { h with owns_mem := fun i hi b hb => hSub (h.owns_mem i hi b hb) }

/-- Some of the nodes, closed under children. -/
theorem subset (h : IsForest S depth A M) (hSub : B ⊆ A)
    (hClosed : ∀ i ∈ B, ∀ c ∈ S.kids i, c ∈ B) : IsForest S depth B M where
  owns_mem i hi := h.owns_mem i (hSub hi)
  owns_nodup i hi := h.owns_nodup i (hSub hi)
  owns_unique i hi j hj := h.owns_unique i (hSub hi) j (hSub hj)
  kids_mem := hClosed
  kids_nodup i hi := h.kids_nodup i (hSub hi)
  kids_unique i hi j hj := h.kids_unique i (hSub hi) j (hSub hj)
  shallow i hi := h.shallow i (hSub hi)

theorem congr (h : IsForest S depth A M) (hOwns : ∀ i ∈ A, S'.owns i = S.owns i)
    (hKids : ∀ i ∈ A, S'.kids i = S.kids i) : IsForest S' depth A M where
  owns_mem i hi b hb := h.owns_mem i hi b (hOwns i hi ▸ hb)
  owns_nodup i hi := hOwns i hi ▸ h.owns_nodup i hi
  owns_unique i hi j hj b hb hb' :=
    h.owns_unique i hi j hj b (hOwns i hi ▸ hb) (hOwns j hj ▸ hb')
  kids_mem i hi c hc := h.kids_mem i hi c (hKids i hi ▸ hc)
  kids_nodup i hi := hKids i hi ▸ h.kids_nodup i hi
  kids_unique i hi j hj c hc hc' :=
    h.kids_unique i hi j hj c (hKids i hi ▸ hc) (hKids j hj ▸ hc')
  shallow i hi := (h.shallow i hi).congr h.kids_mem hKids hi

theorem empty (S : Shape ν β) (depth : Nat) (M : Set β) : IsForest S depth ∅ M where
  owns_mem _ h := h.elim
  owns_nodup _ h := h.elim
  owns_unique _ h := h.elim
  kids_mem _ h := h.elim
  kids_nodup _ h := h.elim
  kids_unique _ h := h.elim
  shallow _ h := h.elim

/-- A node without children that owns nothing. -/
theorem singleton (hOwns : S.owns r = []) (hKids : S.kids r = []) (depth : Nat) (M : Set β) :
    IsForest S depth {r} M where
  owns_mem := by rintro i rfl b hb; simp [hOwns] at hb
  owns_nodup := by rintro i rfl; simp [hOwns]
  owns_unique := by rintro i rfl j rfl _ _ _; rfl
  kids_mem := by rintro i rfl c hc; simp [hKids] at hc
  kids_nodup := by rintro i rfl; simp [hKids]
  kids_unique := by rintro i rfl j rfl _ _ _; rfl
  shallow := by rintro i rfl; exact shallow_of_kids_nil hKids _

/-- Forests on separate nodes with separate resources. -/
theorem union (h : IsForest S depth A M) (h' : IsForest S depth B N) (hAB : Disjoint A B)
    (hMN : Disjoint M N) : IsForest S depth (A ∪ B) (M ∪ N) := by
  have hA : ∀ {i}, i ∈ A → i ∉ B := fun hi hi' => Set.disjoint_left.mp hAB hi hi'
  have hM : ∀ {b}, b ∈ M → b ∉ N := fun hb hb' => Set.disjoint_left.mp hMN hb hb'
  refine ⟨?_, ?_, ?_, ?_, ?_, ?_, ?_⟩
  · rintro i (hi | hi) b hb
    · exact Or.inl (h.owns_mem i hi b hb)
    · exact Or.inr (h'.owns_mem i hi b hb)
  · rintro i (hi | hi)
    · exact h.owns_nodup i hi
    · exact h'.owns_nodup i hi
  · rintro i (hi | hi) j (hj | hj) b hb hb'
    · exact h.owns_unique i hi j hj b hb hb'
    · exact (hM (h.owns_mem i hi b hb) (h'.owns_mem j hj b hb')).elim
    · exact (hM (h.owns_mem j hj b hb') (h'.owns_mem i hi b hb)).elim
    · exact h'.owns_unique i hi j hj b hb hb'
  · rintro i (hi | hi) c hc
    · exact Or.inl (h.kids_mem i hi c hc)
    · exact Or.inr (h'.kids_mem i hi c hc)
  · rintro i (hi | hi)
    · exact h.kids_nodup i hi
    · exact h'.kids_nodup i hi
  · rintro i (hi | hi) j (hj | hj) c hc hc'
    · exact h.kids_unique i hi j hj c hc hc'
    · exact (hA (h.kids_mem i hi c hc) (h'.kids_mem j hj c hc')).elim
    · exact (hA (h.kids_mem j hj c hc') (h'.kids_mem i hi c hc)).elim
    · exact h'.kids_unique i hi j hj c hc hc'
  · rintro i (hi | hi)
    · exact h.shallow i hi
    · exact h'.shallow i hi

/-- Give an unlisted node new resources and new children. A new resource has
no owner yet and a new child no parent. -/
theorem replace (h : IsForest S depth A M) (hr : r ∈ A) (hRoot : ∀ i ∈ A, r ∉ S.kids i)
    (hOwns : ∀ i ∈ A, i ≠ r → S'.owns i = S.owns i)
    (hKids : ∀ i ∈ A, i ≠ r → S'.kids i = S.kids i)
    (hNew : ∀ b ∈ S'.owns r, b ∈ M ∧ (b ∈ S.owns r ∨ ∀ i ∈ A, b ∉ S.owns i))
    (hNodup : (S'.owns r).Nodup)
    (hChild : ∀ c ∈ S'.kids r, c ∈ A ∧ c ≠ r ∧ ∀ i ∈ A, i ≠ r → c ∉ S.kids i)
    (hChildren : (S'.kids r).Nodup) (hShallow : ∀ c ∈ S'.kids r, S.Shallow n c)
    (hDepth : n + 1 ≤ depth) : IsForest S' depth A M := by
  have hClosed : ∀ j ∈ A \ {r}, ∀ c ∈ S.kids j, c ∈ A \ {r} := fun j hj c hc =>
    ⟨h.kids_mem j hj.1 c hc, fun he => hRoot j hj.1 (he ▸ hc)⟩
  have hSame : ∀ j ∈ A \ {r}, S'.kids j = S.kids j := fun j hj => hKids j hj.1 hj.2
  have hOther : ∀ i ∈ A, i ≠ r → ∀ b, b ∈ S'.owns r → b ∉ S'.owns i := by
    intro i hi hne b hb hbi
    rw [hOwns i hi hne] at hbi
    rcases (hNew b hb).2 with hOld | hFree
    · exact hne (h.owns_unique i hi r hr b hbi hOld)
    · exact hFree i hi hbi
  have hParent : ∀ i ∈ A, i ≠ r → ∀ c, c ∈ S'.kids r → c ∉ S'.kids i := by
    intro i hi hne c hc hci
    rw [hKids i hi hne] at hci
    exact (hChild c hc).2.2 i hi hne hci
  refine ⟨?_, ?_, ?_, ?_, ?_, ?_, ?_⟩
  · intro i hi b hb
    by_cases he : i = r
    · exact (hNew b (he ▸ hb)).1
    · exact h.owns_mem i hi b (hOwns i hi he ▸ hb)
  · intro i hi
    by_cases he : i = r
    · exact he ▸ hNodup
    · exact hOwns i hi he ▸ h.owns_nodup i hi
  · intro i hi j hj b hb hb'
    by_cases hir : i = r <;> by_cases hjr : j = r
    · rw [hir, hjr]
    · exact (hOther j hj hjr b (hir ▸ hb) hb').elim
    · exact (hOther i hi hir b (hjr ▸ hb') hb).elim
    · exact h.owns_unique i hi j hj b (hOwns i hi hir ▸ hb) (hOwns j hj hjr ▸ hb')
  · intro i hi c hc
    by_cases he : i = r
    · exact (hChild c (he ▸ hc)).1
    · exact h.kids_mem i hi c (hKids i hi he ▸ hc)
  · intro i hi
    by_cases he : i = r
    · exact he ▸ hChildren
    · exact hKids i hi he ▸ h.kids_nodup i hi
  · intro i hi j hj c hc hc'
    by_cases hir : i = r <;> by_cases hjr : j = r
    · rw [hir, hjr]
    · exact (hParent j hj hjr c (hir ▸ hc) hc').elim
    · exact (hParent i hi hir c (hjr ▸ hc') hc).elim
    · exact h.kids_unique i hi j hj c (hKids i hi hir ▸ hc) (hKids j hj hjr ▸ hc')
  · intro i hi
    by_cases he : i = r
    · subst he
      refine Shallow.mono (n := n + 1) (fun c hc => ?_) hDepth
      exact (hShallow c hc).congr hClosed hSame ⟨(hChild c hc).1, (hChild c hc).2.1⟩
    · exact (h.shallow i hi).congr hClosed hSame ⟨hi, he⟩

/-- Give one node other resources, and let nodes lose children. A new resource
has no owner yet. -/
theorem refit (h : IsForest S depth A M) (hOwns : ∀ i ∈ A, i ≠ r → S'.owns i = S.owns i)
    (hNew : ∀ b ∈ S'.owns r, b ∈ M ∧ (b ∈ S.owns r ∨ ∀ i ∈ A, b ∉ S.owns i))
    (hNodup : (S'.owns r).Nodup) (hKids : ∀ i ∈ A, List.Sublist (S'.kids i) (S.kids i))
    (hr : r ∈ A) : IsForest S' depth A M := by
  have hOther : ∀ i ∈ A, i ≠ r → ∀ b, b ∈ S'.owns r → b ∉ S'.owns i := by
    intro i hi hne b hb hbi
    rw [hOwns i hi hne] at hbi
    cases (hNew b hb).2 with
    | inl hOld => exact hne (h.owns_unique i hi r hr b hbi hOld)
    | inr hFree => exact hFree i hi hbi
  refine ⟨?_, ?_, ?_, ?_, ?_, ?_, ?_⟩
  · intro i hi b hb
    by_cases he : i = r
    · exact (hNew b (he ▸ hb)).1
    · exact h.owns_mem i hi b (hOwns i hi he ▸ hb)
  · intro i hi
    by_cases he : i = r
    · exact he ▸ hNodup
    · exact hOwns i hi he ▸ h.owns_nodup i hi
  · intro i hi j hj b hb hb'
    by_cases hir : i = r <;> by_cases hjr : j = r
    · rw [hir, hjr]
    · exact (hOther j hj hjr b (hir ▸ hb) hb').elim
    · exact (hOther i hi hir b (hjr ▸ hb') hb).elim
    · exact h.owns_unique i hi j hj b (hOwns i hi hir ▸ hb) (hOwns j hj hjr ▸ hb')
  · intro i hi c hc
    exact h.kids_mem i hi c ((hKids i hi).subset hc)
  · intro i hi
    exact (h.kids_nodup i hi).sublist (hKids i hi)
  · intro i hi j hj c hc hc'
    exact h.kids_unique i hi j hj c ((hKids i hi).subset hc) ((hKids j hj).subset hc')
  · intro i hi
    exact (h.shallow i hi).subset h.kids_mem (fun j hj => (hKids j hj).subset) hi

/-- A rank that falls along every edge. -/
theorem exists_rank (h : IsForest S depth A M) :
    ∃ rank : ν → Nat, ∀ i ∈ A, ∀ c ∈ S.kids i, rank c < rank i := by
  classical
  refine ⟨fun i => if hi : ∃ n, S.Shallow n i then Nat.find hi else 0, fun i hi c hc => ?_⟩
  have hEx : ∃ n, S.Shallow n i := ⟨depth, h.shallow i hi⟩
  have hSpec := Nat.find_spec hEx
  simp only [dif_pos hEx]
  cases hn : Nat.find hEx with
  | zero =>
      rw [hn] at hSpec
      have hNil : S.kids i = [] := hSpec
      simp [hNil] at hc
  | succ n =>
      rw [hn] at hSpec
      have hChild : S.Shallow n c := hSpec c hc
      rw [dif_pos ⟨n, hChild⟩]
      exact Nat.lt_succ_of_le (Nat.find_min' _ hChild)

theorem nodes_mem (h : IsForest S depth A M) (hp : p ∈ A) (hx : x ∈ S.nodes n p) : x ∈ A :=
  nodes_subset h.kids_mem hp hx

theorem rank_le {rank : ν → Nat} (h : IsForest S depth A M)
    (hRank : ∀ i ∈ A, ∀ c ∈ S.kids i, rank c < rank i) (hp : p ∈ A) (hx : x ∈ S.nodes n p) :
    rank x ≤ rank p := by
  induction n generalizing p with
  | zero =>
      obtain rfl : x = p := by simpa [nodes] using hx
      exact Nat.le_refl _
  | succ n ih =>
      rw [nodes, List.mem_cons] at hx
      rcases hx with rfl | hx
      · exact Nat.le_refl _
      · obtain ⟨c, hc, hx⟩ := List.mem_flatMap.mp hx
        exact (ih (h.kids_mem p hp c hc) hx).trans (hRank p hp c hc).le

theorem parent_not_mem (h : IsForest S depth A M) (hp : p ∈ A) (hc : c ∈ S.kids p) :
    p ∉ S.nodes n c := by
  intro hx
  obtain ⟨rank, hRank⟩ := h.exists_rank
  have hle := h.rank_le hRank (h.kids_mem p hp c hc) hx
  have hlt := hRank p hp c hc
  omega

/-- The trees of two children of one node have no node in common. -/
theorem siblings_disjoint (h : IsForest S depth A M) (hp : p ∈ A) (hc : c ∈ S.kids p)
    (hd : d ∈ S.kids p) (hx : x ∈ S.nodes n c) (hx' : x ∈ S.nodes k d) : c = d := by
  obtain ⟨rank, hRank⟩ := h.exists_rank
  -- The common node moves up to its parent, which is common again.
  induction hm : rank p - rank x using Nat.strong_induction_on generalizing x with
  | _ m ih =>
      have hcA := h.kids_mem p hp c hc
      have hdA := h.kids_mem p hp d hd
      rcases exists_parent hx with rfl | ⟨q, hq, hxq⟩
      · rcases exists_parent hx' with rfl | ⟨q, hq, hxq⟩
        · rfl
        · have he := h.kids_unique q (h.nodes_mem hdA hq) p hp x hxq hc
          exact (h.parent_not_mem hp hd (he ▸ hq)).elim
      · have hqA := h.nodes_mem hcA hq
        rcases exists_parent hx' with rfl | ⟨q', hq', hxq'⟩
        · have he := h.kids_unique q hqA p hp x hxq hd
          exact (h.parent_not_mem hp hc (he ▸ hq)).elim
        · have he := h.kids_unique q hqA q' (h.nodes_mem hdA hq') x hxq hxq'
          have hUp := hRank q hqA x hxq
          have hTop := h.rank_le hRank hcA hq
          have hTop' := hRank p hp c hc
          exact ih (rank p - rank q) (by omega) hq (he ▸ hq') rfl

theorem nodes_nodup (h : IsForest S depth A M) (hp : p ∈ A) (n : Nat) : (S.nodes n p).Nodup := by
  induction n generalizing p with
  | zero => simp [nodes]
  | succ n ih =>
      rw [nodes, List.nodup_cons, List.nodup_flatMap]
      refine ⟨fun hx => ?_, fun c hc => ih (h.kids_mem p hp c hc), ?_⟩
      · obtain ⟨c, hc, hx⟩ := List.mem_flatMap.mp hx
        exact h.parent_not_mem hp hc hx
      · refine (h.kids_nodup p hp).imp_of_mem fun {c d} hc hd hne => ?_
        exact List.disjoint_left.mpr fun x hx hx' => hne (h.siblings_disjoint hp hc hd hx hx')

/-- No resource occurs twice in a tree. -/
theorem owned_nodup (h : IsForest S depth A M) (hp : p ∈ A) (n : Nat) :
    ((S.nodes n p).flatMap S.owns).Nodup := by
  rw [List.nodup_flatMap]
  refine ⟨fun x hx => h.owns_nodup x (h.nodes_mem hp hx), ?_⟩
  refine (h.nodes_nodup hp n).imp_of_mem fun {x y} hx hy hne => ?_
  exact List.disjoint_left.mpr fun b hb hb' =>
    hne (h.owns_unique x (h.nodes_mem hp hx) y (h.nodes_mem hp hy) b hb hb')

theorem owned_mem {b : β} (h : IsForest S depth A M) (hp : p ∈ A)
    (hb : b ∈ (S.nodes n p).flatMap S.owns) : b ∈ M := by
  obtain ⟨x, hx, hbx⟩ := List.mem_flatMap.mp hb
  exact h.owns_mem x (h.nodes_mem hp hx) b hbx

/-- A node outside the tree of an unlisted node lists no node of that tree. -/
theorem kid_not_mem_nodes (h : IsForest S depth A M) (hr : r ∈ A) (hRoot : ∀ i ∈ A, r ∉ S.kids i)
    (hp : p ∈ A) (hpr : p ∉ S.nodes n r) (hc : c ∈ S.kids p) : c ∉ S.nodes n r := by
  intro hx
  rcases exists_parent hx with rfl | ⟨q, hq, hxq⟩
  · exact hRoot p hp hc
  · have he := h.kids_unique p hp q (h.nodes_mem hr hq) c hc hxq
    exact hpr (he ▸ hq)

/-- Remove a set of nodes which nobody outside lists, with some of what it
owns. -/
theorem remove {T : Set ν} {F : Set β} (h : IsForest S depth A M)
    (hList : ∀ i ∈ A, i ∉ T → ∀ c ∈ S.kids i, c ∉ T)
    (hFree : ∀ b ∈ F, ∃ i ∈ A, i ∈ T ∧ b ∈ S.owns i) : IsForest S depth (A \ T) (M \ F) where
  owns_mem i hi b hb := by
    refine ⟨h.owns_mem i hi.1 b hb, fun hbF => ?_⟩
    obtain ⟨j, hj, hjT, hbj⟩ := hFree b hbF
    exact hi.2 (h.owns_unique i hi.1 j hj b hb hbj ▸ hjT)
  owns_nodup i hi := h.owns_nodup i hi.1
  owns_unique i hi j hj := h.owns_unique i hi.1 j hj.1
  kids_mem i hi c hc := ⟨h.kids_mem i hi.1 c hc, hList i hi.1 hi.2 c hc⟩
  kids_nodup i hi := h.kids_nodup i hi.1
  kids_unique i hi j hj := h.kids_unique i hi.1 j hj.1
  shallow i hi := h.shallow i hi.1

end IsForest
end Ownership
