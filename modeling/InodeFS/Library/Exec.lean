import Mathlib

/-! Weakest preconditions for programs over a mutable state which may stop with
an error. An error keeps the state reached so far, as an exception of C++ does;
nothing is rolled back. -/
namespace Exec

variable {ε σ α β : Type}

/-- `Q` holds of a normal return and `E` of an error, each with the state the
program leaves behind. -/
def wp (x : EStateM ε σ α) (Q : α → σ → Prop) (E : ε → σ → Prop) (s : σ) : Prop :=
  match x s with
  | .ok a t => Q a t
  | .error e t => E e t

/-- A program that only reads the state. -/
def query (f : σ → Except ε α) : EStateM ε σ α := fun s =>
  match f s with
  | .ok a => .ok a s
  | .error e => .error e s

variable {Q Q' : α → σ → Prop} {E E' : ε → σ → Prop} {s t : σ}

@[simp] theorem wp_pure (a : α) : wp (pure a : EStateM ε σ α) Q E s ↔ Q a s := Iff.rfl

@[simp] theorem wp_throw (e : ε) : wp (throw e : EStateM ε σ α) Q E s ↔ E e s := Iff.rfl

@[simp] theorem wp_get {Q : σ → σ → Prop} : wp (get : EStateM ε σ σ) Q E s ↔ Q s s := Iff.rfl

@[simp] theorem wp_modify {Q : PUnit → σ → Prop} (f : σ → σ) :
    wp (modify f : EStateM ε σ PUnit) Q E s ↔ Q ⟨⟩ (f s) := Iff.rfl

theorem wp_bind (x : EStateM ε σ β) (f : β → EStateM ε σ α) :
    wp (x >>= f) Q E s ↔ wp x (fun b t => wp (f b) Q E t) E s := by
  simp only [wp, bind, EStateM.bind]
  cases x s <;> rfl

theorem wp_query (f : σ → Except ε α) :
    wp (query f) Q E s ↔ match f s with | .ok a => Q a s | .error e => E e s := by
  simp only [wp, query]
  cases f s <;> rfl

theorem wp_query_ok {f : σ → Except ε α} {a : α} (h : f s = .ok a) :
    wp (query f) Q E s ↔ Q a s := by
  rw [wp_query, h]

/-- Strengthening on both exits. -/
theorem wp_mono {x : EStateM ε σ α} (h : wp x Q E s) (hQ : ∀ a t, Q a t → Q' a t)
    (hE : ∀ e t, E e t → E' e t) : wp x Q' E' s := by
  unfold wp at h ⊢
  cases hx : x s with
  | ok a t =>
      rw [hx] at h
      exact hQ a t h
  | error e t =>
      rw [hx] at h
      exact hE e t h

theorem wp_of_forall (x : EStateM ε σ α) (hQ : ∀ a t, Q a t) (hE : ∀ e t, E e t) : wp x Q E s := by
  unfold wp
  cases x s with
  | ok a t => exact hQ a t
  | error e t => exact hE e t

theorem wp_and {x : EStateM ε σ α} (h : wp x Q E s) (h' : wp x Q' E' s) :
    wp x (fun a t => Q a t ∧ Q' a t) (fun e t => E e t ∧ E' e t) s := by
  unfold wp at h h' ⊢
  cases hx : x s with
  | ok a t =>
      rw [hx] at h h'
      exact ⟨h, h'⟩
  | error e t =>
      rw [hx] at h h'
      exact ⟨h, h'⟩

theorem wp_ite {c : Prop} [Decidable c] {x y : EStateM ε σ α}
    (hx : c → wp x Q E s) (hy : ¬c → wp y Q E s) : wp (if c then x else y) Q E s := by
  split
  · exact hx ‹_›
  · exact hy ‹_›

theorem wp_ok {x : EStateM ε σ α} {a : α} (h : wp x Q E s) (hx : x s = .ok a t) : Q a t := by
  unfold wp at h
  rwa [hx] at h

theorem wp_error {x : EStateM ε σ α} {e : ε} (h : wp x Q E s) (hx : x s = .error e t) :
    E e t := by
  unfold wp at h
  rwa [hx] at h

theorem wp_of_ok {x : EStateM ε σ α} {a : α} (hx : x s = .ok a t) (h : Q a t) :
    wp x Q E s := by
  unfold wp
  rwa [hx]

/-- A program whose error exit is excluded returns. -/
theorem exists_ok_of_wp {x : EStateM ε σ α} (h : wp x Q (fun _ _ => False) s) :
    ∃ a t, x s = .ok a t ∧ Q a t := by
  unfold wp at h
  cases hx : x s with
  | ok a t =>
      rw [hx] at h
      exact ⟨a, t, rfl, h⟩
  | error e t =>
      rw [hx] at h
      exact h.elim

/-- What a sequence returned comes from what its first part returned. -/
theorem bind_ok {x : EStateM ε σ β} {f : β → EStateM ε σ α} {a : α} (h : (x >>= f) s = .ok a t) :
    ∃ b u, x s = .ok b u ∧ f b u = .ok a t := by
  simp only [bind, EStateM.bind] at h
  cases hx : x s with
  | ok b u =>
      rw [hx] at h
      exact ⟨b, u, rfl, h⟩
  | error e u =>
      rw [hx] at h
      cases h

theorem query_bind_ok {g : σ → Except ε β} {f : β → EStateM ε σ α} {a : α}
    (h : (query g >>= f) s = .ok a t) : ∃ b, g s = .ok b ∧ f b s = .ok a t := by
  obtain ⟨b, u, hQuery, hRest⟩ := bind_ok h
  unfold query at hQuery
  cases hg : g s with
  | ok b' =>
      rw [hg] at hQuery
      injection hQuery with hValue hSame
      exact ⟨b, congrArg _ hValue, hSame ▸ hRest⟩
  | error e =>
      rw [hg] at hQuery
      cases hQuery

theorem bind_eq {x : EStateM ε σ β} {b : β} (h : x s = .ok b t) (f : β → EStateM ε σ α) :
    (x >>= f) s = f b t := by
  simp only [bind, EStateM.bind, h]

theorem query_bind_eq {g : σ → Except ε β} {b : β} (h : g s = .ok b) (f : β → EStateM ε σ α) :
    (query g >>= f) s = f b s := by
  simp only [bind, EStateM.bind, query, h]

theorem pure_ok {a b : α} (h : (pure a : EStateM ε σ α) s = .ok b t) : b = a ∧ t = s := by
  injection h with hValue hSame
  exact ⟨hValue.symm, hSame.symm⟩

/-- Loop rule. The invariant sees the elements already processed. -/
theorem wp_foldlM {f : β → α → EStateM ε σ β} {l : List α} {b : β}
    (I : List α → β → σ → Prop) (h₀ : I [] b s)
    (hStep : ∀ done x rest, l = done ++ x :: rest → ∀ b s, I done b s →
      wp (f b x) (I (done ++ [x])) E s) :
    wp (l.foldlM f b) (I l) E s := by
  suffices h : ∀ rest done b s, l = done ++ rest → I done b s →
      wp (rest.foldlM f b) (I l) E s from h l [] b s rfl h₀
  intro rest
  induction rest with
  | nil =>
      intro done b s hl hI
      have hd : done = l := by simpa using hl.symm
      rw [List.foldlM_nil, wp_pure, ← hd]
      exact hI
  | cons x rest ih =>
      intro done b s hl hI
      rw [List.foldlM_cons, wp_bind]
      refine wp_mono (hStep done x rest hl b s hI) (fun b' t hI' => ?_) (fun _ _ h => h)
      exact ih (done ++ [x]) b' t (by simp [hl]) hI'

/-- Loop rule for a body that returns nothing. -/
theorem wp_forM {f : α → EStateM ε σ PUnit} {l : List α}
    (I : List α → σ → Prop) (h₀ : I [] s)
    (hStep : ∀ done x rest, l = done ++ x :: rest → ∀ s, I done s →
      wp (f x) (fun _ => I (done ++ [x])) E s) :
    wp (l.forM f) (fun _ => I l) E s := by
  suffices h : ∀ rest done s, l = done ++ rest → I done s →
      wp (rest.forM f) (fun _ => I l) E s from h l [] s rfl h₀
  intro rest
  induction rest with
  | nil =>
      intro done s hl hI
      have hd : done = l := by simpa using hl.symm
      change I l s
      exact hd ▸ hI
  | cons x rest ih =>
      intro done s hl hI
      change wp (f x >>= fun _ => rest.forM f) _ _ _
      rw [wp_bind]
      refine wp_mono (hStep done x rest hl s hI) (fun _ t hI' => ?_) (fun _ _ h => h)
      exact ih (done ++ [x]) t (by simp [hl]) hI'

/-- A loop over a range is at the index that counts the finished rounds. -/
theorem index_of_range_eq {n i : Nat} {done rest : List Nat}
    (h : List.range n = done ++ i :: rest) : i = done.length ∧ i < n := by
  have hLen := congrArg List.length h
  simp only [List.length_range, List.length_append, List.length_cons] at hLen
  have hGet := congrArg (·[done.length]?) h
  simp only [List.getElem?_append_right (le_refl _), Nat.sub_self, List.getElem?_cons_zero] at hGet
  rw [List.getElem?_range (by omega)] at hGet
  have hi := Option.some.inj hGet
  exact ⟨hi.symm, by omega⟩

/-- Reading a list of cells, each of which can be read. -/
theorem mapM_ok {f : α → Except ε β} {g : α → β} {l : List α}
    (h : ∀ x ∈ l, f x = .ok (g x)) : l.mapM f = .ok (l.map g) := by
  induction l with
  | nil => rfl
  | cons x rest ih =>
      rw [List.mapM_cons, h x (by simp), ih fun y hy => h y (by simp [hy])]
      rfl

/-- What a successful run over a list has returned for each element. -/
theorem forall₂_of_mapM {f : α → Except ε β} {l : List α} {bs : List β} (h : l.mapM f = .ok bs) :
    List.Forall₂ (fun a b => f a = .ok b) l bs := by
  induction l generalizing bs with
  | nil =>
      obtain rfl := Except.ok.inj h
      exact List.Forall₂.nil
  | cons a rest ih =>
      rw [List.mapM_cons] at h
      cases hHead : f a with
      | error e =>
          rw [hHead] at h
          cases h
      | ok b =>
          cases hRest : rest.mapM f with
          | error e =>
              rw [hHead, hRest] at h
              cases h
          | ok bs' =>
              rw [hHead, hRest] at h
              obtain rfl := Except.ok.inj h
              exact List.Forall₂.cons hHead (ih hRest)

theorem exists_of_mapM {f : α → Except ε β} {l : List α} {bs : List β} {a : α}
    (h : l.mapM f = .ok bs) (ha : a ∈ l) : ∃ b ∈ bs, f a = .ok b := by
  obtain ⟨hLength, hEach⟩ := List.forall₂_iff_get.mp (forall₂_of_mapM h)
  obtain ⟨i, hi, rfl⟩ := List.mem_iff_getElem.mp ha
  exact ⟨_, List.getElem_mem (hLength ▸ hi), hEach i hi (hLength ▸ hi)⟩

theorem mem_of_mapM {f : α → Except ε β} {l : List α} {bs : List β} {b : β}
    (h : l.mapM f = .ok bs) (hb : b ∈ bs) : ∃ a, f a = .ok b := by
  obtain ⟨hLength, hEach⟩ := List.forall₂_iff_get.mp (forall₂_of_mapM h)
  obtain ⟨i, hi, rfl⟩ := List.mem_iff_getElem.mp hb
  exact ⟨_, hEach i (hLength.symm ▸ hi) hi⟩

/-- One element fails, and no other fails in another way. -/
theorem mapM_error {f : α → Except ε β} {l : List α} {e : ε} {a : α} (ha : a ∈ l) (hError : f a = .error e)
    (h : ∀ x ∈ l, f x = .error e ∨ ∃ b, f x = .ok b) : l.mapM f = .error e := by
  induction l with
  | nil => exact absurd ha List.not_mem_nil
  | cons x rest ih =>
      rw [List.mapM_cons]
      rcases h x List.mem_cons_self with hHead | ⟨b, hHead⟩
      · rw [hHead]
        rfl
      · have hne : a ≠ x := by
          rintro rfl
          rw [hError] at hHead
          cases hHead
        rw [hHead, ih ((List.mem_cons.mp ha).resolve_left hne) fun y hy => h y (List.mem_cons_of_mem x hy)]
        rfl

theorem mapM_congr {f g : α → Except ε β} {l : List α} (h : ∀ x ∈ l, f x = g x) :
    l.mapM f = l.mapM g := by
  induction l with
  | nil => rfl
  | cons x rest ih =>
      rw [List.mapM_cons, List.mapM_cons, h x (by simp), ih fun y hy => h y (by simp [hy])]

end Exec
