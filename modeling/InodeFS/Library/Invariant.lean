import InodeFS.Library.Exec

/-! Programs that keep an invariant of the state on both exits. The rules follow
the syntax of a program, so no loop needs an invariant of its own. -/
namespace Exec

variable {ε σ α β : Type}

/-- A result whose value satisfies `post` and whose error satisfies `F`. -/
def Yields (F : ε → Prop) (x : Except ε α) (post : α → Prop) : Prop :=
  match x with
  | .ok a => post a
  | .error e => F e

/-- From a state of `I` the program only reaches states of `I`. What it returns
satisfies `post`, and what it throws satisfies `F` in the state it leaves. -/
def Keeps (I : σ → Prop) (F : ε → σ → Prop) (x : EStateM ε σ α) (post : α → Prop) : Prop :=
  ∀ s, I s → wp x (fun a t => I t ∧ post a) (fun e t => I t ∧ F e t) s

variable {I J : σ → Prop} {mid : β → Prop} {post post' : α → Prop}

namespace Yields

variable {F : ε → Prop}

theorem pure {a : α} (h : post a) : Yields F (Pure.pure a : Except ε α) post := h

theorem throw {e : ε} (h : F e) : Yields F (MonadExcept.throw e : Except ε α) post := h

theorem bind {x : Except ε β} {f : β → Except ε α} (h : Yields F x mid)
    (h' : ∀ b, mid b → Yields F (f b) post) : Yields F (x >>= f) post := by
  cases x with
  | ok b => exact h' b h
  | error e => exact h

theorem mono {x : Except ε α} (h : Yields F x post) (hPost : ∀ a, post a → post' a) :
    Yields F x post' := by
  cases x with
  | ok a => exact hPost a h
  | error e => exact h

/-- A loop over a list needs the post-condition of one round. -/
theorem mapM {f : β → Except ε α} {l : List β} (h : ∀ b ∈ l, Yields F (f b) post) :
    Yields F (l.mapM f) fun as => ∀ a ∈ as, post a := by
  induction l with
  | nil => exact fun a ha => absurd ha List.not_mem_nil
  | cons b rest ih =>
      rw [List.mapM_cons]
      refine bind (h b List.mem_cons_self) fun a ha => ?_
      refine bind (ih fun c hc => h c (List.mem_cons_of_mem b hc)) fun as has => ?_
      rintro c (_ | ⟨_, hc⟩)
      · exact ha
      · exact has c hc

end Yields

namespace Keeps

variable {F : ε → σ → Prop}

theorem pure {a : α} (h : post a) : Keeps I F (Pure.pure a : EStateM ε σ α) post :=
  fun _ hs => ⟨hs, h⟩

theorem throw {e : ε} (h : ∀ s, I s → F e s) :
    Keeps I F (MonadExcept.throw e : EStateM ε σ α) post :=
  fun s hs => ⟨hs, h s hs⟩

theorem bind {x : EStateM ε σ β} {f : β → EStateM ε σ α} (h : Keeps I F x mid)
    (h' : ∀ b, mid b → Keeps I F (f b) post) : Keeps I F (x >>= f) post := by
  intro s hs
  rw [wp_bind]
  exact wp_mono (h s hs) (fun b t hb => h' b hb.2 t hb.1) fun _ _ he => he

theorem ite {c : Prop} [Decidable c] {x y : EStateM ε σ α} (hx : c → Keeps I F x post)
    (hy : ¬c → Keeps I F y post) : Keeps I F (if c then x else y) post := by
  split
  · exact hx ‹_›
  · exact hy ‹_›

theorem query {f : σ → Except ε α} (h : ∀ s, I s → Yields (F · s) (f s) post) :
    Keeps I F (Exec.query f) post := by
  intro s hs
  have hf := h s hs
  rw [wp_query]
  cases hx : f s with
  | ok a =>
      rw [hx] at hf
      exact ⟨hs, hf⟩
  | error e =>
      rw [hx] at hf
      exact ⟨hs, hf⟩

/-- The invariant may be strengthened at one point of a program. -/
theorem bind_of_wp {x : EStateM ε σ β} {f : β → EStateM ε σ α}
    (h : ∀ s, I s → wp x (fun b t => wp (f b) (fun a u => I u ∧ post a) (fun e u => I u ∧ F e u) t)
      (fun e t => I t ∧ F e t) s) : Keeps I F (x >>= f) post := by
  intro s hs
  rw [wp_bind]
  exact h s hs

/-- A program that keeps a stronger invariant, run where it holds. -/
theorem wp_of_le {x : EStateM ε σ α} {s : σ} (h : Keeps J F x post) (hs : J s)
    (hLe : ∀ t, J t → I t) : wp x (fun a t => I t ∧ post a) (fun e t => I t ∧ F e t) s :=
  wp_mono (h s hs) (fun _ t ht => ⟨hLe t ht.1, ht.2⟩) fun _ t ht => ⟨hLe t ht.1, ht.2⟩

theorem foldlM {f : α → β → EStateM ε σ α} {l : List β}
    (h : ∀ b ∈ l, ∀ a, post a → Keeps I F (f a b) post) {a : α} (ha : post a) :
    Keeps I F (l.foldlM f a) post := by
  induction l generalizing a with
  | nil => exact pure ha
  | cons b rest ih =>
      rw [List.foldlM_cons]
      refine bind (h b List.mem_cons_self a ha) fun a' ha' => ?_
      exact ih (fun c hc => h c (List.mem_cons_of_mem b hc)) ha'

theorem forM {f : β → EStateM ε σ PUnit} {l : List β}
    (h : ∀ b ∈ l, Keeps I F (f b) fun _ => True) : Keeps I F (l.forM f) fun _ => True := by
  induction l with
  | nil => exact pure trivial
  | cons b rest ih =>
      refine bind (h b List.mem_cons_self) fun _ _ => ?_
      exact ih fun c hc => h c (List.mem_cons_of_mem b hc)

end Keeps
end Exec
