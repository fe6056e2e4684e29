import Mathlib

/-! Threads that share a state under a mutex and wait at condition variables. The steps of
different threads may come in any order, a thread may wake up without a signal, and nothing
is said about which waiting thread a signal wakes. -/
namespace Monitor

/-- What the code does at a point. Points carry the local variables of a thread. -/
inductive Act (σ κ π ε : Type) where
  /-- Nothing is under way; the thread may start at any of these points. -/
  | idle (entries : Set π)
  | lock (next : π)
  /-- A piece of code that runs under the mutex, with what it shows to the outside. -/
  | update (run : σ → σ × π × List ε)
  /-- The mutex is given back, and taken again before the code goes on. -/
  | wait (cond : κ) (next : π)
  | signal (cond : κ) (next : π)
  | unlock (next : π)

/-- The shared state, and who waits or was woken at each condition. -/
structure View (σ κ τ : Type) where
  shared : σ
  waiting : κ → Finset τ
  woken : κ → Finset τ

structure State (σ κ π τ : Type) where
  view : View σ κ τ
  owner : Option τ
  point : τ → π

theorem mem_update {κ τ : Type} [DecidableEq κ] {f : κ → Finset τ} {a : Finset τ} {c d : κ} {u : τ} :
    u ∈ Function.update f c a d ↔ d = c ∧ u ∈ a ∨ d ≠ c ∧ u ∈ f d := by
  rw [Function.update_apply]
  by_cases h : d = c <;> simp [h]

section Semantics

variable {σ κ π ε τ : Type} [DecidableEq τ]

/-- The thread goes on at another point. -/
def State.goto (s : State σ κ π τ) (t : τ) (q : π) : State σ κ π τ :=
  { s with point := Function.update s.point t q }

theorem State.goto_point_of_ne {t u : τ} (h : u ≠ t) (s : State σ κ π τ) (q : π) :
    (s.goto t q).point u = s.point u := Function.update_of_ne h _ _

theorem State.goto_point_self (s : State σ κ π τ) (t : τ) (q : π) : (s.goto t q).point t = q :=
  Function.update_self _ _ _

variable [DecidableEq κ]

namespace View

def park (v : View σ κ τ) (c : κ) (t : τ) : View σ κ τ :=
  { v with waiting := Function.update v.waiting c (insert t (v.waiting c)) }

def wake (v : View σ κ τ) (c : κ) (t : τ) : View σ κ τ :=
  { v with
    waiting := Function.update v.waiting c ((v.waiting c).erase t)
    woken := Function.update v.woken c (insert t (v.woken c)) }

def resume (v : View σ κ τ) (c : κ) (t : τ) : View σ κ τ :=
  { v with woken := Function.update v.woken c ((v.woken c).erase t) }

/-- The thread is inside a wait at the condition. -/
def Inside (v : View σ κ τ) (c : κ) (t : τ) : Prop := t ∈ v.waiting c ∨ t ∈ v.woken c

instance (v : View σ κ τ) (c : κ) (t : τ) : Decidable (v.Inside c t) := inferInstanceAs (Decidable (_ ∨ _))

end View

/-- One step, by the thread that makes it. -/
inductive Step (code : π → Act σ κ π ε) (t : τ) : State σ κ π τ → List ε → State σ κ π τ → Prop where
  | start {s : State σ κ π τ} {entries : Set π} {q : π} (hOut : s.owner ≠ some t)
      (hRuns : ∀ c, ¬s.view.Inside c t) (hCode : code (s.point t) = .idle entries)
      (hEntry : q ∈ entries) : Step code t s [] (s.goto t q)
  | lock {s : State σ κ π τ} {q : π} (hFree : s.owner = none) (hRuns : ∀ c, ¬s.view.Inside c t)
      (hCode : code (s.point t) = .lock q) : Step code t s [] { s.goto t q with owner := some t }
  | update {s : State σ κ π τ} {run : σ → σ × π × List ε} (hOwner : s.owner = some t)
      (hCode : code (s.point t) = .update run) :
      Step code t s (run s.view.shared).2.2
        { s.goto t (run s.view.shared).2.1 with view := { s.view with shared := (run s.view.shared).1 } }
  | wait {s : State σ κ π τ} {c : κ} {q : π} (hOwner : s.owner = some t)
      (hCode : code (s.point t) = .wait c q) :
      Step code t s [] { s.goto t q with view := s.view.park c t, owner := none }
  | signal {s : State σ κ π τ} {u : τ} {c : κ} {q : π} (hOwner : s.owner = some t)
      (hCode : code (s.point t) = .signal c q) (hWaits : u ∈ s.view.waiting c) :
      Step code t s [] { s.goto t q with view := s.view.wake c u }
  | signalNone {s : State σ κ π τ} {c : κ} {q : π} (hOwner : s.owner = some t)
      (hCode : code (s.point t) = .signal c q) (hNone : s.view.waiting c = ∅) :
      Step code t s [] (s.goto t q)
  | spurious {s : State σ κ π τ} {c : κ} (hWaits : t ∈ s.view.waiting c) :
      Step code t s [] { s with view := s.view.wake c t }
  | resume {s : State σ κ π τ} {c : κ} (hFree : s.owner = none) (hWoken : t ∈ s.view.woken c) :
      Step code t s [] { s with view := s.view.resume c t, owner := some t }
  | unlock {s : State σ κ π τ} {q : π} (hOwner : s.owner = some t)
      (hCode : code (s.point t) = .unlock q) : Step code t s [] { s.goto t q with owner := none }

/-- The runs from a shared state, with no thread under way. -/
inductive Run (code : π → Act σ κ π ε) (init : σ) (rest : π) :
    List ε → State σ κ π τ → Prop where
  | start : Run code init rest []
      { view := { shared := init, waiting := fun _ => ∅, woken := fun _ => ∅ }, owner := none,
        point := fun _ => rest }
  | step {trace events : List ε} {s s' : State σ κ π τ} {t : τ} (prior : Run code init rest trace s)
      (last : Step code t s events s') : Run code init rest (trace ++ events) s'

/-- Waiting and woken threads are different ones, each at one condition and behind a wait
there, and none of them holds the mutex. -/
structure Sane (code : π → Act σ κ π ε) (s : State σ κ π τ) : Prop where
  apart : ∀ c t, t ∈ s.view.waiting c → t ∉ s.view.woken c
  one : ∀ c d t, s.view.Inside c t → s.view.Inside d t → c = d
  runs : ∀ t, s.owner = some t → ∀ c, ¬s.view.Inside c t
  behind : ∀ c t, s.view.Inside c t → ∃ p, code p = .wait c (s.point t)

variable {code : π → Act σ κ π ε} {v : View σ κ τ} {s s' : State σ κ π τ} {c d : κ} {t u : τ}
  {init : σ} {rest : π} {trace events : List ε}

theorem View.inside_park : (v.park c t).Inside d u ↔ d = c ∧ u = t ∨ v.Inside d u := by
  simp only [Inside, park, mem_update, Finset.mem_insert]
  grind

theorem View.inside_wake (h : t ∈ v.waiting c) : (v.wake c t).Inside d u ↔ v.Inside d u := by
  simp only [Inside, wake, mem_update, Finset.mem_insert, Finset.mem_erase]
  grind

theorem View.inside_resume (h : t ∉ v.waiting c) :
    (v.resume c t).Inside d u ↔ v.Inside d u ∧ ¬(d = c ∧ u = t) := by
  simp only [Inside, resume, mem_update, Finset.mem_erase]
  grind

@[simp] theorem View.shared_park (v : View σ κ τ) (c : κ) (t : τ) : (v.park c t).shared = v.shared := rfl
@[simp] theorem View.shared_wake (v : View σ κ τ) (c : κ) (t : τ) : (v.wake c t).shared = v.shared := rfl
@[simp] theorem View.shared_resume (v : View σ κ τ) (c : κ) (t : τ) : (v.resume c t).shared = v.shared := rfl

theorem View.waiting_wake (h : ((v.wake c u).waiting d).Nonempty) : (v.waiting d).Nonempty := by
  obtain ⟨t, ht⟩ := h
  simp only [wake, mem_update, Finset.mem_erase] at ht
  exact ⟨t, by grind⟩

theorem View.card_woken_wake (h : u ∉ v.woken c) :
    ((v.wake c u).woken d).card = (v.woken d).card + if d = c then 1 else 0 := by
  simp only [wake, Function.update_apply]
  split_ifs with hd
  · rw [hd, Finset.card_insert_of_notMem h]
  · rfl

theorem View.card_woken_resume (h : t ∈ v.woken c) :
    ((v.resume c t).woken d).card + (if d = c then 1 else 0) = (v.woken d).card := by
  simp only [resume, Function.update_apply]
  split_ifs with hd
  · rw [hd, Finset.card_erase_add_one h]
  · rfl

theorem View.waiting_park_of_ne (h : d ≠ c) : (v.park c t).waiting d = v.waiting d :=
  Function.update_of_ne h _ _

omit [DecidableEq κ] in
/-- A thread that is not inside a wait moves to another point. -/
theorem Sane.goto {o : Option τ} (h : Sane code s) (q : π) (hRuns : ∀ c, ¬s.view.Inside c t)
    (hOwner : ∀ u, o = some u → ∀ c, ¬s.view.Inside c u) : Sane code { s.goto t q with owner := o } where
  apart := h.apart
  one := h.one
  runs := hOwner
  behind c u hu := by
    have hne : u ≠ t := fun he => hRuns c (he ▸ hu)
    obtain ⟨p, hp⟩ := h.behind c u hu
    exact ⟨p, hp.trans (congrArg _ (State.goto_point_of_ne hne s q).symm)⟩

theorem Sane.wake (h : Sane code s) (hWaits : u ∈ s.view.waiting c) :
    Sane code { s with view := s.view.wake c u } where
  apart d t ht := by
    simp only [View.wake, mem_update, Finset.mem_insert, Finset.mem_erase] at ht ⊢
    have := h.apart d t
    grind
  one d e t hd he :=
    h.one d e t ((View.inside_wake hWaits).mp hd) ((View.inside_wake hWaits).mp he)
  runs t ht d hd := h.runs t ht d ((View.inside_wake hWaits).mp hd)
  behind d t ht := h.behind d t ((View.inside_wake hWaits).mp ht)

/-- The owner starts to wait. -/
theorem Sane.park {q : π} (h : Sane code s) (hOwner : s.owner = some t)
    (hCode : code (s.point t) = .wait c q) :
    Sane code { s.goto t q with view := s.view.park c t, owner := none } where
  apart d u hu := by
    have hRuns := h.runs t hOwner c
    have hApart := h.apart d u
    simp only [View.park, mem_update, Finset.mem_insert] at hu ⊢
    simp only [View.Inside, not_or] at hRuns
    grind
  one d e u hd he := by
    have hRuns := h.runs t hOwner
    rcases View.inside_park.mp hd with ⟨hd', hu⟩ | hd'
    · rcases View.inside_park.mp he with ⟨he', -⟩ | he'
      · rw [hd', he']
      · exact absurd (hu ▸ he') (hRuns e)
    · rcases View.inside_park.mp he with ⟨-, hu⟩ | he'
      · exact absurd (hu ▸ hd') (hRuns d)
      · exact h.one d e u hd' he'
  runs u hu := by cases hu
  behind d u hu := by
    rcases View.inside_park.mp hu with ⟨rfl, rfl⟩ | hu
    · exact ⟨s.point u, hCode.trans (congrArg _ (State.goto_point_self s u q).symm)⟩
    · have hne : u ≠ t := fun he => h.runs t hOwner d (he ▸ hu)
      obtain ⟨p, hp⟩ := h.behind d u hu
      exact ⟨p, hp.trans (congrArg _ (State.goto_point_of_ne hne s q).symm)⟩

/-- A woken thread takes the mutex again. -/
theorem Sane.resume (h : Sane code s) (hWoken : t ∈ s.view.woken c) :
    Sane code { s with view := s.view.resume c t, owner := some t } := by
  have hNot : t ∉ s.view.waiting c := fun hWaits => h.apart c t hWaits hWoken
  refine ⟨fun d u hu => ?_, fun d e u hd he => ?_, fun u hu d hd => ?_, fun d u hu => ?_⟩
  · have hApart := h.apart d u hu
    simp only [View.resume, mem_update, Finset.mem_erase]
    grind
  · exact h.one d e u ((View.inside_resume hNot).mp hd).1 ((View.inside_resume hNot).mp he).1
  · obtain rfl := Option.some.inj hu
    obtain ⟨hd, hne⟩ := (View.inside_resume hNot).mp hd
    exact hne ⟨h.one d c t hd (Or.inr hWoken), rfl⟩
  · exact h.behind d u ((View.inside_resume hNot).mp hu).1

theorem Step.sane (hStep : Step code t s events s') (h : Sane code s) : Sane code s' := by
  cases hStep with
  | @start entries q hOut hRuns hCode hEntry => exact h.goto q hRuns h.runs
  | @lock q hFree hRuns hCode => exact h.goto q hRuns fun u hu => Option.some.inj hu ▸ hRuns
  | @update run hOwner hCode =>
      have hMoved := h.goto (run s.view.shared).2.1 (h.runs t hOwner) h.runs
      exact ⟨hMoved.apart, hMoved.one, hMoved.runs, hMoved.behind⟩
  | wait hOwner hCode => exact h.park hOwner hCode
  | @signal u c q hOwner hCode hWaits => exact (h.goto q (h.runs t hOwner) h.runs).wake hWaits
  | @signalNone c q hOwner hCode hNone => exact h.goto q (h.runs t hOwner) h.runs
  | spurious hWaits => exact h.wake hWaits
  | resume hFree hWoken => exact h.resume hWoken
  | @unlock q hOwner hCode => exact h.goto q (h.runs t hOwner) fun u hu => by cases hu

theorem Run.sane (hRun : Run code init rest trace s) : Sane code s := by
  induction hRun with
  | start =>
      refine ⟨fun c t ht => ?_, fun c d t ht => ?_, fun t ht => ?_, fun c t ht => ?_⟩
      · exact absurd ht (Finset.notMem_empty t)
      · exact (ht.elim (Finset.notMem_empty t) (Finset.notMem_empty t)).elim
      · cases ht
      · exact (ht.elim (Finset.notMem_empty t) (Finset.notMem_empty t)).elim
  | step prior last ih => exact last.sane ih

/-- A point at which a thread needs no mutex. -/
def Outside (code : π → Act σ κ π ε) (p : π) : Prop := (∃ entries, code p = .idle entries) ∨ ∃ q, code p = .lock q

/-- Code in which a mutex that is taken is given back before the thread rests. -/
structure Scoped (code : π → Act σ κ π ε) (rest : π) : Prop where
  rest : Outside code rest
  entry : ∀ p entries q, code p = .idle entries → q ∈ entries → Outside code q
  lock : ∀ p q, code p = .lock q → ¬Outside code q
  update : ∀ p run x, code p = .update run → ¬Outside code (run x).2.1
  wait : ∀ p c q, code p = .wait c q → ¬Outside code q
  signal : ∀ p c q, code p = .signal c q → ¬Outside code q
  unlock : ∀ p q, code p = .unlock q → Outside code q

omit [DecidableEq κ] in
/-- A thread moves, and is outside afterwards exactly if its point says so. -/
theorem outside_goto {o : Option τ} {w : View σ κ τ} {q : π}
    (h : ∀ u, Outside code (s.point u) ↔ s.owner ≠ some u ∧ ∀ c, ¬s.view.Inside c u)
    (hSelf : Outside code q ↔ o ≠ some t ∧ ∀ c, ¬w.Inside c t)
    (hOther : ∀ u, u ≠ t → ((o ≠ some u ∧ ∀ c, ¬w.Inside c u) ↔ s.owner ≠ some u ∧ ∀ c, ¬s.view.Inside c u))
    (u : τ) : Outside code ((s.goto t q).point u) ↔ o ≠ some u ∧ ∀ c, ¬w.Inside c u := by
  by_cases hu : u = t
  · subst hu
    rw [State.goto_point_self]
    exact hSelf
  · rw [State.goto_point_of_ne hu, h u]
    exact (hOther u hu).symm

/-- Only the owner of the mutex and the threads inside a wait stand between a lock and its unlock. -/
theorem Run.outside (hScoped : Scoped code rest) (hRun : Run code init rest trace s) (u : τ) :
    Outside code (s.point u) ↔ s.owner ≠ some u ∧ ∀ c, ¬s.view.Inside c u := by
  induction hRun generalizing u with
  | start =>
      refine iff_of_true hScoped.rest ⟨Option.some_ne_none u |>.symm, fun c hu => ?_⟩
      exact hu.elim (Finset.notMem_empty u) (Finset.notMem_empty u)
  | @step trace events s s' t prior last ih =>
      have hSane := prior.sane
      cases last with
      | @start entries q hOut hRuns hCode hEntry =>
          exact outside_goto ih (iff_of_true (hScoped.entry _ _ q hCode hEntry) ⟨hOut, hRuns⟩)
            (fun _ _ => Iff.rfl) u
      | @lock q hFree hRuns hCode =>
          refine outside_goto ih (iff_of_false (hScoped.lock _ q hCode) fun h => h.1 rfl) (fun u hu => ?_) u
          simp only [hFree, ne_eq, Option.some.injEq, Ne.symm hu, reduceCtorEq, not_false_eq_true, true_and]
          exact Iff.rfl
      | @update run hOwner hCode =>
          exact outside_goto ih (iff_of_false (hScoped.update _ run _ hCode) fun h => h.1 hOwner)
            (fun _ _ => Iff.rfl) u
      | @wait c q hOwner hCode =>
          refine outside_goto ih (iff_of_false (hScoped.wait _ c q hCode) fun h => ?_) (fun u hu => ?_) u
          · exact h.2 c (View.inside_park.mpr (Or.inl ⟨rfl, rfl⟩))
          · simp [View.inside_park, hu, hOwner, Ne.symm hu]
      | @signal w c q hOwner hCode hWaits =>
          refine outside_goto ih (iff_of_false (hScoped.signal _ c q hCode) fun h => h.1 hOwner) (fun u hu => ?_) u
          simp only [View.inside_wake hWaits]
      | @signalNone c q hOwner hCode hNone =>
          exact outside_goto ih (iff_of_false (hScoped.signal _ c q hCode) fun h => h.1 hOwner)
            (fun _ _ => Iff.rfl) u
      | @spurious c hWaits => simpa only [View.inside_wake hWaits] using ih u
      | @resume c hFree hWoken =>
          have hNot : t ∉ s.view.waiting c := fun hWaits => hSane.apart c t hWaits hWoken
          rw [ih u]
          by_cases hu : u = t
          · subst hu
            exact iff_of_false (fun h => h.2 c (Or.inr hWoken)) fun h => h.1 rfl
          · simp [View.inside_resume hNot, hu, hFree, Ne.symm hu]
      | @unlock q hOwner hCode =>
          refine outside_goto ih (iff_of_true (hScoped.unlock _ q hCode) ⟨(Option.some_ne_none t).symm, ?_⟩)
            (fun u hu => ?_) u
          · exact hSane.runs t hOwner
          · simp only [hOwner, ne_eq, Option.some.injEq, Ne.symm hu, reduceCtorEq, not_false_eq_true, true_and]
            exact Iff.rfl

/-- The owner of the mutex can go on, and nobody else needs to move first. -/
theorem Run.owner_steps (hScoped : Scoped code rest) (hRun : Run code init rest trace s)
    (hOwner : s.owner = some t) : ∃ events s', Step code t s events s' := by
  have hNot : ¬Outside code (s.point t) := fun h => ((hRun.outside hScoped t).mp h).1 hOwner
  cases hCode : code (s.point t) with
  | idle entries => exact absurd (Or.inl ⟨entries, hCode⟩) hNot
  | lock q => exact absurd (Or.inr ⟨q, hCode⟩) hNot
  | update run => exact ⟨_, _, .update hOwner hCode⟩
  | wait c q => exact ⟨_, _, .wait hOwner hCode⟩
  | signal c q =>
      obtain hNone | ⟨u, hu⟩ := (s.view.waiting c).eq_empty_or_nonempty
      · exact ⟨_, _, .signalNone hOwner hCode hNone⟩
      · exact ⟨_, _, .signal hOwner hCode hu⟩
  | unlock q => exact ⟨_, _, .unlock hOwner hCode⟩

/-- Where nobody can take the free mutex, every thread rests or waits for a signal. -/
theorem Run.stuck (hScoped : Scoped code rest) (hRun : Run code init rest trace s) (hFree : s.owner = none)
    (hStuck : ∀ t events s', Step code t s events s' → s'.owner = none) :
    (∀ c, s.view.woken c = ∅) ∧
      ∀ t, (∃ entries, code (s.point t) = .idle entries) ∨ ∃ c, t ∈ s.view.waiting c := by
  have hWoken : ∀ c, s.view.woken c = ∅ := fun c => Finset.eq_empty_iff_forall_notMem.mpr fun t ht =>
    absurd (hStuck _ _ _ (.resume hFree ht)) (Option.some_ne_none t)
  refine ⟨hWoken, fun t => ?_⟩
  by_cases hIn : ∃ c, s.view.Inside c t
  · obtain ⟨c, hWaits | hRuns⟩ := hIn
    · exact Or.inr ⟨c, hWaits⟩
    · rw [hWoken c] at hRuns
      exact absurd hRuns (Finset.notMem_empty t)
  · have hRuns : ∀ c, ¬s.view.Inside c t := not_exists.mp hIn
    have hOut : Outside code (s.point t) :=
      (hRun.outside hScoped t).mpr ⟨hFree ▸ (Option.some_ne_none t).symm, hRuns⟩
    obtain hIdle | ⟨q, hCode⟩ := hOut
    · exact Or.inl hIdle
    · exact absurd (hStuck _ _ _ (.lock hFree hRuns hCode)) (Option.some_ne_none t)

/-- What holds of the state while the mutex is free, and at each point while a thread
stands there with the mutex. The code keeps it if each piece of code does. -/
structure Keeps (code : π → Act σ κ π ε) (Free : View σ κ τ → Prop) (Held : π → View σ κ τ → Prop) :
    Prop where
  lock : ∀ p q v, code p = .lock q → Free v → Held q v
  update : ∀ p run v, code p = .update run → Held p v →
    Held (run v.shared).2.1 { v with shared := (run v.shared).1 }
  wait : ∀ p c q v t, code p = .wait c q → ¬v.Inside c t → Held p v → Free (v.park c t)
  signal : ∀ p c q v u, code p = .signal c q → u ∈ v.waiting c → u ∉ v.woken c → Held p v →
    Held q (v.wake c u)
  signalNone : ∀ p c q v, code p = .signal c q → v.waiting c = ∅ → Held p v → Held q v
  spurious : ∀ c v u, u ∈ v.waiting c → u ∉ v.woken c →
    (Free v → Free (v.wake c u)) ∧ ∀ p, Held p v → Held p (v.wake c u)
  resume : ∀ p c q v t, code p = .wait c q → t ∈ v.woken c → Free v → Held q (v.resume c t)
  unlock : ∀ p q v, code p = .unlock q → Held p v → Free v

omit [DecidableEq κ] in
theorem held_goto {Held : π → View σ κ τ → Prop} {q : π} :
    Held ((s.goto t q).point t) v ↔ Held q v := by
  rw [State.goto_point_self]

/-- The rule for invariants of a monitor. -/
theorem Run.rule {Free : View σ κ τ → Prop} {Held : π → View σ κ τ → Prop} (hKeeps : Keeps code Free Held)
    (hInit : Free { shared := init, waiting := fun _ => ∅, woken := fun _ => ∅ })
    (hRun : Run code init rest trace s) :
    (s.owner = none → Free s.view) ∧ ∀ t, s.owner = some t → Held (s.point t) s.view := by
  induction hRun with
  | start => exact ⟨fun _ => hInit, fun t ht => by cases ht⟩
  | @step trace events s s' t prior last ih =>
      obtain ⟨hFreeInv, hHeldInv⟩ := ih
      have hSane := prior.sane
      cases last with
      | @start entries q hOut hRuns hCode hEntry =>
          refine ⟨hFreeInv, fun u hu => ?_⟩
          have hne : u ≠ t := fun he => hOut (he ▸ hu)
          rw [State.goto_point_of_ne hne s q]
          exact hHeldInv u hu
      | @lock q hFree hRuns hCode =>
          refine ⟨fun hNone => absurd hNone (Option.some_ne_none t), fun u hu => ?_⟩
          obtain rfl := Option.some.inj hu
          exact held_goto.mpr (hKeeps.lock _ q _ hCode (hFreeInv hFree))
      | @update run hOwner hCode =>
          refine ⟨fun hNone => absurd (hNone.symm.trans hOwner) (Option.some_ne_none t).symm, fun u hu => ?_⟩
          obtain rfl := Option.some.inj (hu.symm.trans hOwner)
          exact held_goto.mpr (hKeeps.update _ run _ hCode (hHeldInv u hOwner))
      | @wait c q hOwner hCode =>
          refine ⟨fun _ => ?_, fun u hu => absurd hu.symm (Option.some_ne_none u)⟩
          exact hKeeps.wait _ c q _ t hCode (hSane.runs t hOwner c) (hHeldInv t hOwner)
      | @signal u c q hOwner hCode hWaits =>
          refine ⟨fun hNone => absurd (hNone.symm.trans hOwner) (Option.some_ne_none t).symm, fun o ho => ?_⟩
          obtain rfl := Option.some.inj (ho.symm.trans hOwner)
          exact held_goto.mpr (hKeeps.signal _ c q _ u hCode hWaits (hSane.apart c u hWaits) (hHeldInv o hOwner))
      | @signalNone c q hOwner hCode hNone =>
          refine ⟨fun h => absurd (h.symm.trans hOwner) (Option.some_ne_none t).symm, fun u hu => ?_⟩
          obtain rfl := Option.some.inj (hu.symm.trans hOwner)
          exact held_goto.mpr (hKeeps.signalNone _ c q _ hCode hNone (hHeldInv u hOwner))
      | @spurious c hWaits =>
          obtain ⟨hFree, hHeld⟩ := hKeeps.spurious c s.view t hWaits (hSane.apart c t hWaits)
          exact ⟨fun hNone => hFree (hFreeInv hNone), fun t ht => hHeld _ (hHeldInv t ht)⟩
      | @resume c hFree hWoken =>
          refine ⟨fun hNone => absurd hNone (Option.some_ne_none t), fun u hu => ?_⟩
          obtain rfl := Option.some.inj hu
          obtain ⟨p, hp⟩ := hSane.behind c t (Or.inr hWoken)
          exact hKeeps.resume p c _ _ t hp hWoken (hFreeInv hFree)
      | @unlock q hOwner hCode =>
          refine ⟨fun _ => ?_, fun u hu => absurd hu.symm (Option.some_ne_none u)⟩
          exact hKeeps.unlock _ q _ hCode (hHeldInv t hOwner)

/-- What every piece of code keeps of the shared state and of what was shown so far. -/
theorem Run.trace_rule {R : List ε → σ → Prop} (hInit : R [] init)
    (hUpdate : ∀ p run trace x, code p = .update run → R trace x → R (trace ++ (run x).2.2) (run x).1)
    (hRun : Run code init rest trace s) : R trace s.view.shared := by
  induction hRun with
  | start => exact hInit
  | @step trace events s s' t prior last ih =>
      cases last with
      | update hOwner hCode => exact hUpdate _ _ trace _ hCode ih
      | _ => exact (List.append_nil trace).symm ▸ ih

end Semantics
end Monitor
