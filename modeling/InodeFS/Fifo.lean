import InodeFS.Library.Monitor

/-! The blocking queue between the connections and the threads that serve them. -/
namespace InodeFS.Fifo

open Monitor

/-- The two conditions threads wait at. -/
inductive Cond where
  | nonEmpty
  | hasSpace
  deriving DecidableEq

/-- Where a thread stands in `enq`, `deq` or `size`, with its local variables and what it returns. -/
inductive Point (T : Type) where
  | idle
  | enq (e : T) (blocking : Bool)
  | enqLoop (e : T) (blocking : Bool)
  | enqWait (e : T) (blocking : Bool)
  | enqSignal
  | enqReturn (pushed : Bool)
  | deq
  | deqLoop
  | deqWait
  | deqSignal (e : T)
  | deqReturn (e : T)
  | size
  | sizeRead
  | sizeReturn (some : Bool)

inductive Event (T : Type) where
  | enq (e : T)
  | refuse (e : T)
  | deq (e : T)
  | size (some : Bool)

variable {T : Type}

/-- `max` is zero for a queue without a limit. -/
def enqLoop (max : Nat) (e : T) (blocking : Bool) (q : List T) : List T × Point T × List (Event T) :=
  if max = 0 ∨ q.length < max then (q ++ [e], .enqSignal, [.enq e])
  else if blocking then (q, .enqWait e blocking, [])
  else (q, .enqReturn false, [.refuse e])

def deqLoop (max : Nat) : List T → List T × Point T × List (Event T)
  | [] => ([], .deqWait, [])
  | e :: q => (q, if max ≠ 0 ∧ q.length < max then .deqSignal e else .deqReturn e, [.deq e])

def sizeRead (q : List T) : List T × Point T × List (Event T) :=
  (q, .sizeReturn !q.isEmpty, [.size !q.isEmpty])

def code (max : Nat) : Point T → Act (List T) Cond (Point T) (Event T)
  | .idle => .idle {p | (∃ e blocking, p = .enq e blocking) ∨ p = .deq ∨ p = .size}
  | .enq e blocking => .lock (.enqLoop e blocking)
  | .enqLoop e blocking => .update (enqLoop max e blocking)
  | .enqWait e blocking => .wait .hasSpace (.enqLoop e blocking)
  | .enqSignal => .signal .nonEmpty (.enqReturn true)
  | .enqReturn _ => .unlock .idle
  | .deq => .lock .deqLoop
  | .deqLoop => .update (deqLoop max)
  | .deqWait => .wait .nonEmpty .deqLoop
  | .deqSignal e => .signal .hasSpace (.deqReturn e)
  | .deqReturn _ => .unlock .idle
  | .size => .lock .sizeRead
  | .sizeRead => .update sizeRead
  | .sizeReturn _ => .unlock .idle

/-- A queue with a limit that one caller uses. -/
inductive Sequential (max : Nat) : List (Event T) → List T → Prop where
  | empty : Sequential max [] []
  | enq {trace : List (Event T)} {q : List T} (prior : Sequential max trace q) (e : T)
      (hSpace : max = 0 ∨ q.length < max) : Sequential max (trace ++ [.enq e]) (q ++ [e])
  | refuse {trace : List (Event T)} {q : List T} (prior : Sequential max trace q) (e : T)
      (hFull : max ≠ 0 ∧ q.length = max) : Sequential max (trace ++ [.refuse e]) q
  | deq {trace : List (Event T)} {q : List T} (e : T) (prior : Sequential max trace (e :: q)) :
      Sequential max (trace ++ [.deq e]) q
  | size {trace : List (Event T)} {q : List T} (prior : Sequential max trace q) :
      Sequential max (trace ++ [.size !q.isEmpty]) q

/-- The elements put in, in order. -/
def enqueued : List (Event T) → List T :=
  List.filterMap fun
    | .enq e => some e
    | _ => none

/-- The elements taken out, in order. -/
def dequeued : List (Event T) → List T :=
  List.filterMap fun
    | .deq e => some e
    | _ => none

variable {max : Nat} {trace : List (Event T)} {q : List T}

theorem Sequential.capacity (h : Sequential max trace q) (hMax : max ≠ 0) : q.length ≤ max := by
  induction h with
  | empty => exact Nat.zero_le max
  | enq prior e hSpace ih =>
      rw [List.length_append, List.length_singleton]
      exact hSpace.resolve_left hMax
  | refuse prior e hFull ih => exact ih
  | deq e prior ih => exact (Nat.le_succ _).trans ih
  | size prior ih => exact ih

theorem Sequential.order (h : Sequential max trace q) : enqueued trace = dequeued trace ++ q := by
  induction h with
  | empty => rfl
  | enq prior e hSpace ih =>
      simp only [enqueued, dequeued, List.filterMap_append] at ih ⊢
      simp [ih]
  | refuse prior e hFull ih =>
      simp only [enqueued, dequeued, List.filterMap_append] at ih ⊢
      simp [ih]
  | deq e prior ih =>
      simp only [enqueued, dequeued, List.filterMap_append] at ih ⊢
      simp [ih]
  | size prior ih =>
      simp only [enqueued, dequeued, List.filterMap_append] at ih ⊢
      simp [ih]

theorem code_update {p : Point T} {run : List T → List T × Point T × List (Event T)}
    (h : code max p = .update run) :
    (∃ e blocking, p = .enqLoop e blocking ∧ run = enqLoop max e blocking) ∨
      (p = .deqLoop ∧ run = deqLoop max) ∨ (p = .sizeRead ∧ run = sizeRead) := by
  cases p <;> cases h
  · exact Or.inl ⟨_, _, rfl, rfl⟩
  · exact Or.inr (Or.inl ⟨rfl, rfl⟩)
  · exact Or.inr (Or.inr ⟨rfl, rfl⟩)

theorem code_wait {p n : Point T} {c : Cond} (h : code max p = .wait c n) :
    (∃ e blocking, p = .enqWait e blocking ∧ c = .hasSpace ∧ n = .enqLoop e blocking) ∨
      (p = .deqWait ∧ c = .nonEmpty ∧ n = .deqLoop) := by
  cases p <;> cases h
  · exact Or.inl ⟨_, _, rfl, rfl, rfl⟩
  · exact Or.inr ⟨rfl, rfl, rfl⟩

theorem code_signal {p n : Point T} {c : Cond} (h : code max p = .signal c n) :
    (p = .enqSignal ∧ c = .nonEmpty ∧ n = .enqReturn true) ∨
      (∃ e, p = .deqSignal e ∧ c = .hasSpace ∧ n = .deqReturn e) := by
  cases p <;> cases h
  · exact Or.inl ⟨rfl, rfl, rfl⟩
  · exact Or.inr ⟨_, rfl, rfl, rfl⟩

/-- Each piece of code under the mutex is at most one operation of the sequential queue. -/
theorem Sequential.update {p : Point T} {run : List T → List T × Point T × List (Event T)}
    (hCode : code max p = .update run) (h : Sequential max trace q) :
    Sequential max (trace ++ (run q).2.2) (run q).1 := by
  obtain ⟨e, blocking, -, rfl⟩ | ⟨-, rfl⟩ | ⟨-, rfl⟩ := code_update hCode
  · simp only [enqLoop]
    split_ifs with hSpace hBlocking
    · exact h.enq e hSpace
    · simpa only [List.append_nil] using h
    · obtain ⟨hMax, hLen⟩ := not_or.mp hSpace
      exact h.refuse e ⟨hMax, (h.capacity hMax).antisymm (Nat.le_of_not_lt hLen)⟩
  · cases q with
    | nil => simpa only [deqLoop, List.append_nil] using h
    | cons e q => exact .deq e h
  · exact h.size

variable {τ : Type} [DecidableEq τ] {s : State (List T) Cond (Point T) τ}

/-- Whatever the threads do, the queue behaves as one that a single caller uses: nothing is
lost, doubled or reordered, the limit is never passed, and only a full queue refuses. -/
theorem sequential (hRun : Run (code max) [] .idle trace s) :
    Sequential max trace s.view.shared ∧ enqueued trace = dequeued trace ++ s.view.shared ∧
      (max ≠ 0 → s.view.shared.length ≤ max) := by
  have h : Sequential max trace s.view.shared :=
    hRun.trace_rule .empty fun p run trace q hCode h => h.update hCode
  exact ⟨h, h.order, h.capacity⟩

/-- Two threads at a queue for one element. One of them finds nothing to take and waits, and
the other one's element wakes it. A second element waits for the place of the first, and a
third one waits still. -/
theorem exists_handover : ∃ s s' : State (List Nat) Cond (Point Nat) Bool,
    Run (code 1) [] .idle [.enq 7] s ∧ s.owner = some true ∧ false ∈ s.view.waiting .nonEmpty ∧
    Run (code 1) [] .idle [.enq 7, .deq 7, .enq 8] s' ∧ s'.owner = none ∧ s'.point false = .idle ∧
    (∃ e blocking, s'.point true = .enqLoop e blocking) ∧ (∀ c, s'.view.woken c = ∅) ∧
    s'.view.waiting .nonEmpty = ∅ ∧ true ∈ s'.view.waiting .hasSpace := by
  have h : Run (τ := Bool) (code (T := Nat) 1) [] .idle [] _ := .start
  -- `deq` finds the queue empty
  have h := h.step (.start (t := false) (q := .deq) (by decide) (fun c => by cases c <;> decide) rfl
    (Or.inr (Or.inl rfl)))
  have h := h.step (.lock (t := false) rfl (fun c => by cases c <;> decide) rfl)
  have h := h.step (.update (t := false) rfl rfl)
  have h := h.step (.wait (t := false) (c := .nonEmpty) rfl rfl)
  -- `enq` has the mutex and is about to give the signal
  have h := h.step (.start (t := true) (q := .enq 7 true) (by decide) (fun c => by cases c <;> decide) rfl
    (Or.inl ⟨7, true, rfl⟩))
  have h := h.step (.lock (t := true) rfl (fun c => by cases c <;> decide) rfl)
  have hHeld := h.step (.update (t := true) rfl rfl)
  have h := hHeld.step (.signal (t := true) (u := false) rfl rfl (by decide))
  have h := h.step (.unlock (t := true) rfl rfl)
  -- the next `enq` is faster than the woken thread and finds the queue full
  have h := h.step (.start (t := true) (q := .enq 8 true) (by decide) (fun c => by cases c <;> decide) rfl
    (Or.inl ⟨8, true, rfl⟩))
  have h := h.step (.lock (t := true) rfl (fun c => by cases c <;> decide) rfl)
  have h := h.step (.update (t := true) rfl rfl)
  have h := h.step (.wait (t := true) (c := .hasSpace) rfl rfl)
  -- the woken thread takes the element
  have h := h.step (.resume (t := false) (c := .nonEmpty) rfl (by decide))
  have h := h.step (.update (t := false) rfl rfl)
  have h := h.step (.signal (t := false) (u := true) rfl rfl (by decide))
  have h := h.step (.unlock (t := false) rfl rfl)
  have h := h.step (.resume (t := true) (c := .hasSpace) rfl (by decide))
  have h := h.step (.update (t := true) rfl rfl)
  have h := h.step (.signalNone (t := true) rfl rfl (by decide))
  have h := h.step (.unlock (t := true) rfl rfl)
  -- nobody takes the next one
  have h := h.step (.start (t := true) (q := .enq 9 true) (by decide) (fun c => by cases c <;> decide) rfl
    (Or.inl ⟨9, true, rfl⟩))
  have h := h.step (.lock (t := true) rfl (fun c => by cases c <;> decide) rfl)
  have h := h.step (.update (t := true) rfl rfl)
  have h := h.step (.wait (t := true) (c := .hasSpace) rfl rfl)
  exact ⟨_, _, hHeld, rfl, by decide, h, rfl, rfl, ⟨9, true, rfl⟩, fun c => by cases c <;> decide,
    by decide, by decide⟩

/-- The two threads have put two elements in and taken one out. -/
theorem sequential_handover : ∃ s : State (List Nat) Cond (Point Nat) Bool,
    Run (code 1) [] .idle [.enq 7, .deq 7, .enq 8] s ∧ Sequential 1 [.enq 7, .deq 7, .enq 8] s.view.shared ∧
      [7, 8] = [7] ++ s.view.shared ∧ (1 ≠ 0 → s.view.shared.length ≤ 1) := by
  obtain ⟨-, s, -, -, -, hRun, -⟩ := exists_handover
  exact ⟨s, hRun, sequential hRun⟩

/-- Elements or places that those who wait need not have been told of yet: the thread at
this point is about to give the signal, or was woken for it and has not looked yet. -/
def owes : Cond → Point T → Nat
  | .nonEmpty, .enqSignal => 1
  | .nonEmpty, .deqLoop => 1
  | .hasSpace, .enqLoop _ _ => 1
  | .hasSpace, .deqSignal _ => 1
  | _, _ => 0

/-- For every element a waiting thread could take, and for every free place it could fill,
some thread was woken that has not run yet. -/
structure Told (max : Nat) (p : Point T) (v : View (List T) Cond τ) : Prop where
  elements : (v.waiting .nonEmpty).Nonempty →
    v.shared.length ≤ (v.woken .nonEmpty).card + owes .nonEmpty p
  places : (v.waiting .hasSpace).Nonempty →
    max ≠ 0 ∧ max ≤ v.shared.length + (v.woken .hasSpace).card + owes .hasSpace p
  empty : p = .deqWait → v.shared = []
  full : ∀ e blocking, p = .enqWait e blocking → max ≠ 0 ∧ max ≤ v.shared.length

variable {v : View (List T) Cond τ} {t u : τ} {c : Cond} {p n : Point T}

omit [DecidableEq τ] in
/-- A step that leaves the shared state and the threads at the conditions alone. -/
theorem Told.goto (h : Told max p v) (hElements : owes .nonEmpty p ≤ owes .nonEmpty n)
    (hPlaces : owes .hasSpace p ≤ owes .hasSpace n) (hDeq : n ≠ .deqWait)
    (hEnq : ∀ e blocking, n ≠ .enqWait e blocking) : Told max n v where
  elements hWaits := (h.elements hWaits).trans (Nat.add_le_add_left hElements _)
  places hWaits := ⟨(h.places hWaits).1, (h.places hWaits).2.trans (Nat.add_le_add_left hPlaces _)⟩
  empty hn := absurd hn hDeq
  full e blocking hn := absurd hn (hEnq e blocking)

omit [DecidableEq τ] in
theorem Told.enqLoop {e : T} {blocking : Bool} (h : Told max (.enqLoop e blocking) v) :
    Told max (enqLoop max e blocking v.shared).2.1
      { v with shared := (Fifo.enqLoop max e blocking v.shared).1 } := by
  have hElements := h.elements
  have hPlaces := h.places
  simp only [owes, Nat.add_zero] at hElements hPlaces
  simp only [Fifo.enqLoop]
  split_ifs with hSpace hBlocking
  · -- the signal for the new element is still to come, and its place is gone
    refine ⟨fun hWaits => ?_, fun hWaits => ?_, fun hn => (by cases hn), fun _ _ hn => by cases hn⟩
    · have := hElements hWaits
      simp only [List.length_append, List.length_singleton, owes]
      omega
    · have := hPlaces hWaits
      simp only [List.length_append, List.length_singleton, owes]
      omega
  · obtain ⟨hMax, hLen⟩ := not_or.mp hSpace
    have hFull : max ≤ v.shared.length := Nat.le_of_not_lt hLen
    refine ⟨hElements, fun _ => ⟨hMax, ?_⟩, fun hn => (by cases hn), fun _ _ _ => ⟨hMax, hFull⟩⟩
    exact hFull.trans ((Nat.le_add_right _ _).trans (Nat.le_add_right _ _))
  · obtain ⟨hMax, hLen⟩ := not_or.mp hSpace
    have hFull : max ≤ v.shared.length := Nat.le_of_not_lt hLen
    refine ⟨hElements, fun _ => ⟨hMax, ?_⟩, fun hn => (by cases hn), fun _ _ hn => by cases hn⟩
    exact hFull.trans ((Nat.le_add_right _ _).trans (Nat.le_add_right _ _))

omit [DecidableEq τ] in
theorem Told.deqLoop (h : Told max .deqLoop v) :
    Told max (deqLoop max v.shared).2.1 { v with shared := (Fifo.deqLoop max v.shared).1 } := by
  have hElements := h.elements
  have hPlaces := h.places
  simp only [owes, Nat.add_zero] at hElements hPlaces
  cases hq : v.shared with
  | nil =>
      rw [hq] at hElements hPlaces
      exact ⟨fun _ => Nat.zero_le _, hPlaces, fun _ => rfl, fun _ _ hn => by cases hn⟩
  | cons e q =>
      rw [hq, List.length_cons] at hElements hPlaces
      simp only [Fifo.deqLoop]
      split_ifs with hMax
      · refine ⟨fun hWaits => ?_, fun hWaits => ?_, fun hn => (by cases hn), fun _ _ hn => by cases hn⟩
        · exact Nat.le_of_succ_le_succ (hElements hWaits)
        · have := hPlaces hWaits
          simp only [owes]
          omega
      · refine ⟨fun hWaits => ?_, fun hWaits => ?_, fun hn => (by cases hn), fun _ _ hn => by cases hn⟩
        · exact Nat.le_of_succ_le_succ (hElements hWaits)
        · have := hPlaces hWaits
          simp only [owes]
          omega

/-- One more thread was woken at the condition: one element or place less is owed there. -/
theorem Told.wake (h : Told max p v) (hNot : u ∉ v.woken c)
    (hOwes : ∀ d, owes d p ≤ owes d n + if d = c then 1 else 0) (hDeq : n ≠ .deqWait ∨ n = p)
    (hEnq : (∀ e blocking, n ≠ .enqWait e blocking) ∨ n = p) : Told max n (v.wake c u) where
  elements hWaits := by
    have := h.elements (View.waiting_wake hWaits)
    have := hOwes .nonEmpty
    rw [View.card_woken_wake hNot, View.shared_wake]
    omega
  places hWaits := by
    have := h.places (View.waiting_wake hWaits)
    have := hOwes .hasSpace
    rw [View.card_woken_wake hNot, View.shared_wake]
    omega
  empty hn := hDeq.elim (absurd hn) fun he => h.empty (he ▸ hn)
  full e blocking hn := hEnq.elim (fun he => absurd hn (he e blocking)) fun he => h.full e blocking (he ▸ hn)

theorem keeps : Keeps (τ := τ) (code (T := T) max) (Told max .idle) (Told max) where
  lock p n v hCode h := by
    cases p <;> cases hCode
    all_goals exact h.goto (Nat.zero_le _) (Nat.zero_le _) (by simp) (by simp)
  update p run v hCode h := by
    obtain ⟨e, blocking, rfl, rfl⟩ | ⟨rfl, rfl⟩ | ⟨rfl, rfl⟩ := code_update hCode
    · exact h.enqLoop
    · exact h.deqLoop
    · exact h.goto (Nat.zero_le _) (Nat.zero_le _) (by simp [sizeRead]) (by simp [sizeRead])
  wait p c n v t hCode hOut h := by
    obtain ⟨e, blocking, rfl, rfl, rfl⟩ | ⟨rfl, rfl, rfl⟩ := code_wait hCode
    · obtain ⟨hMax, hFull⟩ := h.full e blocking rfl
      refine ⟨fun hWaits => ?_, fun _ => ⟨hMax, ?_⟩, fun hn => (by cases hn), fun _ _ hn => by cases hn⟩
      · rw [View.waiting_park_of_ne (by decide)] at hWaits
        exact h.elements hWaits
      · exact hFull.trans ((Nat.le_add_right _ _).trans (Nat.le_add_right _ _))
    · have hEmpty := h.empty rfl
      refine ⟨fun _ => ?_, fun hWaits => ?_, fun hn => (by cases hn), fun _ _ hn => by cases hn⟩
      · simp [hEmpty]
      · rw [View.waiting_park_of_ne (by decide)] at hWaits
        exact h.places hWaits
  signal p c n v u hCode hWaits hNot h := by
    obtain ⟨rfl, rfl, rfl⟩ | ⟨e, rfl, rfl, rfl⟩ := code_signal hCode
    · exact h.wake hNot (fun d => by cases d <;> simp [owes]) (by simp) (by simp)
    · exact h.wake hNot (fun d => by cases d <;> simp [owes]) (by simp) (by simp)
  signalNone p c n v hCode hNone h := by
    obtain ⟨rfl, rfl, rfl⟩ | ⟨e, rfl, rfl, rfl⟩ := code_signal hCode
    · exact ⟨fun hWaits => by simp [hNone] at hWaits, h.places, fun hn => (by cases hn),
        fun _ _ hn => by cases hn⟩
    · exact ⟨h.elements, fun hWaits => by simp [hNone] at hWaits, fun hn => (by cases hn),
        fun _ _ hn => by cases hn⟩
  spurious c v u hWaits hNot :=
    ⟨fun h => h.wake hNot (fun _ => Nat.le_add_right _ _) (Or.inr rfl) (Or.inr rfl),
      fun p h => h.wake hNot (fun _ => Nat.le_add_right _ _) (Or.inr rfl) (Or.inr rfl)⟩
  resume p c n v t hCode hWoken h := by
    have hCard := fun d => View.card_woken_resume (d := d) hWoken
    have hElements := h.elements
    have hPlaces := h.places
    obtain ⟨e, blocking, rfl, rfl, rfl⟩ | ⟨rfl, rfl, rfl⟩ := code_wait hCode
    · refine ⟨fun hWaits => ?_, fun hWaits => ?_, fun hn => (by cases hn), fun _ _ hn => by cases hn⟩
      · rw [← hCard] at hElements
        simpa [owes] using hElements hWaits
      · rw [← hCard] at hPlaces
        simpa [owes, Nat.add_assoc] using hPlaces hWaits
    · refine ⟨fun hWaits => ?_, fun hWaits => ?_, fun hn => (by cases hn), fun _ _ hn => by cases hn⟩
      · rw [← hCard] at hElements
        simpa [owes] using hElements hWaits
      · rw [← hCard] at hPlaces
        simpa [owes] using hPlaces hWaits
  unlock p n v hCode h := by
    cases p <;> cases hCode
    all_goals exact h.goto (Nat.zero_le _) (Nat.zero_le _) (by simp) (by simp)

theorem code_scoped : Scoped (code (T := T) max) .idle where
  rest := Or.inl ⟨_, rfl⟩
  entry p entries n hCode hEntry := by
    cases p <;> cases hCode
    obtain ⟨e, blocking, rfl⟩ | rfl | rfl := hEntry
    all_goals exact Or.inr ⟨_, rfl⟩
  lock p n hCode := by
    cases p <;> cases hCode
    all_goals simp [Outside, code]
  update p run q hCode := by
    obtain ⟨e, blocking, -, rfl⟩ | ⟨-, rfl⟩ | ⟨-, rfl⟩ := code_update hCode
    · simp only [enqLoop]
      split_ifs <;> simp [Outside, code]
    · cases q with
      | nil => simp [deqLoop, Outside, code]
      | cons e q =>
          simp only [deqLoop]
          split_ifs <;> simp [Outside, code]
    · simp [sizeRead, Outside, code]
  wait p c n hCode := by
    obtain ⟨e, blocking, -, -, rfl⟩ | ⟨-, -, rfl⟩ := code_wait hCode
    all_goals simp [Outside, code]
  signal p c n hCode := by
    obtain ⟨-, -, rfl⟩ | ⟨e, -, -, rfl⟩ := code_signal hCode
    all_goals simp [Outside, code]
  unlock p n hCode := by
    cases p <;> cases hCode
    all_goals exact Or.inl ⟨_, rfl⟩

omit [DecidableEq τ] in
theorem told_init : Told max .idle ({ shared := [], waiting := fun _ => ∅, woken := fun _ => ∅ } :
    View (List T) Cond τ) where
  elements hWaits := absurd hWaits Finset.not_nonempty_empty
  places hWaits := absurd hWaits Finset.not_nonempty_empty
  empty hn := by cases hn
  full e blocking hn := by cases hn

theorem code_idle {p : Point T} {entries : Set (Point T)} (h : code max p = .idle entries) : p = .idle := by
  cases p <;> cases h
  rfl

/-- No signal is lost: the thread that holds the mutex can always go on, and if nobody holds
it or can take it, then all calls under way are `deq` on an empty queue, or all are `enq` on a
full one. -/
theorem no_lost_wakeup (hRun : Run (code max) [] .idle trace s) :
    (∀ t, s.owner = some t → ∃ events s', Step (code max) t s events s') ∧
      (s.owner = none → (∀ t events s', Step (code max) t s events s' → s'.owner = none) →
        (∀ t, s.point t = .idle ∨ t ∈ s.view.waiting .nonEmpty ∧ s.view.shared = []) ∨
          ∀ t, s.point t = .idle ∨
            t ∈ s.view.waiting .hasSpace ∧ max ≠ 0 ∧ s.view.shared.length = max) := by
  refine ⟨fun t hOwner => hRun.owner_steps code_scoped hOwner, fun hFree hStuck => ?_⟩
  obtain ⟨hWoken, hRests⟩ := hRun.stuck code_scoped hFree hStuck
  have hTold : Told max .idle s.view := (hRun.rule keeps told_init).1 hFree
  have hCap := (hRun.trace_rule .empty fun p run trace q hCode h => Sequential.update hCode h).capacity
  have hElements := hTold.elements
  have hPlaces := hTold.places
  simp only [hWoken, Finset.card_empty, owes, Nat.add_zero, Nat.le_zero, List.length_eq_zero_iff]
    at hElements hPlaces
  by_cases hWaits : (s.view.waiting .hasSpace).Nonempty
  · -- the queue is full, and so nobody waits for an element
    obtain ⟨hMax, hFull⟩ := hPlaces hWaits
    refine Or.inr fun t => ?_
    obtain ⟨entries, hIdle⟩ | ⟨c, ht⟩ := hRests t
    · exact Or.inl (code_idle hIdle)
    · cases c with
      | nonEmpty =>
          rw [hElements ⟨t, ht⟩] at hFull
          exact absurd (Nat.le_zero.mp hFull) hMax
      | hasSpace => exact Or.inr ⟨ht, hMax, (hCap hMax).antisymm hFull⟩
  · refine Or.inl fun t => ?_
    obtain ⟨entries, hIdle⟩ | ⟨c, ht⟩ := hRests t
    · exact Or.inl (code_idle hIdle)
    · cases c with
      | nonEmpty => exact Or.inr ⟨ht, hElements ⟨t, ht⟩⟩
      | hasSpace => exact absurd ⟨t, ht⟩ hWaits

/-- The thread with the mutex goes on. Later the other thread has no call under way, and its
own one waits at the full queue. -/
theorem no_lost_wakeup_handover : ∃ (trace trace' : List (Event Nat))
    (s s' : State (List Nat) Cond (Point Nat) Bool),
    Run (code 1) [] .idle trace s ∧ s.owner = some true ∧ false ∈ s.view.waiting .nonEmpty ∧
    (∃ events u, Step (code 1) true s events u) ∧
    Run (code 1) [] .idle trace' s' ∧ s'.owner = none ∧ true ∈ s'.view.waiting .hasSpace ∧
    s'.view.shared.length = 1 := by
  obtain ⟨s, s', hHeld, hOwner, hWaits, hRun, hFree, hIdle, ⟨e, blocking, hPoint⟩, hWoken, hNone, hFull⟩ :=
    exists_handover
  -- nobody can take the mutex
  have hStuck : ∀ t events u, Step (code 1) t s' events u → u.owner = none := by
    intro t events u hStep
    cases hStep with
    | lock hFree hRuns hCode =>
        cases t with
        | false =>
            rw [hIdle] at hCode
            cases hCode
        | true => exact absurd (Or.inl hFull) (hRuns .hasSpace)
    | @resume c hFree ht =>
        rw [hWoken c] at ht
        exact absurd ht (Finset.notMem_empty t)
    | _ => simp_all [State.goto]
  refine ⟨_, _, s, s', hHeld, hOwner, hWaits, (no_lost_wakeup hHeld).1 true hOwner, hRun, hFree, hFull, ?_⟩
  rcases (no_lost_wakeup hRun).2 hFree hStuck with hDeq | hEnq
  · rcases hDeq true with hTrue | ⟨hIn, -⟩
    · rw [hPoint] at hTrue
      cases hTrue
    · rw [hNone] at hIn
      exact absurd hIn (Finset.notMem_empty true)
  · rcases hEnq true with hTrue | ⟨-, -, hLength⟩
    · rw [hPoint] at hTrue
      cases hTrue
    · exact hLength

end InodeFS.Fifo
