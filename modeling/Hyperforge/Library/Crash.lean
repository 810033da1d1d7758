import Mathlib.Data.List.Chain
import Mathlib.Data.List.Forall2

/-!
# Programs that may crash between operations

A program over a state `σ` runs a sequence of atomic operations and ends with a
value or an exception. What a crash can expose is not only its final state but
every state after a completed operation: a program is therefore the list of
these states together with its result (`Prog`), and the state it ends in is the
last of the list.

A specification (`Triple`) has two parts: the usual one, on the state in which
the program returns or raises, and a *guarantee* `R`, which every operation
keeps from the state before it to the state after it. A guarantee that says
that an invariant holds after each operation is crash safety; one that compares
the two states says how the state evolves along the whole run
(`Triple.pairwise`).
-/

namespace Crash

universe v

section Results

variable {ε ε' : Type*} {α β : Type v}

theorem bind_eq_ok {x : Except ε α} {f : α → Except ε β} {b : β} :
    x >>= f = .ok b ↔ ∃ a, x = .ok a ∧ f a = .ok b := by
  cases x <;> simp [bind, Except.bind]

theorem map_eq_ok {x : Except ε α} {f : α → β} {b : β} :
    f <$> x = .ok b ↔ ∃ a, x = .ok a ∧ f a = b := by
  cases x <;> simp [Functor.map, Except.map]

theorem mapError_eq_ok {x : Except ε α} {f : ε → ε'} {a : α} :
    x.mapError f = .ok a ↔ x = .ok a := by
  cases x <;> simp [Except.mapError]

/-- A loop over items whose body succeeds on each. -/
theorem mapM_eq_ok {α β : Type} {f : α → Except ε β} {xs : List α} {ys : List β} :
    xs.mapM f = .ok ys ↔ List.Forall₂ (fun x y => f x = .ok y) xs ys := by
  induction xs generalizing ys with
  | nil => simp [pure, Except.pure, eq_comm]
  | cons x xs ih =>
    rw [List.mapM_cons, bind_eq_ok]
    constructor
    · rintro ⟨y, hy, h⟩
      obtain ⟨ys', hys, h⟩ := bind_eq_ok.1 h
      cases h
      exact .cons hy (ih.1 hys)
    · rintro (_ | ⟨hy, hys⟩)
      exact ⟨_, hy, bind_eq_ok.2 ⟨_, ih.2 hys, rfl⟩⟩

theorem exists_mapM_iff {α β : Type} {f : α → Except ε β} {xs : List α} :
    (∃ ys, xs.mapM f = .ok ys) ↔ ∀ x ∈ xs, ∃ y, f x = .ok y := by
  simp only [mapM_eq_ok]
  induction xs with
  | nil => exact ⟨fun _ _ hx => absurd hx List.not_mem_nil, fun _ => ⟨[], .nil⟩⟩
  | cons x xs ih =>
    rw [List.forall_mem_cons, ← ih]
    constructor
    · rintro ⟨_, _ | ⟨hy, hys⟩⟩
      exact ⟨⟨_, hy⟩, _, hys⟩
    · rintro ⟨⟨y, hy⟩, ys, hys⟩
      exact ⟨y :: ys, .cons hy hys⟩

theorem exists_of_mapM {α β : Type} {f : α → Except ε β} {xs : List α} {ys : List β} {x : α}
    (h : xs.mapM f = .ok ys) (hx : x ∈ xs) : ∃ y ∈ ys, f x = .ok y := by
  rw [mapM_eq_ok] at h
  induction h with
  | nil => exact absurd hx List.not_mem_nil
  | cons hy _ ih =>
    obtain rfl | hx := List.mem_cons.1 hx
    · exact ⟨_, List.mem_cons_self, hy⟩
    · obtain ⟨y, hmem, hy⟩ := ih hx
      exact ⟨y, List.mem_cons_of_mem _ hmem, hy⟩

end Results

/-- A program: the states after each of its operations, and its result. -/
def Prog (σ ε α : Type*) := σ → List σ × Except ε α

namespace Prog

variable {σ ε : Type*} {α β : Type v}

/-- The states after each operation of a run of `p` from `s`. -/
def trace (p : Prog σ ε α) (s : σ) : List σ := (p s).1

/-- The result of a run of `p` from `s`. -/
def result (p : Prog σ ε α) (s : σ) : Except ε α := (p s).2

/-- The state a run of `p` from `s` ends in. -/
def final (p : Prog σ ε α) (s : σ) : σ := (p.trace s).getLastD s

/-- An atomic operation. -/
def op (f : σ → σ × Except ε α) : Prog σ ε α := fun s => ([(f s).1], (f s).2)

/-- Reading the state is not an operation: nothing changes. -/
def read (f : σ → Except ε α) : Prog σ ε α := fun s => ([], f s)

/-- Raising an exception. -/
def raise (e : ε) : Prog σ ε α := fun _ => ([], .error e)

/-- Running `p`, then `f` on its value. -/
def andThen (p : Prog σ ε α) (f : α → Prog σ ε β) : Prog σ ε β := fun s =>
  match p s with
  | (t, .ok a) => (t ++ (f a (t.getLastD s)).1, (f a (t.getLastD s)).2)
  | (t, .error e) => (t, .error e)

instance : Monad (Prog σ ε) where
  pure a := fun _ => ([], .ok a)
  bind := andThen

/-- Running `p`, and `h` on the exception it raises. -/
def handle (p : Prog σ ε α) (h : ε → Prog σ ε α) : Prog σ ε α := fun s =>
  match p s with
  | (t, .ok a) => (t, .ok a)
  | (t, .error e) => (t ++ (h e (t.getLastD s)).1, (h e (t.getLastD s)).2)

/-- Running `p`, then `q` whatever the result of `p`, which is kept unless `q` raises. -/
def always (p : Prog σ ε α) (q : Prog σ ε Unit) : Prog σ ε α := fun s =>
  match p s with
  | (t, r) => match q (t.getLastD s) with
    | (t', .ok _) => (t ++ t', r)
    | (t', .error e) => (t ++ t', .error e)

/-- Running `body` on each element of a list, threading an accumulator. -/
def loop (body : β → α → Prog σ ε β) : β → List α → Prog σ ε β
  | b, [] => pure b
  | b, a :: l => andThen (body b a) fun b' => loop body b' l

/-- Running `p` on the first component of the state. -/
def onFst {τ : Type*} (p : Prog σ ε α) : Prog (σ × τ) ε α := fun s =>
  ((p s.1).1.map (·, s.2), (p s.1).2)

end Prog

open Prog

variable {σ ε : Type*} {α β : Type v} {R : σ → σ → Prop}

/-- From a state in `P`, every operation of `p` keeps the guarantee `R`, and `p`
    returns in `Q` or raises in `E`. -/
def Triple (R : σ → σ → Prop) (P : σ → Prop) (p : Prog σ ε α) (Q : α → σ → Prop)
    (E : ε → σ → Prop) : Prop :=
  ∀ s, P s → List.IsChain R (s :: p.trace s) ∧
    match p.result s with
    | .ok a => Q a (p.final s)
    | .error e => E e (p.final s)

theorem isChain_append {s : σ} {l l' : List σ} (h : List.IsChain R (s :: l))
    (h' : List.IsChain R (l.getLastD s :: l')) : List.IsChain R (s :: (l ++ l')) := by
  induction l generalizing s with
  | nil => exact h'
  | cons t l ih =>
    rw [List.isChain_cons_cons] at h
    exact List.isChain_cons_cons.2 ⟨h.1, ih h.2 (by rwa [List.getLastD_cons] at h')⟩

theorem getLastD_append (s : σ) (l l' : List σ) :
    (l ++ l').getLastD s = l'.getLastD (l.getLastD s) := by
  induction l generalizing s with
  | nil => rfl
  | cons t l ih => rw [List.cons_append, List.getLastD_cons, ih, List.getLastD_cons]

namespace Triple

variable {P P' : σ → Prop} {Q Q' : α → σ → Prop} {E E' : ε → σ → Prop} {p : Prog σ ε α}

theorem conseq (h : Triple R P' p Q' E') (hP : ∀ s, P s → P' s) (hQ : ∀ a s, Q' a s → Q a s)
    (hE : ∀ e s, E' e s → E e s) : Triple R P p Q E := fun s hs => by
  obtain ⟨hc, hr⟩ := h s (hP s hs)
  refine ⟨hc, ?_⟩
  cases hp : p.result s with
  | ok a => rw [hp] at hr; exact hQ a _ hr
  | error e => rw [hp] at hr; exact hE e _ hr

/-- The precondition may fix the initial state. -/
theorem of_forall (h : ∀ s₀, P s₀ → Triple R (· = s₀) p Q E) : Triple R P p Q E :=
  fun s hs => h s hs s rfl

theorem exists_pre {ι : Sort*} {P : ι → σ → Prop} (h : ∀ i, Triple R (P i) p Q E) :
    Triple R (fun s => ∃ i, P i s) p Q E := fun s ⟨i, hs⟩ => h i s hs

/-- A fact about the precondition only. -/
theorem and_pre {H : Prop} (h : H → Triple R P p Q E) :
    Triple R (fun s => H ∧ P s) p Q E := fun s ⟨hH, hs⟩ => h hH s hs

theorem pure {a : α} (h : ∀ s, P s → Q a s) : Triple R P (Pure.pure a : Prog σ ε α) Q E :=
  fun s hs => ⟨List.isChain_singleton s, h s hs⟩

theorem raise {e : ε} (h : ∀ s, P s → E e s) : Triple R P (Prog.raise e : Prog σ ε α) Q E :=
  fun s hs => ⟨List.isChain_singleton s, h s hs⟩

theorem op {f : σ → σ × Except ε α} (hR : ∀ s, P s → R s (f s).1)
    (hQ : ∀ s a, P s → (f s).2 = .ok a → Q a (f s).1)
    (hE : ∀ s e, P s → (f s).2 = .error e → E e (f s).1) : Triple R P (Prog.op f) Q E :=
  fun s hs => by
    refine ⟨List.isChain_cons_cons.2 ⟨hR s hs, List.isChain_singleton _⟩, ?_⟩
    change match (f s).2 with
      | .ok a => Q a (f s).1
      | .error e => E e (f s).1
    cases hf : (f s).2 with
    | ok a => exact hQ s a hs hf
    | error e => exact hE s e hs hf

theorem read {f : σ → Except ε α} (hQ : ∀ s a, P s → f s = .ok a → Q a s)
    (hE : ∀ s e, P s → f s = .error e → E e s) : Triple R P (Prog.read f) Q E :=
  fun s hs => by
    refine ⟨List.isChain_singleton s, ?_⟩
    change match f s with
      | .ok a => Q a s
      | .error e => E e s
    cases hf : f s with
    | ok a => exact hQ s a hs hf
    | error e => exact hE s e hs hf

theorem bind {f : α → Prog σ ε β} {Q' : β → σ → Prop} (hp : Triple R P p Q E)
    (hf : ∀ a, Triple R (Q a) (f a) Q' E) : Triple R P (p >>= f) Q' E := fun s hs => by
  obtain ⟨hc, hr⟩ := hp s hs
  simp only [trace, result, final] at hc hr
  change List.IsChain R (s :: (Prog.andThen p f s).1) ∧ match (Prog.andThen p f s).2 with
    | .ok a => Q' a ((Prog.andThen p f s).1.getLastD s)
    | .error e => E e ((Prog.andThen p f s).1.getLastD s)
  unfold Prog.andThen
  rcases hps : p s with ⟨t, r⟩
  rw [hps] at hc hr
  cases r with
  | error e => exact ⟨hc, hr⟩
  | ok a =>
    obtain ⟨hc', hr'⟩ := hf a _ hr
    refine ⟨isChain_append hc hc', ?_⟩
    simp only [getLastD_append]
    exact hr'

theorem handle {h : ε → Prog σ ε α} {E' : ε → σ → Prop} (hp : Triple R P p Q E)
    (hh : ∀ e, Triple R (E e) (h e) Q E') : Triple R P (Prog.handle p h) Q E' := fun s hs => by
  obtain ⟨hc, hr⟩ := hp s hs
  simp only [trace, result, final] at hc hr ⊢
  unfold Prog.handle
  rcases hps : p s with ⟨t, r⟩
  rw [hps] at hc hr
  cases r with
  | ok a => exact ⟨hc, hr⟩
  | error e =>
    obtain ⟨hc', hr'⟩ := hh e _ hr
    refine ⟨isChain_append hc hc', ?_⟩
    simp only [getLastD_append]
    exact hr'

theorem always {q : Prog σ ε Unit} (hp : Triple R P p Q E)
    (hq : ∀ a, Triple R (Q a) q (fun _ => Q' a) E')
    (hq' : ∀ e, Triple R (E e) q (fun _ => E' e) E') :
    Triple R P (Prog.always p q) Q' E' := fun s hs => by
  obtain ⟨hc, hr⟩ := hp s hs
  simp only [trace, result, final] at hc hr ⊢
  unfold Prog.always
  rcases hps : p s with ⟨t, r⟩
  rw [hps] at hc hr
  cases r with
  | ok a =>
    obtain ⟨hc', hr'⟩ := hq a _ hr
    simp only [trace, result, final] at hc' hr'
    dsimp only
    rcases hqs : q (t.getLastD s) with ⟨t', r'⟩
    rw [hqs] at hc' hr'
    cases r' <;> exact ⟨isChain_append hc hc', by simpa only [getLastD_append] using hr'⟩
  | error e =>
    obtain ⟨hc', hr'⟩ := hq' e _ hr
    simp only [trace, result, final] at hc' hr'
    dsimp only
    rcases hqs : q (t.getLastD s) with ⟨t', r'⟩
    rw [hqs] at hc' hr'
    cases r' <;> exact ⟨isChain_append hc hc', by simpa only [getLastD_append] using hr'⟩

theorem onFst {τ : Type*} {R : σ × τ → σ × τ → Prop} {P : σ × τ → Prop} {Q : α → σ × τ → Prop}
    {E : ε → σ × τ → Prop}
    (h : ∀ t, Triple (fun s s' => R (s, t) (s', t)) (fun s => P (s, t)) p
      (fun a s => Q a (s, t)) (fun e s => E e (s, t))) :
    Triple R P (Prog.onFst p) Q E := fun ⟨s, t⟩ hs => by
  obtain ⟨hc, hr⟩ := h t s hs
  have hlast : ∀ (l : List σ) (s : σ), (l.map (·, t)).getLastD (s, t) = (l.getLastD s, t) := by
    intro l
    induction l with
    | nil => exact fun _ => rfl
    | cons a l ih =>
      exact fun s => by rw [List.map_cons, List.getLastD_cons, List.getLastD_cons, ih]
  refine ⟨?_, ?_⟩
  · change List.IsChain R ((s, t) :: (p s).1.map (·, t))
    rw [show (s, t) :: (p s).1.map (·, t) = (s :: (p s).1).map (·, t) from rfl, List.isChain_map]
    exact hc
  · simp only [trace, result, final, Prog.onFst, hlast] at hr ⊢
    exact hr

/-- A program that meets two specifications. -/
theorem and {R' : σ → σ → Prop} (h : Triple R P p Q E) (h' : Triple R' P' p Q' E') :
    Triple R (fun s => P s ∧ P' s) p (fun a s => Q a s ∧ Q' a s) (fun e s => E e s ∧ E' e s) :=
  fun s hs => by
    obtain ⟨hc, hr⟩ := h s hs.1
    obtain ⟨-, hr'⟩ := h' s hs.2
    refine ⟨hc, ?_⟩
    cases hp : p.result s with
    | ok a =>
      rw [hp] at hr hr'
      exact ⟨hr, hr'⟩
    | error e =>
      rw [hp] at hr hr'
      exact ⟨hr, hr'⟩

/-- The invariant of a loop, given what is left to run. -/
theorem loop {body : β → α → Prog σ ε β} {I : List α → β → σ → Prop} {E : ε → σ → Prop}
    (hbody : ∀ b a l, Triple R (I (a :: l) b) (body b a) (I l) E) :
    ∀ (l : List α) (b : β), Triple R (I l b) (Prog.loop body b l) (I []) E
  | [], _ => Triple.pure fun _ h => h
  | a :: l, b => Triple.bind (hbody b a l) fun b' => loop hbody l b'

/-- The invariant of a loop over consecutive numbers, given the next one. -/
theorem loop_range' {β : Type} {body : β → ℕ → Prog σ ε β} {I : ℕ → β → σ → Prop}
    {E : ε → σ → Prop}
    (hbody : ∀ b k, Triple R (I k b) (body b k) (I (k + 1)) E) :
    ∀ (n k : ℕ) (b : β), Triple R (I k b) (Prog.loop body b (List.range' k n)) (I (k + n)) E
  | 0, _, _ => Triple.pure fun _ h => h
  | n + 1, k, b => by
    rw [List.range'_succ, Nat.add_comm n 1, ← Nat.add_assoc]
    exact Triple.bind (hbody b k) fun b' => loop_range' hbody n (k + 1) b'

/-- What the guarantee says of the state after an operation holds after each. -/
theorem of_mem_trace {I : σ → Prop} (h : Triple R P p Q E) (hI : ∀ s s', R s s' → I s') {s : σ}
    (hs : P s) : ∀ s' ∈ p.trace s, I s' := by
  have hc := (h s hs).1
  generalize p.trace s = l at hc
  clear hs
  induction l generalizing s with
  | nil => simp
  | cons t l ih =>
    rw [List.isChain_cons_cons] at hc
    intro s' hs'
    rcases List.mem_cons.1 hs' with rfl | hs'
    · exact hI s s' hc.1
    · exact ih hc.2 s' hs'

/-- What the guarantee says of the state after an operation holds in the end. -/
theorem of_final {I : σ → Prop} (h : Triple R P p Q E) (hI : ∀ s s', R s s' → I s') {s : σ}
    (hs : P s) (hIs : I s) : I (p.final s) := by
  rw [Prog.final]
  rcases hl : p.trace s with _ | ⟨t, l⟩
  · exact hIs
  · refine h.of_mem_trace hI hs _ ?_
    rw [hl, List.getLastD_cons]
    exact List.getLastD_mem_cons

/-- What holds whether a program raises or not. -/
theorem final {I : σ → Prop} (h : Triple R P p (fun _ => I) (fun _ => I)) {s : σ} (hs : P s) :
    I (p.final s) := by
  obtain ⟨-, hr⟩ := h s hs
  cases hp : p.result s with
  | ok a => rwa [hp] at hr
  | error e => rwa [hp] at hr

end Triple

end Crash
