import Hyperforge.Library.Crash
import Mathlib.Data.List.Infix

/-!
# Programs that follow a list of events

An abstraction of a program that may crash: a list of *events*, fixed in
advance, each a step of an abstract state. A run of the program *performs* the
events in order, one operation at most performing one of them, and it may stop
after any operation. What holds after every prefix of the events therefore
holds of every state of every run (`Journal.Performs.of_mem_trace`), and what
holds of every step holds of every operation (`Journal.Performs.isChain`).

`Journal.Performs` has the rules of a program logic; what holds along the
events (`Journal.Along`) is proved without programs.
-/

namespace Crash

universe v

/-- Events on an abstract state in `τ`, shown by the states in `σ`. -/
structure Journal (E τ σ : Type*) where
  step : τ → E → τ → Prop
  shows : τ → σ → Prop
  start : τ
  events : List E

namespace Journal

variable {E τ σ ε : Type*} {α β : Type v} (J : Journal E τ σ)

/-- Some events lead from a state to another. -/
def Runs : τ → List E → τ → Prop
  | s, [], t => s = t
  | s, e :: es, u => ∃ t, J.step s e t ∧ Runs t es u

/-- The states after a prefix of the events. -/
def Reached (pre : List E) (s : τ) : Prop := pre <+: J.events ∧ J.Runs J.start pre s

/-- The guarantee of a program: an operation performs the next event, or none. -/
def Follows (w w' : σ) : Prop :=
  ∃ pre s, J.Reached pre s ∧ J.shows s w ∧
    (J.shows s w' ∨ ∃ e t, J.Reached (pre ++ [e]) t ∧ J.step s e t ∧ J.shows t w')

/-- From the state `s`, a program that returns has performed `es`, and its value is in `Q`. -/
def Performs (s : τ) (p : Prog σ ε α) (es : List E) (Q : α → Prop) : Prop :=
  ∀ pre, pre ++ es <+: J.events → J.Runs J.start pre s →
    Triple J.Follows (J.shows s) p (fun a w => Q a ∧ ∃ t, J.Runs s es t ∧ J.shows t w)
      (fun _ _ => True)

/-- The steps along some events are in `Φ`. -/
def Along (Φ : τ → τ → Prop) : τ → List E → Prop
  | _, [] => True
  | s, e :: es => ∀ t, J.step s e t → Φ s t ∧ Along Φ t es

/-- The steps along some events are in `Φ`, and lead to `Q`. -/
def Leads (Φ : τ → τ → Prop) (Q : τ → Prop) : τ → List E → Prop
  | s, [] => Q s
  | s, e :: es => ∀ t, J.step s e t → Φ s t ∧ Leads Φ Q t es

variable {J} {s t : τ} {e : E} {es es' : List E}

theorem runs_append {u : τ} : J.Runs s (es ++ es') u ↔ ∃ t, J.Runs s es t ∧ J.Runs t es' u := by
  induction es generalizing s with
  | nil => simp [Runs]
  | cons e es ih =>
    simp only [List.cons_append, Runs, ih]
    constructor
    · rintro ⟨t, he, t', h, h'⟩
      exact ⟨t', ⟨t, he, h⟩, h'⟩
    · rintro ⟨t', ⟨t, he, h⟩, h'⟩
      exact ⟨t, he, t', h, h'⟩

theorem runs_singleton : J.Runs s [e] t ↔ J.step s e t := by
  simp [Runs]

/-! ## Loops -/

section Loops

variable {γ : Type*} (ev : ℕ → γ → List E) (next : ℕ → γ → γ)

/-- The events of `n` iterations from the `k`-th one, each known from a state in `γ`. -/
def loopEvents : ℕ → ℕ → γ → List E
  | 0, _, _ => []
  | n + 1, k, c => ev k c ++ loopEvents n (k + 1) (next k c)

/-- The state after `n` iterations from the `k`-th one. -/
def loopEnd : ℕ → ℕ → γ → γ
  | 0, _, c => c
  | n + 1, k, c => loopEnd n (k + 1) (next k c)

variable {ev next}

/-- The events of a loop are those of its iterations. -/
theorem mem_loopEvents {e : E} {n k : ℕ} {c : γ} (h : e ∈ loopEvents ev next n k c) :
    ∃ k c, e ∈ ev k c := by
  induction n generalizing k c with
  | zero => cases h
  | succ n ih =>
    rcases List.mem_append.1 h with h | h
    · exact ⟨k, c, h⟩
    · exact ih h

theorem loopEnd_succ (n k : ℕ) (c : γ) :
    loopEnd next (n + 1) k c = next (k + n) (loopEnd next n k c) := by
  induction n generalizing k c with
  | zero => rfl
  | succ n ih => rw [loopEnd, ih, loopEnd, Nat.succ_add_eq_add_succ]

end Loops

variable {γ : Type*} {ev : ℕ → γ → List E} {next : ℕ → γ → γ} {I : ℕ → γ → τ → Prop}

/-- What the events of each iteration preserve is preserved by the loop. -/
theorem runs_loopEvents
    (hI : ∀ k c s t, I k c s → J.Runs s (ev k c) t → I (k + 1) (next k c) t) :
    ∀ n k c s, I k c s → J.Runs s (loopEvents ev next n k c) t →
      I (k + n) (loopEnd next n k c) t
  | 0, _, _, _, hs, ht => by
    cases ht
    exact hs
  | n + 1, k, c, s, hs, ht => by
    obtain ⟨u, hu, ht⟩ := runs_append.1 ht
    rw [← Nat.succ_add_eq_add_succ]
    exact runs_loopEvents hI n (k + 1) (next k c) u (hI k c s u hs hu) ht

/-! ## Along the events -/

section Along

variable {Φ : τ → τ → Prop}

theorem Along.append (h : J.Along Φ s es) (h' : ∀ t, J.Runs s es t → J.Along Φ t es') :
    J.Along Φ s (es ++ es') := by
  induction es generalizing s with
  | nil => exact h' s rfl
  | cons e es ih => exact fun t ht => ⟨(h t ht).1, ih (h t ht).2 fun u hu => h' u ⟨t, ht, hu⟩⟩

theorem Along.mono {Ψ : τ → τ → Prop} (h : J.Along Φ s es) (hΦ : ∀ s t, Φ s t → Ψ s t) :
    J.Along Ψ s es := by
  induction es generalizing s with
  | nil => trivial
  | cons e es ih => exact fun t ht => ⟨hΦ _ _ (h t ht).1, ih (h t ht).2⟩

theorem Along.loop (h : ∀ k c s, I k c s → J.Along Φ s (ev k c))
    (hI : ∀ k c s t, I k c s → J.Runs s (ev k c) t → I (k + 1) (next k c) t) :
    ∀ n k c s, I k c s → J.Along Φ s (loopEvents ev next n k c)
  | 0, _, _, _, _ => trivial
  | n + 1, k, c, s, hs => (h k c s hs).append fun t ht =>
    Along.loop h hI n (k + 1) (next k c) t (hI k c s t hs ht)

section Leads

variable {Q Q' : τ → Prop}

theorem Leads.along (h : J.Leads Φ Q s es) : J.Along Φ s es := by
  induction es generalizing s with
  | nil => trivial
  | cons e es ih => exact fun t ht => ⟨(h t ht).1, ih (h t ht).2⟩

theorem Leads.runs (h : J.Leads Φ Q s es) (ht : J.Runs s es t) : Q t := by
  induction es generalizing s with
  | nil =>
    cases ht
    exact h
  | cons e es ih =>
    obtain ⟨u, hu, ht⟩ := ht
    exact ih (h u hu).2 ht

theorem Leads.append (h : J.Leads Φ Q s es) (h' : ∀ t, Q t → J.Leads Φ Q' t es') :
    J.Leads Φ Q' s (es ++ es') := by
  induction es generalizing s with
  | nil => exact h' s h
  | cons e es ih => exact fun t ht => ⟨(h t ht).1, ih (h t ht).2⟩

/-- The invariant of a loop. -/
theorem leads_loop {I : ℕ → γ → τ → Prop}
    (h : ∀ k c s, I k c s → J.Leads Φ (I (k + 1) (next k c)) s (ev k c)) (n k : ℕ) (c : γ) :
    I k c s → J.Leads Φ (I (k + n) (loopEnd next n k c)) s (loopEvents ev next n k c) := by
  induction n generalizing k c s with
  | zero => exact id
  | succ n ih =>
    intro hs
    rw [← Nat.succ_add_eq_add_succ]
    exact (h k c s hs).append fun t ht => ih (k + 1) (next k c) ht

end Leads

/-- The step of the event after a prefix. -/
theorem Along.step {pre : List E} (h : J.Along Φ s es) (hpre : pre ++ [e] <+: es)
    {t u : τ} (ht : J.Runs s pre t) (hu : J.step t e u) : Φ t u := by
  induction pre generalizing s es with
  | nil =>
    obtain ⟨l, rfl⟩ := hpre
    cases ht
    exact (h u hu).1
  | cons e' pre ih =>
    obtain ⟨l, rfl⟩ := hpre
    obtain ⟨s', hs', ht⟩ := ht
    exact ih (h s' hs').2 (by simp) ht

/-- An invariant of the steps holds after every prefix. -/
theorem Along.reached {I : τ → Prop} (h : J.Along (fun _ t => I t) J.start J.events)
    (h₀ : I J.start) {pre : List E} (ht : J.Reached pre t) : I t := by
  obtain ⟨hpre, ht⟩ := ht
  induction pre using List.reverseRecOn generalizing t with
  | nil =>
    cases ht
    exact h₀
  | append_singleton pre e _ =>
    obtain ⟨s, hs, hst⟩ := runs_append.1 ht
    exact h.step hpre hs (runs_singleton.1 hst)

end Along

/-! ## Programs -/

namespace Performs

variable {p : Prog σ ε α} {Q : α → Prop}

theorem conseq {Q' : α → Prop} (h : J.Performs s p es Q') (hQ : ∀ a, Q' a → Q a) :
    J.Performs s p es Q := fun pre hpre hs =>
  (h pre hpre hs).conseq (fun _ h => h) (fun _ _ h => ⟨hQ _ h.1, h.2⟩) (fun _ _ h => h)

theorem pure {a : α} (h : Q a) : J.Performs s (Pure.pure a : Prog σ ε α) [] Q := fun _ _ _ =>
  Triple.pure fun _ hw => ⟨h, s, rfl, hw⟩

theorem raise {e : ε} : J.Performs s (Prog.raise e : Prog σ ε α) es Q := fun _ _ _ =>
  Triple.raise fun _ _ => trivial

theorem read {f : σ → Except ε α} (h : ∀ w a, J.shows s w → f w = .ok a → Q a) :
    J.Performs s (Prog.read f) [] Q := fun _ _ _ =>
  Triple.read (fun w a hw ha => ⟨h w a hw ha, s, rfl, hw⟩) fun _ _ _ _ => trivial

theorem bind {f : α → Prog σ ε β} {Q' : β → Prop} (hp : J.Performs s p es Q)
    (hf : ∀ a t, Q a → J.Runs s es t → J.Performs t (f a) es' Q') :
    J.Performs s (p >>= f) (es ++ es') Q' := by
  intro pre hpre hs
  rw [← List.append_assoc] at hpre
  refine Triple.bind (hp pre ((List.prefix_append _ _).trans hpre) hs) fun a => ?_
  refine Triple.and_pre fun ha => Triple.exists_pre fun t => Triple.and_pre fun ht => ?_
  refine (hf a t ha ht (pre ++ es) hpre (runs_append.2 ⟨s, hs, ht⟩)).conseq (fun _ h => h)
    (fun b w h => ?_) (fun _ _ h => h)
  obtain ⟨hb, u, hu, hw⟩ := h
  exact ⟨hb, u, runs_append.2 ⟨t, ht, hu⟩, hw⟩

/-- Returning a function of the value. -/
theorem map {f : α → β} {Q' : β → Prop} (hp : J.Performs s p es Q) (hf : ∀ a, Q a → Q' (f a)) :
    J.Performs s (p >>= fun a => Pure.pure (f a)) es Q' := by
  rw [← List.append_nil es]
  exact hp.bind fun a _ ha _ => pure (hf a ha)

theorem loop_range' {β : Type} {body : β → ℕ → Prog σ ε β} {view : γ → β}
    (hbody : ∀ k c s, I k c s →
      J.Performs s (body (view c) k) (ev k c) (· = view (next k c)))
    (hI : ∀ k c s t, I k c s → J.Runs s (ev k c) t → I (k + 1) (next k c) t) :
    ∀ n k c s, I k c s → J.Performs s (Prog.loop body (view c) (List.range' k n))
      (loopEvents ev next n k c) (· = view (loopEnd next n k c))
  | 0, _, _, _, _ => pure rfl
  | n + 1, k, c, s, hs => by
    rw [List.range'_succ]
    refine bind (hbody k c s hs) fun b t hb ht => ?_
    cases hb
    exact loop_range' hbody hI n (k + 1) (next k c) t (hI k c s t hs ht)

/-! ## Runs of a whole program -/

variable {w : σ}

/-- After every operation, the state is one shown after a prefix of the events. -/
theorem of_mem_trace {I : τ → Prop} (h : J.Performs J.start p J.events Q)
    (hw : J.shows J.start w) (hI : ∀ pre s, J.Reached pre s → I s) :
    ∀ w' ∈ p.trace w, ∃ s, I s ∧ J.shows s w' := by
  refine (h [] (List.prefix_rfl) rfl).of_mem_trace ?_ hw
  rintro w₁ w₂ ⟨pre, s, hs, _, h | ⟨e, t, ht, _, h⟩⟩
  · exact ⟨s, hI pre s hs, h⟩
  · exact ⟨t, hI _ t ht, h⟩

/-- The state in which the program ends is shown after a prefix of the events. -/
theorem of_final {I : τ → Prop} (h : J.Performs J.start p J.events Q) (hw : J.shows J.start w)
    (hI : ∀ pre s, J.Reached pre s → I s) : ∃ s, I s ∧ J.shows s (p.final w) := by
  rcases List.eq_nil_or_concat (p.trace w) with ht | ⟨l, w', ht⟩
  · rw [Prog.final, ht]
    exact ⟨J.start, hI [] _ ⟨List.nil_prefix, rfl⟩, hw⟩
  · rw [Prog.final, ht, List.concat_eq_append, List.getLastD_concat]
    exact h.of_mem_trace hw hI w' (by simp [ht])

/-- A program that returns has performed all the events. -/
theorem result {a : α} (h : J.Performs J.start p J.events Q) (hw : J.shows J.start w)
    (ha : p.result w = .ok a) : Q a ∧ ∃ t, J.Reached J.events t ∧ J.shows t (p.final w) := by
  have hr := (h [] (List.prefix_rfl) rfl w hw).2
  rw [ha] at hr
  obtain ⟨hQ, t, ht, hw'⟩ := hr
  exact ⟨hQ, t, ⟨List.prefix_rfl, ht⟩, hw'⟩

/-- Each operation performs the next event or none. -/
theorem isChain (h : J.Performs J.start p J.events Q) (hw : J.shows J.start w) :
    List.IsChain J.Follows (w :: p.trace w) :=
  (h [] (List.prefix_rfl) rfl w hw).1

end Performs

end Journal

end Crash
