import Mathlib.Data.Nat.Notation
import Mathlib.Logic.Basic

/-!
# Programs that share a state

A program acts on a state that it shares with others, one atomic action at a time, and may
repeat a part of it (`Program`). An action may be one of several, told apart by a choice,
and waits where it cannot be taken.

What a program does between what others do is told by its contract: what it relies on them
to keep to, and guarantees in turn (`Contract`). `Ensures` is a rule of pre- and
postconditions for it, where every condition is one that the others keep (`Stable`).
-/

namespace Concurrent

/-- A program that shares a state `σ`, its actions taking choices `χ`. -/
inductive Program (σ χ : Type) : Type → Type 1
  | pure {α : Type} (a : α) : Program σ χ α
  | action {α β : Type} (act : σ → χ → Option (β × σ)) (k : β → Program σ χ α) : Program σ χ α
  | loop {α β : Type} (body : Program σ χ (Option β)) (k : β → Program σ χ α) : Program σ χ α

namespace Program

variable {σ χ α β γ : Type}

/-- One program after another. -/
def bind : Program σ χ α → (α → Program σ χ β) → Program σ χ β
  | pure a, f => f a
  | action act k, f => action act fun b => (k b).bind f
  | loop body k, f => loop body fun b => (k b).bind f

instance : Monad (Program σ χ) where
  pure := pure
  bind := bind

/-- The action, as a program. -/
def act (act : σ → χ → Option (β × σ)) : Program σ χ β := action act pure

/-- The body, repeated until it has a result. -/
def repeat_ (body : Program σ χ (Option β)) : Program σ χ β := loop body pure

/-- What comes after the body of a loop. -/
def again (body : Program σ χ (Option β)) (k : β → Program σ χ α) :
    Option β → Program σ χ α
  | none => loop body k
  | some b => k b

/-- A step of a program. -/
def step (s : σ) (c : χ) : Program σ χ α → Option (σ × Program σ χ α)
  | pure _ => none
  | action act k => (act s c).map fun r => (r.2, k r.1)
  | loop body k => some (s, body.bind (again body k))

theorem bind_assoc (p : Program σ χ α) (f : α → Program σ χ β) (g : β → Program σ χ γ) :
    (p.bind f).bind g = p.bind fun a => (f a).bind g := by
  induction p with
  | pure a => rfl
  | action act k ih =>
    rw [bind, bind, bind]
    congr 1
    funext b
    exact ih b f
  | loop body k _ ih =>
    rw [bind, bind, bind]
    congr 1
    funext b
    exact ih b f

theorem again_bind (body : Program σ χ (Option γ)) (k : γ → Program σ χ α)
    (f : α → Program σ χ β) (o : Option γ) :
    (again body k o).bind f = again body (fun b => (k b).bind f) o := by
  cases o <;> rfl

/-- The steps of a program followed by another are its own, until it is done. -/
theorem step_bind {s s' : σ} {c : χ} {p : Program σ χ α} {f : α → Program σ χ β}
    {q : Program σ χ β} (h : (p.bind f).step s c = some (s', q)) :
    (∃ a, p = pure a ∧ (f a).step s c = some (s', q)) ∨
      ∃ p', p.step s c = some (s', p') ∧ q = p'.bind f := by
  cases p with
  | pure a => exact .inl ⟨a, rfl, h⟩
  | action act k =>
    rw [bind, step, Option.map_eq_some_iff] at h
    obtain ⟨r, hr, h⟩ := h
    cases h
    exact .inr ⟨k r.1, by rw [step, hr]; rfl, rfl⟩
  | loop body k =>
    rw [bind, step] at h
    cases h
    refine .inr ⟨_, rfl, ?_⟩
    rw [bind_assoc]
    congr 1
    funext o
    exact (again_bind body k f o).symm

end Program

/-- What a program relies on others to keep to, and guarantees. -/
structure Contract (σ : Type) where
  rely : σ → σ → Prop
  guar : σ → σ → Prop
  refl : ∀ s, rely s s
  trans : ∀ {s t u}, rely s t → rely t u → rely s u

section Rules

variable {σ χ α β : Type} (inv : σ → Prop) (C : Contract σ)

/-- A condition that holds still after what others do. -/
def Stable (pre : σ → Prop) : Prop := ∀ s t, pre s → C.rely s t → pre t

/-- For so many steps from the state, the program keeps the invariant and its guarantee, and
    the postcondition holds when it is done, if the others keep to what it relies on. -/
def Safe : ℕ → σ → Program σ χ α → (α → σ → Prop) → Prop
  | 0, _, _, _ => True
  | n + 1, s, p, post => ∀ s₁, C.rely s s₁ → inv s₁ →
    (∀ a, p = .pure a → post a s₁) ∧
      ∀ c s₂ p₂, p.step s₁ c = some (s₂, p₂) → C.guar s₁ s₂ ∧ inv s₂ ∧ Safe n s₂ p₂ post

/-- From a state where the precondition holds, the program keeps its contract, and the
    postcondition holds when it is done. -/
def Ensures (pre : σ → Prop) (p : Program σ χ α) (post : α → σ → Prop) : Prop :=
  ∀ n s, pre s → Safe inv C n s p post

variable {inv C} {pre pre' : σ → Prop} {p : Program σ χ α} {post post' : α → σ → Prop}
  {n : ℕ} {s t : σ}

theorem stable_const (p : Prop) : Stable C fun _ => p := fun _ _ h _ => h

theorem Stable.and (hpre : Stable C pre) (hpre' : Stable C pre') :
    Stable C fun s => pre s ∧ pre' s :=
  fun s t h hrely => ⟨hpre s t h.1 hrely, hpre' s t h.2 hrely⟩

theorem Stable.imp {p : Prop} (hpre : p → Stable C pre) : Stable C fun s => p → pre s :=
  fun s t h hrely hp => hpre hp s t (h hp) hrely

/-- What others do does not make a program unsafe. -/
theorem Safe.rely (h : Safe inv C n s p post) (hst : C.rely s t) : Safe inv C n t p post := by
  cases n with
  | zero => trivial
  | succ n => exact fun u htu => h u (C.trans hst htu)

theorem Safe.imp (h : Safe inv C n s p post) (hpost : ∀ a s, inv s → post a s → post' a s) :
    Safe inv C n s p post' := by
  induction n generalizing s p with
  | zero => trivial
  | succ n ih =>
    intro s₁ hrely hinv
    obtain ⟨hdone, hstep⟩ := h s₁ hrely hinv
    refine ⟨fun a ha => hpost a s₁ hinv (hdone a ha), fun c s₂ p₂ hp => ?_⟩
    obtain ⟨hguar, hinv', hsafe⟩ := hstep c s₂ p₂ hp
    exact ⟨hguar, hinv', ih hsafe⟩

theorem Ensures.imp (h : Ensures inv C pre p post) (hpre : ∀ s, pre' s → pre s)
    (hpost : ∀ a s, inv s → post a s → post' a s) : Ensures inv C pre' p post' :=
  fun n s hs => (h n s (hpre s hs)).imp hpost

theorem Ensures.strengthen (h : Ensures inv C pre p post) (hpre : ∀ s, pre' s → pre s) :
    Ensures inv C pre' p post := h.imp hpre fun _ _ _ h => h

theorem ensures_pure {a : α} (hpre : Stable C pre) (h : ∀ s, inv s → pre s → post a s) :
    Ensures inv C pre (.pure a : Program σ χ α) post := by
  intro n s hs
  cases n with
  | zero => trivial
  | succ n =>
    refine fun s₁ hrely hinv => ⟨?_, fun c s₂ p₂ hp => by cases hp⟩
    rintro _ ⟨rfl⟩
    exact h s₁ hinv (hpre s s₁ hs hrely)

/-- An action keeps the guarantee and establishes what the rest of the program needs. -/
theorem ensures_action {act : σ → χ → Option (β × σ)} {k : β → Program σ χ α}
    {mid : β → σ → Prop} (hpre : Stable C pre)
    (hact : ∀ s c b s', inv s → pre s → act s c = some (b, s') →
      C.guar s s' ∧ inv s' ∧ mid b s')
    (hk : ∀ b, Ensures inv C (mid b) (k b) post) :
    Ensures inv C pre (.action act k) post := by
  intro n s hs
  cases n with
  | zero => trivial
  | succ n =>
    refine fun s₁ hrely hinv => ⟨nofun, fun c s₂ p₂ hp => ?_⟩
    rw [Program.step, Option.map_eq_some_iff] at hp
    obtain ⟨⟨b, s'⟩, hb, hp⟩ := hp
    cases hp
    obtain ⟨hguar, hinv', hmid⟩ := hact s₁ c b _ hinv (hpre s s₁ hs hrely) hb
    exact ⟨hguar, hinv', hk b n _ hmid⟩

theorem ensures_act {act : σ → χ → Option (α × σ)} (hpre : Stable C pre)
    (hpost : ∀ a, Stable C (post a))
    (hact : ∀ s c b s', inv s → pre s → act s c = some (b, s') →
      C.guar s s' ∧ inv s' ∧ post b s') :
    Ensures inv C pre (.act act) post :=
  ensures_action hpre hact fun b => ensures_pure (hpost b) fun _ _ h => h

theorem Safe.le {m : ℕ} (h : Safe inv C n s p post) (hm : m ≤ n) : Safe inv C m s p post := by
  induction n generalizing m s p with
  | zero =>
    rw [Nat.le_zero.1 hm]
    trivial
  | succ n ih =>
    cases m with
    | zero => trivial
    | succ m =>
      intro s₁ hrely hinv
      obtain ⟨hdone, hstep⟩ := h s₁ hrely hinv
      refine ⟨hdone, fun c s₂ p₂ hp => ?_⟩
      obtain ⟨hguar, hinv', hsafe⟩ := hstep c s₂ p₂ hp
      exact ⟨hguar, hinv', ih hsafe (Nat.le_of_succ_le_succ hm)⟩

theorem safe_bind {f : α → Program σ χ β} {post' : β → σ → Prop} (h : Safe inv C n s p post)
    (hf : ∀ a, ∀ m ≤ n, ∀ s, post a s → Safe inv C m s (f a) post') :
    Safe inv C n s (p.bind f) post' := by
  induction n generalizing s p with
  | zero => trivial
  | succ n ih =>
    intro s₁ hrely hinv
    obtain ⟨hdone, hstep⟩ := h s₁ hrely hinv
    refine ⟨fun b hb => ?_, fun c s₂ q hq => ?_⟩
    · cases p with
      | pure a => exact (hf a _ (Nat.le_refl _) s₁ (hdone a rfl) s₁ (C.refl s₁) hinv).1 b hb
      | action act k => cases hb
      | loop body k => cases hb
    · rcases Program.step_bind hq with ⟨a, rfl, hq⟩ | ⟨p', hp', rfl⟩
      · exact (hf a _ (Nat.le_refl _) s₁ (hdone a rfl) s₁ (C.refl s₁) hinv).2 c s₂ q hq
      · obtain ⟨hguar, hinv', hsafe⟩ := hstep c s₂ p' hp'
        exact ⟨hguar, hinv', ih hsafe fun a m hm => hf a m (Nat.le_succ_of_le hm)⟩

/-- One program after another. -/
theorem ensures_bind {f : α → Program σ χ β} {Q : α → σ → Prop} {post : β → σ → Prop}
    (h : Ensures inv C pre p Q) (hf : ∀ a, Ensures inv C (Q a) (f a) post) :
    Ensures inv C pre (p >>= f) post :=
  fun n s hs => safe_bind (h n s hs) fun a m _ => hf a m

/-- A loop, whose body establishes the precondition again if it has no result. -/
theorem ensures_loop {body : Program σ χ (Option β)} {k : β → Program σ χ α}
    {Q : β → σ → Prop} (hpre : Stable C pre) (hrefl : ∀ s, inv s → C.guar s s)
    (hbody : Ensures inv C pre body fun o s => match o with
      | none => pre s
      | some b => Q b s)
    (hk : ∀ b, Ensures inv C (Q b) (k b) post) :
    Ensures inv C pre (.loop body k) post := by
  intro n
  induction n with
  | zero => exact fun _ _ => trivial
  | succ n ih =>
    intro s hs s₁ hrely hinv
    refine ⟨nofun, fun c s₂ p₂ hp => ?_⟩
    rw [Program.step] at hp
    cases hp
    -- the loop that may come after the body takes fewer steps
    refine ⟨hrefl s₁ hinv, hinv, safe_bind (hbody n s₁ (hpre s s₁ hs hrely)) fun o m hm t ht => ?_⟩
    cases o with
    | none => exact (ih t ht).le hm
    | some b => exact hk b m t ht

end Rules

end Concurrent
