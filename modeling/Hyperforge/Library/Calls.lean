import Mathlib.Data.List.Infix

/-!
# Programs that call on others

What a program does not compute itself, it calls on others for (`Program`): a call is answered, or
it fails with an exception. Nothing is known of the answers, which may depend on all that others do
in between.

A run is told by the calls and their answers so far (`Exchange`), after which the program makes one
more call (`Program.Makes`) or ends (`Program.Ends`).

`Keeps` is a rule of pre- and postconditions for programs: after some exchanges, all calls that are
made are allowed by what has been exchanged before them, and so is the value that is returned
(`Keeps.makes`, `Keeps.ends`).
-/

namespace Calling

/-- A program that makes calls `c : C`, each answered in `A c`, or failing in `ε`. -/
inductive Program (C : Type) (A : C → Type) (ε α : Type) : Type
  | pure (a : α) : Program C A ε α
  | raise (e : ε) : Program C A ε α
  | call (c : C) (k : Except ε (A c) → Program C A ε α) : Program C A ε α

/-- A call and its answer. -/
abbrev Exchange (C : Type) (A : C → Type) (ε : Type) := (c : C) × Except ε (A c)

variable {C : Type} {A : C → Type} {ε α β : Type}

namespace Program

def bind : Program C A ε α → (α → Program C A ε β) → Program C A ε β
  | pure a, f => f a
  | raise e, _ => raise e
  | call c k, f => call c fun r => (k r).bind f

instance : Monad (Program C A ε) where
  pure := pure
  bind := bind

/-- Calls, and raises an exception if the call fails. -/
def ask (c : C) : Program C A ε (A c) := call c fun
  | .ok a => pure a
  | .error e => raise e

/-- What has been computed, or the exception. -/
def ofExcept : Except ε α → Program C A ε α
  | .ok a => pure a
  | .error e => raise e

/-- Goes on with `h` after an exception. -/
def handle : Program C A ε α → (ε → Program C A ε α) → Program C A ε α
  | pure a, _ => pure a
  | raise e, h => h e
  | call c k, h => call c fun r => (k r).handle h

/-- After the exchanges, the program makes the call. -/
inductive Makes : Program C A ε α → List (Exchange C A ε) → C → Prop
  | here {c : C} {k : Except ε (A c) → Program C A ε α} : Makes (call c k) [] c
  | later {c c' : C} {k : Except ε (A c) → Program C A ε α} {r : Except ε (A c)}
      {es : List (Exchange C A ε)} (h : Makes (k r) es c') : Makes (call c k) (⟨c, r⟩ :: es) c'

/-- After the exchanges, the program is done. -/
inductive Ends : Program C A ε α → List (Exchange C A ε) → Except ε α → Prop
  | pure {a : α} : Ends (pure a) [] (.ok a)
  | raise {e : ε} : Ends (raise e) [] (.error e)
  | call {c : C} {k : Except ε (A c) → Program C A ε α} {r : Except ε (A c)}
      {es : List (Exchange C A ε)} {x : Except ε α} (h : Ends (k r) es x) :
      Ends (call c k) (⟨c, r⟩ :: es) x

theorem exists_makes_answered {p : Program C A ε α} {c c' : C}
    {k : Except ε (A c) → Program C A ε α} (hp : p = call c k) (a : A c)
    (h : ∃ es, (k (.ok a)).Makes es c') : ∃ es, p.Makes es c' := by
  obtain ⟨es, h⟩ := h
  rw [hp]
  exact ⟨_, .later h⟩

end Program

open Program

/-- After the exchanges `past`, every call of the program is allowed, and a value that it returns is
    in `Q`. -/
def Keeps (allowed : List (Exchange C A ε) → C → Prop) (Q : List (Exchange C A ε) → α → Prop) :
    List (Exchange C A ε) → Program C A ε α → Prop
  | past, .pure a => Q past a
  | _, .raise _ => True
  | past, .call c k => allowed past c ∧ ∀ r, Keeps allowed Q (past ++ [⟨c, r⟩]) (k r)

variable {allowed allowed' : List (Exchange C A ε) → C → Prop} {past es : List (Exchange C A ε)}
  {p : Program C A ε α} {Q Q' : List (Exchange C A ε) → α → Prop}

namespace Keeps

theorem makes (h : Keeps allowed Q past p) {c : C} (hc : p.Makes es c) :
    allowed (past ++ es) c := by
  induction hc generalizing past with
  | here => simpa using h.1
  | later _ ih =>
    rw [List.append_cons]
    exact ih (h.2 _)

theorem ends (h : Keeps allowed Q past p) {a : α} (ha : p.Ends es (.ok a)) : Q (past ++ es) a := by
  generalize hx : Except.ok a = x at ha
  induction ha generalizing past with
  | pure =>
    cases hx
    rw [List.append_nil]
    exact h
  | raise => cases hx
  | call _ ih =>
    rw [List.append_cons]
    exact ih (h.2 _) hx

/-- The exchanges so far are known to the rest of the program. -/
theorem imp (h : Keeps allowed Q past p)
    (hc : ∀ past' c, past <+: past' → allowed past' c → allowed' past' c)
    (hQ : ∀ past' a, past <+: past' → Q past' a → Q' past' a) : Keeps allowed' Q' past p := by
  induction p generalizing past with
  | pure a => exact hQ past a (List.prefix_refl past) h
  | raise e => trivial
  | call c k ih =>
    have hpast r : past <+: past ++ [⟨c, r⟩] := List.prefix_append past _
    exact ⟨hc past c (List.prefix_refl past) h.1, fun r => ih r (h.2 r)
      (fun _ _ hle => hc _ _ ((hpast r).trans hle)) fun _ _ hle => hQ _ _ ((hpast r).trans hle)⟩

theorem conseq (h : Keeps allowed Q past p)
    (hQ : ∀ past' a, past <+: past' → Q past' a → Q' past' a) :
    Keeps allowed Q' past p := h.imp (fun _ _ _ hc => hc) hQ

theorem bind {f : α → Program C A ε β} {Q' : List (Exchange C A ε) → β → Prop}
    (h : Keeps allowed Q past p)
    (hf : ∀ past' a, past <+: past' → Q past' a → Keeps allowed Q' past' (f a)) :
    Keeps allowed Q' past (p >>= f) := by
  induction p generalizing past with
  | pure a => exact hf past a (List.prefix_refl past) h
  | raise e => trivial
  | call c k ih =>
    exact ⟨h.1, fun r => ih r (h.2 r) fun _ _ hle =>
      hf _ _ ((List.prefix_append past _).trans hle)⟩

theorem handle {f : ε → Program C A ε α} (h : Keeps allowed Q past p)
    (hf : ∀ past' e, past <+: past' → Keeps allowed Q past' (f e)) :
    Keeps allowed Q past (p.handle f) := by
  induction p generalizing past with
  | pure a => exact h
  | raise e => exact hf past e (List.prefix_refl past)
  | call c k ih =>
    exact ⟨h.1, fun r => ih r (h.2 r) fun _ _ hle =>
      hf _ _ ((List.prefix_append past _).trans hle)⟩

theorem pure {a : α} (h : Q past a) : Keeps allowed Q past (Pure.pure a : Program C A ε α) := h

theorem ask {c : C} (hc : allowed past c) :
    Keeps allowed (fun past' a => past' = past ++ [⟨c, .ok a⟩]) past (Program.ask c) := by
  refine ⟨hc, fun r => ?_⟩
  cases r with
  | ok a => rfl
  | error e => trivial

theorem ofExcept {x : Except ε α} :
    Keeps allowed (fun _ a => x = .ok a) past (Program.ofExcept x) := by
  cases x with
  | ok a => rfl
  | error e => trivial

/-- The invariant of a loop over a list, of which the items `done` have been seen. -/
theorem foldlM {f : β → α → Program C A ε β} {I : List (Exchange C A ε) → β → Prop} {xs : List α}
    {b : β} (h : I past b)
    (hf : ∀ past' b, past <+: past' → I past' b → ∀ x ∈ xs, Keeps allowed I past' (f b x)) :
    Keeps allowed I past (xs.foldlM f b) := by
  induction xs generalizing past b with
  | nil => exact h
  | cons x xs ih =>
    rw [List.foldlM_cons]
    refine (hf past b (List.prefix_refl past) h x List.mem_cons_self).bind fun past' b' hle hb => ?_
    exact ih hb fun past'' b'' hle' hI y hy =>
      hf past'' b'' (hle.trans hle') hI y (List.mem_cons_of_mem x hy)

end Keeps

end Calling
