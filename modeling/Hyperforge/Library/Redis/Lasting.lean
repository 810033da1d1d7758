import Hyperforge.Library.Json.Dict
import Mathlib.Data.List.Sort
import Mathlib.Logic.Function.Basic

/-!
# Keys of Redis that last

The keys of a Redis server that have no deadline, with strings or sorted sets as their values
(`Keys`), and the commands that read and change them (`Command`). A command on a value of the wrong
type fails and changes nothing. All the commands of a pipeline are executed, also after one that
has failed.

What each command does is told by a rule for values of its type (`get_eq`, `zadd_eq`, ...). What
is done with commands on some keys neither reads nor changes others (`About`).
-/

namespace Redis.Lasting

open Json (assign pop nodup_assign keys_assign)

/-- The members of a sorted set, with their scores. -/
structure SortedSet (μ σ : Type) where
  scores : List (μ × σ)
  nodup : (scores.map Prod.fst).Nodup
  nonempty : scores ≠ []

inductive Value (τ μ σ : Type)
  | string (s : τ)
  | sorted (z : SortedSet μ σ)

abbrev Keys (κ τ μ σ : Type) := κ → Option (Value τ μ σ)

inductive Error (ε : Type)
  | wrongType
  | raised (e : ε)
  deriving DecidableEq

/-- Commands, and what is done with their replies: the keys stay as they are left by a failure. -/
abbrev Command (κ τ μ σ ε : Type) := ExceptT (Error ε) (StateM (Keys κ τ μ σ))

variable {κ τ μ σ ε α β : Type}

/-- Members are in the set with these scores; a set without members is no key. -/
def SortedSet.ofScores (scores : List (μ × σ)) (h : (scores.map Prod.fst).Nodup) :
    Option (Value τ μ σ) :=
  if hne : scores = [] then none else some (.sorted ⟨scores, h, hne⟩)

section Commands

variable [DecidableEq κ] (k : κ)

/-- A command, given its reply, if the value has the right type, and the new value. -/
def command (f : Option (Value τ μ σ) → Option (α × Option (Value τ μ σ))) :
    Command κ τ μ σ ε α := fun S =>
  match f (S k) with
  | some (reply, value) => (.ok reply, Function.update S k value)
  | none => (.error .wrongType, S)

/-- `GET` -/
def get : Command κ τ μ σ ε (Option τ) := command k fun
  | none => some (none, none)
  | some (.string s) => some (some s, some (.string s))
  | some (.sorted _) => none

/-- `SET` -/
def set (s : τ) : Command κ τ μ σ ε Unit := command k fun _ => some ((), some (.string s))

/-- `DEL` -/
def del : Command κ τ μ σ ε Unit := command k fun _ => some ((), none)

/-- `ZADD` -/
def zadd [DecidableEq μ] (m : μ) (score : σ) : Command κ τ μ σ ε Unit := command k fun
  | none => some ((), SortedSet.ofScores [(m, score)] (List.nodup_singleton m))
  | some (.string _) => none
  | some (.sorted z) =>
    some ((), SortedSet.ofScores (assign m score z.scores) (nodup_assign z.nodup m score))

/-- The scores without those of some members. -/
def without [DecidableEq μ] (ms : List μ) (scores : List (μ × σ)) : List (μ × σ) :=
  scores.filter (·.1 ∉ ms)

theorem nodup_without [DecidableEq μ] {scores : List (μ × σ)} (h : (scores.map Prod.fst).Nodup)
    (ms : List μ) : ((without ms scores).map Prod.fst).Nodup :=
  h.sublist (List.filter_sublist.map _)

/-- `ZREM` -/
def zrem [DecidableEq μ] (ms : List μ) : Command κ τ μ σ ε Unit := command k fun
  | none => some ((), none)
  | some (.string _) => none
  | some (.sorted z) => some ((), SortedSet.ofScores (without ms z.scores)
    (nodup_without z.nodup ms))

/-- The order from the highest score, and the last member of one score. -/
def later [LinearOrder μ] [LinearOrder σ] (x y : μ × σ) : Bool :=
  y.2 < x.2 ∨ x.2 = y.2 ∧ y.1 ≤ x.1

/-- `ZREVRANGE` from the first to the last. -/
def zrevrange [LinearOrder μ] [LinearOrder σ] : Command κ τ μ σ ε (List μ) := command k fun
  | none => some ([], none)
  | some (.string _) => none
  | some (.sorted z) => some ((z.scores.mergeSort later).map Prod.fst, some (.sorted z))

end Commands

section Order

variable [LinearOrder μ] [LinearOrder σ] {x y z : μ × σ}

theorem later_iff : later x y ↔ y.2 < x.2 ∨ x.2 = y.2 ∧ y.1 ≤ x.1 := decide_eq_true_iff

theorem later_total (x y : μ × σ) : (later x y || later y x) = true := by
  rw [Bool.or_eq_true, later_iff, later_iff]
  rcases lt_trichotomy x.2 y.2 with h | h | h
  · exact .inr (.inl h)
  · exact (le_total y.1 x.1).imp (fun hle => .inr ⟨h, hle⟩) fun hle => .inr ⟨h.symm, hle⟩
  · exact .inl (.inl h)

theorem later_trans (hxy : later x y) (hyz : later y z) : later x z := by
  rw [later_iff] at hxy hyz ⊢
  rcases hxy with hxy | ⟨hxy, hle⟩
  · exact .inl ((hyz.elim le_of_lt fun h => h.1.ge).trans_lt hxy)
  · rcases hyz with hyz | ⟨hyz, hle'⟩
    · exact .inl (hxy ▸ hyz)
    · exact .inr ⟨hxy.trans hyz, hle'.trans hle⟩

theorem later_antisymm (hxy : later x y) (hyx : later y x) : x = y := by
  rw [later_iff] at hxy hyx
  rcases hxy with hxy | ⟨hxy, hle⟩
  · exact absurd hxy (hyx.elim lt_asymm fun h => h.1.symm.not_gt)
  · rcases hyx with hyx | ⟨-, hle'⟩
    · exact absurd hyx hxy.not_lt
    · exact Prod.ext (le_antisymm hle' hle) hxy

/-- Members that are removed leave the others in their order. -/
theorem mergeSort_without [DecidableEq μ] (ms : List μ) (scores : List (μ × σ)) :
    (without ms scores).mergeSort later = without ms (scores.mergeSort later) := by
  have hsorted (l : List (μ × σ)) : (l.mergeSort later).Pairwise fun x y => later x y := by
    refine List.pairwise_mergeSort ?_ ?_ l
    · exact fun _ _ _ => later_trans
    · exact later_total
  refine List.Perm.eq_of_pairwise (fun _ _ _ _ => later_antisymm) (hsorted _)
    ((hsorted scores).filter _) ?_
  exact (List.mergeSort_perm _ _).trans ((List.mergeSort_perm scores later).filter _).symm

end Order

/-- All commands are executed, and then an error raised, if there is one. -/
def pipeline : List (Command κ τ μ σ ε α) → Command κ τ μ σ ε (List α)
  | [] => pure []
  | c :: cs => fun S =>
    match c S with
    | (.ok reply, S') => ((reply :: ·) <$> pipeline cs) S'
    | (.error e, S') => (.error e, (pipeline cs S').2)

/-! ## The rules -/

section Rules

variable {S S' S'' : Keys κ τ μ σ} {k : κ} {scores : List (μ × σ)}
  {h : (scores.map Prod.fst).Nodup} {c : Command κ τ μ σ ε α}

theorem bind_eq {a : α} (hc : c S = (.ok a, S')) (f : α → Command κ τ μ σ ε β) :
    (c >>= f) S = f a S' := by
  simp only [bind, ExceptT.bind, ExceptT.mk, StateT.bind, hc, ExceptT.bindCont]

theorem map_eq {r : Except (Error ε) α} (hc : c S = (r, S')) (f : α → β) :
    (f <$> c) S = (r.map f, S') := by
  rcases r with e | a <;>
    simp only [Functor.map, ExceptT.map, ExceptT.mk, bind, StateT.bind, hc] <;> rfl

theorem pipeline_cons {a : α} {as : List α} {cs : List (Command κ τ μ σ ε α)}
    (hc : c S = (.ok a, S')) (hcs : pipeline cs S' = (.ok as, S'')) :
    pipeline (c :: cs) S = (.ok (a :: as), S'') := by
  change (match c S with
    | (.ok reply, S') => ((reply :: ·) <$> pipeline cs) S'
    | (.error e, S') => (.error e, (pipeline cs S').2)) = _
  rw [hc]
  exact map_eq hcs _

/-- Commands that succeed and change nothing do so together. -/
theorem pipeline_map {γ : Type} {c : γ → Command κ τ μ σ ε α} {f : γ → α} {xs : List γ}
    (hx : ∀ x ∈ xs, c x S = (.ok (f x), S)) : pipeline (xs.map c) S = (.ok (xs.map f), S) := by
  induction xs with
  | nil => rfl
  | cons x xs ih =>
    rw [List.forall_mem_cons] at hx
    exact pipeline_cons hx.1 (ih hx.2)

theorem ofScores_congr {l l' : List (μ × σ)} (hl : l = l') (h : (l.map Prod.fst).Nodup)
    (h' : (l'.map Prod.fst).Nodup) :
    (SortedSet.ofScores l h : Option (Value τ μ σ)) = SortedSet.ofScores l' h' := by
  subst hl
  rfl

variable [DecidableEq κ]

/-- A command that does not change the value. -/
theorem command_eq {f : Option (Value τ μ σ) → Option (α × Option (Value τ μ σ))} {reply : α}
    (hf : f (S k) = some (reply, S k)) :
    (command k f : Command κ τ μ σ ε α) S = (.ok reply, S) := by
  rw [command, hf]
  exact congrArg (Prod.mk _) (Function.update_eq_self k S)

theorem get_eq {s : Option τ} (hs : S k = s.map .string) :
    (get k : Command κ τ μ σ ε _) S = (.ok s, S) := by
  refine command_eq ?_
  rw [hs]
  rcases s with _ | s <;> rfl

theorem set_eq (s : τ) : (set k s : Command κ τ μ σ ε _) S =
    (.ok (), Function.update S k (some (.string s))) := rfl

theorem del_eq : (del k : Command κ τ μ σ ε _) S = (.ok (), Function.update S k none) := rfl

theorem zrevrange_eq [LinearOrder μ] [LinearOrder σ] (hs : S k = SortedSet.ofScores scores h) :
    (zrevrange k : Command κ τ μ σ ε _) S = (.ok ((scores.mergeSort later).map Prod.fst), S) := by
  refine command_eq ?_
  rw [hs, SortedSet.ofScores]
  split_ifs with hne
  · subst hne
    simp
  · rfl

variable [DecidableEq μ]

theorem zadd_eq (hs : S k = SortedSet.ofScores scores h) (m : μ) (score : σ) :
    (zadd k m score : Command κ τ μ σ ε _) S = (.ok (), Function.update S k
      (SortedSet.ofScores (assign m score scores) (nodup_assign h m score))) := by
  rw [zadd, command, hs, SortedSet.ofScores]
  split_ifs with hne
  · subst hne
    rfl
  · rfl

theorem zrem_eq (hs : S k = SortedSet.ofScores scores h) (ms : List μ) :
    (zrem k ms : Command κ τ μ σ ε _) S = (.ok (), Function.update S k
      (SortedSet.ofScores (without ms scores) (nodup_without h ms))) := by
  rw [zrem, command, hs, SortedSet.ofScores]
  split_ifs with hne
  · subst hne
    rfl
  · rfl

end Rules

/-! ## The keys that commands are about -/

/-- Keys are the same in two states. -/
def Same (K : Set κ) (S S' : Keys κ τ μ σ) : Prop := ∀ k ∈ K, S k = S' k

/-- Only some keys are changed, and only they matter. -/
structure About (K : Set κ) (c : Command κ τ μ σ ε α) : Prop where
  frame : ∀ S, Same (K)ᶜ (c S).2 S
  depends : ∀ S S', Same K S S' → (c S).1 = (c S').1 ∧ Same K (c S).2 (c S').2

section About

variable {K : Set κ}

theorem About.const (r : Except (Error ε) α) :
    About K (fun S => (r, S) : Command κ τ μ σ ε α) :=
  ⟨fun _ _ _ => rfl, fun _ _ h => ⟨rfl, h⟩⟩

theorem About.command [DecidableEq κ] {k : κ} (hk : k ∈ K)
    (f : Option (Value τ μ σ) → Option (α × Option (Value τ μ σ))) :
    About K (command k f : Command κ τ μ σ ε α) := by
  refine ⟨fun S l hl => ?_, fun S S' h => ?_⟩
  · have hlk : l ≠ k := fun h => hl (h ▸ hk)
    rw [Lasting.command]
    rcases f (S k) with _ | ⟨reply, value⟩
    · rfl
    · exact Function.update_of_ne hlk ..
  · rw [Lasting.command, Lasting.command, h k hk]
    rcases f (S' k) with _ | ⟨reply, value⟩
    · exact ⟨rfl, h⟩
    · refine ⟨rfl, fun l hl => ?_⟩
      change Function.update S k value l = Function.update S' k value l
      by_cases hlk : l = k
      · rw [hlk, Function.update_self, Function.update_self]
      · rw [Function.update_of_ne hlk, Function.update_of_ne hlk, h l hl]

theorem About.get [DecidableEq κ] {k : κ} (hk : k ∈ K) :
    About K (get k : Command κ τ μ σ ε _) := .command hk _

theorem About.set [DecidableEq κ] {k : κ} (hk : k ∈ K) (s : τ) :
    About K (set k s : Command κ τ μ σ ε _) := .command hk _

theorem About.del [DecidableEq κ] {k : κ} (hk : k ∈ K) :
    About K (del k : Command κ τ μ σ ε _) := .command hk _

theorem bind_apply (c : Command κ τ μ σ ε α) (f : α → Command κ τ μ σ ε β) (S : Keys κ τ μ σ) :
    (c >>= f) S = match c S with
      | (.ok a, S') => f a S'
      | (.error e, S') => (.error e, S') := by
  rcases h : c S with ⟨e | a, S'⟩
  · simp only [bind, ExceptT.bind, ExceptT.mk, StateT.bind, h, ExceptT.bindCont]
    rfl
  · exact bind_eq h f

theorem About.bind {c : Command κ τ μ σ ε α} {f : α → Command κ τ μ σ ε β} (hc : About K c)
    (hf : ∀ a, About K (f a)) : About K (c >>= f) := by
  refine ⟨fun S => ?_, fun S S' h => ?_⟩
  · have hframe := hc.frame S
    rw [bind_apply]
    rcases hr : c S with ⟨e | a, S₁⟩
    · rwa [hr] at hframe
    · rw [hr] at hframe
      exact fun k hk => ((hf a).frame S₁ k hk).trans (hframe k hk)
  · obtain ⟨hreply, hsame⟩ := hc.depends S S' h
    rw [bind_apply, bind_apply]
    rcases hr : c S with ⟨r, S₁⟩
    rcases hr' : c S' with ⟨r', S₂⟩
    rw [hr, hr'] at hreply hsame
    obtain rfl : r = r' := hreply
    rcases r with e | a
    · exact ⟨rfl, hsame⟩
    · exact (hf a).depends S₁ S₂ hsame

theorem About.map {c : Command κ τ μ σ ε α} (hc : About K c) (f : α → β) : About K (f <$> c) := by
  have hbind : f <$> c = c >>= fun a => pure (f a) := (bind_pure_comp f c).symm
  rw [hbind]
  exact hc.bind fun a => .const (.ok (f a))

end About

end Redis.Lasting
