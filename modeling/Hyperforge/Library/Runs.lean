import Mathlib.Data.List.Basic
import Mathlib.Data.List.TakeWhile

/-!
# Lists in runs

The elements of a list of which some are heads: each head starts a run, of itself and the elements
up to the next one, and there may be elements before the first one. A list has one division into
runs (`join_inj`), and it is a division at its heads (`forall_heads_iff`).
-/

namespace Runs

variable {α : Type*} {p : α → Bool} {lead lead' : List α} {runs runs' : List (α × List α)}

def join (runs : List (α × List α)) : List α := runs.flatMap fun r => r.1 :: r.2

@[simp] theorem join_nil : join ([] : List (α × List α)) = [] := rfl

@[simp] theorem join_cons (r : α × List α) (runs : List (α × List α)) :
    join (r :: runs) = r.1 :: (r.2 ++ join runs) := List.flatMap_cons

@[simp] theorem join_append (runs runs' : List (α × List α)) :
    join (runs ++ runs') = join runs ++ join runs' := List.flatMap_append

/-- The heads, and they only, are not followers. -/
def Separated (p : α → Bool) (runs : List (α × List α)) : Prop :=
  ∀ r ∈ runs, p r.1 = false ∧ ∀ x ∈ r.2, p x = true

theorem separated_cons {r : α × List α} :
    Separated p (r :: runs) ↔ (p r.1 = false ∧ ∀ x ∈ r.2, p x = true) ∧ Separated p runs :=
  List.forall_mem_cons

theorem separated_append : Separated p (runs ++ runs') ↔ Separated p runs ∧ Separated p runs' :=
  List.forall_mem_append

theorem exists_join (p : α → Bool) (l : List α) :
    ∃ lead runs, (∀ x ∈ lead, p x = true) ∧ Separated p runs ∧ l = lead ++ join runs := by
  induction l with
  | nil => exact ⟨[], [], List.forall_mem_nil _, List.forall_mem_nil _, rfl⟩
  | cons x l ih =>
    obtain ⟨lead, runs, hlead, hruns, rfl⟩ := ih
    cases hx : p x with
    | true => exact ⟨x :: lead, runs, List.forall_mem_cons.2 ⟨hx, hlead⟩, hruns, rfl⟩
    | false =>
      refine ⟨[], (x, lead) :: runs, List.forall_mem_nil _, ?_, ?_⟩
      · exact separated_cons.2 ⟨⟨hx, hlead⟩, hruns⟩
      · rw [join_cons, List.nil_append]

theorem takeWhile_join (hlead : ∀ x ∈ lead, p x = true) (hruns : Separated p runs) :
    (lead ++ join runs).takeWhile p = lead := by
  induction lead with
  | nil =>
    cases runs with
    | nil => rfl
    | cons r runs =>
      rw [List.nil_append, join_cons, List.takeWhile_cons, (separated_cons.1 hruns).1.1]
      rfl
  | cons x lead ih =>
    rw [List.forall_mem_cons] at hlead
    rw [List.cons_append, List.takeWhile_cons, if_pos hlead.1, ih hlead.2]

theorem dropWhile_join (hlead : ∀ x ∈ lead, p x = true) (hruns : Separated p runs) :
    (lead ++ join runs).dropWhile p = join runs := by
  have hsplit := List.takeWhile_append_dropWhile (p := p) (l := lead ++ join runs)
  rw [takeWhile_join hlead hruns] at hsplit
  exact List.append_cancel_left hsplit

theorem join_inj (hlead : ∀ x ∈ lead, p x = true) (hruns : Separated p runs)
    (hlead' : ∀ x ∈ lead', p x = true) (hruns' : Separated p runs')
    (h : lead ++ join runs = lead' ++ join runs') : lead = lead' ∧ runs = runs' := by
  have htake := congrArg (List.takeWhile p) h
  have hdrop := congrArg (List.dropWhile p) h
  rw [takeWhile_join hlead hruns, takeWhile_join hlead' hruns'] at htake
  rw [dropWhile_join hlead hruns, dropWhile_join hlead' hruns'] at hdrop
  refine ⟨htake, ?_⟩
  clear h htake hlead hlead'
  induction runs generalizing runs' with
  | nil =>
    cases runs' with
    | nil => rfl
    | cons r' runs' => cases hdrop
  | cons r runs ih =>
    cases runs' with
    | nil => cases hdrop
    | cons r' runs' =>
      rw [separated_cons] at hruns hruns'
      rw [join_cons, join_cons, List.cons.injEq] at hdrop
      obtain ⟨hhead, hrest⟩ := hdrop
      have htake := congrArg (List.takeWhile p) hrest
      rw [takeWhile_join hruns.1.2 hruns.2, takeWhile_join hruns'.1.2 hruns'.2] at htake
      rw [htake] at hrest
      rw [Prod.ext hhead htake, ih hruns.2 hruns'.2 (List.append_cancel_left hrest)]

/-- What holds at the heads of a list holds at those of its runs. -/
theorem forall_heads_iff (hlead : ∀ x ∈ lead, p x = true) (hruns : Separated p runs)
    {P : List α → α → List α → Prop} :
    (∀ before x after, lead ++ join runs = before ++ x :: after → p x = false →
      P before x after) ↔
    ∀ runs₁ r runs₂, runs = runs₁ ++ r :: runs₂ →
      P (lead ++ join runs₁) r.1 (r.2 ++ join runs₂) := by
  constructor
  · rintro h runs₁ r runs₂ rfl
    refine h _ _ _ ?_ ?_
    · rw [join_append, join_cons, List.append_assoc]
    · exact (hruns r (List.mem_append_right _ List.mem_cons_self)).1
  · intro h before x after heq hx
    obtain ⟨lead', runs₁, hlead', hruns₁, rfl⟩ := exists_join p before
    obtain ⟨followers, runs₂, hfollowers, hruns₂, rfl⟩ := exists_join p after
    have hruns' : Separated p (runs₁ ++ (x, followers) :: runs₂) :=
      separated_append.2 ⟨hruns₁, separated_cons.2 ⟨⟨hx, hfollowers⟩, hruns₂⟩⟩
    have hjoin : lead ++ join runs = lead' ++ join (runs₁ ++ (x, followers) :: runs₂) := by
      rw [heq, join_append, join_cons, List.append_assoc]
    obtain ⟨rfl, rfl⟩ := join_inj hlead hruns hlead' hruns' hjoin
    exact h runs₁ (x, followers) runs₂ rfl

/-- A part of a list that has no head is one of what comes before the first head. -/
theorem take_join (hruns : Separated p runs) {n : ℕ}
    (h : ∀ x ∈ (lead ++ join runs).take n, p x = true) :
    (lead ++ join runs).take n = lead.take n := by
  cases runs with
  | nil => rw [join_nil, List.append_nil]
  | cons r runs =>
    obtain hn | hn := Nat.lt_or_ge lead.length n
    · -- the head would be in it
      have hhead : r.1 ∈ (lead ++ join (r :: runs)).take n := by
        obtain ⟨k, rfl⟩ := Nat.exists_eq_add_of_lt hn
        rw [join_cons, Nat.add_assoc, List.take_append, List.take_of_length_le (by omega)]
        refine List.mem_append_right _ ?_
        rw [Nat.add_sub_cancel_left, List.take_succ_cons]
        exact List.mem_cons_self
      have htrue := h r.1 hhead
      rw [(separated_cons.1 hruns).1.1] at htrue
      cases htrue
    · exact List.take_append_of_le_length hn

end Runs
