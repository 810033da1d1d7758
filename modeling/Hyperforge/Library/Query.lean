import Mathlib.Data.List.Nodup
import Mathlib.Data.List.ProdSigma

/-!
# Queries

`SELECT` from tables, given as the lists of their rows. A condition is on a row of each table of
the `FROM` clause: what it says nothing about is not restricted (`selectFrom_of_forall`).
-/

namespace Query

variable {α β : Type*}

/-- `SELECT * FROM t WHERE p` -/
def select (t : List α) (p : α → Prop) [DecidablePred p] : List α := t.filter p

/-- `SELECT t.* FROM t, u WHERE p`: the rows of the first table, once for each row of the second
    with which they meet the condition. -/
def selectFrom (t : List α) (u : List β) (p : α → β → Prop) [∀ a, DecidablePred (p a)] : List α :=
  ((t ×ˢ u).filter fun r => p r.1 r.2).map Prod.fst

theorem selectFrom_cons (a : α) (t : List α) (u : List β) (p : α → β → Prop)
    [∀ a, DecidablePred (p a)] :
    selectFrom (a :: t) u p = List.replicate (select u (p a)).length a ++ selectFrom t u p := by
  rw [selectFrom, List.product_cons, List.filter_append, List.map_append, ← selectFrom]
  congr 1
  rw [List.filter_map, List.map_map]
  exact List.map_const ..

/-- A condition that is not on the first table gives each of its rows, as often as there are rows
    of the second that meet it. -/
theorem selectFrom_of_forall (t : List α) (u : List β) (q : β → Prop) [DecidablePred q] :
    selectFrom t u (fun _ => q) = t.flatMap (List.replicate (select u q).length) := by
  induction t with
  | nil => rfl
  | cons a t ih => rw [selectFrom_cons, ih, List.flatMap_cons]

/-- Where only one row can match, a condition on the second table alone selects all or nothing. -/
theorem selectFrom_of_unique {κ : Type*} [DecidableEq κ] (t : List α) {u : List β} {key : β → κ}
    (h : (u.map key).Nodup) (k : κ) :
    selectFrom t u (fun _ b => key b = k) = if k ∈ u.map key then t else [] := by
  rw [selectFrom_of_forall]
  have hlength : (select u fun b => key b = k).length = (u.map key).count k := by
    rw [select, ← List.countP_eq_length_filter, List.count, List.countP_map]
    rfl
  rw [hlength]
  split_ifs with hk
  · rw [Nat.le_antisymm (List.nodup_iff_count.1 h k) (List.count_pos_iff.2 hk)]
    exact List.flatMap_singleton' t
  · rw [List.count_eq_zero_of_not_mem hk]
    exact List.flatMap_eq_nil_iff.2 fun _ _ => rfl

/-- A row is found by its key. -/
theorem select_key {κ : Type*} [DecidableEq κ] {t : List α} {key : α → κ}
    (h : (t.map key).Nodup) {a : α} (ha : a ∈ t) : select t (fun b => key b = key a) = [a] := by
  obtain ⟨t₁, t₂, rfl⟩ := List.append_of_mem ha
  rw [List.map_append, List.map_cons, List.nodup_middle, List.nodup_cons, List.mem_append,
    not_or] at h
  have hne {l : List α} (hl : key a ∉ l.map key) : l.filter (fun b => key b = key a) = [] :=
    List.filter_eq_nil_iff.2 fun b hb heq =>
      hl (List.mem_map.2 ⟨b, hb, of_decide_eq_true heq⟩)
  rw [select, List.filter_append, List.filter_cons_of_pos (by simp), hne h.1.1, hne h.1.2]
  rfl

/-- The rows with one of several keys, those with the same key together. -/
theorem flatMap_select_perm {κ : Type*} [DecidableEq κ] (t : List α) (key : α → κ) {ks : List κ}
    (h : ks.Nodup) : (ks.flatMap fun k => select t fun a => key a = k).Perm
      (select t fun a => key a ∈ ks) := by
  induction ks with
  | nil =>
    rw [List.flatMap_nil, select, List.filter_eq_nil_iff.2 fun a _ => by simp]
  | cons k ks ih =>
    rw [List.nodup_cons] at h
    rw [List.flatMap_cons]
    refine ((ih h.2).append_left _).trans ?_
    have hsplit := List.filter_append_perm (fun a => decide (key a = k))
      (select t fun a => key a ∈ k :: ks)
    simp only [select, List.filter_filter] at hsplit ⊢
    convert hsplit using 2
    · refine List.filter_congr fun a _ => ?_
      by_cases ha : key a = k <;> simp [ha]
    · refine List.filter_congr fun a _ => ?_
      by_cases ha : key a = k
      · simp [ha, h.1]
      · simp [ha]

end Query
