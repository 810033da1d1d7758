import Mathlib.Data.List.Infix

/-!
# Splitting at a separator

A list is split at the first occurrence of a separator (`List.splitOnce`). This is the inverse of
putting lists together with the separator in between, as far as the separator does not begin
within the first of them (`splitOnce_eq_some`).
-/

namespace List

variable {α : Type*} [DecidableEq α] {separator a b : List α}

/-- The parts before and after the first occurrence of a separator. -/
def splitOnce (separator : List α) : List α → Option (List α × List α)
  | [] => none
  | c :: cs =>
    if separator <+: c :: cs then some ([], (c :: cs).drop separator.length)
    else (splitOnce separator cs).map fun p => (c :: p.1, p.2)

theorem splitOnce_append (hne : separator ≠ []) (h : ¬ separator <:+: a ++ separator.dropLast) :
    splitOnce separator (a ++ (separator ++ b)) = some (a, b) := by
  induction a with
  | nil =>
    obtain ⟨c, cs, rfl⟩ := exists_cons_of_ne_nil hne
    rw [nil_append, cons_append, splitOnce, ← cons_append, if_pos (prefix_append _ _),
      drop_left]
  | cons c a ih =>
    rw [cons_append, infix_cons_iff, not_or] at h
    rw [cons_append, splitOnce, if_neg, ih h.2, Option.map_some]
    -- An occurrence at the beginning would end before the separator does.
    intro hprefix
    refine h.1 (prefix_of_prefix_length_le hprefix ?_ ?_)
    · rw [cons_prefix_cons, prefix_append_right_inj]
      exact ⟨rfl, IsPrefix.trans ( dropLast_prefix _) (prefix_append _ _)⟩
    · have hpos := length_pos_iff.2 hne
      rw [length_cons, length_append, length_dropLast]
      omega

theorem splitOnce_eq_some (hne : separator ≠ []) {s : List α} :
    splitOnce separator s = some (a, b) ↔
      s = a ++ (separator ++ b) ∧ ¬ separator <:+: a ++ separator.dropLast := by
  constructor
  · intro h
    induction s generalizing a with
    | nil => cases h
    | cons c cs ih =>
      rw [splitOnce] at h
      split_ifs at h with hprefix
      · cases h
        refine ⟨(prefix_iff_eq_append.1 hprefix).symm, fun hinfix => ?_⟩
        have hlength := hinfix.length_le
        have hpos := length_pos_iff.2 hne
        rw [nil_append, length_dropLast] at hlength
        omega
      · obtain ⟨⟨a, b⟩, hsplit, h⟩ := Option.map_eq_some_iff.1 h
        cases h
        obtain ⟨rfl, hinfix⟩ := ih hsplit
        refine ⟨rfl, ?_⟩
        rw [cons_append, infix_cons_iff, not_or]
        refine ⟨fun h => hprefix (h.trans ?_), hinfix⟩
        rw [cons_prefix_cons, prefix_append_right_inj]
        exact ⟨rfl, IsPrefix.trans ( dropLast_prefix _) (prefix_append _ _)⟩
  · rintro ⟨rfl, h⟩
    exact splitOnce_append hne h

end List
