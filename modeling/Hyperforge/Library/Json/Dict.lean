import Hyperforge.Library.Json

/-!
# Members of objects as dictionaries

The operations on a dictionary with keys of any type, given as the list of its members:
`List.lookup`, assigning a key (`assign`, `update`) and removing one (`pop`).
-/

namespace Json

variable {κ α : Type*} [DecidableEq κ]

/-- `d[k] = x`: a new key is the last. -/
def assign (k : κ) (x : α) : List (κ × α) → List (κ × α)
  | [] => [(k, x)]
  | (l, y) :: d => if l = k then (k, x) :: d else (l, y) :: assign k x d

/-- `d.update(e)` -/
def update (d e : List (κ × α)) : List (κ × α) := e.foldl (fun d m => assign m.1 m.2 d) d

/-- `d.pop(k, None)`, as to what is left. -/
def pop (k : κ) (d : List (κ × α)) : List (κ × α) := d.filter (·.1 ≠ k)

variable {d : List (κ × α)} {k l : κ} {x y : α}

theorem mem_keys_assign : l ∈ (assign k x d).map Prod.fst ↔ l = k ∨ l ∈ d.map Prod.fst := by
  induction d with
  | nil => simp [assign]
  | cons m d ih =>
    rw [assign]
    by_cases hk : m.1 = k
    · simp [hk]
    · rw [if_neg hk, List.map_cons, List.mem_cons, ih, List.map_cons, List.mem_cons]
      tauto

theorem mem_keys_pop : l ∈ (pop k d).map Prod.fst ↔ l ≠ k ∧ l ∈ d.map Prod.fst := by
  simp only [pop, List.mem_map, List.mem_filter, decide_eq_true_eq]
  exact ⟨fun ⟨m, ⟨hm, hk⟩, hl⟩ => ⟨hl ▸ hk, m, hm, hl⟩,
    fun ⟨hk, m, hm, hl⟩ => ⟨m, ⟨hm, hl ▸ hk⟩, hl⟩⟩

theorem mem_keys_update (d e : List (κ × α)) :
    l ∈ (update d e).map Prod.fst ↔ l ∈ d.map Prod.fst ∨ l ∈ e.map Prod.fst := by
  induction e generalizing d with
  | nil => simp [update]
  | cons m e ih =>
    rw [update, List.foldl_cons, ← update, ih, mem_keys_assign, List.map_cons, List.mem_cons]
    tauto

theorem keys_assign : (assign k x d).map Prod.fst =
    if k ∈ d.map Prod.fst then d.map Prod.fst else d.map Prod.fst ++ [k] := by
  induction d with
  | nil => rfl
  | cons m d ih =>
    rw [assign]
    by_cases hk : m.1 = k
    · simp [hk]
    · rw [if_neg hk, List.map_cons, ih, List.map_cons]
      by_cases hmem : k ∈ d.map Prod.fst
      · simp [hmem]
      · simp [hmem, Ne.symm hk]

theorem map_assign {β : Type*} (f : α → β) (k : κ) (x : α) (d : List (κ × α)) :
    (assign k x d).map (fun m => (m.1, f m.2)) =
      assign k (f x) (d.map fun m => (m.1, f m.2)) := by
  induction d with
  | nil => rfl
  | cons m d ih =>
    rw [assign, List.map_cons, assign]
    split_ifs
    · rfl
    · rw [List.map_cons, ih]

/-- The keys of a dictionary stay distinct. -/
theorem nodup_assign (h : (d.map Prod.fst).Nodup) (k : κ) (x : α) :
    ((assign k x d).map Prod.fst).Nodup := by
  rw [keys_assign]
  split_ifs with hk
  · exact h
  · rw [← List.concat_eq_append, List.nodup_concat]
    exact ⟨hk, h⟩

theorem nodup_update (h : (d.map Prod.fst).Nodup) (e : List (κ × α)) :
    ((update d e).map Prod.fst).Nodup := by
  induction e generalizing d with
  | nil => exact h
  | cons m e ih => exact ih (nodup_assign h m.1 m.2)

/-- A dictionary that is updated with new keys. -/
theorem update_of_disjoint {d e : List (κ × α)} (h : ((d ++ e).map Prod.fst).Nodup) :
    update d e = d ++ e := by
  induction e generalizing d with
  | nil => exact (List.append_nil d).symm
  | cons m e ih =>
    have hassign : assign m.1 m.2 d = d ++ [m] := by
      have hm : m.1 ∉ d.map Prod.fst := fun hm => by
        rw [List.map_append, List.map_cons] at h
        exact List.disjoint_of_nodup_append h hm List.mem_cons_self
      clear h ih
      induction d with
      | nil => rfl
      | cons n d ih =>
        rw [List.map_cons, List.mem_cons, not_or] at hm
        rw [assign, if_neg (Ne.symm hm.1), ih hm.2, List.cons_append]
    rw [update, List.foldl_cons, ← update, hassign, ih (by rwa [List.append_assoc])]
    exact List.append_assoc ..

theorem pop_append_cons {e₁ e₂ : List (κ × α)} (h : ((e₁ ++ (k, x) :: e₂).map Prod.fst).Nodup) :
    pop k (e₁ ++ (k, x) :: e₂) = e₁ ++ e₂ := by
  rw [List.map_append, List.map_cons, List.nodup_middle, List.nodup_cons, ← List.map_append] at h
  have hkeep {m : κ × α} (hm : m ∈ e₁ ++ e₂) : m.1 ≠ k := fun heq =>
    h.1 (List.mem_map.2 ⟨m, hm, heq⟩)
  rw [pop, List.filter_append, List.filter_cons_of_neg (by simp), ← List.filter_append]
  exact List.filter_eq_self.2 fun m hm => decide_eq_true (hkeep hm)

/-- A member can be put first. -/
theorem perm_cons_pop {e : List (κ × α)} (h : (e.map Prod.fst).Nodup) (hk : (k, x) ∈ e) :
    e.Perm ((k, x) :: pop k e) := by
  obtain ⟨e₁, e₂, rfl⟩ := List.append_of_mem hk
  rw [pop_append_cons h]
  exact List.perm_middle

/-- A dictionary that is updated with the values it has. -/
theorem update_cons {e : List (κ × α)} (h : (e.map Prod.fst).Nodup) (hk : (k, x) ∈ e) :
    update [(k, x)] e = (k, x) :: pop k e := by
  obtain ⟨e₁, e₂, rfl⟩ := List.append_of_mem hk
  have hpop := pop_append_cons h
  rw [List.map_append, List.map_cons, List.nodup_middle, ← List.map_append] at h
  have hnodup : (((k, x) :: (e₁ ++ e₂)).map Prod.fst).Nodup := h
  have hfirst : update [(k, x)] e₁ = (k, x) :: e₁ :=
    update_of_disjoint (hnodup.sublist (((List.sublist_append_left _ _).cons_cons _).map _))
  have hassign : assign k x ((k, x) :: e₁) = (k, x) :: e₁ := by
    rw [assign, if_pos rfl]
  have happend : update [(k, x)] (e₁ ++ (k, x) :: e₂) =
      update (assign k x (update [(k, x)] e₁)) e₂ := List.foldl_append ..
  rw [hpop, happend, hfirst, hassign]
  exact update_of_disjoint hnodup

theorem mem_assign {m : κ × α} (h : m ∈ assign k x d) : m = (k, x) ∨ m ∈ d := by
  induction d with
  | nil => exact .inl (List.mem_singleton.1 h)
  | cons n d ih =>
    rw [assign] at h
    split_ifs at h
    · exact (List.mem_cons.1 h).imp_right (List.mem_cons_of_mem _)
    · rcases List.mem_cons.1 h with rfl | h
      · exact .inr List.mem_cons_self
      · exact (ih h).imp_right (List.mem_cons_of_mem _)

theorem mem_update {e : List (κ × α)} {m : κ × α} (h : m ∈ update d e) : m ∈ d ∨ m ∈ e := by
  induction e generalizing d with
  | nil => exact .inl h
  | cons n e ih =>
    rcases ih h with h | h
    · rcases mem_assign h with rfl | h
      · exact .inr List.mem_cons_self
      · exact .inl h
    · exact .inr (List.mem_cons_of_mem _ h)

/-- What does not tell what is assigned, nor what it replaces, does not tell. -/
theorem filter_assign {p : κ × α → Bool} (hx : p (k, x) = false)
    (h : ∀ m ∈ d, m.1 = k → p m = false) : (assign k x d).filter p = d.filter p := by
  induction d with
  | nil => rw [assign, List.filter_cons_of_neg (by simp [hx])]
  | cons m d ih =>
    obtain ⟨hm, hd⟩ := List.forall_mem_cons.1 h
    rw [assign]
    split_ifs with hk
    · rw [List.filter_cons_of_neg (by simp [hx]), List.filter_cons_of_neg (by simp [hm hk])]
    · rw [List.filter_cons, List.filter_cons, ih hd]

theorem length_assign_le (k : κ) (x : α) (d : List (κ × α)) :
    (assign k x d).length ≤ d.length + 1 := by
  induction d with
  | nil => exact Nat.le_refl 1
  | cons n d ih =>
    rw [assign]
    split_ifs
    · exact Nat.le_succ _
    · exact Nat.succ_le_succ ih

/-- The keys of a dictionary that has been updated are given by those of both. -/
theorem keys_update_congr {β : Type*} {d e : List (κ × α)} {d' e' : List (κ × β)}
    (hd : d.map Prod.fst = d'.map Prod.fst) (he : e.map Prod.fst = e'.map Prod.fst) :
    (update d e).map Prod.fst = (update d' e').map Prod.fst := by
  induction e generalizing d d' e' with
  | nil => rwa [List.map_eq_nil_iff.1 he.symm]
  | cons m e ih =>
    rcases e' with _ | ⟨m', e'⟩
    · cases he
    obtain ⟨hm, he⟩ : m.1 = m'.1 ∧ e.map Prod.fst = e'.map Prod.fst := List.cons.inj he
    rw [update, update, List.foldl_cons, List.foldl_cons, ← update, ← update]
    exact ih (by rw [keys_assign, keys_assign, hd, hm]) he

theorem pop_assign : pop k (assign l x d) = if l = k then pop k d else assign l x (pop k d) := by
  induction d with
  | nil =>
    by_cases hl : l = k <;> simp [assign, pop, hl]
  | cons m d ih =>
    rw [assign]
    by_cases hm : m.1 = l
    · by_cases hl : l = k
      · simp [pop, hm, hl]
      · simp [pop, assign, hm, hl]
    · rw [if_neg hm]
      by_cases hk : m.1 = k
      · simp_all [pop]
      · simp_all [pop, assign]
        split_ifs <;> rfl

theorem pop_update (k : κ) (d e : List (κ × α)) :
    pop k (update d e) = update (pop k d) (pop k e) := by
  induction e generalizing d with
  | nil => rfl
  | cons m e ih =>
    rw [update, List.foldl_cons, ← update, ih, pop_assign]
    by_cases hm : m.1 = k
    · simp [pop, hm]
    · simp [pop, hm, update]

theorem pop_sublist (k : κ) (d : List (κ × α)) : (pop k d).Sublist d := List.filter_sublist

variable [BEq κ] [LawfulBEq κ]

theorem lookup_cons_eq (k l : κ) (x : α) (d : List (κ × α)) :
    ((l, x) :: d).lookup k = if l = k then some x else d.lookup k := by
  rw [List.lookup_cons]
  by_cases h : l = k
  · simp [h]
  · simp [h, beq_false_of_ne (Ne.symm h)]

theorem lookup_assign (k l : κ) (x : α) (d : List (κ × α)) :
    (assign k x d).lookup l = if k = l then some x else d.lookup l := by
  induction d with
  | nil => rw [assign, lookup_cons_eq]
  | cons m d ih =>
    obtain ⟨k', y⟩ := m
    rw [assign]
    by_cases hk : k' = k
    · subst hk
      simp only [if_true, lookup_cons_eq]
      split_ifs <;> rfl
    · rw [if_neg hk, lookup_cons_eq, ih, lookup_cons_eq]
      by_cases hl : k' = l
      · have hne : k ≠ l := fun h => hk (hl.trans h.symm)
        simp [hl, hne]
      · simp [hl]

theorem assign_of_lookup (h : d.lookup k = some x) : assign k x d = d := by
  induction d with
  | nil => simp at h
  | cons m d ih =>
    obtain ⟨k', y⟩ := m
    rw [lookup_cons_eq] at h
    rw [assign]
    by_cases hk : k' = k
    · rw [if_pos hk] at h ⊢
      rw [hk, Option.some.inj h]
    · rw [if_neg hk] at h ⊢
      rw [ih h]

omit [DecidableEq κ] in
theorem lookup_eq_none : d.lookup k = none ↔ k ∉ d.map Prod.fst := by
  rw [List.lookup_eq_none_iff]
  simp only [List.mem_map, not_exists, not_and, bne_iff_ne, ne_eq]
  exact ⟨fun h m hm heq => h m hm heq.symm, fun h m hm heq => h m hm heq.symm⟩

theorem mem_of_lookup (h : d.lookup k = some x) : (k, x) ∈ d := by
  induction d with
  | nil => simp at h
  | cons m d ih =>
    rw [lookup_cons_eq] at h
    split_ifs at h with hk
    · rw [← hk, ← Option.some.inj h]
      exact List.mem_cons_self
    · exact List.mem_cons_of_mem _ (ih h)

theorem lookup_of_mem (h : (d.map Prod.fst).Nodup) (hm : (k, x) ∈ d) : d.lookup k = some x := by
  induction d with
  | nil => exact absurd hm List.not_mem_nil
  | cons m d ih =>
    obtain ⟨l, y⟩ := m
    rw [List.map_cons, List.nodup_cons] at h
    rw [lookup_cons_eq]
    rcases List.mem_cons.1 hm with heq | hm
    · obtain ⟨rfl, rfl⟩ := Prod.mk.inj heq
      exact if_pos rfl
    · have hne : l ≠ k := fun heq => h.1 (List.mem_map.2 ⟨_, hm, heq.symm⟩)
      rw [if_neg hne, ih h.2 hm]

/-- The values are mapped with the keys that they have. -/
theorem lookup_map_values {β : Type*} (f : κ → α → β) (k : κ) (d : List (κ × α)) :
    (d.map fun m => (m.1, f m.1 m.2)).lookup k = (d.lookup k).map (f k) := by
  induction d with
  | nil => rfl
  | cons m d ih =>
    rw [List.map_cons, lookup_cons_eq, lookup_cons_eq, ih]
    split_ifs with hk
    · rw [hk, Option.map_some]
    · rfl

theorem lookup_filter (p : κ → Bool) (k : κ) (d : List (κ × α)) :
    (d.filter fun m => p m.1).lookup k = if p k then d.lookup k else none := by
  induction d with
  | nil => simp
  | cons m d ih =>
    obtain ⟨l, y⟩ := m
    rw [List.filter_cons, lookup_cons_eq]
    by_cases hl : l = k
    · subst hl
      rw [if_pos rfl]
      by_cases hp : p l
      · rw [if_pos hp, if_pos hp, lookup_cons_eq, if_pos rfl]
      · rw [if_neg hp, ih, if_neg hp, if_neg hp]
    · rw [if_neg hl, ← ih]
      split_ifs
      · rw [lookup_cons_eq, if_neg hl]
      · rfl

@[simp]
theorem lookup_pop (k l : κ) (d : List (κ × α)) :
    (pop k d).lookup l = if l = k then none else d.lookup l := by
  rw [pop, lookup_filter (fun m => m ≠ k)]
  split_ifs <;> simp_all

theorem length_pop_lt (h : d.lookup k = some x) : (pop k d).length < d.length := by
  rw [pop, List.length_filter_lt_length_iff_exists]
  exact ⟨(k, x), mem_of_lookup h, by simp⟩

theorem pop_of_lookup_eq_none (h : d.lookup k = none) : pop k d = d := by
  rw [pop, List.filter_eq_self]
  intro m hm
  rw [decide_eq_true_eq]
  intro heq
  exact lookup_eq_none.1 h (List.mem_map.2 ⟨m, hm, heq⟩)

theorem lookup_update_of_notMem (d e : List (κ × α)) (h : l ∉ e.map Prod.fst) :
    (update d e).lookup l = d.lookup l := by
  induction e generalizing d with
  | nil => rfl
  | cons m e ih =>
    rw [List.map_cons, List.mem_cons, not_or] at h
    rw [update, List.foldl_cons, ← update, ih _ h.2, lookup_assign, if_neg (Ne.symm h.1)]

theorem lookup_update_of_mem (d e : List (κ × α)) (he : (e.map Prod.fst).Nodup)
    (h : l ∈ e.map Prod.fst) : (update d e).lookup l = e.lookup l := by
  induction e generalizing d with
  | nil => cases h
  | cons m e ih =>
    rw [List.map_cons, List.nodup_cons] at he
    rw [update, List.foldl_cons, ← update, lookup_cons_eq]
    by_cases hm : m.1 = l
    · rw [if_pos hm, lookup_update_of_notMem _ _ (hm ▸ he.1), lookup_assign, if_pos hm]
    · rw [if_neg hm]
      rw [List.map_cons, List.mem_cons] at h
      exact ih _ he.2 (h.resolve_left (Ne.symm hm))

theorem mem_update_right {d e : List (κ × α)} (he : (e.map Prod.fst).Nodup) {m : κ × α}
    (hm : m ∈ e) : m ∈ update d e := by
  refine mem_of_lookup (k := m.1) (x := m.2) ?_
  rw [lookup_update_of_mem d e he (List.mem_map_of_mem hm), lookup_of_mem he hm]

/-- A dictionary is given by the order of its keys and by what they have. -/
theorem ext_of_lookup {d e : List (κ × α)} (hkeys : d.map Prod.fst = e.map Prod.fst)
    (hd : (d.map Prod.fst).Nodup) (h : ∀ k ∈ d.map Prod.fst, d.lookup k = e.lookup k) : d = e := by
  induction d generalizing e with
  | nil => exact (List.map_eq_nil_iff.1 hkeys.symm).symm
  | cons m d ih =>
    rcases e with _ | ⟨m', e⟩
    · cases hkeys
    obtain ⟨hm, hkeys⟩ : m.1 = m'.1 ∧ d.map Prod.fst = e.map Prod.fst := List.cons.inj hkeys
    rw [List.map_cons, List.nodup_cons] at hd
    rw [List.map_cons, List.forall_mem_cons, lookup_cons_eq, lookup_cons_eq, if_pos rfl,
      if_pos hm.symm] at h
    have hmm : m = m' := Prod.ext hm (Option.some.inj h.1)
    refine congrArg₂ List.cons hmm (ih hkeys hd.2 fun k hk => ?_)
    have hne : m.1 ≠ k := fun hmk => hd.1 (hmk ▸ hk)
    have hlookup := h.2 k hk
    rwa [lookup_cons_eq, lookup_cons_eq, if_neg hne, if_neg (hm ▸ hne)] at hlookup

end Json
