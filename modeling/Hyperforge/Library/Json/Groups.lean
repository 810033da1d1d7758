import Hyperforge.Library.Json.Dict

/-!
# Dictionaries of lists

A dictionary in which entries are collected by their keys (`Json.group`): each key has the values of
its entries, in their order (`Json.mem_group`).
-/

namespace Json

variable {κ α : Type*} [DecidableEq κ]

/-- The values of the entries with a key. -/
def valuesOf (k : κ) (entries : List (κ × α)) : List α :=
  (entries.filter fun e => e.1 = k).map Prod.snd

@[simp]
theorem mem_valuesOf {k : κ} {x : α} {entries : List (κ × α)} :
    x ∈ valuesOf k entries ↔ (k, x) ∈ entries := by
  simp [valuesOf]

theorem valuesOf_cons (k : κ) (e : κ × α) (entries : List (κ × α)) :
    valuesOf k (e :: entries) =
      if e.1 = k then e.2 :: valuesOf k entries else valuesOf k entries := by
  rw [valuesOf, List.filter_cons]
  by_cases h : e.1 = k
  · simp [h, valuesOf]
  · simp [h, valuesOf]

variable [BEq κ] [LawfulBEq κ]

theorem length_valuesOf (k : κ) (entries : List (κ × α)) :
    (valuesOf k entries).length = (entries.map Prod.fst).count k := by
  induction entries with
  | nil => rfl
  | cons e entries ih =>
    rw [valuesOf_cons, List.map_cons, List.count_cons, ← ih]
    by_cases h : e.1 = k
    · simp [h]
    · simp [h]

/-- `d.setdefault(k, []).append(x)` -/
def appendTo (k : κ) (x : α) (d : List (κ × List α)) : List (κ × List α) :=
  assign k ((d.lookup k).getD [] ++ [x]) d

/-- The values of entries, by their keys. -/
def group (entries : List (κ × α)) : List (κ × List α) :=
  entries.foldl (fun d e => appendTo e.1 e.2 d) []

omit [LawfulBEq κ] in
theorem mem_keys_foldl_appendTo {k : κ} (entries : List (κ × α)) (d : List (κ × List α)) :
    k ∈ (entries.foldl (fun d e => appendTo e.1 e.2 d) d).map Prod.fst ↔
      k ∈ d.map Prod.fst ∨ k ∈ entries.map Prod.fst := by
  induction entries generalizing d with
  | nil => simp
  | cons e entries ih =>
    rw [List.foldl_cons, ih, appendTo, mem_keys_assign, List.map_cons, List.mem_cons]
    tauto

omit [LawfulBEq κ] in
theorem nodup_foldl_appendTo (entries : List (κ × α)) {d : List (κ × List α)}
    (h : (d.map Prod.fst).Nodup) :
    ((entries.foldl (fun d e => appendTo e.1 e.2 d) d).map Prod.fst).Nodup := by
  induction entries generalizing d with
  | nil => exact h
  | cons e entries ih => exact ih (nodup_assign h _ _)

theorem lookup_foldl_appendTo (k : κ) (entries : List (κ × α)) (d : List (κ × List α)) :
    ((entries.foldl (fun d e => appendTo e.1 e.2 d) d).lookup k).getD [] =
      (d.lookup k).getD [] ++ valuesOf k entries := by
  induction entries generalizing d with
  | nil => exact (List.append_nil _).symm
  | cons e entries ih =>
    rw [List.foldl_cons, ih, appendTo, lookup_assign, valuesOf_cons]
    split_ifs with h
    · rw [h, Option.getD_some, List.append_assoc]
      rfl
    · rfl

omit [LawfulBEq κ] in
theorem nodup_group (entries : List (κ × α)) : ((group entries).map Prod.fst).Nodup :=
  nodup_foldl_appendTo entries List.nodup_nil

/-- Each key of an entry has the values of its entries. -/
theorem mem_group {k : κ} {xs : List α} {entries : List (κ × α)} :
    (k, xs) ∈ group entries ↔ k ∈ entries.map Prod.fst ∧ xs = valuesOf k entries := by
  have hlookup : ((group entries).lookup k).getD [] = valuesOf k entries :=
    lookup_foldl_appendTo k entries []
  have hkeys : k ∈ (group entries).map Prod.fst ↔ k ∈ entries.map Prod.fst := by
    rw [group, mem_keys_foldl_appendTo]
    simp
  constructor
  · intro hmem
    rw [lookup_of_mem (nodup_group entries) hmem, Option.getD_some] at hlookup
    exact ⟨hkeys.1 (List.mem_map_of_mem hmem), hlookup⟩
  · rintro ⟨hmem, rfl⟩
    obtain ⟨⟨l, xs⟩, hentry, rfl⟩ := List.mem_map.1 (hkeys.2 hmem)
    rw [lookup_of_mem (nodup_group entries) hentry, Option.getD_some] at hlookup
    exact hlookup ▸ hentry

end Json
