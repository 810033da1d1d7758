import Hyperforge.Library.Json.Dict

/-!
# Caches that drop what was used least recently

A cache holds so many entries, each under its key, the one used last first (`Lru`). Reading an
entry counts as a use, asking whether there is one does not. If a new one does not fit, the last
is dropped.
-/

structure Lru (κ α : Type*) where
  size : ℕ
  entries : List (κ × α)
  nodup : (entries.map Prod.fst).Nodup
  bounded : entries.length ≤ size

namespace Lru

open Json

variable {κ α : Type*} [DecidableEq κ]

/-- An empty cache. -/
def empty (size : ℕ) : Lru κ α := ⟨size, [], List.nodup_nil, Nat.zero_le size⟩

/-- `cache.get(key)`, as to what is found. -/
def find (c : Lru κ α) (k : κ) : Option α := c.entries.lookup k

theorem nodup_pop {c : Lru κ α} {k : κ} : ((pop k c.entries).map Prod.fst).Nodup :=
  c.nodup.sublist ((pop_sublist k c.entries).map Prod.fst)

theorem nodup_front (c : Lru κ α) (k : κ) (x : α) :
    (((k, x) :: pop k c.entries).map Prod.fst).Nodup := by
  rw [List.map_cons, List.nodup_cons]
  exact ⟨fun h => (mem_keys_pop.1 h).1 rfl, nodup_pop⟩

/-- `cache[key] = x` -/
def set (c : Lru κ α) (k : κ) (x : α) : Lru κ α where
  size := c.size
  entries := ((k, x) :: pop k c.entries).take c.size
  nodup := (c.nodup_front k x).sublist ((List.take_sublist _ _).map Prod.fst)
  bounded := List.length_take_le ..

/-- The cache, once the entry has been read. -/
def use (c : Lru κ α) (k : κ) : Lru κ α :=
  match h : c.find k with
  | none => c
  | some x => {
      size := c.size
      entries := (k, x) :: pop k c.entries
      nodup := c.nodup_front k x
      bounded := Nat.le_trans (length_pop_lt h) c.bounded }

variable {c : Lru κ α} {k l : κ} {x y : α} {m : κ × α}

theorem mem_of_find (h : c.find k = some x) : (k, x) ∈ c.entries := mem_of_lookup h

theorem mem_set (h : m ∈ (c.set k x).entries) : m = (k, x) ∨ m ∈ c.entries := by
  rcases List.mem_cons.1 (List.mem_of_mem_take h) with rfl | h
  · exact .inl rfl
  · exact .inr ((pop_sublist k c.entries).subset h)

theorem mem_use (h : m ∈ (c.use k).entries) : m ∈ c.entries := by
  rw [use] at h
  split at h
  · exact h
  · next x hx =>
    rcases List.mem_cons.1 h with rfl | h
    · exact mem_of_find hx
    · exact (pop_sublist k c.entries).subset h

theorem mem_use_iff : m ∈ (c.use k).entries ↔ m ∈ c.entries := by
  refine ⟨mem_use, fun h => ?_⟩
  rw [use]
  split
  · exact h
  · next x hx =>
    by_cases hm : m.1 = k
    · have hlookup : c.find m.1 = some m.2 := lookup_of_mem c.nodup h
      rw [hm, hx, Option.some.injEq] at hlookup
      exact List.mem_cons.2 (.inl (Prod.ext hm hlookup.symm))
    · exact List.mem_cons_of_mem _ (List.mem_filter.2 ⟨h, decide_eq_true hm⟩)

theorem size_use (c : Lru κ α) (k : κ) : (c.use k).size = c.size := by
  rw [use]
  split <;> rfl

theorem find_eq_some : c.find k = some x ↔ (k, x) ∈ c.entries :=
  ⟨mem_of_find, lookup_of_mem c.nodup⟩

/-- What has been set is found. -/
theorem find_set (h : 0 < c.size) : (c.set k x).find k = some x := by
  obtain ⟨n, hn⟩ := Nat.exists_eq_add_one.2 h
  rw [find, set]
  dsimp only
  rw [hn, List.take_succ_cons, lookup_cons_eq, if_pos rfl]

end Lru
