import Hyperforge.Library.Json.Ascii
import Hyperforge.Library.Json.Dict

/-!
# Trees up to the order of members

Two trees are the same value if they are equal up to the order in which objects have their members
(`Json.Tree.Same`), which is so exactly if they are equal with the keys sorted
(`same_iff_sortKeys`).
-/

namespace Json

variable {F : Type}

mutual

/-- The trees are equal, whatever the order of members is: two objects are of the same size, and
    each key of the one has the same value in the other. -/
def Tree.Same : Tree F → Tree F → Prop
  | .null, .null => True
  | .bool b, .bool c => b = c
  | .int i, .int j => i = j
  | .float x, .float y => x = y
  | .str s, .str t => s = t
  | .arr xs, .arr ys => itemsSame xs ys
  | .obj ms, .obj ns => ms.length = ns.length ∧ membersSame ms ns
  | _, _ => False

def itemsSame : List (Tree F) → List (Tree F) → Prop
  | [], [] => True
  | x :: xs, y :: ys => x.Same y ∧ itemsSame xs ys
  | _, _ => False

def membersSame : List (Str × Tree F) → List (Str × Tree F) → Prop
  | [], _ => True
  | (k, x) :: ms, ns => (∃ y, ns.lookup k = some y ∧ x.Same y) ∧ membersSame ms ns

end

/-! ## The order of keys -/

theorem CodePoint.toNat_injective : Function.Injective CodePoint.toNat := by
  have hne (c : Char) (n : Fin 0x800) : c.toNat ≠ 0xd800 + n := fun h => by
    have hvalid := c.valid
    have hn := n.isLt
    simp only [UInt32.isValidChar, Nat.isValidChar] at hvalid
    change c.val.toNat = 0xd800 + n at h
    omega
  rintro (c | n) (d | m) h
  · exact congrArg _ (Char.toNat_inj.1 h)
  · exact absurd h (hne c m)
  · exact absurd h.symm (hne d n)
  · exact congrArg _ (Fin.ext (Nat.add_left_cancel h))

/-- The order in which members are sorted. -/
abbrev KeyLE (m m' : Str × Tree F) : Prop := m.1.map CodePoint.toNat ≤ m'.1.map CodePoint.toNat

instance : Std.Total (KeyLE (F := F)) := ⟨fun _ _ => le_total _ _⟩

instance : IsTrans (Str × Tree F) KeyLE := ⟨fun _ _ _ => le_trans⟩

theorem sortMembers_eq_map (ms : List (Str × Tree F)) :
    sortMembers ms = ms.map fun m => (m.1, m.2.sortKeys) := by
  induction ms with
  | nil => rfl
  | cons m ms ih => rw [sortMembers, ih, List.map_cons]

theorem Tree.sortKeys_obj (ms : List (Str × Tree F)) : (Tree.obj ms).sortKeys =
    .obj ((ms.map fun m => (m.1, m.2.sortKeys)).insertionSort KeyLE) := by
  rw [sortKeys, sortMembers_eq_map]

theorem Tree.sortKeys_arr (items : List (Tree F)) :
    (Tree.arr items).sortKeys = .arr (items.map Tree.sortKeys) := by
  rw [sortKeys, sortItems_eq_map]

/-- Dictionaries are equal with their keys sorted if they have the same members. -/
theorem insertionSort_eq_iff {ms ns : List (Str × Tree F)} (hms : (ms.map Prod.fst).Nodup) :
    ms.insertionSort KeyLE = ns.insertionSort KeyLE ↔ ms.Perm ns := by
  constructor
  · intro h
    have hperm := List.perm_insertionSort KeyLE ms
    rw [h] at hperm
    exact hperm.symm.trans (List.perm_insertionSort KeyLE ns)
  · intro h
    have hperm : (ms.insertionSort KeyLE).Perm (ns.insertionSort KeyLE) :=
      (List.perm_insertionSort _ _).trans (h.trans (List.perm_insertionSort _ _).symm)
    refine hperm.eq_of_pairwise (fun m n hm hn hmn hnm => ?_)
      (List.pairwise_insertionSort _ _) (List.pairwise_insertionSort _ _)
    -- the order is one of keys, which are distinct
    have hkeys : m.1 = n.1 :=
      CodePoint.toNat_injective.list_map (le_antisymm hmn hnm)
    rw [List.mem_insertionSort] at hm hn
    exact List.inj_on_of_nodup_map hms hm (h.mem_iff.2 hn) hkeys

/-! ## Sorted trees -/

variable {φ : FloatFormat F} {maxDigits : ℕ} {x y : Tree F}

theorem keys_map_sortKeys (ms : List (Str × Tree F)) :
    (ms.map fun m => (m.1, m.2.sortKeys)).map Prod.fst = ms.map Prod.fst := by
  rw [List.map_map]
  rfl

theorem Tree.WellFormed.sortKeys (hx : x.WellFormed φ maxDigits) :
    x.sortKeys.WellFormed φ maxDigits := by
  induction x using Tree.induction with
  | null | bool b | int i | float x | str s => exact hx
  | arr items ih =>
    rw [WellFormed, itemsWellFormed_iff] at hx
    rw [sortKeys_arr, WellFormed, itemsWellFormed_iff]
    intro y hy
    obtain ⟨x, hmem, rfl⟩ := List.mem_map.1 hy
    exact ih x hmem (hx x hmem)
  | obj ms ih =>
    rw [WellFormed, membersWellFormed_iff] at hx
    rw [sortKeys_obj, WellFormed, membersWellFormed_iff]
    refine ⟨?_, fun n hn => ?_⟩
    · rw [((List.perm_insertionSort _ _).map _).nodup_iff, keys_map_sortKeys]
      exact hx.1
    · rw [List.mem_insertionSort] at hn
      obtain ⟨m, hmem, rfl⟩ := List.mem_map.1 hn
      exact ih m hmem (hx.2 m hmem)

/-- Trees with sorted keys are so already. -/
theorem Tree.WellFormed.sortKeys_sortKeys (hx : x.WellFormed φ maxDigits) :
    x.sortKeys.sortKeys = x.sortKeys := by
  induction x using Tree.induction with
  | null | bool b | int i | float x | str s => rfl
  | arr items ih =>
    rw [WellFormed, itemsWellFormed_iff] at hx
    rw [sortKeys_arr, sortKeys_arr, List.map_map]
    exact congrArg _ (List.map_congr_left fun x hmem => ih x hmem (hx x hmem))
  | obj ms ih =>
    rw [WellFormed, membersWellFormed_iff] at hx
    have hfixed : (ms.map fun m => (m.1, m.2.sortKeys)).map (fun m => (m.1, m.2.sortKeys)) =
        ms.map fun m => (m.1, m.2.sortKeys) := by
      rw [List.map_map]
      exact List.map_congr_left fun m hm => Prod.ext rfl (ih m hm (hx.2 m hm))
    have hperm := (List.perm_insertionSort KeyLE (ms.map fun m => (m.1, m.2.sortKeys))).map
      fun m => (m.1, m.2.sortKeys)
    rw [hfixed] at hperm
    have hkeys : ((ms.map fun m => (m.1, m.2.sortKeys)).map Prod.fst).Nodup := by
      rw [keys_map_sortKeys]
      exact hx.1
    rw [sortKeys_obj, sortKeys_obj]
    exact congrArg _ ((insertionSort_eq_iff hkeys).2 hperm.symm).symm

theorem Tree.Readable.sortKeys {ψ : StringFormat} (hx : x.Readable ψ) :
    x.sortKeys.Readable ψ := by
  induction x using Tree.induction with
  | null | bool b | int i | float x | str s => exact hx
  | arr items ih =>
    rw [Readable, itemsReadable_iff] at hx
    rw [sortKeys_arr, Readable, itemsReadable_iff]
    intro y hy
    obtain ⟨x, hmem, rfl⟩ := List.mem_map.1 hy
    exact ih x hmem (hx x hmem)
  | obj ms ih =>
    rw [Readable, membersReadable_iff] at hx
    rw [sortKeys_obj, Readable, membersReadable_iff]
    intro n hn
    rw [List.mem_insertionSort] at hn
    obtain ⟨m, hmem, rfl⟩ := List.mem_map.1 hn
    exact ⟨(hx m hmem).1, ih m hmem (hx m hmem).2⟩

theorem itemsSame_iff {xs ys : List (Tree F)} : itemsSame xs ys ↔ List.Forall₂ Tree.Same xs ys := by
  induction xs generalizing ys with
  | nil => cases ys <;> simp [itemsSame]
  | cons x xs ih => cases ys <;> simp [itemsSame, ih]

theorem membersSame_iff {ms ns : List (Str × Tree F)} : membersSame ms ns ↔
    ∀ m ∈ ms, ∃ y, ns.lookup m.1 = some y ∧ m.2.Same y := by
  induction ms with
  | nil => simp [membersSame]
  | cons m ms ih => rw [membersSame, ih, List.forall_mem_cons]

/-- Trees are the same up to the order of members if they are equal with their keys sorted. -/
theorem same_iff_sortKeys (hx : x.WellFormed φ maxDigits) (hy : y.WellFormed φ maxDigits) :
    x.Same y ↔ x.sortKeys = y.sortKeys := by
  induction x using Tree.induction generalizing y with
  | null | bool b | int i | float x | str s =>
    cases y <;> simp [Tree.Same, Tree.sortKeys]
  | arr xs ih =>
    cases y with
    | arr ys =>
      rw [Tree.WellFormed, itemsWellFormed_iff] at hx hy
      rw [Tree.Same, itemsSame_iff, Tree.sortKeys_arr, Tree.sortKeys_arr, Tree.arr.injEq]
      induction xs generalizing ys with
      | nil => cases ys <;> simp
      | cons x xs ihs =>
        cases ys with
        | nil => simp
        | cons y ys =>
          rw [List.forall_mem_cons] at ih hx hy
          rw [List.forall₂_cons, List.map_cons, List.map_cons, List.cons.injEq, ih.1 hx.1 hy.1,
            ihs ih.2 hx.2 ys hy.2]
    | _ => simp [Tree.Same, Tree.sortKeys]
  | obj ms ih =>
    cases y with
    | obj ns =>
      rw [Tree.WellFormed, membersWellFormed_iff] at hx hy
      have hkeys := keys_map_sortKeys ms
      rw [Tree.Same, membersSame_iff, Tree.sortKeys_obj, Tree.sortKeys_obj, Tree.obj.injEq,
        insertionSort_eq_iff (hkeys ▸ hx.1)]
      constructor
      · rintro ⟨hlength, hsame⟩
        refine ((List.subperm_of_subset (List.Nodup.of_map Prod.fst (hkeys ▸ hx.1)) ?_)
          |>.perm_of_length_le ?_)
        · intro n hn
          obtain ⟨m, hm, rfl⟩ := List.mem_map.1 hn
          obtain ⟨y, hlookup, hy'⟩ := hsame m hm
          have hmem := mem_of_lookup hlookup
          refine List.mem_map.2 ⟨(m.1, y), hmem, ?_⟩
          rw [(ih m hm (hx.2 m hm) (hy.2 _ hmem)).1 hy']
        · rw [List.length_map, List.length_map, hlength]
      · intro hperm
        refine ⟨by simpa using hperm.length_eq, fun m hm => ?_⟩
        obtain ⟨n, hn, heq⟩ := List.mem_map.1 (hperm.subset (List.mem_map_of_mem hm))
        obtain ⟨hk, hvalue⟩ := Prod.mk.inj heq
        refine ⟨n.2, ?_, (ih m hm (hx.2 m hm) (hy.2 n hn)).2 hvalue.symm⟩
        rw [← hk]
        exact lookup_of_mem hy.1 hn
    | _ => simp [Tree.Same, Tree.sortKeys]

end Json
