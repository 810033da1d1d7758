import Hyperforge.Library.Json
import Mathlib.Algebra.Order.BigOperators.Group.List
import Mathlib.Algebra.Order.Group.Nat
import Mathlib.Data.List.Flatten
import Mathlib.Data.List.Perm.Subperm
import Mathlib.Data.Set.List

/-!
# Members with one key

What the reader makes of a tree in which an object has several members with one key
(`Json.Tree.collapse`): the keys are distinct (`Tree.Lexical.wellFormed_collapse`), the members are
among those of the object (`dict_subset`), and the text has no more characters, in another order
(`text_collapse_subperm`). So if the text of a tree has an encoding, the tree that is read from it
is written as at most as many bytes (`exists_encodeUtf8_collapse`).
-/

namespace Json

open scoped List

section Dict

variable {α : Type*} {d ms : List (Str × α)} {k : Str} {x : α}

theorem keys_setItem : (setItem d k x).map Prod.fst =
    if k ∈ d.map Prod.fst then d.map Prod.fst else d.map Prod.fst ++ [k] := by
  rw [setItem]
  split_ifs with hk
  · rw [List.map_map]
    refine List.map_congr_left fun p _ => ?_
    rw [Function.comp_apply]
    split_ifs with hp
    · exact hp.symm
    · rfl
  · rw [List.map_append, List.map_singleton]

theorem nodup_setItem (h : (d.map Prod.fst).Nodup) : ((setItem d k x).map Prod.fst).Nodup := by
  rw [keys_setItem]
  split_ifs with hk
  · exact h
  · rw [← List.concat_eq_append, List.nodup_concat]
    exact ⟨hk, h⟩

theorem mem_setItem {p : Str × α} (h : p ∈ setItem d k x) : p = (k, x) ∨ p ∈ d := by
  rw [setItem] at h
  split_ifs at h with hk
  · obtain ⟨q, hq, rfl⟩ := List.mem_map.1 h
    split_ifs
    · exact .inl rfl
    · exact .inr hq
  · exact (List.mem_append.1 h).symm.imp_left List.mem_singleton.1

theorem nodup_foldl_setItem (h : (d.map Prod.fst).Nodup) :
    ((ms.foldl (fun d m => setItem d m.1 m.2) d).map Prod.fst).Nodup := by
  induction ms generalizing d with
  | nil => exact h
  | cons m ms ih => exact ih (nodup_setItem h)

theorem mem_foldl_setItem {p : Str × α} (h : p ∈ ms.foldl (fun d m => setItem d m.1 m.2) d) :
    p ∈ d ∨ p ∈ ms := by
  induction ms generalizing d with
  | nil => exact .inl h
  | cons m ms ih =>
    rcases ih h with h | h
    · rcases mem_setItem h with rfl | h
      · exact .inr List.mem_cons_self
      · exact .inl h
    · exact .inr (List.mem_cons_of_mem _ h)

/-- The keys of a dictionary are distinct. -/
theorem nodup_dict (ms : List (Str × α)) : ((dict ms).map Prod.fst).Nodup :=
  nodup_foldl_setItem List.nodup_nil

theorem dict_subset (ms : List (Str × α)) : dict ms ⊆ ms := fun _ hp =>
  (mem_foldl_setItem hp).resolve_left List.not_mem_nil

theorem dict_subperm (ms : List (Str × α)) : dict ms <+~ ms :=
  List.subperm_of_subset (nodup_dict ms).of_map (dict_subset ms)

end Dict

/-! ## Trees as they are read -/

variable {F : Type} {φ : FloatFormat F} {maxDigits : ℕ}

theorem Tree.collapse_obj (ms : List (Str × Tree F)) :
    (Tree.obj ms).collapse = .obj (dict (ms.map fun m => (m.1, m.2.collapse))) := by
  rw [collapse, collapseMembers_eq_map]

/-- The members of an object as it is read. -/
theorem exists_of_mem_collapse {ms : List (Str × Tree F)} {p : Str × Tree F}
    (h : p ∈ dict (ms.map fun m => (m.1, m.2.collapse))) :
    ∃ m ∈ ms, m.1 = p.1 ∧ m.2.collapse = p.2 := by
  obtain ⟨m, hm, rfl⟩ := List.mem_map.1 (dict_subset _ h)
  exact ⟨m, hm, rfl, rfl⟩

/-- The keys of a tree as it is read are distinct. -/
theorem Tree.Lexical.wellFormed_collapse {x : Tree F} (hx : x.Lexical φ maxDigits) :
    x.collapse.WellFormed φ maxDigits := by
  induction x using Tree.induction with
  | null | bool b | int i | float x | str s => exact hx
  | arr items ih =>
    rw [Lexical, itemsLexical_iff] at hx
    rw [collapse, collapseItems_eq_map, WellFormed, itemsWellFormed_iff, List.forall_mem_map]
    exact fun x hmem => ih x hmem (hx x hmem)
  | obj ms ih =>
    rw [Lexical, membersLexical_iff] at hx
    rw [collapse_obj, WellFormed, membersWellFormed_iff]
    refine ⟨nodup_dict _, fun p hp => ?_⟩
    obtain ⟨m, hm, -, heq⟩ := exists_of_mem_collapse hp
    rw [← heq]
    exact ih m hm (hx m hm)

/-! ## Their text -/

theorem itemsText_one (xs : List (Tree F)) :
    itemsText φ 1 xs = xs.flatMap fun x => .scalar ',' :: x.text φ := by
  induction xs with
  | nil => rfl
  | cons x xs ih =>
    rw [itemsText, itemsText_succ, ih, List.flatMap_cons]
    rfl

/-- A member of an object, after others. -/
def memberText (φ : FloatFormat F) (m : Str × Tree F) : Str :=
  .scalar ',' :: (quote m.1 ++ .scalar ':' :: m.2.text φ)

theorem membersText_one (ms : List (Str × Tree F)) :
    membersText φ 1 ms = ms.flatMap (memberText φ) := by
  induction ms with
  | nil => rfl
  | cons m ms ih =>
    rw [membersText, membersText_succ, ih, List.flatMap_cons, memberText]
    simp [comma]

theorem itemsText_zero_subperm {xs ys : List (Tree F)}
    (h : itemsText φ 1 xs <+~ itemsText φ 1 ys) : itemsText φ 0 xs <+~ itemsText φ 0 ys := by
  rcases xs with _ | ⟨x, xs⟩
  · exact List.nil_subperm
  rcases ys with _ | ⟨y, ys⟩
  · rw [itemsText_one_cons] at h
    exact absurd h.length_le (by simp [itemsText])
  · rw [itemsText_one_cons, itemsText_one_cons, List.subperm_cons] at h
    exact h

theorem membersText_zero_subperm {ms ns : List (Str × Tree F)}
    (h : membersText φ 1 ms <+~ membersText φ 1 ns) :
    membersText φ 0 ms <+~ membersText φ 0 ns := by
  rcases ms with _ | ⟨m, ms⟩
  · exact List.nil_subperm
  rcases ns with _ | ⟨n, ns⟩
  · rw [membersText_one_cons] at h
    exact absurd h.length_le (by simp [membersText])
  · rw [membersText_one_cons, membersText_one_cons, List.subperm_cons] at h
    exact h

theorem flatMap_map_subperm {α β : Type*} {f : α → List β} {g : α → α} {l : List α}
    (h : ∀ a ∈ l, f (g a) <+~ f a) : (l.map g).flatMap f <+~ l.flatMap f := by
  induction l with
  | nil => exact .refl _
  | cons a l ih =>
    rw [List.map_cons, List.flatMap_cons, List.flatMap_cons]
    exact (h a List.mem_cons_self).append (ih fun b hb => h b (List.mem_cons_of_mem _ hb))

theorem flatMap_subperm {α β : Type*} {l l' : List α} (h : l <+~ l') (f : α → List β) :
    l.flatMap f <+~ l'.flatMap f := by
  obtain ⟨l'', hperm, hsub⟩ := h
  exact (hperm.flatMap_right f).symm.subperm.trans (hsub.flatMap f).subperm

/-- The text of a tree as it is read has no other characters, nor more of any. -/
theorem text_collapse_subperm (x : Tree F) : x.collapse.text φ <+~ x.text φ := by
  induction x using Tree.induction with
  | null | bool b | int i | float x | str s => exact .refl _
  | arr items ih =>
    have hitems : itemsText φ 1 (items.map Tree.collapse) <+~ itemsText φ 1 items := by
      rw [itemsText_one, itemsText_one]
      exact flatMap_map_subperm fun x hx => (List.subperm_cons _).2 (ih x hx)
    rw [Tree.collapse, collapseItems_eq_map, Tree.text, Tree.text]
    exact ((List.subperm_cons _).2 (itemsText_zero_subperm hitems)).append (.refl _)
  | obj ms ih =>
    have hms : membersText φ 1 (dict (ms.map fun m => (m.1, m.2.collapse))) <+~
        membersText φ 1 ms := by
      rw [membersText_one, membersText_one]
      refine (flatMap_subperm (dict_subperm _) _).trans (flatMap_map_subperm fun m hm => ?_)
      rw [memberText, memberText, List.subperm_cons]
      exact (List.Subperm.refl _).append ((List.subperm_cons _).2 (ih m hm))
    rw [Tree.collapse_obj, Tree.text, Tree.text]
    exact ((List.subperm_cons _).2 (membersText_zero_subperm hms)).append (.refl _)

/-! ## Its encoding -/

theorem size_utf8Encode (cs : List Char) :
    cs.utf8Encode.size = (cs.flatMap String.utf8EncodeChar).length := by
  rw [List.utf8Encode, List.size_toByteArray]

theorem scalar_injective : Function.Injective CodePoint.scalar := fun _ _ => CodePoint.scalar.inj

/-- With some of the characters of a string, a string has an encoding if that has one, which is no
    longer. -/
theorem exists_encodeUtf8_of_subperm {s t : Str} {bytes : ByteArray} (h : s <+~ t)
    (ht : encodeUtf8 t = some bytes) :
    ∃ bytes', encodeUtf8 s = some bytes' ∧ bytes'.size ≤ bytes.size := by
  obtain ⟨cs, rfl, rfl⟩ := encodeUtf8_eq_some.1 ht
  obtain ⟨ds, rfl⟩ : s ∈ Set.range chars := by
    refine (Set.range_list_map CodePoint.scalar).symm ▸ fun c hc => ?_
    obtain ⟨d, -, rfl⟩ := List.mem_map.1 (h.subset hc)
    exact Set.mem_range_self d
  refine ⟨_, encodeUtf8_chars ds, ?_⟩
  obtain ⟨es, hperm, hsub⟩ := (List.map_subperm_map_iff scalar_injective).1 h
  rw [size_utf8Encode, size_utf8Encode, ← (hperm.flatMap_right _).length_eq]
  exact (hsub.flatMap _).length_le

theorem exists_encodeUtf8_collapse {x : Tree F} {bytes : ByteArray}
    (h : encodeUtf8 (x.text φ) = some bytes) :
    ∃ bytes', encodeUtf8 (x.collapse.text φ) = some bytes' ∧ bytes'.size ≤ bytes.size :=
  exists_encodeUtf8_of_subperm (text_collapse_subperm x) h

end Json
