import Hyperforge.Library.JsonSchema

/-!
# Schemas that are nested

The schemas within a schema, where the name of a keyword tells how its value has them
(`Nesting`), from one schema to the next (`Within`) and at any depth (`Reaches`).

* `Within.induction`: induction on a schema, from those within it;
* `Nesting.Lift`: the relation of values of which the schemas are related, each at its place.
-/

namespace JsonSchema

open Json hiding Tree

/-- How the value of a keyword has schemas. -/
inductive Nesting
  | schema
  | map
  | list
  | data
  deriving DecidableEq

variable {F : Type} {n : Nesting} {nesting : Str → Nesting} {x y t s : Json.Tree F}
  {R R' : Json.Tree F → Json.Tree F → Prop}

/-- A schema that a value has. -/
inductive Nesting.Has : Nesting → Json.Tree F → Json.Tree F → Prop
  | schema (s : Json.Tree F) : Has schema s s
  | map {entries : List (Str × Json.Tree F)} {m : Str × Json.Tree F} (hm : m ∈ entries) :
    Has map (.obj entries) m.2
  | list {xs : List (Json.Tree F)} {s : Json.Tree F} (hs : s ∈ xs) : Has list (.arr xs) s

/-- A schema that a keyword of another has. -/
inductive Within (nesting : Str → Nesting) : Json.Tree F → Str → Json.Tree F → Prop
  | intro {ms : List (Str × Json.Tree F)} {k : Str} {x s : Json.Tree F} (hx : (k, x) ∈ ms)
    (hs : (nesting k).Has x s) : Within nesting (.obj ms) k s

theorem Within.schema {ms : List (Str × Json.Tree F)} {k : Str} (hk : nesting k = .schema)
    (hs : (k, s) ∈ ms) : Within nesting (.obj ms) k s := .intro hs (hk ▸ .schema s)

theorem Within.map {ms entries : List (Str × Json.Tree F)} {k name : Str}
    (hk : nesting k = .map) (hx : (k, .obj entries) ∈ ms) (hs : (name, s) ∈ entries) :
    Within nesting (.obj ms) k s := .intro hx (hk ▸ .map hs)

/-- A schema that is reached from another, through any nesting. -/
def Reaches (nesting : Str → Nesting) : Json.Tree F → Json.Tree F → Prop :=
  Relation.ReflTransGen fun t s => ∃ k, Within nesting t k s

/-- Induction on schemas. -/
theorem Within.induction (nesting : Str → Nesting) {P : Json.Tree F → Prop}
    (h : ∀ t, (∀ k s, Within nesting t k s → P s) → P t) (t : Json.Tree F) : P t := by
  -- the schemas of a map or of a list are two levels down: the induction goes through both
  suffices hall : P t ∧ ∀ n s, Nesting.Has n t s → P s from hall.1
  have hroot (t : Json.Tree F) (ht : ∀ k s, Within nesting t k s → P s)
      (hentries : ∀ s, Nesting.map.Has t s ∨ Nesting.list.Has t s → P s) :
      P t ∧ ∀ n s, Nesting.Has n t s → P s := by
    refine ⟨h t ht, fun n s hs => ?_⟩
    cases hs with
    | schema => exact h t ht
    | map hm => exact hentries _ (.inl (.map hm))
    | list hs => exact hentries _ (.inr (.list hs))
  induction t using Json.Tree.induction with
  | arr items ih =>
    refine hroot _ (fun k s hs => by cases hs) fun s hs => ?_
    rcases hs with hs | hs
    · cases hs
    · cases hs with
      | list hs => exact (ih s hs).1
  | obj ms ih =>
    refine hroot _ (fun k s hs => ?_) fun s hs => ?_
    · cases hs with
      | intro hx hs => exact (ih _ hx).2 _ s hs
    · rcases hs with hs | hs
      · cases hs with
        | map hm => exact (ih _ hm).1
      · cases hs
  | _ =>
    exact hroot _ (fun k s hs => by cases hs) fun s hs => by rcases hs with hs | hs <;> cases hs

/-! ## Values that correspond -/

/-- Members that are related each to one with its key are found under the same keys. -/
theorem lookup_of_forall₂ {P : Str → Json.Tree F → Json.Tree F → Prop}
    {ms ms' : List (Str × Json.Tree F)}
    (h : List.Forall₂ (fun m m' => m.1 = m'.1 ∧ P m.1 m.2 m'.2) ms ms') (k : Str) :
    Option.Rel (P k) (ms.lookup k) (ms'.lookup k) := by
  induction h with
  | nil => exact .none
  | @cons m m' ms ms' hm _ ih =>
    rw [lookup_cons_eq, lookup_cons_eq, ← hm.1]
    split_ifs with hk
    · exact .some (hk ▸ hm.2)
    · exact ih

/-- The schemas of a value are related to those of another, each at its place. -/
inductive Nesting.Lift (R : Json.Tree F → Json.Tree F → Prop) :
    Nesting → Json.Tree F → Json.Tree F → Prop
  | schema {x y : Json.Tree F} (h : R x y) : Lift R schema x y
  | map {ms ms' : List (Str × Json.Tree F)}
    (h : List.Forall₂ (fun m m' => m.1 = m'.1 ∧ R m.2 m'.2) ms ms') :
    Lift R map (.obj ms) (.obj ms')
  | list {xs ys : List (Json.Tree F)} (h : List.Forall₂ R xs ys) : Lift R list (.arr xs) (.arr ys)
  | kept {n : Nesting} {x : Json.Tree F} (h : ∀ s, ¬n.Has x s) : Lift R n x x

namespace Nesting.Lift

theorem exists_right (h : n.Lift R x y) (hs : n.Has x s) : ∃ s', n.Has y s' ∧ R s s' := by
  cases h with
  | schema h =>
    cases hs
    exact ⟨y, .schema y, h⟩
  | map h =>
    cases hs with
    | map hm =>
      obtain ⟨m', hm', -, hR⟩ := exists_of_mem_forall₂ h.flip hm
      exact ⟨m'.2, .map hm', hR⟩
  | list h =>
    cases hs with
    | list hs =>
      obtain ⟨s', hs', hR⟩ := exists_of_mem_forall₂ h.flip hs
      exact ⟨s', .list hs', hR⟩
  | kept h => exact absurd hs (h s)

theorem exists_left (h : n.Lift R x y) (hs : n.Has y s) : ∃ s', n.Has x s' ∧ R s' s := by
  cases h with
  | schema h =>
    cases hs
    exact ⟨x, .schema x, h⟩
  | map h =>
    cases hs with
    | map hm =>
      obtain ⟨m', hm', -, hR⟩ := exists_of_mem_forall₂ h hm
      exact ⟨m'.2, .map hm', hR⟩
  | list h =>
    cases hs with
    | list hs =>
      obtain ⟨s', hs', hR⟩ := exists_of_mem_forall₂ h hs
      exact ⟨s', .list hs', hR⟩
  | kept h => exact absurd hs (h s)

/-- A value is related to itself if its schemas are. -/
theorem refl (h : ∀ s, n.Has x s → R s s) : n.Lift R x x := by
  by_cases hx : ∃ s, n.Has x s
  · obtain ⟨s, hs⟩ := hx
    cases hs with
    | schema => exact .schema (h x (.schema x))
    | map => exact .map (List.forall₂_same.2 fun m hm => ⟨rfl, h m.2 (.map hm)⟩)
    | list => exact .list (List.forall₂_same.2 fun s hs => h s (.list hs))
  · exact .kept fun s hs => hx ⟨s, hs⟩

/-- A value is related to some value if its schemas are to some. -/
theorem exists_of_has (h : ∀ s, n.Has x s → ∃ s', R s s') : ∃ y, n.Lift R x y := by
  by_cases hx : ∃ s, n.Has x s
  · obtain ⟨s, hs⟩ := hx
    cases hs with
    | schema =>
      obtain ⟨y, hy⟩ := h x (.schema x)
      exact ⟨y, .schema hy⟩
    | @map entries _ _ =>
      choose! f hf using h
      exact ⟨.obj (entries.map fun m => (m.1, f m.2)), .map <| List.forall₂_map_right_iff.2 <|
        List.forall₂_same.2 fun m hm => ⟨rfl, hf m.2 (.map hm)⟩⟩
    | @list xs _ _ =>
      choose! f hf using h
      exact ⟨.arr (xs.map f), .list <| List.forall₂_map_right_iff.2 <|
        List.forall₂_same.2 fun s hs => hf s (.list hs)⟩
  · exact ⟨x, .kept fun s hs => hx ⟨s, hs⟩⟩

end Nesting.Lift

/-- What is done to each schema of a value. -/
def Nesting.mapSchemas (f : Json.Tree F → Json.Tree F) : Nesting → Json.Tree F → Json.Tree F
  | .schema, x => f x
  | .map, .obj entries => .obj (entries.map fun m => (m.1, f m.2))
  | .list, .arr xs => .arr (xs.map f)
  | _, x => x

/-- What is the same of schemas that are related, is the same of values of which the schemas
    are. -/
theorem Nesting.Lift.mapSchemas_eq {f : Json.Tree F → Json.Tree F} (h : n.Lift R x y)
    (hf : ∀ s s', n.Has x s → R s s' → f s' = f s) : n.mapSchemas f y = n.mapSchemas f x := by
  cases h with
  | schema h => exact hf _ _ (.schema x) h
  | @map ms ms' h =>
    rw [mapSchemas, mapSchemas, Json.Tree.obj.injEq]
    replace hf (m : Str × Json.Tree F) (hm : m ∈ ms) (s' : Json.Tree F) (hR : R m.2 s') :
      f s' = f m.2 := hf _ _ (.map hm) hR
    induction h with
    | nil => rfl
    | cons hm _ ih =>
      rw [List.map_cons, List.map_cons, hm.1, hf _ List.mem_cons_self _ hm.2,
        ih fun m hm => hf m (List.mem_cons_of_mem _ hm)]
  | @list xs ys h =>
    rw [mapSchemas, mapSchemas, Json.Tree.arr.injEq]
    replace hf (s : Json.Tree F) (hs : s ∈ xs) (s' : Json.Tree F) (hR : R s s') : f s' = f s :=
      hf _ _ (.list hs) hR
    induction h with
    | nil => rfl
    | cons hs _ ih =>
      rw [List.map_cons, List.map_cons, hf _ List.mem_cons_self _ hs,
        ih fun s hs => hf s (List.mem_cons_of_mem _ hs)]
  | kept h => rfl

end JsonSchema
