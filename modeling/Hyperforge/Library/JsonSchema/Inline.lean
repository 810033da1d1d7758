import Hyperforge.Library.JsonSchema

/-!
# Inlined references

A document with references is replaced by one without (`JsonSchema.inline`): an object that has a
reference, by the object it is to, itself inlined, overlaid with the other members of the first; and
members that hold definitions are removed. Which values of members are inlined, as a schema or as a
map of schemas, depends on their name (`Kind`); the others are left as they are.

* `exists_inlines_iff`: a document may be inlined if and only if its references lead somewhere,
  and never in circles (`Resolves`);
* `Inlines.unique`: to one document only.
-/

namespace JsonSchema

open Json hiding Tree

abbrev Object (F : Type) := List (Str × Json.Tree F)

/-- The members that are not kept. -/
def removedKeywords : List Str := [refKeyword, .ofString "$defs", .ofString "definitions"]

/-- What the value of a member is. -/
inductive Kind
  | schema
  | schemas
  | data
  deriving DecidableEq

section

variable {F : Type}

/-- The members that are kept. -/
def siblings (schema : Object F) : Object F := schema.filter (·.1 ∉ removedKeywords)

def members : Json.Tree F → Object F
  | .obj ms => ms
  | _ => []

/-- A value of a member is inlined by `f`. -/
def inlineKeyword (f : Json.Tree F → Option (Json.Tree F)) :
    Kind → Json.Tree F → Option (Json.Tree F)
  | .schema, x => f x
  | .schemas, .obj ms => (ms.mapM fun m => (f m.2).map (m.1, ·)).map .obj
  | _, x => some x

/-- The members that are kept, over what the reference is to, inlined by `f`. -/
def overlay (f : Json.Tree F → Option (Json.Tree F)) (kept : Object F) :
    Option (Object F) → Option (Json.Tree F)
  | none => some (.obj kept)
  | some target => (f (.obj target)).map fun base => .obj (update (members base) kept)

variable (kind : Str → Kind) (find : Option (Json.Tree F) → Option (Option (Object F)))

/-- Inlining the references of a document, those of an object leading where `find` tells. -/
def inline : (levels : ℕ) → Json.Tree F → Option (Json.Tree F)
  | 0, _ => none
  | levels + 1, .arr items => (items.mapM (inline levels)).map .arr
  | levels + 1, .obj schema => do
    let target ← find (schema.lookup refKeyword)
    let kept ← (siblings schema).mapM fun m =>
      (inlineKeyword (inline levels) (kind m.1) m.2).map (m.1, ·)
    overlay (inline levels) kept target
  | _ + 1, value => some value

/-- The documents that inlining a document depends on. -/
inductive Step : Json.Tree F → Json.Tree F → Prop
  | item {items : List (Json.Tree F)} {x : Json.Tree F} (h : x ∈ items) : Step x (.arr items)
  | target {schema target : Object F} (h : find (schema.lookup refKeyword) = some (some target)) :
    Step (.obj target) (.obj schema)
  | schema {schema : Object F} {k : Str} {x : Json.Tree F} (h : (k, x) ∈ siblings schema)
    (hk : kind k = .schema) : Step x (.obj schema)
  | schemas {schema ms : Object F} {k : Str} {m : Str × Json.Tree F}
    (h : (k, .obj ms) ∈ siblings schema) (hk : kind k = .schemas) (hm : m ∈ ms) :
    Step m.2 (.obj schema)

/-- The references of a document lead somewhere, and never in circles. -/
inductive Resolves : Json.Tree F → Prop
  | intro {x : Json.Tree F}
    (hfind : ∀ schema, x = .obj schema → (find (schema.lookup refKeyword)).isSome)
    (h : ∀ y, Step kind find y x → Resolves y) : Resolves x

/-- A document is inlined to another. -/
def Inlines (x y : Json.Tree F) : Prop := ∃ levels, inline kind find levels x = some y

/-- The relation of the value of a member to what it is inlined to. -/
inductive Kind.Lift (R : Json.Tree F → Json.Tree F → Prop) :
    Kind → Json.Tree F → Json.Tree F → Prop
  | schema {x y : Json.Tree F} (h : R x y) : Lift R schema x y
  | schemas {ms ns : Object F} (h : List.Forall₂ (fun m n => m.1 = n.1 ∧ R m.2 n.2) ms ns) :
    Lift R schemas (.obj ms) (.obj ns)
  | notMap {x : Json.Tree F} (h : ∀ ms, x ≠ .obj ms) : Lift R schemas x x
  | data (x : Json.Tree F) : Lift R data x x

/-- The relation of a member to what it is inlined to. -/
def Entry (R : Json.Tree F → Json.Tree F → Prop) (m n : Str × Json.Tree F) : Prop :=
  m.1 = n.1 ∧ (kind m.1).Lift R m.2 n.2

/-- An object is inlined to another, if `R` tells what other documents are inlined to. -/
inductive InlinesObject (R : Json.Tree F → Json.Tree F → Prop) : Object F → Object F → Prop
  | kept {schema kept : Object F} (hfind : find (schema.lookup refKeyword) = some none)
    (hkept : List.Forall₂ (Entry kind R) (siblings schema) kept) :
    InlinesObject R schema kept
  | target {schema target base kept : Object F}
    (hfind : find (schema.lookup refKeyword) = some (some target))
    (hbase : R (.obj target) (.obj base))
    (hkept : List.Forall₂ (Entry kind R) (siblings schema) kept) :
    InlinesObject R schema (update base kept)

end

variable {F : Type} {kind : Str → Kind} {find : Option (Json.Tree F) → Option (Option (Object F))}
  {R R' : Json.Tree F → Json.Tree F → Prop} {x y : Json.Tree F} {schema out : Object F}

/-! ## The rules -/

theorem mapM_eq_some {α β : Type} {f : α → Option β} {xs : List α} {ys : List β} :
    xs.mapM f = some ys ↔ List.Forall₂ (fun x y => f x = some y) xs ys := by
  induction xs generalizing ys with
  | nil => simp [eq_comm]
  | cons x xs ih =>
    rw [List.mapM_cons]
    constructor
    · intro h
      obtain ⟨y, hy, h⟩ := Option.bind_eq_some_iff.1 h
      obtain ⟨zs, hzs, h⟩ := Option.bind_eq_some_iff.1 h
      cases h
      exact .cons hy (ih.1 hzs)
    · rintro (_ | ⟨hy, hys⟩)
      simp [hy, ih.2 hys]

theorem mapM_values_eq_some {f : Str → Json.Tree F → Option (Json.Tree F)} {ms ns : Object F} :
    (ms.mapM fun m => (f m.1 m.2).map (m.1, ·)) = some ns ↔
      List.Forall₂ (fun m n => m.1 = n.1 ∧ f m.1 m.2 = some n.2) ms ns := by
  rw [mapM_eq_some]
  refine ⟨fun h => h.imp ?_, fun h => h.imp ?_⟩
  · rintro m n hn
    obtain ⟨y, hy, rfl⟩ := Option.map_eq_some_iff.1 hn
    exact ⟨rfl, hy⟩
  · rintro m ⟨k, y⟩ ⟨rfl, hy⟩
    simp [hy]

theorem inlineKeyword_eq_some {f : Json.Tree F → Option (Json.Tree F)} {c : Kind} :
    inlineKeyword f c x = some y ↔ c.Lift (fun x y => f x = some y) x y := by
  cases c with
  | schema =>
    refine ⟨fun h => .schema h, fun h => ?_⟩
    cases h with
    | schema h => exact h
  | data =>
    refine ⟨fun h => ?_, fun h => ?_⟩
    · cases h
      exact .data x
    · cases h
      rfl
  | schemas =>
    cases x with
    | obj ms =>
      rw [inlineKeyword, Option.map_eq_some_iff]
      refine ⟨fun h => ?_, fun h => ?_⟩
      · obtain ⟨ns, hns, rfl⟩ := h
        exact .schemas ((mapM_values_eq_some (f := fun _ => f)).1 hns)
      · cases h with
        | schemas h => exact ⟨_, (mapM_values_eq_some (f := fun _ => f)).2 h, rfl⟩
        | notMap h => exact absurd rfl (h ms)
    | _ =>
      refine ⟨fun h => ?_, fun h => ?_⟩
      · cases h
        exact .notMap fun _ h => by cases h
      · cases h
        rfl

theorem Kind.Lift.mono {c : Kind} (h : c.Lift R x y) (hR : ∀ x y, R x y → R' x y) :
    c.Lift R' x y := by
  cases h with
  | schema h => exact .schema (hR _ _ h)
  | schemas h => exact .schemas (h.imp fun _ _ h => ⟨h.1, hR _ _ h.2⟩)
  | notMap h => exact .notMap h
  | data => exact .data _

theorem InlinesObject.mono (h : InlinesObject kind find R schema out)
    (hR : ∀ x y, R x y → R' x y) : InlinesObject kind find R' schema out := by
  have hentry (m n : Str × Json.Tree F) (h : Entry kind R m n) : Entry kind R' m n :=
    ⟨h.1, h.2.mono hR⟩
  cases h with
  | kept hfind hkept => exact .kept hfind (hkept.imp hentry)
  | target hfind hbase hkept => exact .target hfind (hR _ _ hbase) (hkept.imp hentry)

theorem inline_arr {n : ℕ} {items : List (Json.Tree F)} :
    inline kind find (n + 1) (.arr items) = some y ↔
      ∃ ys, y = .arr ys ∧ List.Forall₂ (fun x y => inline kind find n x = some y) items ys := by
  rw [inline, Option.map_eq_some_iff]
  simp only [mapM_eq_some, eq_comm, and_comm]

/-- An object is inlined to one. -/
theorem eq_obj_of_inline {n : ℕ} (h : inline kind find n (.obj schema) = some y) :
    y = .obj (members y) := by
  cases n with
  | zero => cases h
  | succ n =>
    obtain ⟨T, -, h⟩ := Option.bind_eq_some_iff.1 h
    obtain ⟨kept, -, h⟩ := Option.bind_eq_some_iff.1 h
    rcases T with _ | target
    · cases h
      rfl
    · obtain ⟨base, -, rfl⟩ := Option.map_eq_some_iff.1 h
      rfl

theorem inline_obj {n : ℕ} : inline kind find (n + 1) (.obj schema) = some y ↔ ∃ out,
    y = .obj out ∧
      InlinesObject kind find (fun x y => inline kind find n x = some y) schema out := by
  have hkept {kept : Object F} : ((siblings schema).mapM fun m =>
      (inlineKeyword (inline kind find n) (kind m.1) m.2).map (m.1, ·)) = some kept ↔
      List.Forall₂ (Entry kind fun x y => inline kind find n x = some y)
        (siblings schema) kept := by
    rw [mapM_values_eq_some (f := fun k => inlineKeyword (inline kind find n) (kind k))]
    simp only [inlineKeyword_eq_some]
    rfl
  constructor
  · intro h
    obtain ⟨T, hT, h⟩ := Option.bind_eq_some_iff.1 h
    obtain ⟨kept, hkept', h⟩ := Option.bind_eq_some_iff.1 h
    rcases T with _ | target
    · cases h
      exact ⟨_, rfl, .kept hT (hkept.1 hkept')⟩
    · obtain ⟨z, hz, rfl⟩ := Option.map_eq_some_iff.1 h
      exact ⟨_, rfl, .target hT (eq_obj_of_inline hz ▸ hz) (hkept.1 hkept')⟩
  · rintro ⟨out, rfl, h⟩
    cases h with
    | kept hfind h => simp [inline, hfind, overlay, hkept.2 h]
    | target hfind hbase h => simp [inline, hfind, overlay, hbase, members, hkept.2 h]

/-- More levels inline to the same. -/
theorem inline_succ {n : ℕ} (h : inline kind find n x = some y) :
    inline kind find (n + 1) x = some y := by
  induction n generalizing x y with
  | zero => cases h
  | succ n ih =>
    cases x with
    | arr items =>
      obtain ⟨ys, rfl, hys⟩ := inline_arr.1 h
      exact inline_arr.2 ⟨ys, rfl, hys.imp fun _ _ h => ih h⟩
    | obj schema =>
      obtain ⟨out, rfl, hout⟩ := inline_obj.1 h
      exact inline_obj.2 ⟨out, rfl, hout.mono fun _ _ h => ih h⟩
    | _ => exact h

theorem inline_of_le {n m : ℕ} (hnm : n ≤ m) (h : inline kind find n x = some y) :
    inline kind find m x = some y := by
  induction hnm with
  | refl => exact h
  | step _ ih => exact inline_succ ih

/-- Relations that grow with the levels hold of lists at one level. -/
theorem exists_forall₂ {α β : Type} {P : ℕ → α → β → Prop}
    (hP : ∀ n m, n ≤ m → ∀ a b, P n a b → P m a b) {xs : List α} {ys : List β}
    (h : List.Forall₂ (fun a b => ∃ n, P n a b) xs ys) : ∃ n, List.Forall₂ (P n) xs ys := by
  induction h with
  | nil => exact ⟨0, .nil⟩
  | cons h _ ih =>
    obtain ⟨n, hn⟩ := h
    obtain ⟨m, hm⟩ := ih
    exact ⟨max n m, .cons (hP n _ (le_max_left n m) _ _ hn)
      (hm.imp fun _ _ h => hP m _ (le_max_right n m) _ _ h)⟩

theorem Kind.Lift.exists_level {c : Kind} (h : c.Lift (Inlines kind find) x y) :
    ∃ n, c.Lift (fun x y => inline kind find n x = some y) x y := by
  cases h with
  | schema h =>
    obtain ⟨n, hn⟩ := h
    exact ⟨n, .schema hn⟩
  | schemas h =>
    have h : List.Forall₂ (fun m n : Str × Json.Tree F =>
        ∃ k, m.1 = n.1 ∧ inline kind find k m.2 = some n.2) _ _ :=
      h.imp fun _ _ h => h.2.imp fun _ hx => ⟨h.1, hx⟩
    obtain ⟨n, hn⟩ := exists_forall₂ (fun n m hnm _ _ h => ⟨h.1, inline_of_le hnm h.2⟩) h
    exact ⟨n, .schemas hn⟩
  | notMap h => exact ⟨0, .notMap h⟩
  | data => exact ⟨0, .data _⟩

theorem exists_entries {ms kept : Object F}
    (h : List.Forall₂ (Entry kind (Inlines kind find)) ms kept) :
    ∃ n, List.Forall₂ (Entry kind fun x y => inline kind find n x = some y) ms kept := by
  refine exists_forall₂ (fun n m hnm _ _ h => ⟨h.1, h.2.mono fun _ _ h => inline_of_le hnm h⟩)
    (h.imp fun _ _ h => ?_)
  obtain ⟨n, hn⟩ := h.2.exists_level
  exact ⟨n, h.1, hn⟩

theorem inlines_arr {items : List (Json.Tree F)} : Inlines kind find (.arr items) y ↔
    ∃ ys, y = .arr ys ∧ List.Forall₂ (Inlines kind find) items ys := by
  constructor
  · rintro ⟨_ | n, h⟩
    · cases h
    · obtain ⟨ys, rfl, hys⟩ := inline_arr.1 h
      exact ⟨ys, rfl, hys.imp fun _ _ h => ⟨n, h⟩⟩
  · rintro ⟨ys, rfl, hys⟩
    obtain ⟨n, hn⟩ := exists_forall₂ (P := fun n x y => inline kind find n x = some y)
      (fun n m hnm _ _ h => inline_of_le hnm h) hys
    exact ⟨n + 1, inline_arr.2 ⟨ys, rfl, hn⟩⟩

theorem inlines_obj : Inlines kind find (.obj schema) y ↔
    ∃ out, y = .obj out ∧ InlinesObject kind find (Inlines kind find) schema out := by
  constructor
  · rintro ⟨_ | n, h⟩
    · cases h
    · obtain ⟨out, rfl, hout⟩ := inline_obj.1 h
      exact ⟨out, rfl, hout.mono fun _ _ h => ⟨n, h⟩⟩
  · rintro ⟨out, rfl, h⟩
    cases h with
    | kept hfind hkept =>
      obtain ⟨n, hn⟩ := exists_entries hkept
      exact ⟨n + 1, inline_obj.2 ⟨_, rfl, .kept hfind hn⟩⟩
    | target hfind hbase hkept =>
      obtain ⟨n, hn⟩ := exists_entries hkept
      obtain ⟨m, hm⟩ := hbase
      refine ⟨max n m + 1, inline_obj.2 ⟨_, rfl, .target hfind
        (inline_of_le (le_max_right n m) hm) (hn.imp fun _ _ h => ⟨h.1, h.2.mono ?_⟩)⟩⟩
      exact fun _ _ h => inline_of_le (le_max_left n m) h

def IsContainer : Json.Tree F → Bool
  | .arr _ | .obj _ => true
  | _ => false

theorem inlines_scalar (hx : IsContainer x = false) : Inlines kind find x y ↔ y = x := by
  constructor
  · rintro ⟨_ | n, h⟩
    · cases h
    · cases x <;> first | (cases h; rfl) | cases hx
  · rintro rfl
    refine ⟨1, ?_⟩
    cases y <;> first | rfl | cases hx

/-- A document is inlined to one only. -/
theorem Inlines.unique {y' : Json.Tree F} (h : Inlines kind find x y)
    (h' : Inlines kind find x y') : y = y' := by
  obtain ⟨n, h⟩ := h
  obtain ⟨m, h'⟩ := h'
  have hn := inline_of_le (le_max_left n m) h
  rw [inline_of_le (le_max_right n m) h'] at hn
  exact (Option.some.inj hn).symm

theorem Kind.Lift.unique {c : Kind} {y' : Json.Tree F} (h : c.Lift (Inlines kind find) x y)
    (h' : c.Lift (Inlines kind find) x y') : y = y' := by
  cases h with
  | schema h =>
    cases h' with
    | schema h' => exact h.unique h'
  | data =>
    cases h'
    rfl
  | notMap h =>
    cases h' with
    | schemas => exact absurd rfl (h _)
    | notMap => rfl
  | schemas h =>
    cases h' with
    | notMap h' => exact absurd rfl (h' _)
    | schemas h' =>
      refine congrArg Json.Tree.obj (List.right_unique_forall₂' (fun m n n' hn hn' => ?_) h h')
      exact Prod.ext (hn.1.symm.trans hn'.1) (hn.2.unique hn'.2)

theorem entries_unique {ms ns ns' : Object F}
    (h : List.Forall₂ (Entry kind (Inlines kind find)) ms ns)
    (h' : List.Forall₂ (Entry kind (Inlines kind find)) ms ns') : ns = ns' :=
  List.right_unique_forall₂' (fun _ _ _ hn hn' =>
    Prod.ext (hn.1.symm.trans hn'.1) (hn.2.unique hn'.2)) h h'

/-! ## References that resolve -/

theorem exists_forall₂_of_forall_mem {α β : Type} {P : α → β → Prop} {xs : List α}
    (h : ∀ x ∈ xs, ∃ y, P x y) : ∃ ys, List.Forall₂ P xs ys := by
  induction xs with
  | nil => exact ⟨[], .nil⟩
  | cons x xs ih =>
    obtain ⟨⟨y, hy⟩, hxs⟩ := List.forall_mem_cons.1 h
    obtain ⟨ys, hys⟩ := ih hxs
    exact ⟨y :: ys, .cons hy hys⟩

theorem forall₂_imp_of_mem {α β : Type} {P Q : α → β → Prop} {xs : List α} {ys : List β}
    (h : List.Forall₂ P xs ys) (hPQ : ∀ x ∈ xs, ∀ y, P x y → Q x y) : List.Forall₂ Q xs ys :=
  ((List.forall₂_and_left xs ys).2 ⟨hPQ, h⟩).imp fun x y h => h.1 y h.2

theorem eq_of_forall₂_eq {α : Type} {xs ys : List α} (h : List.Forall₂ (· = ·) xs ys) :
    xs = ys := by
  rwa [List.forall₂_eq_eq_eq] at h

/-- The entries of an object are inlined if what they depend on is. -/
theorem exists_kept (h : ∀ z, Step kind find z (.obj schema) → ∃ y, Inlines kind find z y) :
    ∃ kept, List.Forall₂ (Entry kind (Inlines kind find)) (siblings schema) kept := by
  refine exists_forall₂_of_forall_mem fun m hm => ?_
  obtain ⟨k, x⟩ := m
  suffices hy : ∃ y, (kind k).Lift (Inlines kind find) x y by
    obtain ⟨y, hy⟩ := hy
    exact ⟨(k, y), rfl, hy⟩
  cases hk : kind k with
  | schema =>
    obtain ⟨y, hy⟩ := h x (.schema hm hk)
    exact ⟨y, .schema hy⟩
  | data => exact ⟨x, .data x⟩
  | schemas =>
    cases x with
    | obj ms =>
      obtain ⟨ns, hns⟩ := exists_forall₂_of_forall_mem
        (P := fun m n : Str × Json.Tree F => m.1 = n.1 ∧ Inlines kind find m.2 n.2)
        fun m hms => (h m.2 (.schemas hm hk hms)).imp' (fun y => (m.1, y)) fun y hy => ⟨rfl, hy⟩
      exact ⟨.obj ns, .schemas hns⟩
    | _ => exact ⟨_, .notMap fun _ h => by cases h⟩

theorem Resolves.exists_inlines (h : Resolves kind find x) : ∃ y, Inlines kind find x y := by
  induction h with
  | @intro x hfind _ ih =>
    cases x with
    | arr items =>
      obtain ⟨ys, hys⟩ := exists_forall₂_of_forall_mem fun x hx => ih x (.item hx)
      exact ⟨.arr ys, inlines_arr.2 ⟨ys, rfl, hys⟩⟩
    | obj schema =>
      obtain ⟨kept, hkept⟩ := exists_kept ih
      obtain ⟨T, hT⟩ := Option.isSome_iff_exists.1 (hfind schema rfl)
      rcases T with _ | target
      · exact ⟨_, inlines_obj.2 ⟨_, rfl, .kept hT hkept⟩⟩
      · obtain ⟨y, hy⟩ := ih _ (.target hT)
        obtain ⟨base, rfl, -⟩ := inlines_obj.1 hy
        exact ⟨_, inlines_obj.2 ⟨_, rfl, .target hT hy hkept⟩⟩
    | _ => exact ⟨_, (inlines_scalar rfl).2 rfl⟩

theorem exists_of_mem_left {α β : Type} {P : α → β → Prop} {xs : List α} {ys : List β}
    (h : List.Forall₂ P xs ys) {x : α} (hx : x ∈ xs) : ∃ y ∈ ys, P x y :=
  exists_of_mem_forall₂ h.flip hx

theorem InlinesObject.forall₂ (h : InlinesObject kind find R schema out) :
    ∃ kept, List.Forall₂ (Entry kind R) (siblings schema) kept := by
  cases h with
  | kept hfind hkept => exact ⟨_, hkept⟩
  | target hfind hbase hkept => exact ⟨_, hkept⟩

/-- A document is inlined with what it depends on, at a lower level. -/
theorem exists_inline_of_step {n : ℕ} {z : Json.Tree F} (h : inline kind find (n + 1) x = some y)
    (hz : Step kind find z x) : ∃ w, inline kind find n z = some w := by
  have hlift {k : Str} {x : Json.Tree F} {schema out : Object F} (hm : (k, x) ∈ siblings schema)
      (h : InlinesObject kind find (fun x y => inline kind find n x = some y) schema out) :
      ∃ y, (kind k).Lift (fun x y => inline kind find n x = some y) x y := by
    obtain ⟨kept, hkept⟩ := h.forall₂
    obtain ⟨⟨l, y⟩, -, hkl, hy⟩ := exists_of_mem_left hkept hm
    exact ⟨y, hy⟩
  cases hz with
  | item hx =>
    obtain ⟨ys, rfl, hys⟩ := inline_arr.1 h
    obtain ⟨w, -, hw⟩ := exists_of_mem_left hys hx
    exact ⟨w, hw⟩
  | target hfind =>
    obtain ⟨out, rfl, hout⟩ := inline_obj.1 h
    cases hout with
    | kept hnone =>
      rw [hfind] at hnone
      cases hnone
    | target hfind' hbase =>
      rw [hfind] at hfind'
      cases hfind'
      exact ⟨_, hbase⟩
  | schema hm hk =>
    obtain ⟨out, rfl, hout⟩ := inline_obj.1 h
    obtain ⟨y, hy⟩ := hlift hm hout
    rw [hk] at hy
    cases hy with
    | schema hy => exact ⟨y, hy⟩
  | schemas hm hk hms =>
    obtain ⟨out, rfl, hout⟩ := inline_obj.1 h
    obtain ⟨y, hy⟩ := hlift hm hout
    rw [hk] at hy
    cases hy with
    | schemas hy =>
      obtain ⟨⟨l, w⟩, -, -, hw⟩ := exists_of_mem_left hy hms
      exact ⟨w, hw⟩
    | notMap h => exact absurd rfl (h _)

theorem isSome_find {n : ℕ} (h : inline kind find n (.obj schema) = some y) :
    (find (schema.lookup refKeyword)).isSome := by
  cases n with
  | zero => cases h
  | succ n =>
    obtain ⟨out, rfl, hout⟩ := inline_obj.1 h
    cases hout with
    | kept hfind => simp [hfind]
    | target hfind => simp [hfind]

theorem resolves_of_inline {n : ℕ} (h : inline kind find n x = some y) :
    Resolves kind find x := by
  induction n generalizing x y with
  | zero => cases h
  | succ n ih =>
    refine ⟨fun schema hx => isSome_find (hx ▸ h), fun z hz => ?_⟩
    obtain ⟨w, hw⟩ := exists_inline_of_step h hz
    exact ih hw

/-- A document may be inlined if and only if its references resolve. -/
theorem exists_inlines_iff : (∃ y, Inlines kind find x y) ↔ Resolves kind find x := by
  constructor
  · rintro ⟨y, n, h⟩
    exact resolves_of_inline h
  · exact Resolves.exists_inlines

/-- There are no circles among documents that resolve. -/
theorem Resolves.not_transGen (h : Resolves kind find x) :
    ¬Relation.TransGen (Step kind find) x x := by
  induction h with
  | @intro x _ _ ih =>
    intro hx
    obtain ⟨z, hxz, hz⟩ := Relation.TransGen.tail'_iff.1 hx
    exact ih z hz (Relation.TransGen.head' hz hxz)

/-! ## What is left -/

/-- A property of all the objects of a document. -/
inductive Everywhere (P : Object F → Prop) : Json.Tree F → Prop
  | arr {items : List (Json.Tree F)} (h : ∀ x ∈ items, Everywhere P x) : Everywhere P (.arr items)
  | obj {ms : Object F} (hP : P ms) (h : ∀ m ∈ ms, Everywhere P m.2) : Everywhere P (.obj ms)
  | scalar {x : Json.Tree F} (hx : IsContainer x = false) : Everywhere P x

/-- The keys of objects are distinct. -/
abbrev Distinct : Json.Tree F → Prop := Everywhere fun ms => (ms.map Prod.fst).Nodup

/-- No member is called as one that is not kept. -/
abbrev Free : Json.Tree F → Prop := Everywhere fun ms => ∀ m ∈ ms, m.1 ∉ removedKeywords

theorem mem_siblings {m : Str × Json.Tree F} :
    m ∈ siblings schema ↔ m ∈ schema ∧ m.1 ∉ removedKeywords := by
  simp [siblings]

/-- What is inlined throughout has no members that are not kept. -/
theorem free_of_inline {n : ℕ} (h : inline (fun _ => .schema) find n x = some y) : Free y := by
  induction n generalizing x y with
  | zero => cases h
  | succ n ih =>
    cases x with
    | arr items =>
      obtain ⟨ys, rfl, hys⟩ := inline_arr.1 h
      refine .arr fun y hy => ?_
      obtain ⟨x, -, hx⟩ := exists_of_mem_forall₂ hys hy
      exact ih hx
    | obj schema =>
      obtain ⟨out, rfl, hout⟩ := inline_obj.1 h
      have hkept {kept : Object F} (hkept : List.Forall₂ (Entry (fun _ => .schema)
          fun x y => inline (fun _ => .schema) find n x = some y) (siblings schema) kept)
          (m : Str × Json.Tree F) (hm : m ∈ kept) : m.1 ∉ removedKeywords ∧ Free m.2 := by
        obtain ⟨⟨k, x⟩, hx, hk, hy⟩ := exists_of_mem_forall₂ hkept hm
        cases hy with
        | schema hy => exact ⟨hk ▸ (mem_siblings.1 hx).2, ih hy⟩
      have hmem (m : Str × Json.Tree F) (hm : m ∈ out) : m.1 ∉ removedKeywords ∧ Free m.2 := by
        cases hout with
        | kept hfind hsiblings => exact hkept hsiblings m hm
        | target hfind hbase hsiblings =>
          rcases mem_update hm with hm | hm
          · cases ih hbase with
            | obj hP hms => exact ⟨hP m hm, hms m hm⟩
            | scalar hx => cases hx
          · exact hkept hsiblings m hm
      exact .obj (fun m hm => (hmem m hm).1) fun m hm => (hmem m hm).2
    | _ =>
      cases h
      exact .scalar rfl

theorem siblings_eq_self (h : ∀ m ∈ schema, m.1 ∉ removedKeywords) : siblings schema = schema :=
  List.filter_eq_self.2 fun m hm => decide_eq_true (h m hm)

theorem lookup_refKeyword (h : ∀ m ∈ schema, m.1 ∉ removedKeywords) :
    schema.lookup refKeyword = none := by
  rw [lookup_eq_none]
  intro hk
  obtain ⟨m, hm, hk⟩ := List.mem_map.1 hk
  exact h m hm (hk ▸ List.mem_cons_self)

/-- A document without references is inlined to itself. -/
theorem Free.inlines (hnone : find none = some none) (h : Free x) :
    Inlines (fun _ => .schema) find x x := by
  induction h with
  | @arr items _ ih => exact inlines_arr.2 ⟨items, rfl, List.forall₂_same.2 ih⟩
  | @obj ms hP _ ih =>
    have hkept : List.Forall₂ (Entry (fun _ => .schema) (Inlines (fun _ => .schema) find))
        (siblings ms) ms := by
      rw [siblings_eq_self hP]
      exact List.forall₂_same.2 fun m hm => ⟨rfl, .schema (ih m hm)⟩
    have hfind : find (ms.lookup refKeyword) = some none := by
      rw [lookup_refKeyword hP, hnone]
    exact inlines_obj.2 ⟨_, rfl, .kept hfind hkept⟩
  | scalar hx => exact (inlines_scalar hx).2 rfl

/-- An object has no references at the positions of schemas, nor definitions. -/
def NoReferences (kind : Str → Kind) (x : Json.Tree F) : Prop :=
  ∀ schema, Relation.ReflTransGen (Step kind fun _ => some none) (.obj schema) x →
    ∀ m ∈ schema, m.1 ∉ removedKeywords

theorem NoReferences.of_step {kind : Str → Kind}
    (hx : ∀ schema, x = .obj schema → ∀ m ∈ schema, m.1 ∉ removedKeywords)
    (h : ∀ z, Step kind (fun _ => some none) z x → NoReferences kind z) : NoReferences kind x := by
  intro schema hs
  rcases Relation.ReflTransGen.cases_tail hs with hs | ⟨z, hsz, hz⟩
  · exact hx schema hs
  · exact h z hz schema hsz

theorem NoReferences.step {kind : Str → Kind} {z : Json.Tree F} (h : NoReferences kind x)
    (hz : Step kind (fun _ => some none) z x) : NoReferences kind z :=
  fun schema hs => h schema (hs.tail hz)

/-- A member has no references at the positions of schemas. -/
structure Plain (kind : Str → Kind) (m : Str × Json.Tree F) : Prop where
  kept : m.1 ∉ removedKeywords
  schema : kind m.1 = .schema → NoReferences kind m.2
  schemas : ∀ ms, m.2 = .obj ms → kind m.1 = .schemas → ∀ n ∈ ms, NoReferences kind n.2

theorem noReferences_obj {kind : Str → Kind} :
    NoReferences kind (.obj schema) ↔ ∀ m ∈ schema, Plain kind m := by
  constructor
  · intro h m hm
    have hkept := h schema .refl m hm
    have hm' : m ∈ siblings schema := mem_siblings.2 ⟨hm, hkept⟩
    obtain ⟨k, x⟩ := m
    refine ⟨hkept, fun hk => h.step (.schema hm' hk), ?_⟩
    rintro ms rfl hk n hn
    exact h.step (.schemas hm' hk hn)
  · intro h
    refine .of_step (fun s hs m hm => ?_) fun z hz => ?_
    · cases hs
      exact (h m hm).kept
    · cases hz with
      | target hfind => cases hfind
      | schema hm hk => exact (h _ (mem_siblings.1 hm).1).schema hk
      | schemas hm hk hn => exact (h _ (mem_siblings.1 hm).1).schemas _ rfl hk _ hn

/-- An inlined document has no references at the positions of schemas. -/
theorem noReferences_of_inline {n : ℕ} (h : inline kind find n x = some y) :
    NoReferences kind y := by
  induction n generalizing x y with
  | zero => cases h
  | succ n ih =>
    cases x with
    | arr items =>
      obtain ⟨ys, rfl, hys⟩ := inline_arr.1 h
      refine .of_step (fun _ h => by cases h) fun z hz => ?_
      cases hz with
      | item hz =>
        obtain ⟨x, -, hx⟩ := exists_of_mem_forall₂ hys hz
        exact ih hx
    | obj schema =>
      obtain ⟨out, rfl, hout⟩ := inline_obj.1 h
      have hentry {m n' : Str × Json.Tree F} (hm : m ∈ siblings schema)
          (h : Entry kind (fun x y => inline kind find n x = some y) m n') : Plain kind n' := by
        obtain ⟨k, x⟩ := m
        obtain ⟨l, y⟩ := n'
        obtain ⟨rfl, h⟩ : k = l ∧ _ := h
        refine ⟨(mem_siblings.1 hm).2, fun hk => ?_, ?_⟩
        · rw [hk] at h
          cases h with
          | schema h => exact ih h
        · rintro ms rfl hk p hp
          rw [hk] at h
          cases h with
          | schemas h =>
            obtain ⟨q, -, hq⟩ := exists_of_mem_forall₂ h hp
            exact ih hq.2
          | notMap h => exact absurd rfl (h ms)
      refine noReferences_obj.2 fun m hm => ?_
      cases hout with
      | kept hfind hsiblings =>
        obtain ⟨m', hm', h⟩ := exists_of_mem_forall₂ hsiblings hm
        exact hentry hm' h
      | target hfind hbase hsiblings =>
        rcases mem_update hm with hm | hm
        · exact noReferences_obj.1 (ih hbase) m hm
        · obtain ⟨m', hm', h⟩ := exists_of_mem_forall₂ hsiblings hm
          exact hentry hm' h
    | _ =>
      cases h
      exact .of_step (fun _ h => by cases h) fun z hz => by cases hz

/-! ## Where a member comes from -/

/-- A member that an object has once inlined: its own, or that of what its reference is to. -/
inductive Kept (find : Option (Json.Tree F) → Option (Option (Object F))) :
    Object F → Str → Json.Tree F → Prop
  | own {schema : Object F} {k : Str} {x : Json.Tree F} (h : (k, x) ∈ siblings schema) :
    Kept find schema k x
  | target {schema target : Object F} {k : Str} {x : Json.Tree F}
    (hfind : find (schema.lookup refKeyword) = some (some target))
    (hk : k ∉ (siblings schema).map Prod.fst) (h : Kept find target k x) : Kept find schema k x

theorem keys_of_forall₂ {ms ns : Object F} {P : Str → Json.Tree F → Json.Tree F → Prop}
    (h : List.Forall₂ (fun m n => m.1 = n.1 ∧ P m.1 m.2 n.2) ms ns) :
    ms.map Prod.fst = ns.map Prod.fst := by
  induction h with
  | nil => rfl
  | cons h _ ih => rw [List.map_cons, List.map_cons, h.1, ih]

theorem keys_of_entries {ms ns : Object F} (h : List.Forall₂ (Entry kind R) ms ns) :
    ms.map Prod.fst = ns.map Prod.fst :=
  keys_of_forall₂ (P := fun k => (kind k).Lift R) h

theorem nodup_siblings (h : (schema.map Prod.fst).Nodup) :
    ((siblings schema).map Prod.fst).Nodup := h.sublist (List.filter_sublist.map _)

/-- A member of its own is inlined by itself. -/
theorem lookup_kept {k : Str} {kept : Object F} (hd : (schema.map Prod.fst).Nodup)
    (hkept : List.Forall₂ (Entry kind R) (siblings schema) kept) (hm : (k, x) ∈ siblings schema) :
    ∃ y, kept.lookup k = some y ∧ (kind k).Lift R x y := by
  obtain ⟨⟨l, y⟩, hy, hkl, hlift⟩ := exists_of_mem_left hkept hm
  obtain rfl : k = l := hkl
  have hnodup : (kept.map Prod.fst).Nodup := keys_of_entries hkept ▸ nodup_siblings hd
  exact ⟨y, lookup_of_mem hnodup hy, hlift⟩

theorem InlinesObject.mem_keys {k : Str} {kept : Object F}
    (hkept : List.Forall₂ (Entry kind R) (siblings schema) kept) :
    k ∈ kept.map Prod.fst ↔ k ∈ (siblings schema).map Prod.fst := by
  rw [keys_of_entries hkept]

/-- What a member is inlined to, wherever it comes from. -/
theorem Kept.exists_lookup {k : Str} (h : Kept find schema k x)
    (hd : (schema.map Prod.fst).Nodup)
    (hfind : ∀ s t, find s = some (some t) → (t.map Prod.fst).Nodup)
    {out : Object F} (hout : InlinesObject kind find (Inlines kind find) schema out) :
    ∃ y, out.lookup k = some y ∧ (kind k).Lift (Inlines kind find) x y := by
  induction h generalizing out with
  | own h =>
    cases hout with
    | kept hnone hkept => exact lookup_kept hd hkept h
    | @target target base kept htarget hbase hkept =>
      obtain ⟨y, hy, hlift⟩ := lookup_kept hd hkept h
      have hnodup := keys_of_entries hkept ▸ nodup_siblings hd
      have hmem := List.mem_map_of_mem (f := Prod.fst) (mem_of_lookup hy)
      exact ⟨y, by rw [lookup_update_of_mem _ _ hnodup hmem, hy], hlift⟩
  | target htarget hk h ih =>
    cases hout with
    | kept hnone hkept =>
      rw [htarget] at hnone
      cases hnone
    | target htarget' hbase hkept =>
      rw [htarget] at htarget'
      cases htarget'
      obtain ⟨base, hb, hbase⟩ := inlines_obj.1 hbase
      cases hb
      rw [lookup_update_of_notMem _ _ (mt (InlinesObject.mem_keys hkept).1 hk)]
      exact ih (hfind _ _ htarget) hbase

/-- A member of what an object is inlined to comes from somewhere. -/
theorem exists_kept_of_inline {n : ℕ} {k : Str} {out : Object F}
    (h : inline kind find n (.obj schema) = some (.obj out)) (hk : k ∈ out.map Prod.fst) :
    ∃ x, Kept find schema k x := by
  induction n generalizing schema out with
  | zero => cases h
  | succ n ih =>
    obtain ⟨out, hout, h⟩ := inline_obj.1 h
    cases hout
    have hown (hk : k ∈ (siblings schema).map Prod.fst) : ∃ x, Kept find schema k x := by
      obtain ⟨⟨l, x⟩, hm, rfl⟩ := List.mem_map.1 hk
      exact ⟨x, .own hm⟩
    cases h with
    | kept hfind hkept => exact hown ((InlinesObject.mem_keys hkept).1 hk)
    | target hfind hbase hkept =>
      by_cases hsiblings : k ∈ (siblings schema).map Prod.fst
      · exact hown hsiblings
      · rcases (mem_keys_update _ _).1 hk with hk | hk
        · obtain ⟨x, hx⟩ := ih hbase hk
          exact ⟨x, .target hfind hsiblings hx⟩
        · exact absurd ((InlinesObject.mem_keys hkept).1 hk) hsiblings

/-- The keys of what an object is inlined to are distinct. -/
theorem nodup_of_inline {n : ℕ} {out : Object F} (hd : (schema.map Prod.fst).Nodup)
    (hfind : ∀ s t, find s = some (some t) → (t.map Prod.fst).Nodup)
    (h : inline kind find n (.obj schema) = some (.obj out)) : (out.map Prod.fst).Nodup := by
  induction n generalizing schema out with
  | zero => cases h
  | succ n ih =>
    obtain ⟨out, hout, h⟩ := inline_obj.1 h
    cases hout
    cases h with
    | kept _ hkept => exact keys_of_entries hkept ▸ nodup_siblings hd
    | target htarget hbase _ => exact nodup_update (ih (hfind _ _ htarget) hbase) _

/-- A member that is kept is one that inlining the object depends on. -/
theorem Kept.transGen {k : Str} (h : Kept find schema k x) :
    Relation.TransGen (Step (fun _ => .schema) find) x (.obj schema) := by
  induction h with
  | own hm => exact .single (.schema hm rfl)
  | target hfind _ _ ih => exact ih.tail (.target hfind)

theorem Kept.everywhere {P : Object F → Prop} {k : Str} (h : Kept find schema k x)
    (hfind : ∀ s t, find s = some (some t) → Everywhere P (.obj t))
    (hschema : Everywhere P (.obj schema)) : Everywhere P x := by
  induction h with
  | own hm =>
    cases hschema with
    | obj _ hms => exact hms _ (mem_siblings.1 hm).1
    | scalar hx => cases hx
  | target htarget _ _ ih => exact ih (hfind _ _ htarget)

/-! ## Two ways to inline -/

theorem Resolves.of_transGen {z : Json.Tree F} (h : Resolves kind find x)
    (hz : Relation.TransGen (Step kind find) z x) : Resolves kind find z := by
  induction hz using Relation.TransGen.head_induction_on with
  | single hz =>
    cases h with
    | intro _ h => exact h _ hz
  | head hz _ ih =>
    cases ih with
    | intro _ h => exact h _ hz

theorem Resolves.acc (h : Resolves kind find x) : Acc (Step kind find) x := by
  induction h with
  | intro _ _ ih => exact ⟨_, ih⟩

section Agree

variable {kind' : Str → Kind} {find' : Option (Json.Tree F) → Option (Option (Object F))}

/-- References that lead somewhere both ways lead to the same. -/
def Agree (find find' : Option (Json.Tree F) → Option (Option (Object F))) : Prop :=
  ∀ r T T', find r = some T → find' r = some T' → T = T'

/-- What is kept is so both ways. -/
theorem Kept.of_agree {k : Str} (h : Kept find schema k x) (hfind : Agree find find')
    {out : Object F} (hout : InlinesObject kind' find' (Inlines kind' find') schema out) :
    Kept find' schema k x := by
  induction h generalizing out with
  | own hm => exact .own hm
  | target htarget hk h ih =>
    cases hout with
    | kept hnone => cases hfind _ _ _ htarget hnone
    | target htarget' hbase _ =>
      cases hfind _ _ _ htarget htarget'
      obtain ⟨base, hb, hbase⟩ := inlines_obj.1 hbase
      exact .target htarget' hk (ih hbase)

/-- The keys are the same both ways. -/
theorem keys_eq_of_agree (hfind : Agree find find') {n : ℕ} {out out' : Object F}
    (h : inline kind find n (.obj schema) = some (.obj out))
    (h' : Inlines kind' find' (.obj schema) (.obj out')) :
    out.map Prod.fst = out'.map Prod.fst := by
  induction n generalizing schema out out' with
  | zero => cases h
  | succ n ih =>
    obtain ⟨out, hout, h⟩ := inline_obj.1 h
    obtain ⟨out', hout', h'⟩ := inlines_obj.1 h'
    cases hout
    cases hout'
    cases h with
    | kept hnone hkept =>
      cases h' with
      | kept hnone' hkept' => rw [← keys_of_entries hkept, keys_of_entries hkept']
      | target htarget' => cases hfind _ _ _ hnone htarget'
    | target htarget hbase hkept =>
      cases h' with
      | kept hnone' => cases hfind _ _ _ htarget hnone'
      | target htarget' hbase' hkept' =>
        cases hfind _ _ _ htarget htarget'
        refine keys_update_congr (ih hbase hbase') ?_
        rw [← keys_of_entries hkept, keys_of_entries hkept']

end Agree

theorem forall₂_and {α β : Type} {P Q : α → β → Prop} {xs : List α} {ys : List β}
    (h : List.Forall₂ P xs ys) (h' : List.Forall₂ Q xs ys) :
    List.Forall₂ (fun x y => P x y ∧ Q x y) xs ys := by
  induction h with
  | nil => exact .nil
  | cons h _ ih =>
    cases h' with
    | cons h' hs' => exact .cons ⟨h, h'⟩ (ih hs')

end JsonSchema
