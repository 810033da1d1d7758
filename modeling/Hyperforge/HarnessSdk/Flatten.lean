import Hyperforge.HarnessSdk.Schema
import Hyperforge.Library.Crash

/-!
# When schemas are flattened

The walk takes every object for a schema: what it returns is the schema inlined with all members
taken so (`flatten_returns_iff`), if the references that it finds lead somewhere, through objects,
and never in circles. It is what the schema should become if and only if, besides, maps of schemas
and data have no members called as keywords that are not kept (`flattenJsonSchema_iff`).
-/

namespace Hyperforge.HarnessSdk

open Json hiding Tree
open JsonSchema Crash

variable {F : Type} {root : Object F}

/-- What the reference of an object is to, if it has one. -/
def walkTarget (root : Object F) : Option (Json.Tree F) → Option (Option (Object F))
  | none | some .null => some none
  | some (.str ref) => if isLocal ref then (findTarget root ref).toOption.map some else none
  | some _ => none

/-- What all objects, taken for schemas, are inlined to. -/
abbrev WalksTo (root : Object F) : Json.Tree F → Json.Tree F → Prop :=
  Inlines (fun _ => .schema) (walkTarget root)

abbrev WalkStep (root : Object F) : Json.Tree F → Json.Tree F → Prop :=
  Step (fun _ => .schema) (walkTarget root)

/-! ## What the walk returns -/

theorem walkTarget_str {ref : Str} {T : Option (Object F)} :
    walkTarget root (some (.str ref)) = some T ↔
      ∃ target, T = some target ∧ isLocal ref = true ∧ findTarget root ref = .ok target := by
  rw [walkTarget]
  split_ifs with hlocal
  · rcases findTarget root ref with e | target
    · simp [Except.toOption]
    · simp [Except.toOption, hlocal, eq_comm]
  · simp [hlocal]

theorem popDefinitions_pop (value : Object F) :
    popDefinitions (pop refKeyword value) = siblings value := by
  rw [popDefinitions, pop, pop, pop, List.filter_filter, List.filter_filter, siblings]
  refine List.filter_congr fun m _ => ?_
  simp only [removedKeywords, List.mem_cons, List.not_mem_nil, or_false, not_or, ne_eq,
    ← Bool.decide_and, decide_eq_decide]
  tauto

theorem popDefinitions_of_free {value : Object F} (h : ∀ m ∈ value, m.1 ∉ removedKeywords) :
    popDefinitions value = value := by
  have hpop : pop refKeyword value = value := pop_of_lookup_eq_none (lookup_refKeyword h)
  have hsiblings := popDefinitions_pop value
  rwa [hpop, siblings_eq_self h] at hsiblings

theorem popDefinitions_update (d e : Object F) :
    popDefinitions (update d e) = update (popDefinitions d) (popDefinitions e) := by
  rw [popDefinitions, pop_update, pop_update]
  rfl

/-- The members of an object, walked. -/
def Walked (root : Object F) (calls : ℕ) (stack : List Str) (m n : Str × Json.Tree F) : Prop :=
  m.1 = n.1 ∧ walk root calls stack m.2 = .ok n.2

theorem walk_obj {calls : ℕ} {stack : List Str} {value : Object F} {y : Json.Tree F} :
    walk root (calls + 1) stack (.obj value) = .ok y ↔ ∃ current out,
      replaceReference root (walk root calls) stack value = .ok current ∧
      List.Forall₂ (Walked root calls stack) (popDefinitions current) out ∧ y = .obj out := by
  have hmap (current out : Object F) : ((popDefinitions current).mapM fun m =>
      (m.1, ·) <$> walk root calls stack m.2) = .ok out ↔
        List.Forall₂ (Walked root calls stack) (popDefinitions current) out := by
    rw [mapM_eq_ok]
    refine ⟨fun h => h.imp ?_, fun h => h.imp ?_⟩
    · intro m n hn
      obtain ⟨y, hy, rfl⟩ := map_eq_ok.1 hn
      exact ⟨rfl, hy⟩
    · rintro m ⟨k, y⟩ ⟨rfl, hy⟩
      exact map_eq_ok.2 ⟨y, hy, rfl⟩
  rw [walk, bind_eq_ok]
  simp only [map_eq_ok, hmap, eq_comm (a := y)]
  constructor
  · rintro ⟨current, hcurrent, out, hout, rfl⟩
    exact ⟨current, out, hcurrent, hout, rfl⟩
  · rintro ⟨current, out, hcurrent, hout, rfl⟩
    exact ⟨current, hcurrent, out, hout, rfl⟩

theorem walk_arr {calls : ℕ} {stack : List Str} {items : List (Json.Tree F)} {y : Json.Tree F} :
    walk root (calls + 1) stack (.arr items) = .ok y ↔ ∃ ys,
      List.Forall₂ (fun x y => walk root calls stack x = .ok y) items ys ∧ y = .arr ys := by
  rw [walk, map_eq_ok]
  simp only [mapM_eq_ok, eq_comm (a := y)]

theorem walk_scalar {calls : ℕ} {stack : List Str} {x y : Json.Tree F}
    (hx : IsContainer x = false) : walk root (calls + 1) stack x = .ok y ↔ y = x := by
  have hwalk : walk root (calls + 1) stack x = .ok x := by
    cases x <;> first | rfl | cases hx
  rw [hwalk, Except.ok.injEq, eq_comm]

/-- How an object is replaced. -/
theorem replaceReference_eq_ok {walk : List Str → Json.Tree F → Except SchemaError (Json.Tree F)}
    {stack : List Str} {value current : Object F} :
    replaceReference root walk stack value = .ok current ↔
      walkTarget root (value.lookup refKeyword) = some none ∧ current = pop refKeyword value ∨
      ∃ ref target y, value.lookup refKeyword = some (.str ref) ∧
        walkTarget root (value.lookup refKeyword) = some (some target) ∧ ref ∉ stack ∧
        walk (stack ++ [ref]) (.obj target) = .ok y ∧
        current = update (members y) (pop refKeyword value) := by
  rw [replaceReference]
  rcases value.lookup refKeyword with _ | r
  · simp [walkTarget, eq_comm]
  cases r with
  | null => simp [walkTarget, eq_comm]
  | str ref =>
    rw [bind_eq_ok]
    simp only [resolve, walkTarget_str, Option.some.injEq, Json.Tree.str.injEq]
    constructor
    · rintro ⟨resolved, h, hcurrent⟩
      cases hcurrent
      split_ifs at h with hlocal hstack
      obtain ⟨target, htarget, h⟩ := bind_eq_ok.1 h
      obtain ⟨y, hy, rfl⟩ := map_eq_ok.1 h
      have hlocal : isLocal ref = true := by simpa using hlocal
      exact .inr ⟨ref, target, y, rfl, ⟨target, rfl, hlocal, htarget⟩, hstack, hy, rfl⟩
    · rintro (⟨⟨_, h, -⟩, -⟩ | ⟨_, target, y, rfl, ⟨_, ht, hlocal, htarget⟩, hstack, hy, rfl⟩)
      · cases h
      · cases ht
        refine ⟨members y, ?_, rfl⟩
        rw [hlocal, Bool.not_true, if_neg Bool.false_ne_true, if_neg hstack]
        exact bind_eq_ok.2 ⟨target, htarget, map_eq_ok.2 ⟨y, hy, rfl⟩⟩
  | _ => simp [walkTarget]

/-- A document without members that are not kept is walked to itself. -/
theorem walk_of_free {calls : ℕ} {stack : List Str} {x y : Json.Tree F} (hx : Free x)
    (h : walk root calls stack x = .ok y) : x = y := by
  induction calls generalizing x y with
  | zero => cases h
  | succ calls ih =>
    cases hx with
    | arr hx =>
      obtain ⟨ys, hys, rfl⟩ := walk_arr.1 h
      rw [eq_of_forall₂_eq (forall₂_imp_of_mem hys fun x hxs y hy => ih (hx x hxs) hy)]
    | obj hP hms =>
      obtain ⟨current, out, hcurrent, hout, rfl⟩ := walk_obj.1 h
      obtain ⟨-, rfl⟩ | ⟨ref, target, y, href, -⟩ := replaceReference_eq_ok.1 hcurrent
      · rw [popDefinitions_pop, siblings_eq_self hP] at hout
        rw [eq_of_forall₂_eq (forall₂_imp_of_mem hout fun m hm n hn =>
          Prod.ext hn.1 (ih (hms m hm) hn.2))]
      · rw [lookup_refKeyword hP] at href
        cases href
    | scalar hx => exact ((walk_scalar hx).1 h).symm

theorem forall₂_assign {P : Str → Json.Tree F → Json.Tree F → Prop} {d d' : Object F} {k : Str}
    {x x' : Json.Tree F} (hd : List.Forall₂ (fun m n => m.1 = n.1 ∧ P m.1 m.2 n.2) d d')
    (hx : P k x x') :
    List.Forall₂ (fun m n => m.1 = n.1 ∧ P m.1 m.2 n.2) (assign k x d) (assign k x' d') := by
  induction hd with
  | nil => exact .cons ⟨rfl, hx⟩ .nil
  | @cons m n d d' hmn hd ih =>
    obtain ⟨k₁, x₁⟩ := m
    obtain ⟨k₂, x₂⟩ := n
    obtain ⟨rfl, hmn⟩ : k₁ = k₂ ∧ _ := hmn
    rw [assign, assign]
    split_ifs with hk
    · exact .cons ⟨rfl, hx⟩ hd
    · exact .cons ⟨rfl, hmn⟩ ih

/-- The values of updated dictionaries are related if those of both are. -/
theorem forall₂_update {P : Str → Json.Tree F → Json.Tree F → Prop} {d d' e e' : Object F}
    (hd : List.Forall₂ (fun m n => m.1 = n.1 ∧ P m.1 m.2 n.2) d d')
    (he : List.Forall₂ (fun m n => m.1 = n.1 ∧ P m.1 m.2 n.2) e e') :
    List.Forall₂ (fun m n => m.1 = n.1 ∧ P m.1 m.2 n.2) (update d e) (update d' e') := by
  induction he generalizing d d' with
  | nil => exact hd
  | @cons m n e e' hmn _ ih =>
    obtain ⟨k₁, x₁⟩ := m
    obtain ⟨k₂, x₂⟩ := n
    obtain ⟨rfl, hmn⟩ : k₁ = k₂ ∧ _ := hmn
    exact ih (forall₂_assign hd hmn)

theorem distinct_foldlM {step : Json.Tree F → Str → Option (Json.Tree F)}
    (hstep : ∀ x part y, Distinct x → step x part = some y → Distinct y) {x y : Json.Tree F}
    {parts : List Str} (hx : Distinct x) (h : parts.foldlM step x = some y) : Distinct y := by
  induction parts generalizing x with
  | nil =>
    cases h
    exact hx
  | cons part parts ih =>
    obtain ⟨z, hz, h⟩ := Option.bind_eq_some_iff.1 h
    exact ih (hstep x part z hx hz) h

theorem distinct_lookup {value : Object F} {k : Str} {y : Json.Tree F}
    (hx : Distinct (.obj value)) (h : value.lookup k = some y) : Distinct y := by
  cases hx with
  | obj _ hms => exact hms _ (mem_of_lookup h)
  | scalar hx => cases hx

theorem foldlM_of_findTarget {ref : Str} {target : Object F}
    (h : findTarget root ref = .ok target) :
    (parts ref).foldlM part (.obj root) = some (.obj target) := by
  rw [findTarget] at h
  split at h
  · cases h
  · next hvalue =>
    cases h
    exact hvalue
  · cases h

/-- What references are to has distinct keys. -/
theorem distinct_target (hroot : Distinct (.obj root)) {r : Option (Json.Tree F)}
    {target : Object F} (h : walkTarget root r = some (some target)) : Distinct (.obj target) := by
  rcases r with _ | r
  · cases h
  cases r with
  | str ref =>
    obtain ⟨_, ht, -, hfind⟩ := walkTarget_str.1 h
    cases ht
    refine distinct_foldlM (fun x k y hx hy => ?_) hroot (foldlM_of_findTarget hfind)
    cases x with
    | obj value => exact distinct_lookup hx hy
    | _ => cases hy
  | _ => cases h

/-- No member of what an object walks to is called as one that is not kept. -/
theorem free_members {x : Json.Tree F} {base : Object F} (h : WalksTo root x (.obj base)) :
    (∀ m ∈ base, m.1 ∉ removedKeywords) ∧ ∀ m ∈ base, Free m.2 := by
  obtain ⟨levels, hlevels⟩ := h
  cases free_of_inline hlevels with
  | obj hP hms => exact ⟨hP, hms⟩
  | scalar hx => cases hx

/-- What the walk returns is what the document is inlined to. -/
theorem walksTo_of_walk (hroot : Distinct (.obj root)) {calls : ℕ} {stack : List Str}
    {x y : Json.Tree F} (hx : Distinct x) (h : walk root calls stack x = .ok y) :
    WalksTo root x y := by
  induction calls generalizing stack x y with
  | zero => cases h
  | succ calls ih =>
    cases hx with
    | arr hx =>
      obtain ⟨ys, hys, rfl⟩ := walk_arr.1 h
      exact inlines_arr.2 ⟨ys, rfl, forall₂_imp_of_mem hys fun x hxs y hy => ih (hx x hxs) hy⟩
    | @obj value hkeys hms =>
      obtain ⟨current, out, hcurrent, hout, rfl⟩ := walk_obj.1 h
      have hown {m n : Str × Json.Tree F} (hm : m ∈ siblings value)
          (hn : Walked root calls stack m n) : Entry (fun _ => .schema) (WalksTo root) m n :=
        ⟨hn.1, .schema (ih (hms m (mem_siblings.1 hm).1) hn.2)⟩
      obtain ⟨hfind, rfl⟩ | ⟨ref, target, z, -, hfind, -, hz, rfl⟩ :=
        replaceReference_eq_ok.1 hcurrent
      · rw [popDefinitions_pop] at hout
        exact inlines_obj.2 ⟨out, rfl, .kept hfind (forall₂_imp_of_mem hout fun m hm n => hown hm)⟩
      · have htarget := ih (distinct_target hroot hfind) hz
        obtain ⟨base, rfl, -⟩ := inlines_obj.1 htarget
        obtain ⟨hfree, hbase⟩ := free_members htarget
        rw [popDefinitions_update, popDefinitions_pop, JsonSchema.members,
          popDefinitions_of_free hfree] at hout
        -- what comes from the target has been walked before, and stays as it is
        have hentries : List.Forall₂ (Entry (fun _ => .schema) (WalksTo root))
            (update base (siblings value)) out := by
          refine forall₂_imp_of_mem hout fun m hm n hn => ?_
          rcases mem_update hm with hm | hm
          · exact ⟨hn.1, .schema (walk_of_free (hbase m hm) hn.2 ▸ (hbase m hm).inlines rfl)⟩
          · exact hown hm hn
        obtain ⟨kept, hkept⟩ := exists_forall₂_of_forall_mem fun m hm =>
          (exists_of_mem_left hentries (mem_update_right (nodup_siblings hkeys) hm)).imp
            fun _ h => h.2
        have hsame : List.Forall₂ (Entry (fun _ => .schema) (WalksTo root)) base base :=
          List.forall₂_same.2 fun m hm => ⟨rfl, .schema ((hbase m hm).inlines rfl)⟩
        have hout : out = update base kept := entries_unique hentries
          (forall₂_update (P := fun _ => Kind.Lift (WalksTo root) .schema) hsame hkept)
        exact inlines_obj.2 ⟨out, rfl, hout ▸ .target hfind htarget hkept⟩
    | scalar hx => exact (inlines_scalar hx).2 ((walk_scalar hx).1 h)

/-! ## When the walk returns -/

/-- The walk returns if there are calls enough. -/
def Returns (root : Object F) (stack : List Str) (x y : Json.Tree F) : Prop :=
  ∃ n, ∀ calls ≥ n, walk root calls stack x = .ok y

theorem Returns.forall₂ {α : Type} {stack : List Str} {f : α → Json.Tree F}
    {P : α → α → Prop} {xs ys : List α}
    (h : List.Forall₂ (fun x y => P x y ∧ Returns root stack (f x) (f y)) xs ys) :
    ∃ n, ∀ calls ≥ n, List.Forall₂ (fun x y => P x y ∧ walk root calls stack (f x) = .ok (f y))
      xs ys := by
  obtain ⟨n, hn⟩ := exists_forall₂
    (P := fun n x y => P x y ∧ ∀ calls ≥ n, walk root calls stack (f x) = .ok (f y))
    (fun n m hnm x y hxy => ⟨hxy.1, fun calls hm => hxy.2 calls (hnm.trans hm)⟩)
    (h.imp fun x y ⟨hP, n, hn⟩ => ⟨n, hP, hn⟩)
  exact ⟨n, fun calls hcalls => hn.imp fun _ _ h => ⟨h.1, h.2 calls hcalls⟩⟩

theorem returns_arr {stack : List Str} {items ys : List (Json.Tree F)}
    (h : List.Forall₂ (Returns root stack) items ys) :
    Returns root stack (.arr items) (.arr ys) := by
  obtain ⟨n, hn⟩ := Returns.forall₂ (f := id) (P := fun _ _ => True)
    (h.imp fun _ _ h => ⟨trivial, h⟩)
  refine ⟨n + 1, fun calls hcalls => ?_⟩
  obtain ⟨calls, rfl⟩ := Nat.exists_eq_add_of_le' ((Nat.le_add_left 1 _).trans hcalls)
  exact walk_arr.2 ⟨ys, (hn calls (Nat.le_of_succ_le_succ hcalls)).imp fun _ _ h => h.2, rfl⟩

theorem returns_obj {stack : List Str} {value current out : Object F}
    (hcurrent : ∃ n, ∀ calls ≥ n, replaceReference root (walk root calls) stack value = .ok current)
    (h : List.Forall₂ (fun m n => m.1 = n.1 ∧ Returns root stack m.2 n.2) (popDefinitions current)
      out) : Returns root stack (.obj value) (.obj out) := by
  obtain ⟨n, hn⟩ := hcurrent
  obtain ⟨m, hm⟩ := Returns.forall₂ (f := Prod.snd) (P := fun m n => m.1 = n.1) h
  refine ⟨max n m + 1, fun calls hcalls => ?_⟩
  obtain ⟨calls, rfl⟩ := Nat.exists_eq_add_of_le' ((Nat.le_add_left 1 _).trans hcalls)
  obtain ⟨hnc, hmc⟩ := Nat.max_le.1 (Nat.le_of_succ_le_succ hcalls)
  exact walk_obj.2 ⟨current, out, hn calls hnc, hm calls hmc, rfl⟩

theorem returns_scalar {stack : List Str} {x : Json.Tree F} (hx : IsContainer x = false) :
    Returns root stack x x := by
  refine ⟨1, fun calls hcalls => ?_⟩
  obtain ⟨calls, rfl⟩ := Nat.exists_eq_add_of_le' hcalls
  exact (walk_scalar hx).2 rfl

theorem returns_of_free {stack : List Str} {x : Json.Tree F} (hx : Free x) :
    Returns root stack x x := by
  induction hx with
  | arr _ ih => exact returns_arr (List.forall₂_same.2 ih)
  | @obj ms hP _ ih =>
    have hfind : walkTarget root (ms.lookup refKeyword) = some none := by
      rw [lookup_refKeyword hP]
      rfl
    have hpop : ms = pop refKeyword ms := (pop_of_lookup_eq_none (lookup_refKeyword hP)).symm
    refine returns_obj ⟨0, fun calls _ => replaceReference_eq_ok.2 (.inl ⟨hfind, hpop⟩)⟩ ?_
    rw [popDefinitions_of_free hP]
    exact List.forall₂_same.2 fun m hm => ⟨rfl, ih m hm⟩
  | scalar hx => exact returns_scalar hx

theorem exists_ref {r : Option (Json.Tree F)} {target : Object F}
    (h : walkTarget root r = some (some target)) : ∃ ref, r = some (.str ref) := by
  rcases r with _ | r
  · cases h
  · cases r with
    | str ref => exact ⟨ref, rfl⟩
    | _ => cases h

/-- The references on the stack lead to what the walk has come from. -/
def Under (root : Object F) (stack : List Str) (x : Json.Tree F) : Prop :=
  ∀ ref ∈ stack, ∃ target, walkTarget root (some (.str ref)) = some (some target) ∧
    Relation.ReflTransGen (WalkStep root) x (.obj target)

theorem Under.step {stack : List Str} {x z : Json.Tree F} (h : Under root stack x)
    (hz : WalkStep root z x) : Under root stack z := by
  intro ref href
  obtain ⟨target, htarget, hx⟩ := h ref href
  exact ⟨target, htarget, .head hz hx⟩

theorem Under.push {stack : List Str} {ref : Str} {target : Object F}
    (h : Under root stack (.obj target))
    (htarget : walkTarget root (some (.str ref)) = some (some target)) :
    Under root (stack ++ [ref]) (.obj target) := by
  intro r hr
  rcases List.mem_append.1 hr with hr | hr
  · exact h r hr
  · obtain rfl := List.mem_singleton.1 hr
    exact ⟨target, htarget, .refl⟩

/-- A walk without circles does not come upon a reference that it is under. -/
theorem Under.notMem {stack : List Str} {value target : Object F} {ref : Str}
    (h : Under root stack (.obj value))
    (hresolves : Resolves (fun _ => .schema) (walkTarget root) (.obj value))
    (href : value.lookup refKeyword = some (.str ref))
    (htarget : walkTarget root (some (.str ref)) = some (some target)) : ref ∉ stack := by
  intro hmem
  obtain ⟨target', htarget', hvalue⟩ := h ref hmem
  rw [htarget] at htarget'
  cases htarget'
  exact hresolves.not_transGen (.tail' hvalue (.target (href ▸ htarget)))

theorem exists_returns (hroot : Distinct (.obj root)) {stack : List Str} {x : Json.Tree F}
    (h : Resolves (fun _ => .schema) (walkTarget root) x) (hx : Distinct x)
    (hstack : Under root stack x) : ∃ y, Returns root stack x y := by
  have hresolves := h
  induction h generalizing stack with
  | @intro x hfind hstep ih =>
    have ih {z : Json.Tree F} (hz : WalkStep root z x) (hd : Distinct z) {stack : List Str}
        (hunder : Under root stack z) : ∃ y, Returns root stack z y :=
      ih z hz hd hunder (hstep z hz)
    cases hx with
    | @arr items hx =>
      obtain ⟨ys, hys⟩ := exists_forall₂_of_forall_mem fun x hxs =>
        ih (.item hxs) (hx x hxs) (hstack.step (.item hxs))
      exact ⟨.arr ys, returns_arr hys⟩
    | @obj value hkeys hms =>
      have hown {m : Str × Json.Tree F} (hm : m ∈ siblings value) :
          ∃ n : Str × Json.Tree F, m.1 = n.1 ∧ Returns root stack m.2 n.2 := by
        obtain ⟨y, hy⟩ := ih (.schema hm rfl) (hms m (mem_siblings.1 hm).1)
          (hstack.step (.schema hm rfl))
        exact ⟨(m.1, y), rfl, hy⟩
      obtain ⟨T, hT⟩ := Option.isSome_iff_exists.1 (hfind value rfl)
      rcases T with _ | target
      · obtain ⟨out, hout⟩ := exists_forall₂_of_forall_mem fun m hm => hown hm
        refine ⟨.obj out, returns_obj ⟨0, fun calls _ => replaceReference_eq_ok.2
          (.inl ⟨hT, rfl⟩)⟩ ?_⟩
        rwa [popDefinitions_pop]
      · obtain ⟨ref, href⟩ := exists_ref hT
        have htarget := href ▸ hT
        obtain ⟨y, n, hy⟩ := ih (.target hT) (distinct_target hroot hT)
          ((hstack.step (.target hT)).push htarget)
        have hwalks := walksTo_of_walk hroot (distinct_target hroot hT) (hy n le_rfl)
        obtain ⟨base, rfl, -⟩ := inlines_obj.1 hwalks
        obtain ⟨hfree, hbase⟩ := free_members hwalks
        have hall (m : Str × Json.Tree F) (hm : m ∈ update base (siblings value)) :
            ∃ n : Str × Json.Tree F, m.1 = n.1 ∧ Returns root stack m.2 n.2 := by
          rcases mem_update hm with hm | hm
          · exact ⟨m, rfl, returns_of_free (hbase m hm)⟩
          · exact hown hm
        obtain ⟨out, hout⟩ := exists_forall₂_of_forall_mem hall
        refine ⟨.obj out, returns_obj ⟨n, fun calls hcalls => replaceReference_eq_ok.2
          (.inr ⟨ref, target, .obj base, href, hT, ?_, hy calls hcalls, rfl⟩)⟩ ?_⟩
        · exact hstack.notMem hresolves href htarget
        · rwa [popDefinitions_update, popDefinitions_pop, JsonSchema.members,
            popDefinitions_of_free hfree]
    | scalar hx => exact ⟨x, returns_scalar hx⟩

/-- The walk returns what the schema is inlined to, all its objects taken for schemas. -/
theorem flatten_returns_iff (hroot : Distinct (.obj root)) {t : Json.Tree F} :
    (∃ n, ∀ calls ≥ n, flattenJsonSchema calls root = .ok t) ↔ WalksTo root (.obj root) t := by
  constructor
  · rintro ⟨n, hn⟩
    exact walksTo_of_walk hroot hroot (hn n le_rfl)
  · intro h
    have hunder : Under root [] (.obj root) := fun _ h => absurd h List.not_mem_nil
    obtain ⟨u, n, hu⟩ := exists_returns hroot (exists_inlines_iff.1 ⟨t, h⟩) hroot hunder
    obtain rfl := h.unique (walksTo_of_walk hroot hroot (hu n le_rfl))
    exact ⟨n, hu⟩

/-! ## When that is what the schema should become -/

abbrev KeptIn (root : Object F) : Object F → Str → Json.Tree F → Prop := Kept (schemaTarget root)

/-- The positions of schemas in what the schema should become, as the source of each. -/
inductive Position (root : Object F) : Json.Tree F → Prop
  | root : Position root (.obj root)
  | item {items : List (Json.Tree F)} {x : Json.Tree F} (h : Position root (.arr items))
    (hx : x ∈ items) : Position root x
  | keyword {schema : Object F} {k : Str} {x : Json.Tree F} (h : Position root (.obj schema))
    (hx : KeptIn root schema k x) (hk : keywordKind k = .schema) : Position root x
  | property {schema ms : Object F} {k : Str} {m : Str × Json.Tree F}
    (h : Position root (.obj schema)) (hx : KeptIn root schema k (.obj ms))
    (hk : keywordKind k = .schemas) (hm : m ∈ ms) : Position root m.2

/-- The value of a keyword is not changed by taking it for a schema, unless it is one. -/
inductive Unmistakable : Kind → Json.Tree F → Prop
  | schema (x : Json.Tree F) : Unmistakable .schema x
  | schemas {ms : Object F} (h : ∀ m ∈ ms, m.1 ∉ removedKeywords) : Unmistakable .schemas (.obj ms)
  | notMap {x : Json.Tree F} (hx : ∀ ms, x ≠ .obj ms) (h : Free x) : Unmistakable .schemas x
  | data {x : Json.Tree F} (h : Free x) : Unmistakable .data x

/-- No reference is found that leads nowhere, when all objects are taken for schemas, and no member
    of maps of schemas or of data is called as one that is not kept. -/
structure Distinguishable (root : Object F) : Prop where
  resolves : Resolves (fun _ => .schema) (walkTarget root) (.obj root)
  unmistakable : ∀ schema k x, Position root (.obj schema) → KeptIn root schema k x →
    Unmistakable (keywordKind k) x

theorem pointerStep_of_part {x y : Json.Tree F} {k : Str} (h : part x k = some y) :
    pointerStep x k = some y := by
  cases x with
  | obj value => exact h
  | _ => cases h

theorem foldlM_pointerStep {ps : List Str} {x y : Json.Tree F}
    (h : ps.foldlM part x = some y) : ps.foldlM pointerStep x = some y := by
  induction ps generalizing x with
  | nil => exact h
  | cons k ps ih =>
    obtain ⟨z, hz, h⟩ := Option.bind_eq_some_iff.1 h
    exact Option.bind_eq_some_iff.2 ⟨z, pointerStep_of_part hz, ih h⟩

theorem schemaTarget_str {ref : Str} {T : Option (Object F)}
    (h : schemaTarget root (some (.str ref)) = some T) :
    ∃ target, T = some target ∧
      (parts ref).foldlM pointerStep (.obj root) = some (.obj target) := by
  rw [schemaTarget] at h
  split_ifs at h
  split at h
  · next hvalue =>
    cases h
    exact ⟨_, rfl, hvalue⟩
  · cases h

/-- The walk finds what references are to, or nothing. -/
theorem agree : Agree (schemaTarget root) (walkTarget root) := by
  intro r T T' h h'
  rcases r with _ | r
  · cases h
    cases h'
    rfl
  cases r with
  | str ref =>
    obtain ⟨target, rfl, hvalue⟩ := schemaTarget_str h
    obtain ⟨target', rfl, -, hfind⟩ := walkTarget_str.1 h'
    rw [foldlM_pointerStep (foldlM_of_findTarget hfind)] at hvalue
    cases hvalue
    rfl
  | _ => cases h

theorem distinct_schemaTarget (hroot : Distinct (.obj root)) {r : Option (Json.Tree F)}
    {target : Object F} (h : schemaTarget root r = some (some target)) :
    Distinct (.obj target) := by
  rcases r with _ | r
  · cases h
  cases r with
  | str ref =>
    obtain ⟨_, ht, hvalue⟩ := schemaTarget_str h
    cases ht
    refine distinct_foldlM (fun x k y hx hy => ?_) hroot hvalue
    cases x with
    | obj value => exact distinct_lookup hx hy
    | arr items =>
      obtain ⟨i, -, hi⟩ := Option.bind_eq_some_iff.1 hy
      cases hx with
      | arr hx => exact hx _ (List.mem_of_getElem? hi)
      | scalar hx => cases hx
    | _ => cases hy
  | _ => cases h

/-- What a schema at some position should become, and walks to. -/
def Both (root : Object F) (x y : Json.Tree F) : Prop :=
  Inlines keywordKind (schemaTarget root) x y ∧ WalksTo root x y

theorem nodup_of_distinct {value : Object F} (h : Distinct (.obj value)) :
    (value.map Prod.fst).Nodup := by
  cases h with
  | obj hP _ => exact hP
  | scalar hx => cases hx

/-- What becomes of a member that is kept, if the walk is right about its object. -/
theorem Both.exists_lookup (hroot : Distinct (.obj root)) {schema out : Object F} {k : Str}
    {x : Json.Tree F} (h : Both root (.obj schema) (.obj out)) (hd : Distinct (.obj schema))
    (hx : KeptIn root schema k x) : ∃ y,
      (keywordKind k).Lift (Inlines keywordKind (schemaTarget root)) x y ∧ WalksTo root x y := by
  obtain ⟨_, ho, hschema⟩ := inlines_obj.1 h.1
  cases ho
  obtain ⟨_, ho, hwalk⟩ := inlines_obj.1 h.2
  cases ho
  have hnodup := nodup_of_distinct hd
  obtain ⟨y, hy, hlift⟩ := hx.exists_lookup hnodup
    (fun _ _ h => nodup_of_distinct (distinct_schemaTarget hroot h)) hschema
  obtain ⟨y', hy', hlift'⟩ := (hx.of_agree agree hwalk).exists_lookup hnodup
    (fun _ _ h => nodup_of_distinct (distinct_target hroot h)) hwalk
  obtain rfl : y = y' := Option.some.inj (hy.symm.trans hy')
  cases hlift' with
  | schema hlift' => exact ⟨y, hlift, hlift'⟩

/-- A map of schemas that walks to one with the same names. -/
theorem walksTo_map {ms ns : Object F} {P : Json.Tree F → Json.Tree F → Prop}
    (h : List.Forall₂ (fun m n => m.1 = n.1 ∧ P m.2 n.2) ms ns)
    (hwalk : WalksTo root (.obj ms) (.obj ns)) : (∀ m ∈ ms, m.1 ∉ removedKeywords) ∧
      List.Forall₂ (fun m n => m.1 = n.1 ∧ WalksTo root m.2 n.2) ms ns := by
  have hfree : ∀ m ∈ ms, m.1 ∉ removedKeywords := by
    intro m hm
    obtain ⟨n, hn, hmn, -⟩ := exists_of_mem_left h hm
    exact hmn ▸ (free_members hwalk).1 n hn
  refine ⟨hfree, ?_⟩
  obtain ⟨_, ho, hwalk⟩ := inlines_obj.1 hwalk
  cases ho
  cases hwalk with
  | kept _ hkept =>
    rw [siblings_eq_self hfree] at hkept
    refine hkept.imp fun m n hn => ⟨hn.1, ?_⟩
    cases hn.2 with
    | schema h => exact h
  | target htarget =>
    rw [lookup_refKeyword hfree] at htarget
    cases htarget

theorem Position.distinct (hroot : Distinct (.obj root)) {x : Json.Tree F}
    (h : Position root x) : Distinct x := by
  have htarget (r : Option (Json.Tree F)) (t : Object F)
      (h : schemaTarget root r = some (some t)) : Distinct (.obj t) := distinct_schemaTarget hroot h
  induction h with
  | root => exact hroot
  | item _ hx ih =>
    cases ih with
    | arr ih => exact ih _ hx
    | scalar hx => cases hx
  | keyword _ hx _ ih => exact hx.everywhere htarget ih
  | property _ hx _ hm ih =>
    cases hx.everywhere htarget ih with
    | obj _ hms => exact hms _ hm
    | scalar hx => cases hx

/-- If the walk is right about a schema, it is so at all its positions. -/
theorem Position.both (hroot : Distinct (.obj root)) {t x : Json.Tree F}
    (ht : Both root (.obj root) t) (h : Position root x) : ∃ y, Both root x y := by
  induction h with
  | root => exact ⟨t, ht⟩
  | item _ hx ih =>
    obtain ⟨_, hschema, hwalk⟩ := ih
    obtain ⟨ys, rfl, hys⟩ := inlines_arr.1 hschema
    obtain ⟨_, ho, hys'⟩ := inlines_arr.1 hwalk
    cases ho
    obtain ⟨y, -, hy⟩ := exists_of_mem_left (forall₂_and hys hys') hx
    exact ⟨y, hy⟩
  | keyword h hx hk ih =>
    obtain ⟨_, hboth⟩ := ih
    obtain ⟨out, rfl, -⟩ := inlines_obj.1 hboth.1
    obtain ⟨y, hlift, hwalk⟩ := hboth.exists_lookup hroot (h.distinct hroot) hx
    rw [hk] at hlift
    cases hlift with
    | schema hschema => exact ⟨y, hschema, hwalk⟩
  | property h hx hk hm ih =>
    obtain ⟨_, hboth⟩ := ih
    obtain ⟨out, rfl, -⟩ := inlines_obj.1 hboth.1
    obtain ⟨y, hlift, hwalk⟩ := hboth.exists_lookup hroot (h.distinct hroot) hx
    rw [hk] at hlift
    cases hlift with
    | schemas hms =>
      obtain ⟨n, -, hn, hn'⟩ := exists_of_mem_left (forall₂_and hms (walksTo_map hms hwalk).2) hm
      exact ⟨n.2, hn.2, hn'.2⟩
    | notMap hx => exact absurd rfl (hx _)

theorem free_of_walksTo {x y : Json.Tree F} (h : WalksTo root x y) : Free y := by
  obtain ⟨n, h⟩ := h
  exact free_of_inline h

theorem distinguishable_of_both (hroot : Distinct (.obj root)) {t : Json.Tree F}
    (ht : Both root (.obj root) t) : Distinguishable root := by
  refine ⟨exists_inlines_iff.1 ⟨t, ht.2⟩, fun schema k x hs hx => ?_⟩
  obtain ⟨_, hboth⟩ := hs.both hroot ht
  obtain ⟨out, rfl, -⟩ := inlines_obj.1 hboth.1
  obtain ⟨y, hlift, hwalk⟩ := hboth.exists_lookup hroot (hs.distinct hroot) hx
  generalize keywordKind k = c at hlift ⊢
  cases hlift with
  | schema => exact .schema x
  | schemas hms => exact .schemas (walksTo_map hms hwalk).1
  | notMap hx => exact .notMap hx (free_of_walksTo hwalk)
  | data => exact .data (free_of_walksTo hwalk)

/-- A value that is not mistaken walks to what it should become, if the schemas in it do. -/
theorem Unmistakable.walksTo {c : Kind} {x y : Json.Tree F} (h : Unmistakable c x)
    (hy : c.Lift (Inlines keywordKind (schemaTarget root)) x y)
    (hschema : c = .schema → ∀ y, Inlines keywordKind (schemaTarget root) x y → WalksTo root x y)
    (hschemas : ∀ ms, x = .obj ms → c = .schemas → ∀ m ∈ siblings ms, ∀ y,
      Inlines keywordKind (schemaTarget root) m.2 y → WalksTo root m.2 y) : WalksTo root x y := by
  cases h with
  | schema =>
    cases hy with
    | schema hy => exact hschema rfl _ hy
  | @schemas ms hfree =>
    cases hy with
    | @schemas _ ns hms =>
      have hschemas := hschemas ms rfl rfl
      have hkept : List.Forall₂ (Entry (fun _ => .schema) (WalksTo root)) (siblings ms) ns := by
        rw [siblings_eq_self hfree] at hschemas ⊢
        exact forall₂_imp_of_mem hms fun m hm n hn =>
          ⟨hn.1, .schema (hschemas m hm _ hn.2)⟩
      refine inlines_obj.2 ⟨ns, rfl, .kept ?_ hkept⟩
      rw [lookup_refKeyword hfree]
      rfl
    | notMap hx => exact absurd rfl (hx ms)
  | notMap hx hfree =>
    cases hy with
    | schemas => exact absurd rfl (hx _)
    | notMap => exact hfree.inlines rfl
  | data hfree =>
    cases hy with
    | data => exact hfree.inlines rfl

/-- The walk is right about schemas at all positions. -/
theorem Distinguishable.walksTo (hroot : Distinct (.obj root)) (h : Distinguishable root)
    {x y : Json.Tree F} (hx : Position root x)
    (hresolves : Resolves (fun _ => .schema) (walkTarget root) x)
    (hy : Inlines keywordKind (schemaTarget root) x y) : WalksTo root x y := by
  induction hresolves.acc.transGen generalizing y with
  | intro x _ ih =>
    have hd := hx.distinct hroot
    have ih {z : Json.Tree F} (hz : Relation.TransGen (WalkStep root) z x) (hpos : Position root z)
        (w : Json.Tree F) (hw : Inlines keywordKind (schemaTarget root) z w) : WalksTo root z w :=
      ih z hz hpos (hresolves.of_transGen hz) hw
    cases x with
    | arr items =>
      obtain ⟨ys, rfl, hys⟩ := inlines_arr.1 hy
      exact inlines_arr.2 ⟨ys, rfl, forall₂_imp_of_mem hys fun z hz w hw =>
        ih (.single (.item hz)) (hx.item hz) w hw⟩
    | obj schema =>
      obtain ⟨out, rfl, hout⟩ := inlines_obj.1 hy
      obtain ⟨_, hwalks⟩ := exists_inlines_iff.2 hresolves
      obtain ⟨out', rfl, hout'⟩ := inlines_obj.1 hwalks
      obtain ⟨n, hn⟩ := hy
      have hnodup := nodup_of_distinct hd
      have htarget (r : Option (Json.Tree F)) (t : Object F)
          (h : schemaTarget root r = some (some t)) : (t.map Prod.fst).Nodup :=
        nodup_of_distinct (distinct_schemaTarget hroot h)
      have heq : out = out' := by
        refine ext_of_lookup (keys_eq_of_agree agree hn hwalks)
          (nodup_of_inline hnodup htarget hn) fun k hk => ?_
        obtain ⟨z, hz⟩ := exists_kept_of_inline hn hk
        have hz' := hz.of_agree agree hout'
        obtain ⟨w, hw, hlift⟩ := hz.exists_lookup hnodup htarget hout
        obtain ⟨w', hw', hlift'⟩ := hz'.exists_lookup hnodup
          (fun _ _ h => nodup_of_distinct (distinct_target hroot h)) hout'
        have hwalk : WalksTo root z w := by
          refine (h.unmistakable schema k z hx hz).walksTo hlift
            (fun hkind => ih hz'.transGen (hx.keyword hz hkind)) fun ms hms hkind m hm => ?_
          subst hms
          exact ih (.head (.schema hm rfl) hz'.transGen)
            (hx.property hz hkind (mem_siblings.1 hm).1)
        cases hlift' with
        | schema hlift' => rw [hw, hw', hwalk.unique hlift']
      exact heq ▸ hwalks
    | _ => exact (inlines_scalar rfl).2 ((inlines_scalar rfl).1 hy)

theorem both_iff (hroot : Distinct (.obj root)) {t : Json.Tree F} (ht : Flattened root t) :
    WalksTo root (.obj root) t ↔ Distinguishable root :=
  ⟨fun h => distinguishable_of_both hroot ⟨ht, h⟩,
    fun h => h.walksTo hroot .root h.resolves ht⟩

/-- A schema whose references resolve should become one without references, and is flattened to it
    if and only if schemas in it are told from maps of schemas and data. -/
theorem flattenJsonSchema_iff (root : Object F) (hroot : Distinct (.obj root))
    (hrefs : ReferencesResolve root) : ∃ t, Flattened root t ∧ NoReferences keywordKind t ∧
      ((∃ n, ∀ calls ≥ n, flattenJsonSchema calls root = .ok t) ↔ Distinguishable root) := by
  obtain ⟨t, ht⟩ := exists_inlines_iff.2 hrefs
  have hclean : NoReferences keywordKind t := by
    obtain ⟨n, hn⟩ := ht
    exact noReferences_of_inline hn
  exact ⟨t, ht, hclean, (flatten_returns_iff hroot).trans (both_iff hroot ht)⟩

/-- The schema of an object with a name, by reference. -/
def nameSchema : Object Unit := [(.ofString "properties", .obj [(.ofString "name",
    .obj [(.ofString "$ref", .str (.ofString "#/$defs/Name"))])]),
  (.ofString "$defs", .obj [(.ofString "Name", .obj [(.ofString "type",
    .str (.ofString "string"))])])]

theorem distinct_nameSchema : Distinct (.obj nameSchema) := by
  refine .obj (by decide) ?_
  rw [nameSchema, List.forall_mem_cons, List.forall_mem_singleton]
  refine ⟨.obj (by decide) ?_, .obj (by decide) ?_⟩
  all_goals
    exact List.forall_mem_singleton.2 (.obj (by decide) (List.forall_mem_singleton.2 (.scalar rfl)))

theorem referencesResolve_nameSchema : ReferencesResolve nameSchema := by
  refine resolves_of_inline (n := 5) (y := .obj [(.ofString "properties", .obj [(.ofString "name",
    .obj [(.ofString "type", .str (.ofString "string"))])])]) ?_
  rfl

theorem flattenJsonSchema_iff_name : ∃ t, Flattened nameSchema t ∧ NoReferences keywordKind t ∧
    ((∃ n, ∀ calls ≥ n, flattenJsonSchema calls nameSchema = .ok t) ↔ Distinguishable nameSchema) :=
  flattenJsonSchema_iff nameSchema distinct_nameSchema referencesResolve_nameSchema

/-- The schema of an object with a property called as definitions are. -/
def definitionsSchema : Object Unit := [(.ofString "properties", .obj [(.ofString "definitions",
  .obj [(.ofString "type", .str (.ofString "string"))])])]

theorem distinct_definitionsSchema : Distinct (.obj definitionsSchema) := by
  refine .obj (by decide) (List.forall_mem_singleton.2 (.obj (by decide) ?_))
  exact List.forall_mem_singleton.2 (.obj (by decide) (List.forall_mem_singleton.2 (.scalar rfl)))

/-- The property is lost. -/
theorem walk_definitionsSchema : walk definitionsSchema 3 [] (.obj definitionsSchema) =
    .ok (.obj [(.ofString "properties", .obj [])]) := by
  rfl

theorem flattenJsonSchema_definitions : ¬∀ root : Object Unit, Distinct (.obj root) →
    ReferencesResolve root → ∃ t, Flattened root t ∧
      ∃ n, ∀ calls ≥ n, flattenJsonSchema calls root = .ok t := by
  intro h
  have hinline : inline keywordKind (schemaTarget definitionsSchema) 4 (.obj definitionsSchema) =
      some (.obj definitionsSchema) := by
    rfl
  have hd := distinct_definitionsSchema
  obtain ⟨t, ht, hreturns⟩ := h definitionsSchema hd (resolves_of_inline hinline)
  obtain rfl := ht.unique ⟨4, hinline⟩
  have hwalk := ((flatten_returns_iff hd).1 hreturns).unique
    (walksTo_of_walk hd hd walk_definitionsSchema)
  cases hwalk

end Hyperforge.HarnessSdk
