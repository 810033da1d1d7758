import Mathlib.Data.Fintype.Order
import Mathlib.Logic.Relation
import Mathlib.Order.WellFounded

/-!
# Traversals of a directed graph

What the traversals of a directed graph find, given what they have visited when nothing
is pending: a backward search, the nodes that reach a target (`Search.mem_iff`); a
topological order, nodes that are on no cycle (`Topological.acyclic`), which are all of
them if there is no cycle (`exists_ready`); a breadth-first search up to some depth, the nodes
within that distance (`Ball.mem_iff`), those at less being expanded (`Ball.expanded_iff`).
-/

namespace Traversal

open Relation

variable {α : Type*} {r : α → α → Prop}

/-! ## Backward search -/

/-- A backward search from some targets: the nodes reached, of which some are pending,
    whose predecessors are yet to be looked at. -/
structure Search (r : α → α → Prop) (targets : α → Prop) (pending reached : List α) : Prop where
  sound : ∀ a ∈ reached, ∃ t, targets t ∧ ReflTransGen r a t
  targets : ∀ t, targets t → t ∈ reached
  closed : ∀ a b, r a b → b ∈ reached → b ∉ pending → a ∈ reached

/-- Once nothing is pending, the nodes reached are those from which a target is. -/
theorem Search.mem_iff {targets : α → Prop} {reached : List α}
    (h : Search r targets [] reached) (a : α) :
    a ∈ reached ↔ ∃ t, targets t ∧ ReflTransGen r a t := by
  refine ⟨h.sound a, ?_⟩
  rintro ⟨t, ht, hat⟩
  induction hat using ReflTransGen.head_induction_on with
  | refl => exact h.targets t ht
  | head hab _ ih => exact h.closed _ _ hab ih List.not_mem_nil

/-! ## Topological orders -/

/-- Nodes, the last visited first, each visited after all its predecessors. -/
inductive Topological (r : α → α → Prop) : List α → Prop
  | nil : Topological r []
  | cons {a : α} {l : List α} (hl : Topological r l) (ha : a ∉ l) (hr : ∀ b, r b a → b ∈ l) :
    Topological r (a :: l)

namespace Topological

variable {l : List α}

theorem nodup (h : Topological r l) : l.Nodup := by
  induction h with
  | nil => exact List.nodup_nil
  | cons _ ha _ ih => exact List.nodup_cons.2 ⟨ha, ih⟩

/-- The predecessors of what has been visited have been. -/
theorem mem_of_reflTransGen (h : Topological r l) {a b : α} (hab : ReflTransGen r a b)
    (hb : b ∈ l) : a ∈ l := by
  induction hab using ReflTransGen.head_induction_on with
  | refl => exact hb
  | head hac _ ih =>
    clear hb
    induction h with
    | nil => exact absurd ih List.not_mem_nil
    | cons _ _ hr ih' =>
      rcases List.mem_cons.1 ih with rfl | ih
      · exact List.mem_cons_of_mem _ (hr _ hac)
      · exact List.mem_cons_of_mem _ (ih' ih)

/-- What has been visited is on no cycle. -/
theorem acyclic (h : Topological r l) {a : α} (ha : a ∈ l) : ¬TransGen r a a := by
  induction h with
  | nil => exact absurd ha List.not_mem_nil
  | cons hl hn hr ih =>
    rcases List.mem_cons.1 ha with rfl | ha
    · -- the last predecessor on a cycle through `a` is visited before `a`, hence `a` is
      intro hcycle
      obtain ⟨b, hab, hba⟩ := TransGen.tail'_iff.1 hcycle
      exact hn (hl.mem_of_reflTransGen hab (hr b hba))
    · exact ih ha

end Topological

/-- Without cycles, some of finitely many nodes has no predecessor among them. -/
theorem exists_ready (hr : ∀ a, ¬TransGen r a a) (s : Finset α) (hs : s.Nonempty) :
    ∃ a ∈ s, ∀ b ∈ s, ¬r b a := by
  have : Std.Irrefl fun a b : s => TransGen r a.1 b.1 := ⟨fun a => hr a.1⟩
  have : IsTrans s fun a b => TransGen r a.1 b.1 := ⟨fun _ _ _ => TransGen.trans⟩
  have hwf : WellFounded fun a b : s => TransGen r a.1 b.1 :=
    Finite.wellFounded_of_trans_of_irrefl _
  obtain ⟨a, ha⟩ := hs
  obtain ⟨m, -, hm⟩ := hwf.has_min Set.univ ⟨⟨a, ha⟩, trivial⟩
  exact ⟨m.1, m.2, fun b hb hbm => hm ⟨b, hb⟩ trivial (.single hbm)⟩

/-! ## Breadth-first search -/

/-- A walk of some length from `a`. -/
inductive Walk (r : α → α → Prop) (a : α) : ℕ → α → Prop
  | refl : Walk r a 0 a
  | tail {n : ℕ} {b c : α} (h : Walk r a n b) (hbc : r b c) : Walk r a (n + 1) c

/-- A node is at a distance of at most `n` from `a`. -/
def Within (r : α → α → Prop) (a : α) (n : ℕ) (b : α) : Prop := ∃ m ≤ n, Walk r a m b

theorem Within.mono {a b : α} {n m : ℕ} (hnm : n ≤ m) (h : Within r a n b) : Within r a m b := by
  obtain ⟨k, hk, hb⟩ := h
  exact ⟨k, hk.trans hnm, hb⟩

/-- A breadth-first search from `a`, that expands nodes at a distance of less than `hops`: the
    nodes found, with their depths, of which some are pending. -/
structure Ball (r : α → α → Prop) (a : α) (hops : ℕ) (done pending : List (α × ℕ)) : Prop where
  start : (a, 0) ∈ done ++ pending
  nodup : ((done ++ pending).map Prod.fst).Nodup
  walk : ∀ x ∈ done ++ pending, x.2 ≤ hops ∧ Walk r a x.2 x.1
  sorted : pending.Pairwise (·.2 ≤ ·.2)
  near : ∀ x ∈ done ++ pending, ∀ p ∈ pending.head?, x.2 ≤ p.2 + 1
  closed : ∀ x ∈ done, x.2 < hops → ∀ b, r x.1 b → ∃ d ≤ x.2 + 1, (b, d) ∈ done ++ pending

theorem Ball.initial (r : α → α → Prop) (a : α) (hops : ℕ) : Ball r a hops [] [(a, 0)] := by
  refine ⟨List.mem_singleton_self _, List.nodup_singleton _, fun x hx => ?_,
    List.pairwise_singleton _ _, fun x hx p _ => ?_, fun x hx => absurd hx List.not_mem_nil⟩
  · obtain rfl := List.mem_singleton.1 hx
    exact ⟨Nat.zero_le _, .refl⟩
  · obtain rfl := List.mem_singleton.1 hx
    exact Nat.zero_le _

namespace Ball

variable {a b : α} {d hops : ℕ} {done pending : List (α × ℕ)}

/-- What is next is expanded: the nodes not found yet are next to it. -/
theorem step (h : Ball r a hops done ((b, d) :: pending)) {new : List α} (hnodup : new.Nodup)
    (hnew : ∀ c ∈ new, d < hops ∧ r b c ∧ c ∉ (done ++ (b, d) :: pending).map Prod.fst)
    (hall : d < hops → ∀ c, r b c → c ∈ new ∨ c ∈ (done ++ (b, d) :: pending).map Prod.fst) :
    Ball r a hops (done ++ [(b, d)]) (pending ++ new.map (·, d + 1)) := by
  have hassoc : (done ++ [(b, d)]) ++ (pending ++ new.map (·, d + 1)) =
      (done ++ (b, d) :: pending) ++ new.map (·, d + 1) := by simp
  have hfst : (new.map (·, d + 1)).map Prod.fst = new := by
    rw [List.map_map]
    exact List.map_id new
  have hdepth : ∀ x ∈ done ++ (b, d) :: pending, x.2 ≤ d + 1 := fun x hx => h.near x hx _ rfl
  have hnext {x : α × ℕ} (hx : x ∈ new.map (·, d + 1)) : x.1 ∈ new ∧ x.2 = d + 1 := by
    obtain ⟨c, hc, rfl⟩ := List.mem_map.1 hx
    exact ⟨hc, rfl⟩
  have hb : (b, d) ∈ done ++ (b, d) :: pending := List.mem_append_right _ List.mem_cons_self
  obtain ⟨hle, hsorted⟩ := List.pairwise_cons.1 h.sorted
  refine ⟨?_, ?_, ?_, ?_, ?_, ?_⟩
  · rw [hassoc]
    exact List.mem_append_left _ h.start
  · rw [hassoc, List.map_append, hfst]
    exact h.nodup.append hnodup fun c hc hc' => (hnew c hc').2.2 hc
  · rw [hassoc]
    intro x hx
    rcases List.mem_append.1 hx with hx | hx
    · exact h.walk x hx
    · obtain ⟨hmem, heq⟩ := hnext hx
      obtain ⟨hd, hbx, -⟩ := hnew _ hmem
      exact heq ▸ ⟨hd, (h.walk _ hb).2.tail hbx⟩
  · refine List.pairwise_append.2 ⟨hsorted, ?_, fun x hx y hy => ?_⟩
    · exact List.pairwise_map.2 (List.pairwise_of_forall fun _ _ => le_rfl)
    · rw [(hnext hy).2]
      exact hdepth x (List.mem_append_right _ (List.mem_cons_of_mem _ hx))
  · rw [hassoc]
    intro x hx p hp
    -- what is next is as deep as what has just been expanded, or deeper
    have hdp : d ≤ p.2 := by
      rcases List.mem_append.1 (List.mem_of_mem_head? hp) with hp | hp
      · exact hle p hp
      · exact (hnext hp).2 ▸ Nat.le_succ d
    rcases List.mem_append.1 hx with hx | hx
    · exact (hdepth x hx).trans (Nat.succ_le_succ hdp)
    · exact (hnext hx).2 ▸ Nat.succ_le_succ hdp
  · rw [hassoc]
    intro x hx hlt c hc
    rcases List.mem_append.1 hx with hx | hx
    · obtain ⟨e, he, hmem⟩ := h.closed x hx hlt c hc
      exact ⟨e, he, List.mem_append_left _ hmem⟩
    · obtain rfl := List.mem_singleton.1 hx
      rcases hall hlt c hc with hc | hc
      · exact ⟨d + 1, le_rfl, List.mem_append_right _ (List.mem_map_of_mem hc)⟩
      · obtain ⟨y, hy, rfl⟩ := List.mem_map.1 hc
        exact ⟨y.2, hdepth y hy, List.mem_append_left _ hy⟩

/-- What a walk of at most `hops` leads to has been found, at no more than its length. -/
theorem exists_mem_of_walk (h : Ball r a hops done []) {n : ℕ} (hn : n ≤ hops)
    (hb : Walk r a n b) : ∃ d ≤ n, (b, d) ∈ done := by
  have hmem (x : α × ℕ) : x ∈ done ++ [] ↔ x ∈ done := by rw [List.append_nil]
  induction hb with
  | refl => exact ⟨0, le_rfl, (hmem _).1 h.start⟩
  | @tail n b c _ hbc ih =>
    obtain ⟨d, hd, hb⟩ := ih (Nat.le_of_succ_le hn)
    obtain ⟨e, he, hc⟩ := h.closed (b, d) hb (lt_of_le_of_lt hd hn) c hbc
    exact ⟨e, he.trans (Nat.succ_le_succ hd), (hmem _).1 hc⟩

/-- Once nothing is pending, the nodes found are those within `hops`. -/
theorem mem_iff (h : Ball r a hops done []) : b ∈ done.map Prod.fst ↔ Within r a hops b := by
  constructor
  · intro hb
    obtain ⟨x, hx, rfl⟩ := List.mem_map.1 hb
    exact ⟨x.2, h.walk x (List.mem_append_left _ hx)⟩
  · rintro ⟨n, hn, hb⟩
    obtain ⟨d, -, hd⟩ := h.exists_mem_of_walk hn hb
    exact List.mem_map_of_mem hd

/-- Those expanded are at a distance of less than `hops`. -/
theorem expanded_iff (h : Ball r a hops done []) :
    (∃ d < hops, (b, d) ∈ done) ↔ ∃ n < hops, Walk r a n b := by
  constructor
  · rintro ⟨d, hd, hb⟩
    exact ⟨d, hd, (h.walk _ (List.mem_append_left _ hb)).2⟩
  · rintro ⟨n, hn, hb⟩
    obtain ⟨d, hd, hb⟩ := h.exists_mem_of_walk hn.le hb
    exact ⟨d, lt_of_le_of_lt hd hn, hb⟩

end Ball

end Traversal
