import Hyperforge.Library.Crash
import Hyperforge.Library.Traversal
import Hyperforge.Procedural.Graph
import Mathlib.Data.List.Count

/-!
# Valid graphs

The checks of a graph succeed exactly when it is valid in terms of its directed
multigraph (`GraphData.Valid`): a path leads from every node to a terminal one and,
where the policy rejects cycles, there is none. The backward search from the terminal
nodes finds those that reach one (`mem_reachesTerminal`), and the topological
traversal visits all the nodes exactly when there are no cycles (`visited_eq`).
-/

namespace Hyperforge

open Crash Traversal

namespace GraphData

variable (g : GraphData)

/-- An edge of any relation leads from a node to another. -/
def Edge (a b : String) : Prop := ∃ e ∈ g.edges, e.source = a ∧ e.target = b

/-- No edge leaves the node. -/
def Terminal (a : String) : Prop := ∀ e ∈ g.edges, e.source ≠ a

/-- A valid graph. -/
structure Valid : Prop where
  ids_nodup : g.ids.Nodup
  start : ∃ n ∈ g.nodes, n.id = "Start" ∧ n.type = .status
  bindings_nodup : g.bindings.Nodup
  start_notMem : "Start" ∉ g.bindings
  endpoints : ∀ e ∈ g.edges, e.source ∈ g.ids ∧ e.target ∈ g.ids
  triplets_nodup : (g.edges.map (·.triplet)).Nodup
  terminal : ∀ a ∈ g.ids, ∃ t ∈ g.ids, g.Terminal t ∧ Relation.ReflTransGen g.Edge a t
  acyclic : g.cyclePolicy = .reject → ∀ a, ¬Relation.TransGen g.Edge a a

variable {g}

theorem mem_incoming {a b : String} : a ∈ g.incoming b ↔ g.Edge a b := by
  simp only [incoming, List.mem_map, List.mem_filter, decide_eq_true_eq, Edge]
  exact ⟨fun ⟨e, ⟨he, hb⟩, ha⟩ => ⟨e, he, ha, hb⟩, fun ⟨e, he, ha, hb⟩ => ⟨e, ⟨he, hb⟩, ha⟩⟩

theorem mem_outgoing {a b : String} : b ∈ g.outgoing a ↔ g.Edge a b := by
  simp only [outgoing, List.mem_map, List.mem_filter, decide_eq_true_eq, Edge, and_assoc]

theorem outgoing_isEmpty {a : String} : (g.outgoing a).isEmpty ↔ g.Terminal a := by
  simp [outgoing, Terminal, List.isEmpty_iff, List.filter_eq_nil_iff]

/-! ## The nodes that reach a terminal one -/

/-- What joins the queue and what has been reached are the sources not reached before. -/
theorem visitSources_eq (sources pending reached : List String) : ∃ new,
    visitSources sources pending reached = (pending ++ new, reached ++ new) ∧ new.Nodup ∧
      ∀ s, s ∈ new ↔ s ∈ sources ∧ s ∉ reached := by
  induction sources generalizing pending reached with
  | nil => exact ⟨[], by simp [visitSources], List.nodup_nil, by simp⟩
  | cons a sources ih =>
    rw [visitSources, List.foldl_cons, ← visitSources]
    by_cases ha : a ∈ reached
    · rw [if_pos ha]
      obtain ⟨new, heq, hn, hmem⟩ := ih pending reached
      refine ⟨new, heq, hn, fun s => ?_⟩
      rw [hmem, List.mem_cons]
      refine and_congr_left fun hs => ⟨.inr, ?_⟩
      rintro (rfl | hs')
      · exact absurd ha hs
      · exact hs'
    · rw [if_neg ha]
      obtain ⟨new, heq, hn, hmem⟩ := ih (pending ++ [a]) (reached ++ [a])
      refine ⟨a :: new, by simp [heq], List.nodup_cons.2 ⟨?_, hn⟩, fun s => ?_⟩
      · simp [hmem]
      · rw [List.mem_cons, hmem, List.mem_cons, List.mem_append, List.mem_singleton]
        by_cases hs : s = a
        · simp [hs, ha]
        · simp [hs]

/-- The search ends with nothing pending: each node joins the queue at most once. -/
theorem reverseReach_search (hends : ∀ a b, g.Edge a b → a ∈ g.ids) {targets : String → Prop}
    {fuel : ℕ} {pending reached : List String} (h : Search g.Edge targets pending reached)
    (hn : reached.Nodup) (hids : reached ⊆ g.ids) (hp : pending ⊆ reached)
    (hfuel : g.ids.length + pending.length ≤ fuel + reached.length) :
    Search g.Edge targets [] (g.reverseReach fuel pending reached) := by
  induction fuel generalizing pending reached with
  | zero =>
    have := (hn.subperm hids).length_le
    obtain rfl : pending = [] := List.length_eq_zero_iff.1 (by omega)
    exact h
  | succ fuel ih =>
    rcases pending with _ | ⟨b, pending⟩
    · exact h
    obtain ⟨new, heq, hnew, hmem⟩ := visitSources_eq (g.incoming b) pending reached
    rw [reverseReach, heq]
    have hdisj : ∀ a ∈ new, a ∉ reached := fun a ha => ((hmem a).1 ha).2
    refine ih ⟨?_, fun t ht => List.mem_append_left _ (h.targets t ht), ?_⟩ ?_ ?_ ?_ ?_
    · intro a ha
      rcases List.mem_append.1 ha with ha | ha
      · exact h.sound a ha
      · obtain ⟨t, ht, hbt⟩ := h.sound b (hp List.mem_cons_self)
        exact ⟨t, ht, .head (mem_incoming.1 ((hmem a).1 ha).1) hbt⟩
    · intro a c hac hc hc'
      by_cases ha : a ∈ reached
      · exact List.mem_append_left _ ha
      refine List.mem_append_right _ ((hmem a).2 ⟨?_, ha⟩)
      rw [List.mem_append, not_or] at hc'
      have hcr : c ∈ reached := (List.mem_append.1 hc).resolve_right hc'.2
      -- of the nodes reached, only those pending may have a predecessor that is not
      rcases List.mem_cons.1 (not_not.1 (mt (h.closed a c hac hcr) ha)) with rfl | hcp
      · exact mem_incoming.2 hac
      · exact absurd hcp hc'.1
    · exact List.Nodup.append hn hnew fun a ha ha' => hdisj a ha' ha
    · refine List.append_subset.2 ⟨hids, fun a ha => ?_⟩
      exact hends a b (mem_incoming.1 ((hmem a).1 ha).1)
    · refine List.append_subset.2 ⟨fun a ha => ?_, List.subset_append_right _ _⟩
      exact List.mem_append_left _ (hp (List.mem_cons_of_mem _ ha))
    · simp only [List.length_append, List.length_cons] at hfuel ⊢
      omega

theorem mem_reachesTerminal (hends : ∀ a b, g.Edge a b → a ∈ g.ids) (hids : g.ids.Nodup)
    {a : String} : a ∈ g.reachesTerminal ↔
      ∃ t, (t ∈ g.ids ∧ g.Terminal t) ∧ Relation.ReflTransGen g.Edge a t := by
  have hmem (t : String) : t ∈ g.ids.filter (fun id => (g.outgoing id).isEmpty) ↔
      t ∈ g.ids ∧ g.Terminal t := by
    rw [List.mem_filter, outgoing_isEmpty]
  refine (reverseReach_search hends ⟨fun t ht => ?_, fun t ht => (hmem t).2 ht, ?_⟩
    (hids.filter _) (List.filter_subset_self _) (List.Subset.refl _) (by omega)).mem_iff a
  · exact ⟨t, (hmem t).1 ht, .refl⟩
  · exact fun _ _ _ hb hb' => absurd hb hb'

/-! ## The topological traversal -/

/-- A target loses as many incoming edges as it is in the list, and joins the queue if
    these are all that it had. -/
theorem visitTargets_eq (targets pending : List String) (indegree : String → ℕ)
    (hd : ∀ t, targets.count t ≤ indegree t) : ∃ new,
    visitTargets targets pending indegree =
      (pending ++ new, fun t => indegree t - targets.count t) ∧ new.Nodup ∧
      ∀ t, t ∈ new ↔ t ∈ targets ∧ indegree t = targets.count t := by
  induction targets generalizing pending indegree with
  | nil => exact ⟨[], by simp [visitTargets], List.nodup_nil, by simp⟩
  | cons a targets ih =>
    have ha := hd a
    rw [List.count_cons_self] at ha
    have hcount (t : String) (ht : t ≠ a) : (a :: targets).count t = targets.count t :=
      List.count_cons_of_ne (Ne.symm ht)
    obtain ⟨new, heq, hn, hmem⟩ := ih (if indegree a = 1 then pending ++ [a] else pending)
      (Function.update indegree a (indegree a - 1)) fun t => by
        by_cases ht : t = a
        · subst ht
          rw [Function.update_self]
          omega
        · rw [Function.update_of_ne ht, ← hcount t ht]
          exact hd t
    have hone : indegree a - 1 = 0 ↔ indegree a = 1 := by omega
    refine ⟨(if indegree a = 1 then [a] else []) ++ new, ?_, ?_, fun t => ?_⟩
    · rw [visitTargets, List.foldl_cons, ← visitTargets]
      simp only [Function.update_self, hone, heq, Prod.mk.injEq]
      refine ⟨?_, funext fun t => ?_⟩
      · split_ifs <;> simp
      · by_cases ht : t = a
        · subst ht
          rw [Function.update_self, List.count_cons_self]
          omega
        · rw [Function.update_of_ne ht, hcount t ht]
    · split_ifs with h
      · -- the last edge has been removed: the target is not in the rest of the list
        refine List.nodup_cons.2 ⟨fun hnew => ?_, hn⟩
        have := List.count_pos_iff.2 ((hmem a).1 hnew).1
        omega
      · exact hn
    · rw [List.mem_append, hmem, List.mem_cons]
      by_cases ht : t = a
      · subst ht
        rw [Function.update_self, List.count_cons_self]
        have := List.count_pos_iff (a := t) (l := targets)
        split_ifs with h
        · have hzero : targets.count t = 0 := by omega
          simp [h, hzero]
        · simp only [List.not_mem_nil, false_or, true_or, true_and, ← this]
          omega
      · rw [Function.update_of_ne ht, hcount t ht]
        split_ifs with h <;> simp [ht]

/-- The edges from a node to another are as many of those leaving the one, and of those
    entering the other. -/
theorem count_outgoing (a b : String) : (g.outgoing a).count b = (g.incoming b).count a := by
  rw [outgoing, incoming]
  induction g.edges with
  | nil => rfl
  | cons e edges ih =>
    rw [List.filter_cons, List.filter_cons]
    by_cases ha : e.source = a <;> by_cases hb : e.target = b <;> simp [ha, hb, ih]

/-- The sources not visited, before and after a visit. -/
theorem length_filter_cons {a : String} {done : List String} (ha : a ∉ done) (l : List String) :
    (l.filter (· ∉ a :: done)).length + l.count a = (l.filter (· ∉ done)).length := by
  induction l with
  | nil => rfl
  | cons b l ih =>
    by_cases hb : b = a
    · subst hb
      simp only [List.filter_cons, List.mem_cons, true_or, not_true_eq_false, decide_false, ha,
        not_false_eq_true, decide_true, List.count_cons_self, if_true, Bool.false_eq_true,
        if_false, List.length_cons, ← ih]
      omega
    · simp only [List.filter_cons, List.mem_cons, hb, false_or, List.count_cons_of_ne hb] at ih ⊢
      split_ifs
      · simp only [List.length_cons, ← ih]
        omega
      · exact ih

/-- The state of the topological traversal: pending are the nodes that have not been
    visited but all of whose predecessors have. -/
structure Visiting (g : GraphData) (pending : List String) (indegree : String → ℕ)
    (done : List String) : Prop where
  order : Topological g.Edge done
  subset : done ⊆ g.ids
  nodup : pending.Nodup
  pending : ∀ t, t ∈ pending ↔ t ∈ g.ids ∧ t ∉ done ∧ indegree t = 0
  indegree : ∀ t, indegree t = ((g.incoming t).filter (· ∉ done)).length

theorem Visiting.step (hends : ∀ a b, g.Edge a b → b ∈ g.ids) {a : String}
    {pending done : List String} {indegree : String → ℕ}
    (h : g.Visiting (a :: pending) indegree done) :
    ∃ pending' indegree', visitTargets (g.outgoing a) pending indegree = (pending', indegree') ∧
      g.Visiting pending' indegree' (a :: done) := by
  obtain ⟨hids, hdone, hzero⟩ := (h.pending a).1 List.mem_cons_self
  obtain ⟨ha, hpending⟩ := List.nodup_cons.1 h.nodup
  have hlen (t : String) : ((g.incoming t).filter (· ∉ a :: done)).length +
      (g.outgoing a).count t = indegree t := by
    rw [count_outgoing, h.indegree t, length_filter_cons hdone]
  obtain ⟨new, heq, hn, hmem⟩ := visitTargets_eq (g.outgoing a) pending indegree fun t => by
    have := hlen t
    omega
  have hnew (t : String) (ht : t ∈ new) : g.Edge a t ∧ 0 < indegree t := by
    obtain ⟨hout, heq⟩ := (hmem t).1 ht
    have hcount := List.count_pos_iff.2 hout
    exact ⟨mem_outgoing.1 hout, heq ▸ hcount⟩
  refine ⟨_, _, heq, ⟨.cons h.order hdone fun b hba => ?_,
    List.cons_subset.2 ⟨hids, h.subset⟩, ?_, fun t => ?_, fun t => ?_⟩⟩
  · -- no source of an edge entering the node is left
    by_contra hb
    rw [h.indegree a, List.length_eq_zero_iff, List.filter_eq_nil_iff] at hzero
    exact hzero b (mem_incoming.2 hba) (by simpa using hb)
  · refine List.Nodup.append hpending hn fun t ht ht' => ?_
    have := ((h.pending t).1 (List.mem_cons_of_mem _ ht)).2.2
    have := (hnew t ht').2
    omega
  · rw [List.mem_append, List.mem_cons, not_or]
    constructor
    · rintro (ht | ht)
      · obtain ⟨hids, hdone, hzero⟩ := (h.pending t).1 (List.mem_cons_of_mem _ ht)
        exact ⟨hids, ⟨fun heq => ha (heq ▸ ht), hdone⟩, by omega⟩
      · obtain ⟨hedge, hpos⟩ := hnew t ht
        refine ⟨hends a t hedge, ⟨?_, fun htd => ?_⟩, ?_⟩
        · rintro rfl
          omega
        · exact hdone (h.order.mem_of_reflTransGen (.single hedge) htd)
        · have := ((hmem t).1 ht).2
          omega
    · rintro ⟨hids, ⟨hta, htd⟩, hsub⟩
      have := hlen t
      by_cases hout : t ∈ g.outgoing a
      · exact .inr ((hmem t).2 ⟨hout, by omega⟩)
      · have hcount := List.count_eq_zero.2 hout
        have := (h.pending t).2 ⟨hids, htd, by omega⟩
        exact .inl ((List.mem_cons.1 this).resolve_left hta)
  · have := hlen t
    omega

/-- The traversal counts nodes visited in a topological order, such that any other node
    has a predecessor that is another. -/
theorem topological_eq (hends : ∀ a b, g.Edge a b → b ∈ g.ids) {fuel : ℕ}
    {pending done : List String} {indegree : String → ℕ} (h : g.Visiting pending indegree done)
    (hfuel : fuel + done.length = g.ids.length) :
    ∃ done', g.topological fuel pending indegree done.length = done'.length ∧
      Topological g.Edge done' ∧ done' ⊆ g.ids ∧
      ∀ t ∈ g.ids, t ∉ done' → ∃ b, g.Edge b t ∧ b ∉ done' := by
  induction fuel generalizing pending indegree done with
  | zero =>
    refine ⟨done, rfl, h.order, h.subset, fun t ht htd => ?_⟩
    have hperm := (h.order.nodup.subperm h.subset).perm_of_length_le (by omega)
    exact absurd (hperm.mem_iff.2 ht) htd
  | succ fuel ih =>
    rcases pending with _ | ⟨a, pending⟩
    · refine ⟨done, rfl, h.order, h.subset, fun t ht htd => ?_⟩
      have hne : indegree t ≠ 0 := fun hzero =>
        absurd ((h.pending t).2 ⟨ht, htd, hzero⟩) List.not_mem_nil
      rw [h.indegree t, ne_eq, List.length_eq_zero_iff] at hne
      obtain ⟨b, hb⟩ := List.exists_mem_of_ne_nil _ hne
      rw [List.mem_filter, decide_eq_true_eq] at hb
      exact ⟨b, mem_incoming.1 hb.1, hb.2⟩
    · obtain ⟨pending', indegree', heq, h'⟩ := h.step hends
      rw [topological, heq]
      exact ih h' (by rw [List.length_cons]; omega)

/-- All the nodes are visited exactly when there is no cycle. -/
theorem visited_eq (hends : ∀ a b, g.Edge a b → a ∈ g.ids ∧ b ∈ g.ids) (hids : g.ids.Nodup) :
    g.visited = g.ids.length ↔ ∀ a, ¬Relation.TransGen g.Edge a a := by
  have hvisiting : g.Visiting (g.ids.filter fun id => (g.incoming id).length = 0)
      (fun id => (g.incoming id).length) [] :=
    ⟨.nil, List.nil_subset _, hids.filter _, by simp, by simp⟩
  obtain ⟨done, hlen, horder, hdone, hready⟩ :=
    topological_eq (fun a b h => (hends a b h).2) hvisiting (Nat.add_zero _)
  have hvisited : g.visited = done.length := hlen
  rw [hvisited]
  constructor
  · intro heq a hcycle
    have hperm := (horder.nodup.subperm hdone).perm_of_length_le heq.ge
    obtain ⟨b, hab, -⟩ := Relation.TransGen.head'_iff.1 hcycle
    exact horder.acyclic (hperm.mem_iff.2 (hends a b hab).1) hcycle
  · intro hacyclic
    by_contra hne
    -- a node left whose predecessors are not
    have hlt : ∃ t ∈ g.ids, t ∉ done := by
      by_contra hall
      push Not at hall
      exact hne ((List.perm_ext_iff_of_nodup horder.nodup hids).2
        fun t => ⟨fun ht => hdone ht, hall t⟩).length_eq
    obtain ⟨t, ht, htd⟩ := hlt
    obtain ⟨a, ha, hmin⟩ := exists_ready hacyclic (g.ids.filter (· ∉ done)).toFinset
      ⟨t, by simp [ht, htd]⟩
    simp only [List.mem_toFinset, List.mem_filter, decide_eq_true_eq] at ha hmin
    obtain ⟨b, hba, hb⟩ := hready a ha.1 ha.2
    exact hmin b ⟨(hends b a hba).1, hb⟩ hba

/-! ## The checks -/

theorem validateNodes_eq_ok : g.validateNodes = .ok () ↔ g.ids.Nodup ∧
    (∃ n ∈ g.nodes, n.id = "Start" ∧ n.type = .status) ∧ g.bindings.Nodup ∧
      "Start" ∉ g.bindings := by
  rw [validateNodes]
  by_cases hids : g.ids.Nodup
  swap
  · simp [hids]
  by_cases hstart : "Start" ∈ g.ids
  swap
  · have hnone : ¬∃ n ∈ g.nodes, n.id = "Start" ∧ n.type = .status :=
      fun ⟨n, hn, hid, _⟩ => hstart (List.mem_map.2 ⟨n, hn, hid⟩)
    simp [hids, hstart, hnone]
  obtain ⟨n, hn, hid⟩ := List.mem_map.1 hstart
  -- the only node of this name
  have honly : ∀ n' ∈ g.nodes, n'.id = "Start" → n' = n := fun n' hn' hid' =>
    List.inj_on_of_nodup_map hids hn' hn (hid'.trans hid.symm)
  have htype : (g.nodes.any fun n => n.id = "Start" && n.type != .status) = true ↔
      n.type ≠ .status := by
    simp only [List.any_eq_true, Bool.and_eq_true, decide_eq_true_eq, bne_iff_ne]
    exact ⟨fun ⟨n', hn', hid', ht⟩ => honly n' hn' hid' ▸ ht, fun ht => ⟨n, hn, hid, ht⟩⟩
  have hexists : (∃ n ∈ g.nodes, n.id = "Start" ∧ n.type = .status) ↔ n.type = .status :=
    ⟨fun ⟨n', hn', hid', ht⟩ => honly n' hn' hid' ▸ ht, fun ht => ⟨n, hn, hid, ht⟩⟩
  rw [hexists]
  by_cases ht : n.type = .status
  · by_cases hb : "Start" ∈ g.bindings <;> by_cases hbs : g.bindings.Nodup <;>
      simp [hids, hstart, htype, ht, hb, hbs]
  · simp [hids, hstart, htype, ht]

theorem validateEdges_eq_ok (edges : List ProcedureEdge)
    (triplets : List (String × String × Relation)) : g.validateEdges edges triplets = .ok () ↔
      (∀ e ∈ edges, e.source ∈ g.ids ∧ e.target ∈ g.ids) ∧ (edges.map (·.triplet)).Nodup ∧
        ∀ e ∈ edges, e.triplet ∉ triplets := by
  induction edges generalizing triplets with
  | nil => simp [validateEdges]
  | cons e edges ih =>
    rw [validateEdges, List.forall_mem_cons, List.forall_mem_cons, List.map_cons,
      List.nodup_cons]
    by_cases hends : e.source ∉ g.ids ∨ e.target ∉ g.ids
    · have : ¬(e.source ∈ g.ids ∧ e.target ∈ g.ids) := by tauto
      simp [hends, this]
    by_cases htriplet : e.triplet ∈ triplets
    · simp [hends, htriplet]
    rw [if_neg hends, if_neg htriplet, ih]
    have hseen : (∀ e' ∈ edges, e'.triplet ∉ e.triplet :: triplets) ↔
        e.triplet ∉ edges.map (·.triplet) ∧ ∀ e' ∈ edges, e'.triplet ∉ triplets := by
      simp only [List.mem_cons, not_or, List.mem_map, not_exists, not_and]
      exact ⟨fun h => ⟨fun e' he' => (h e' he').1, fun e' he' => (h e' he').2⟩,
        fun h e' he' => ⟨h.1 e' he', h.2 e' he'⟩⟩
    rw [hseen]
    tauto

theorem edge_ends (h : ∀ e ∈ g.edges, e.source ∈ g.ids ∧ e.target ∈ g.ids) (a b : String) :
    g.Edge a b → a ∈ g.ids ∧ b ∈ g.ids := by
  rintro ⟨e, he, rfl, rfl⟩
  exact h e he

theorem validateGraph_eq_ok :
    g.validateGraph = .ok () ↔ g.validateFields = .ok () ∧ g.Valid := by
  have hunit {x : Except GraphError Unit} {f : Except GraphError Unit} :
      (do x; f) = .ok () ↔ x = .ok () ∧ f = .ok () :=
    bind_eq_ok.trans ⟨fun ⟨(), hx, hf⟩ => ⟨hx, hf⟩, fun h => ⟨(), h⟩⟩
  have htraversals : (do
      if g.ids.any (· ∉ g.reachesTerminal) then
        throw (.unreachable ((g.ids.filter (· ∉ g.reachesTerminal)).mergeSort (· ≤ ·)))
      if g.cyclePolicy = .reject ∧ g.visited ≠ g.ids.length then throw .cycle :
        Except GraphError Unit) = .ok () ↔
      (∀ a ∈ g.ids, a ∈ g.reachesTerminal) ∧
        (g.cyclePolicy = .reject → g.visited = g.ids.length) := by
    by_cases hreach : g.ids.any (· ∉ g.reachesTerminal)
    · have hnot : ¬∀ a ∈ g.ids, a ∈ g.reachesTerminal := by simpa using hreach
      rw [if_pos hreach]
      exact iff_of_false (fun h => by cases h) fun h => hnot h.1
    · have hall : ∀ a ∈ g.ids, a ∈ g.reachesTerminal := by simpa using hreach
      by_cases hcycle : g.cyclePolicy = .reject ∧ g.visited ≠ g.ids.length
      · rw [if_neg hreach, if_pos hcycle]
        exact iff_of_false (fun h => by cases h) fun h => hcycle.2 (h.2 hcycle.1)
      · have himp : g.cyclePolicy = .reject → g.visited = g.ids.length := by tauto
        rw [if_neg hreach, if_neg hcycle]
        exact ⟨fun _ => ⟨hall, himp⟩, fun _ => rfl⟩
  rw [validateGraph, hunit, hunit, hunit, htraversals, validateNodes_eq_ok, validateEdges_eq_ok]
  constructor
  · rintro ⟨hfields, ⟨hids, hstart, hbindings, hreserved⟩, ⟨hends, htriplets, -⟩, hreach, hcycle⟩
    have hends' := edge_ends hends
    refine ⟨hfields, hids, hstart, hbindings, hreserved, hends, htriplets, fun a ha => ?_,
      fun hpolicy => (visited_eq hends' hids).1 (hcycle hpolicy)⟩
    obtain ⟨t, ⟨ht, hterminal⟩, hat⟩ :=
      (mem_reachesTerminal (fun a b h => (hends' a b h).1) hids).1 (hreach a ha)
    exact ⟨t, ht, hterminal, hat⟩
  · rintro ⟨hfields, h⟩
    have hends' := edge_ends h.endpoints
    refine ⟨hfields, ⟨h.ids_nodup, h.start, h.bindings_nodup, h.start_notMem⟩,
      ⟨h.endpoints, h.triplets_nodup, by simp⟩, fun a ha => ?_,
      fun hpolicy => (visited_eq hends' h.ids_nodup).2 (h.acyclic hpolicy)⟩
    obtain ⟨t, ht, hterminal, hat⟩ := h.terminal a ha
    exact (mem_reachesTerminal (fun a b h => (hends' a b h).1) h.ids_nodup).2
      ⟨t, ⟨ht, hterminal⟩, hat⟩

/-- A graph whose fields are right is accepted exactly when it is valid. -/
theorem validateGraph_iff_valid (g : GraphData) (hfields : g.validateFields = .ok ()) :
    g.validateGraph = .ok () ↔ g.Valid := by
  rw [validateGraph_eq_ok]
  exact and_iff_right hfields

/-- The minimal graph, as data. -/
def skeleton : GraphData where
  nodes := [⟨"Start", .status, "", none⟩, ⟨"End", .status, "", none⟩]
  edges := [{ source := "Start", target := "End"
              guidance := "Complete the requested task, then summarize the outcome." }]

theorem skeleton_valid : skeleton.Valid :=
  (validateGraph_iff_valid skeleton (by decide)).1 (by decide)

end GraphData

end Hyperforge
