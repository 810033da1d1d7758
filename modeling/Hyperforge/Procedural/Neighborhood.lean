import Hyperforge.Procedural.Validity

/-!
# Neighborhoods

What an agent is shown of a graph: the nodes and edges around the node of the procedure that is
active (`neighborhood`), found by a breadth-first search along the edges, up to some number of hops;
or all of them, if there is no such node. A node is found if it is within the hops, an edge if it
leaves a node at a distance of less (`neighborhood_spec`).
-/

namespace Hyperforge

open Traversal

inductive Scope
  | localGraph
  | full
  deriving DecidableEq

structure Neighborhood where
  activeNode : Option String
  scope : Scope
  nodes : List ProcedureNode
  edges : List ProcedureEdge

inductive NeighborhoodError
  | negativeHops
  deriving DecidableEq

namespace GraphData

variable (g : GraphData)

/-- `Start`, or the first action of a binding. -/
def locate (procedure : String) : Option String :=
  if procedure = "Start" then some "Start"
  else (g.nodes.find? fun n => n.type = .action ∧ n.binding = procedure).map (·.id)

/-- The edges leaving a node, in their order. -/
def edgesFrom (id : String) : List ProcedureEdge := g.edges.filter (·.source = id)

/-- The targets found for the first time join the queue, one deeper. -/
def visitEdges (depth : ℕ) (edges : List ProcedureEdge) (seen : List String)
    (pending : List (String × ℕ)) : List String × List (String × ℕ) :=
  edges.foldl (fun (s, p) e =>
    if e.target ∈ s then (s, p)
    else (s ++ [e.target], p ++ [(e.target, depth + 1)])) (seen, pending)

/-- The search from the nodes of the queue, with the nodes seen and the edges selected. -/
def expand (hops : ℕ) : ℕ → List String → List (String × ℕ) → List ProcedureEdge →
    List String × List ProcedureEdge
  | 0, seen, _, selected => (seen, selected)
  | _ + 1, seen, [], selected => (seen, selected)
  | fuel + 1, seen, (source, depth) :: pending, selected =>
    if hops ≤ depth then expand hops fuel seen pending selected
    else
      let (seen, pending) := visitEdges depth (g.edgesFrom source) seen pending
      expand hops fuel seen pending (selected ++ g.edgesFrom source)

def neighborhood (procedure : String) (hops : ℤ) : Except NeighborhoodError Neighborhood :=
  if hops < 0 then .error .negativeHops
  else
    match g.locate procedure with
    | none => .ok ⟨none, .full, g.nodes, g.edges⟩
    | some active =>
      let (seen, selected) := g.expand hops.toNat g.ids.length [active] [(active, 0)] []
      .ok ⟨some active, .localGraph, g.nodes.filter (·.id ∈ seen), selected⟩

variable {g}

/-! ## The search -/

theorem mem_edgesFrom {id : String} {e : ProcedureEdge} :
    e ∈ g.edgesFrom id ↔ e ∈ g.edges ∧ e.source = id := by
  simp [edgesFrom]

theorem visitEdges_eq_visitSources (depth : ℕ) (edges : List ProcedureEdge) (seen new : List String)
    (pending : List (String × ℕ)) :
    visitEdges depth edges seen (pending ++ new.map (·, depth + 1)) =
      ((visitSources (edges.map (·.target)) new seen).2,
        pending ++ (visitSources (edges.map (·.target)) new seen).1.map (·, depth + 1)) := by
  induction edges generalizing seen new with
  | nil => rfl
  | cons e edges ih =>
    rw [visitEdges, List.map_cons, visitSources, List.foldl_cons, List.foldl_cons, ← visitEdges,
      ← visitSources]
    by_cases he : e.target ∈ seen
    · rw [if_pos he, if_pos he]
      exact ih seen new
    · rw [if_neg he, if_neg he, List.append_assoc]
      have hnew : new.map (·, depth + 1) ++ [(e.target, depth + 1)] =
          (new ++ [e.target]).map (·, depth + 1) := by rw [List.map_append]; rfl
      rw [hnew]
      exact ih _ _

/-- What joins the queue are the targets of edges that have not been seen. -/
theorem visitEdges_eq (depth : ℕ) (source : String) (seen : List String)
    (pending : List (String × ℕ)) : ∃ new,
    visitEdges depth (g.edgesFrom source) seen pending =
      (seen ++ new, pending ++ new.map (·, depth + 1)) ∧ new.Nodup ∧
        ∀ s, s ∈ new ↔ g.Edge source s ∧ s ∉ seen := by
  obtain ⟨new, heq, hnodup, hmem⟩ := visitSources_eq ((g.edgesFrom source).map (·.target)) [] seen
  have hvisit := visitEdges_eq_visitSources depth (g.edgesFrom source) seen [] pending
  rw [List.map_nil, List.append_nil, heq, List.nil_append] at hvisit
  refine ⟨new, hvisit, hnodup, fun s => ?_⟩
  rw [hmem, ← mem_outgoing]
  rfl

/-- The edges of the nodes that are expanded. -/
def selectedEdges (g : GraphData) (hops : ℕ) (done : List (String × ℕ)) : List ProcedureEdge :=
  (done.filter (·.2 < hops)).flatMap fun x => g.edgesFrom x.1

theorem selectedEdges_concat (hops : ℕ) (done : List (String × ℕ)) (source : String) (depth : ℕ) :
    g.selectedEdges hops (done ++ [(source, depth)]) =
      g.selectedEdges hops done ++ if depth < hops then g.edgesFrom source else [] := by
  rw [selectedEdges, selectedEdges, List.filter_append, List.flatMap_append]
  by_cases hd : depth < hops <;> simp [hd]

/-- The search finds a ball: it has fuel enough, as a node joins the queue at most once. -/
theorem expand_eq (hv : g.Valid) {a : String} {hops fuel : ℕ} {done pending : List (String × ℕ)}
    (h : Ball g.Edge a hops done pending) (hids : ∀ x ∈ done ++ pending, x.1 ∈ g.ids)
    (hfuel : g.ids.length ≤ fuel + done.length) : ∃ done', Ball g.Edge a hops done' [] ∧
      g.expand hops fuel ((done ++ pending).map Prod.fst) pending (g.selectedEdges hops done) =
        (done'.map Prod.fst, g.selectedEdges hops done') := by
  induction fuel generalizing done pending with
  | zero =>
    have hsub : (done ++ pending).map Prod.fst ⊆ g.ids := by
      intro id hid
      obtain ⟨x, hx, rfl⟩ := List.mem_map.1 hid
      exact hids x hx
    have hle := (h.nodup.subperm hsub).length_le
    rw [List.length_map, List.length_append] at hle
    obtain rfl : pending = [] := List.length_eq_zero_iff.1 (by omega)
    exact ⟨done, h, by rw [expand, List.append_nil]⟩
  | succ fuel ih =>
    rcases pending with _ | ⟨⟨source, depth⟩, pending⟩
    · exact ⟨done, h, by rw [expand, List.append_nil]⟩
    have hassoc : done ++ (source, depth) :: pending = (done ++ [(source, depth)]) ++ pending := by
      simp
    have hlength : g.ids.length ≤ fuel + (done ++ [(source, depth)]).length := by
      rw [List.length_append, List.length_singleton]
      omega
    have hselected := selectedEdges_concat (g := g) hops done source depth
    rw [expand]
    by_cases hd : hops ≤ depth
    · have hstep := h.step List.nodup_nil (fun c hc => absurd hc List.not_mem_nil)
        fun hlt => absurd hd (not_le.2 hlt)
      rw [List.map_nil, List.append_nil] at hstep
      rw [if_neg (not_lt.2 hd), List.append_nil] at hselected
      rw [if_pos hd, hassoc, ← hselected]
      exact ih hstep (hassoc ▸ hids) hlength
    · obtain ⟨new, heq, hnodup, hmem⟩ := visitEdges_eq (g := g) depth source
        ((done ++ (source, depth) :: pending).map Prod.fst) pending
      have hstep := h.step hnodup (fun c hc => ⟨not_le.1 hd, (hmem c).1 hc⟩) fun _ c hc => by
        by_cases hseen : c ∈ (done ++ (source, depth) :: pending).map Prod.fst
        · exact .inr hseen
        · exact .inl ((hmem c).2 ⟨hc, hseen⟩)
      have hfst : (new.map (·, depth + 1)).map Prod.fst = new := by
        rw [List.map_map]
        exact List.map_id new
      rw [if_pos (not_le.1 hd)] at hselected
      rw [if_neg hd, heq, ← hselected]
      have hseen : (done ++ (source, depth) :: pending).map Prod.fst ++ new =
          ((done ++ [(source, depth)]) ++ (pending ++ new.map (·, depth + 1))).map Prod.fst := by
        have hmap (xs : List (String × ℕ)) :
          (xs ++ new.map (·, depth + 1)).map Prod.fst = xs.map Prod.fst ++ new := by
          rw [List.map_append, hfst]
        rw [hassoc, ← List.append_assoc, hmap]
      dsimp only
      rw [hseen]
      refine ih hstep (fun x hx => ?_) hlength
      rw [← List.append_assoc, ← hassoc] at hx
      rcases List.mem_append.1 hx with hx | hx
      · exact hids x hx
      · obtain ⟨c, hc, rfl⟩ := List.mem_map.1 hx
        obtain ⟨e, he, -, rfl⟩ := ((hmem c).1 hc).1
        exact (hv.endpoints e he).2

theorem locate_mem_ids (hv : g.Valid) {procedure a : String} (h : g.locate procedure = some a) :
    a ∈ g.ids := by
  rw [locate] at h
  split_ifs at h
  · cases h
    obtain ⟨n, hn, hid, -⟩ := hv.start
    exact List.mem_map.2 ⟨n, hn, hid⟩
  · obtain ⟨n, hn, rfl⟩ := Option.map_eq_some_iff.1 h
    exact List.mem_map_of_mem (List.mem_of_find?_eq_some hn)

theorem edges_nodup (hv : g.Valid) : g.edges.Nodup := hv.triplets_nodup.of_map _

theorem selectedEdges_nodup (hv : g.Valid) (hops : ℕ) {done : List (String × ℕ)}
    (hn : (done.map Prod.fst).Nodup) : (g.selectedEdges hops done).Nodup := by
  refine List.nodup_flatMap.2 ⟨fun x _ => (edges_nodup hv).filter _, ?_⟩
  refine ((List.pairwise_map.1 hn).sublist List.filter_sublist).imp fun hne e he he' => ?_
  exact hne ((mem_edgesFrom.1 he).2.symm.trans (mem_edgesFrom.1 he').2)

/-- What is returned around a node that is located. -/
theorem neighborhood_of_locate (hv : g.Valid) {procedure a : String}
    (ha : g.locate procedure = some a) (hops : ℕ) : ∃ result,
    g.neighborhood procedure hops = .ok result ∧ result.activeNode = some a ∧
      result.nodes.Sublist g.nodes ∧
      (∀ n, n ∈ result.nodes ↔ n ∈ g.nodes ∧ Within g.Edge a hops n.id) ∧ result.edges.Nodup ∧
      ∀ e, e ∈ result.edges ↔ e ∈ g.edges ∧ ∃ n < hops, Walk g.Edge a n e.source := by
  obtain ⟨done, hball, heq⟩ := expand_eq hv (.initial g.Edge a hops) (fun x hx => by
    obtain rfl := List.mem_singleton.1 hx
    exact locate_mem_ids hv ha) (Nat.le_add_right g.ids.length 0)
  refine ⟨⟨some a, .localGraph, g.nodes.filter (·.id ∈ done.map Prod.fst),
    g.selectedEdges hops done⟩, ?_, rfl, List.filter_sublist, fun n => ?_,
    selectedEdges_nodup hv hops ?_, fun e => ?_⟩
  · have hexpand : g.expand (hops : ℤ).toNat g.ids.length [a] [(a, 0)] [] =
        (done.map Prod.fst, g.selectedEdges hops done) := heq
    rw [neighborhood, if_neg (Int.natCast_nonneg hops).not_gt, ha]
    dsimp only
    rw [hexpand]
  · rw [List.mem_filter, decide_eq_true_eq, hball.mem_iff]
  · have hnodup := hball.nodup
    rwa [List.append_nil] at hnodup
  · rw [← hball.expanded_iff, selectedEdges, List.mem_flatMap]
    constructor
    · rintro ⟨⟨b, d⟩, hx, he⟩
      obtain ⟨hx, hd⟩ := List.mem_filter.1 hx
      obtain ⟨hmem, rfl⟩ := mem_edgesFrom.1 he
      exact ⟨hmem, d, of_decide_eq_true hd, hx⟩
    · rintro ⟨he, d, hd, hx⟩
      exact ⟨_, List.mem_filter.2 ⟨hx, decide_eq_true hd⟩, mem_edgesFrom.2 ⟨he, rfl⟩⟩

theorem neighborhood_of_miss {procedure : String} (h : g.locate procedure = none) (hops : ℕ) :
    g.neighborhood procedure hops = .ok ⟨none, .full, g.nodes, g.edges⟩ := by
  rw [neighborhood, if_neg (Int.natCast_nonneg hops).not_gt, h]

end GraphData

/-- A neighborhood is the ball of nodes within the hops of the active one, with the edges that
    leave nodes at a distance of less, or else the whole graph; it grows with the hops. -/
theorem neighborhood_spec (graph : ProceduralGraph) (procedure : String) (hops : ℕ) :
    ∃ result, graph.data.neighborhood procedure hops = .ok result ∧
      result.activeNode = graph.data.locate procedure ∧
      (∀ a, graph.data.locate procedure = some a →
        result.nodes.Sublist graph.data.nodes ∧
        (∀ n, n ∈ result.nodes ↔ n ∈ graph.data.nodes ∧ Within graph.data.Edge a hops n.id) ∧
        result.edges.Nodup ∧
        ∀ e, e ∈ result.edges ↔
          e ∈ graph.data.edges ∧ ∃ n < hops, Walk graph.data.Edge a n e.source) ∧
      (graph.data.locate procedure = none →
        result.nodes = graph.data.nodes ∧ result.edges = graph.data.edges) ∧
      ∀ hops' ≥ hops, ∃ result', graph.data.neighborhood procedure hops' = .ok result' ∧
        result.nodes ⊆ result'.nodes ∧ result.edges ⊆ result'.edges := by
  obtain ⟨-, hv⟩ := GraphData.validateGraph_eq_ok.1 graph.valid
  rcases ha : graph.data.locate procedure with _ | a
  · refine ⟨_, GraphData.neighborhood_of_miss ha hops, rfl, nofun, fun _ => ⟨rfl, rfl⟩,
      fun hops' _ => ⟨_, GraphData.neighborhood_of_miss ha hops', ?_⟩⟩
    exact ⟨List.Subset.refl _, List.Subset.refl _⟩
  · obtain ⟨result, hok, hactive, hsub, hnodes, hnodup, hedges⟩ :=
      GraphData.neighborhood_of_locate hv ha hops
    refine ⟨result, hok, hactive, ?_, nofun, fun hops' hle => ?_⟩
    · rintro _ ⟨⟩
      exact ⟨hsub, hnodes, hnodup, hedges⟩
    · obtain ⟨result', hok', -, -, hnodes', -, hedges'⟩ :=
        GraphData.neighborhood_of_locate hv ha hops'
      refine ⟨result', hok', fun n hn => ?_, fun e he => ?_⟩
      · obtain ⟨hn, hwithin⟩ := (hnodes n).1 hn
        exact (hnodes' n).2 ⟨hn, hwithin.mono hle⟩
      · obtain ⟨he, n, hlt, hwalk⟩ := (hedges e).1 he
        exact (hedges' e).2 ⟨he, n, hlt.trans_le hle, hwalk⟩

end Hyperforge
