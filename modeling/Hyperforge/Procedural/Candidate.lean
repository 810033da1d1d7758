import Hyperforge.Procedural.Validity

/-!
# Candidate graphs

Editing a valid graph succeeds exactly when the edits apply to it (`Applicable`): the
deletions are of what the graph has, the additions of what it does not have any more, and
the graph that results is valid and fits the tools. What results has the nodes
and the edges that survive the deletions, and the additions (`edited`). The orders of
the edits do not matter: they only permute the result (`Rearranged`), whose canonical
form is the same.
-/

namespace Hyperforge

open Crash

/-! ## The result of edits -/

def EdgeEndpoints.pair (d : EdgeEndpoints) : String × String := (d.source, d.target)

namespace GraphData

variable (g : GraphData) (edits : GraphEdits)

/-- The nodes that are not deleted. -/
def survivingNodes : List ProcedureNode := g.nodes.filter (·.id ∉ edits.deleteNodes)

/-- The edges of which neither the endpoints are deleted as a pair nor one of them is as
    a node. -/
def survivingEdges : List ProcedureEdge := g.edges.filter fun e =>
  (∀ d ∈ edits.deleteEdges, ¬(e.source = d.source ∧ e.target = d.target)) ∧
    e.source ∉ edits.deleteNodes ∧ e.target ∉ edits.deleteNodes

/-- The graph that results from edits. -/
def edited : GraphData where
  schemaVersion := g.schemaVersion
  nodes := g.survivingNodes edits ++ edits.addNodes
  edges := g.survivingEdges edits ++ edits.addEdges
  cyclePolicy := g.cyclePolicy

/-- The edits apply to the graph, and the result is valid and fits the tools. -/
structure Applicable (tools : Option (List String)) : Prop where
  deleteEdges_nodup : edits.deleteEdges.Nodup
  deleteEdges_mem : ∀ d ∈ edits.deleteEdges, ∃ e ∈ g.edges,
    e.source = d.source ∧ e.target = d.target
  deleteNodes_nodup : edits.deleteNodes.Nodup
  deleteNodes_mem : ∀ id ∈ edits.deleteNodes, id ∈ g.ids
  addNodes_nodup : (edits.addNodes.map (·.id)).Nodup
  addNodes_new : ∀ n ∈ edits.addNodes, ∀ n' ∈ g.survivingNodes edits, n'.id ≠ n.id
  addEdges_nodup : (edits.addEdges.map (·.triplet)).Nodup
  addEdges_new : ∀ e ∈ edits.addEdges, ∀ e' ∈ g.survivingEdges edits, e'.triplet ≠ e.triplet
  fields : (g.edited edits).validateFields = .ok ()
  valid : (g.edited edits).Valid
  tools : ∀ available, tools = some available → ∀ b ∈ (g.edited edits).bindings, b ∈ available

end GraphData

/-! ## The loops over the edits -/

/-- What comes later in a loop is neither what has just been seen nor was seen before. -/
theorem forall_notMem_concat {α β : Type*} (f : α → β) (b : β) (l : List α) (seen : List β) :
    (∀ a ∈ l, f a ∉ seen ++ [b]) ↔ b ∉ l.map f ∧ ∀ a ∈ l, f a ∉ seen := by
  simp only [List.mem_append, List.mem_singleton, not_or, List.mem_map, not_exists, not_and]
  exact ⟨fun h => ⟨fun a ha => (h a ha).2, fun a ha => (h a ha).1⟩,
    fun h a ha => ⟨h.2 a ha, h.1 a ha⟩⟩

theorem deletedEndpoints_eq_ok {edges : List ProcedureEdge} {deletions : List EdgeEndpoints}
    {deleted r : List (String × String)} : deletedEndpoints edges deletions deleted = .ok r ↔
      r = deleted ++ deletions.map (·.pair) ∧ (deletions.map (·.pair)).Nodup ∧
        (∀ d ∈ deletions, d.pair ∉ deleted) ∧
          ∀ d ∈ deletions, d.pair ∈ edges.map fun e => (e.source, e.target) := by
  induction deletions generalizing deleted with
  | nil => simp [deletedEndpoints, eq_comm]
  | cons d deletions ih =>
    rw [deletedEndpoints, ← EdgeEndpoints.pair, List.forall_mem_cons, List.forall_mem_cons,
      List.map_cons, List.nodup_cons]
    by_cases hd : d.pair ∈ deleted
    · simp [hd]
    by_cases he : d.pair ∉ edges.map fun e => (e.source, e.target)
    · simp [hd, he]
    rw [if_neg hd, if_neg he, ih, forall_notMem_concat, List.append_assoc, List.singleton_append]
    tauto

theorem deleteNodes_eq_ok {deletions : List String} {nodes : List ProcedureNode}
    {deleted : List String} {r : List ProcedureNode × List String} :
    deleteNodes deletions nodes deleted = .ok r ↔
      r = (nodes.filter (·.id ∉ deletions), deleted ++ deletions) ∧ deletions.Nodup ∧
        (∀ id ∈ deletions, id ∉ deleted) ∧ ∀ id ∈ deletions, id ∈ nodes.map (·.id) := by
  induction deletions generalizing nodes deleted with
  | nil => simp [deleteNodes, eq_comm]
  | cons id deletions ih =>
    rw [deleteNodes, List.forall_mem_cons, List.forall_mem_cons, List.nodup_cons]
    by_cases hd : id ∈ deleted
    · simp [hd]
    by_cases hn : id ∉ nodes.map (·.id)
    · rw [if_neg hd, if_pos hn]
      exact iff_of_false (fun h => by cases h) fun h => hn h.2.2.2.1
    have hfilter : (nodes.filter (·.id ≠ id)).filter (·.id ∉ deletions) =
        nodes.filter (·.id ∉ id :: deletions) := by
      simp only [List.filter_filter, List.mem_cons, not_or, Bool.decide_and, Bool.and_comm]
    have hseen := forall_notMem_concat (fun i : String => i) id deletions deleted
    rw [List.map_id'] at hseen
    rw [if_neg hd, if_neg hn, ih, hfilter, hseen, List.append_assoc, List.singleton_append]
    -- the other nodes to delete are still there
    have hleft (hid : id ∉ deletions) : (∀ i ∈ deletions,
        i ∈ (nodes.filter (·.id ≠ id)).map (·.id)) ↔ ∀ i ∈ deletions, i ∈ nodes.map (·.id) := by
      refine forall₂_congr fun i hi => ?_
      have hne : i ≠ id := fun heq => hid (heq ▸ hi)
      simp only [List.mem_map, List.mem_filter, decide_eq_true_eq]
      exact ⟨fun ⟨n, hn, h⟩ => ⟨n, hn.1, h⟩, fun ⟨n, hn, h⟩ => ⟨n, ⟨hn, h ▸ hne⟩, h⟩⟩
    tauto

theorem addNodes_eq_ok {additions nodes r : List ProcedureNode} :
    addNodes additions nodes = .ok r ↔ r = nodes ++ additions ∧ (additions.map (·.id)).Nodup ∧
      ∀ n ∈ additions, n.id ∉ nodes.map (·.id) := by
  induction additions generalizing nodes with
  | nil => simp [addNodes, eq_comm]
  | cons n additions ih =>
    rw [addNodes, List.forall_mem_cons, List.map_cons, List.nodup_cons]
    by_cases hn : n.id ∈ nodes.map (·.id)
    · rw [if_pos hn]
      exact iff_of_false (fun h => by cases h) fun h => h.2.2.1 hn
    rw [if_neg hn, ih, List.map_append, List.map_singleton, forall_notMem_concat,
      List.append_assoc, List.singleton_append]
    tauto

theorem addEdges_eq_ok {additions edges r : List ProcedureEdge} :
    addEdges additions edges = .ok r ↔ r = edges ++ additions ∧
      (additions.map (·.triplet)).Nodup ∧ ∀ e ∈ additions, e.triplet ∉ edges.map (·.triplet) := by
  induction additions generalizing edges with
  | nil => simp [addEdges, eq_comm]
  | cons e additions ih =>
    rw [addEdges, List.forall_mem_cons, List.map_cons, List.nodup_cons]
    by_cases he : e.triplet ∈ edges.map (·.triplet)
    · rw [if_pos he]
      exact iff_of_false (fun h => by cases h) fun h => h.2.2.1 he
    rw [if_neg he, ih, List.map_append, List.map_singleton, forall_notMem_concat,
      List.append_assoc, List.singleton_append]
    tauto

theorem ProceduralGraph.ofData_eq_ok {g : GraphData} {p : ProceduralGraph} :
    ofData g = .ok p ↔ g.validateGraph = .ok () ∧ p.data = g := by
  constructor
  · intro h
    exact ⟨data_of_ofData h ▸ p.valid, data_of_ofData h⟩
  · rintro ⟨h, rfl⟩
    unfold ofData
    split
    · rfl
    · next e he => rw [h] at he; cases he

namespace GraphData

variable {g : GraphData} {edits : GraphEdits}

theorem checkTools_eq_ok {available : List String} :
    g.checkTools available = .ok () ↔ ∀ b ∈ g.bindings, b ∈ available := by
  have hunknown : ((g.bindings.filter (· ∉ available)).dedup).isEmpty ↔
      ∀ b ∈ g.bindings, b ∈ available := by
    rw [List.isEmpty_iff, List.dedup_eq_nil, List.filter_eq_nil_iff]
    simp
  rw [checkTools, ← hunknown]
  split_ifs with h
  · exact iff_of_true rfl h
  · exact iff_of_false (fun h => by cases h) h

/-- The edges are left in two stages. -/
theorem filter_edges (g : GraphData) (edits : GraphEdits) :
    (g.edges.filter fun e => (e.source, e.target) ∉ edits.deleteEdges.map (·.pair)).filter
      (fun e => e.source ∉ edits.deleteNodes ∧ e.target ∉ edits.deleteNodes) =
      g.survivingEdges edits := by
  have hpair (e : ProcedureEdge) : (e.source, e.target) ∉ edits.deleteEdges.map (·.pair) ↔
      ∀ d ∈ edits.deleteEdges, ¬(e.source = d.source ∧ e.target = d.target) := by
    simp [EdgeEndpoints.pair, eq_comm]
  rw [survivingEdges, List.filter_filter]
  congr 1
  funext e
  rw [← Bool.decide_and, decide_eq_decide, hpair, and_comm]

end GraphData

theorem EdgeEndpoints.pair_injective : Function.Injective EdgeEndpoints.pair := by
  rintro ⟨a, b⟩ ⟨c, d⟩ h
  cases h
  rfl

/-- Preparing a candidate succeeds exactly when the edits apply, with what they result in. -/
theorem prepareCandidate_eq_ok {graph candidate : ProceduralGraph} {edits : GraphEdits}
    {tools : Option (List String)} : prepareCandidate graph edits tools = .ok candidate ↔
      graph.data.Applicable edits tools ∧ candidate.data = graph.data.edited edits := by
  have hunit {x : Except GraphError Unit} : (∃ u, x = .ok u) ↔ x = .ok () :=
    ⟨fun ⟨(), h⟩ => h, fun h => ⟨(), h⟩⟩
  have hnodes : (∀ n ∈ edits.addNodes, ∀ n' ∈ graph.data.survivingNodes edits, n'.id ≠ n.id) ↔
      ∀ n ∈ edits.addNodes, n.id ∉ (graph.data.survivingNodes edits).map (·.id) := by simp
  have hedges : (∀ e ∈ edits.addEdges, ∀ e' ∈ graph.data.survivingEdges edits,
      e'.triplet ≠ e.triplet) ↔
      ∀ e ∈ edits.addEdges, e.triplet ∉ (graph.data.survivingEdges edits).map (·.triplet) := by
    simp
  have hpairs : (∀ d ∈ edits.deleteEdges, ∃ e ∈ graph.data.edges,
      e.source = d.source ∧ e.target = d.target) ↔ ∀ d ∈ edits.deleteEdges,
        d.pair ∈ graph.data.edges.map fun e => (e.source, e.target) := by
    simp [EdgeEndpoints.pair]
  simp only [prepareCandidate, bind_eq_ok, deletedEndpoints_eq_ok, deleteNodes_eq_ok,
    addNodes_eq_ok, addEdges_eq_ok, ProceduralGraph.ofData_eq_ok, GraphData.validateGraph_eq_ok,
    List.nil_append]
  constructor
  · rintro ⟨_, ⟨rfl, hde, -, hde'⟩, _, ⟨rfl, hdn, -, hdn'⟩, _, ⟨rfl, han, han'⟩, _,
      ⟨rfl, hae, hae'⟩, a, ⟨⟨hfields, hvalid⟩, hdata⟩, htools⟩
    obtain ⟨rfl, hfits⟩ : a = candidate ∧ ∀ available, tools = some available →
        ∀ b ∈ a.data.bindings, b ∈ available := by
      rcases tools with _ | available
      · exact ⟨by simpa [pure, Except.pure] using htools, by simp⟩
      · simpa [bind_eq_ok, hunit, GraphData.checkTools_eq_ok, pure, Except.pure, and_comm]
          using htools
    simp only [GraphData.filter_edges] at hae' hfields hvalid hdata
    refine ⟨⟨hde.of_map _, hpairs.2 hde', hdn, hdn', han, hnodes.2 han', hae, hedges.2 hae',
      hfields, hvalid, ?_⟩, hdata⟩
    rw [hdata] at hfits
    exact hfits
  · rintro ⟨h, hdata⟩
    refine ⟨_, ⟨rfl, h.deleteEdges_nodup.map EdgeEndpoints.pair_injective, by simp,
      hpairs.1 h.deleteEdges_mem⟩, _, ⟨rfl, h.deleteNodes_nodup, by simp, h.deleteNodes_mem⟩, _,
      ⟨rfl, h.addNodes_nodup, hnodes.1 h.addNodes_new⟩, _,
      ⟨rfl, h.addEdges_nodup, ?_⟩, candidate, ?_, ?_⟩
    · rw [GraphData.filter_edges]
      exact hedges.1 h.addEdges_new
    · rw [GraphData.filter_edges]
      exact ⟨⟨h.fields, h.valid⟩, hdata⟩
    · rcases tools with _ | available
      · rfl
      · have hfits := h.tools available rfl
        rw [← hdata] at hfits
        exact bind_eq_ok.2 ⟨(), GraphData.checkTools_eq_ok.2 hfits, rfl⟩

/-! ## The orders of the edits -/

/-- A graph with its nodes and edges in other orders. -/
structure GraphData.Rearranged (g g' : GraphData) : Prop where
  schemaVersion : g.schemaVersion = g'.schemaVersion
  nodes : g.nodes.Perm g'.nodes
  edges : g.edges.Perm g'.edges
  cyclePolicy : g.cyclePolicy = g'.cyclePolicy

/-- Edits in other orders. -/
structure GraphEdits.Rearranged (edits edits' : GraphEdits) : Prop where
  addNodes : edits.addNodes.Perm edits'.addNodes
  deleteNodes : edits.deleteNodes.Perm edits'.deleteNodes
  addEdges : edits.addEdges.Perm edits'.addEdges
  deleteEdges : edits.deleteEdges.Perm edits'.deleteEdges

namespace GraphData

variable {g g' : GraphData}

theorem Rearranged.symm (h : g.Rearranged g') : g'.Rearranged g :=
  ⟨h.schemaVersion.symm, h.nodes.symm, h.edges.symm, h.cyclePolicy.symm⟩

theorem Rearranged.ids (h : g.Rearranged g') : g.ids.Perm g'.ids := h.nodes.map _

theorem Rearranged.bindings (h : g.Rearranged g') : g.bindings.Perm g'.bindings :=
  (h.nodes.filter _).map _

theorem Rearranged.edge (h : g.Rearranged g') : g.Edge = g'.Edge := by
  funext a b
  simp only [Edge, h.edges.mem_iff]

/-- The checks of the fields do not depend on the orders. -/
theorem Rearranged.validateFields (h : g.Rearranged g') :
    g.validateFields = g'.validateFields := by
  have hany {α : Type} {l l' : List α} (hl : l.Perm l') (p : α → Bool) : l.any p = l'.any p := by
    rw [Bool.eq_iff_iff, List.any_eq_true, List.any_eq_true]
    simp only [hl.mem_iff]
  rw [GraphData.validateFields, GraphData.validateFields, hany h.nodes, hany h.nodes,
    hany h.edges, h.nodes.length_eq, h.edges.length_eq]

/-- Whether a graph is valid does not depend on the orders. -/
theorem Rearranged.valid (h : g.Rearranged g') (hv : g.Valid) : g'.Valid where
  ids_nodup := h.ids.nodup_iff.1 hv.ids_nodup
  start := by simpa only [h.nodes.mem_iff] using hv.start
  bindings_nodup := h.bindings.nodup_iff.1 hv.bindings_nodup
  start_notMem := mt h.bindings.mem_iff.2 hv.start_notMem
  endpoints := by simpa only [h.edges.mem_iff, h.ids.mem_iff] using hv.endpoints
  triplets_nodup := (h.edges.map _).nodup_iff.1 hv.triplets_nodup
  terminal := by simpa only [Terminal, h.edges.mem_iff, h.ids.mem_iff, h.edge] using hv.terminal
  acyclic := h.cyclePolicy ▸ h.edge ▸ hv.acyclic

/-- Sorting by keys that are distinct does not depend on the order. -/
theorem mergeSort_eq_of_perm {α β : Type*} [LinearOrder β] (key : α → β) {l l' : List α}
    (h : l.Perm l') (hn : (l.map key).Nodup) :
    l.mergeSort (key · ≤ key ·) = l'.mergeSort (key · ≤ key ·) := by
  have hpairwise (l : List α) : (l.mergeSort (key · ≤ key ·)).Pairwise
      fun a b => decide (key a ≤ key b) = true := List.pairwise_mergeSort
    (fun a b c hab hbc => by
      simp only [decide_eq_true_eq] at *
      exact le_trans hab hbc)
    (fun a b => by
      simp only [Bool.or_eq_true, decide_eq_true_eq]
      exact le_total _ _) l
  refine List.Perm.eq_of_pairwise (fun a b ha hb hab hba => ?_) (hpairwise l) (hpairwise l') ?_
  · rw [decide_eq_true_eq] at hab hba
    rw [List.mem_mergeSort] at ha hb
    exact List.inj_on_of_nodup_map hn ha (h.mem_iff.2 hb) (le_antisymm hab hba)
  · exact ((List.mergeSort_perm l _).trans h).trans (List.mergeSort_perm l' _).symm

theorem relationText_injective : Function.Injective Relation.text := by
  intro r r' h
  cases r <;> cases r' <;> first | rfl | exact absurd h (by decide)

/-- The canonical form of a valid graph does not depend on the orders. -/
theorem Rearranged.canonical (h : g.Rearranged g') (hv : g.Valid) :
    g.canonical = g'.canonical := by
  let key (t : String × String × Relation) : List String := [t.1, t.2.1, t.2.2.text]
  have hkey : Function.Injective key := by
    rintro ⟨a, b, r⟩ ⟨a', b', r'⟩ heq
    simp only [key, List.cons.injEq, and_true] at heq
    rw [heq.1, heq.2.1, relationText_injective heq.2.2]
  have hkeys : (g.edges.map fun e => key e.triplet).Nodup := by
    have := hv.triplets_nodup.map hkey
    rwa [List.map_map] at this
  rw [GraphData.canonical, GraphData.canonical, h.schemaVersion, h.cyclePolicy]
  congr 1
  · exact mergeSort_eq_of_perm ProcedureNode.id h.nodes hv.ids_nodup
  · exact mergeSort_eq_of_perm (fun e => key e.triplet) h.edges hkeys

variable {edits edits' : GraphEdits}

theorem survivingNodes_rearranged (g : GraphData) (h : edits.Rearranged edits') :
    g.survivingNodes edits = g.survivingNodes edits' := by
  simp only [survivingNodes, h.deleteNodes.mem_iff]

theorem survivingEdges_rearranged (g : GraphData) (h : edits.Rearranged edits') :
    g.survivingEdges edits = g.survivingEdges edits' := by
  simp only [survivingEdges, h.deleteNodes.mem_iff, h.deleteEdges.mem_iff]

theorem edited_rearranged (g : GraphData) (h : edits.Rearranged edits') :
    (g.edited edits).Rearranged (g.edited edits') where
  schemaVersion := rfl
  nodes := by
    rw [edited, edited, survivingNodes_rearranged g h]
    exact h.addNodes.append_left _
  edges := by
    rw [edited, edited, survivingEdges_rearranged g h]
    exact h.addEdges.append_left _
  cyclePolicy := rfl

theorem Applicable.rearranged {tools : Option (List String)} (ha : g.Applicable edits tools)
    (h : edits.Rearranged edits') : g.Applicable edits' tools where
  deleteEdges_nodup := h.deleteEdges.nodup_iff.1 ha.deleteEdges_nodup
  deleteEdges_mem := by simpa only [h.deleteEdges.mem_iff] using ha.deleteEdges_mem
  deleteNodes_nodup := h.deleteNodes.nodup_iff.1 ha.deleteNodes_nodup
  deleteNodes_mem := by simpa only [h.deleteNodes.mem_iff] using ha.deleteNodes_mem
  addNodes_nodup := (h.addNodes.map _).nodup_iff.1 ha.addNodes_nodup
  addNodes_new := by
    simpa only [h.addNodes.mem_iff, survivingNodes_rearranged g h] using ha.addNodes_new
  addEdges_nodup := (h.addEdges.map _).nodup_iff.1 ha.addEdges_nodup
  addEdges_new := by
    simpa only [h.addEdges.mem_iff, survivingEdges_rearranged g h] using ha.addEdges_new
  fields := (edited_rearranged g h).validateFields ▸ ha.fields
  valid := (edited_rearranged g h).valid ha.valid
  tools available htools b hb :=
    ha.tools available htools b ((edited_rearranged g h).bindings.mem_iff.2 hb)

end GraphData

theorem GraphEdits.Rearranged.symm {edits edits' : GraphEdits} (h : edits.Rearranged edits') :
    edits'.Rearranged edits :=
  ⟨h.addNodes.symm, h.deleteNodes.symm, h.addEdges.symm, h.deleteEdges.symm⟩

/-- Preparing a candidate succeeds exactly when the edits apply, with the graph that they
    result in; the orders of the edits change neither the success nor the fingerprint. -/
theorem prepareCandidate_spec (graph : ProceduralGraph) (edits : GraphEdits)
    (tools : Option (List String)) :
    ((∃ candidate, prepareCandidate graph edits tools = .ok candidate) ↔
      graph.data.Applicable edits tools) ∧
    (∀ candidate, prepareCandidate graph edits tools = .ok candidate →
      candidate.data = graph.data.edited edits) ∧
    ∀ edits', edits.Rearranged edits' →
      ((∃ candidate, prepareCandidate graph edits tools = .ok candidate) ↔
        ∃ candidate, prepareCandidate graph edits' tools = .ok candidate) ∧
      ∀ candidate candidate', prepareCandidate graph edits tools = .ok candidate →
        prepareCandidate graph edits' tools = .ok candidate' →
        ∀ sha256, candidate.fingerprint sha256 = candidate'.fingerprint sha256 := by
  have hok (edits : GraphEdits) :
      (∃ candidate, prepareCandidate graph edits tools = .ok candidate) ↔
        graph.data.Applicable edits tools := by
    simp only [prepareCandidate_eq_ok]
    refine ⟨fun ⟨_, h, _⟩ => h, fun h => ?_⟩
    exact ⟨⟨_, GraphData.validateGraph_eq_ok.2 ⟨h.fields, h.valid⟩⟩, h, rfl⟩
  refine ⟨hok edits, fun candidate h => (prepareCandidate_eq_ok.1 h).2, fun edits' h => ⟨?_, ?_⟩⟩
  · rw [hok, hok]
    exact ⟨fun ha => ha.rearranged h, fun ha => ha.rearranged h.symm⟩
  · intro candidate candidate' hc hc' sha256
    obtain ⟨ha, hdata⟩ := prepareCandidate_eq_ok.1 hc
    rw [ProceduralGraph.fingerprint, ProceduralGraph.fingerprint, hdata,
      (prepareCandidate_eq_ok.1 hc').2,
      (GraphData.edited_rearranged graph.data h).canonical ha.valid]

/-! ## What edits can express -/

/-- The edits that replace a graph by another: all its nodes are deleted, with their edges. -/
def GraphEdits.replace (g g' : GraphData) : GraphEdits where
  deleteNodes := g.ids
  addNodes := g'.nodes
  addEdges := g'.edges

namespace GraphData

variable {g g' : GraphData}

theorem survivingNodes_replace : g.survivingNodes (.replace g g') = [] := by
  refine List.filter_eq_nil_iff.2 fun n hn hkept => ?_
  exact of_decide_eq_true hkept (List.mem_map_of_mem hn)

theorem survivingEdges_replace (hg : g.Valid) : g.survivingEdges (.replace g g') = [] := by
  refine List.filter_eq_nil_iff.2 fun e he hkept => ?_
  exact (of_decide_eq_true hkept).2.1 (hg.endpoints e he).1

theorem edited_replace (hg : g.Valid) (hpolicy : g.cyclePolicy = g'.cyclePolicy) :
    g.edited (.replace g g') = g' := by
  have hversion : g.schemaVersion = g'.schemaVersion := by
    rcases g.schemaVersion
    rcases g'.schemaVersion
    rfl
  rw [edited, survivingNodes_replace, survivingEdges_replace hg, hversion, hpolicy]
  rfl

theorem applicable_replace (hg : g.Valid) (hfields : g'.validateFields = .ok ()) (hg' : g'.Valid)
    (hpolicy : g.cyclePolicy = g'.cyclePolicy) : g.Applicable (.replace g g') none where
  deleteEdges_nodup := List.nodup_nil
  deleteEdges_mem _ h := absurd h List.not_mem_nil
  deleteNodes_nodup := hg.ids_nodup
  deleteNodes_mem _ h := h
  addNodes_nodup := hg'.ids_nodup
  addNodes_new := by
    rw [survivingNodes_replace]
    exact fun _ _ _ h => absurd h List.not_mem_nil
  addEdges_nodup := hg'.triplets_nodup
  addEdges_new := by
    rw [survivingEdges_replace hg]
    exact fun _ _ _ h => absurd h List.not_mem_nil
  fields := (edited_replace hg hpolicy).symm ▸ hfields
  valid := (edited_replace hg hpolicy).symm ▸ hg'
  tools := nofun

end GraphData

theorem exists_prepareCandidate {g g' : ProceduralGraph}
    (hpolicy : g.data.cyclePolicy = g'.data.cyclePolicy) : ∃ edits candidate,
      prepareCandidate g edits none = .ok candidate ∧ candidate.data = g'.data := by
  obtain ⟨-, hg⟩ := GraphData.validateGraph_eq_ok.1 g.valid
  obtain ⟨hfields, hg'⟩ := GraphData.validateGraph_eq_ok.1 g'.valid
  exact ⟨_, g', prepareCandidate_eq_ok.2 ⟨GraphData.applicable_replace hg hfields hg' hpolicy,
    (GraphData.edited_replace hg hpolicy).symm⟩, rfl⟩

/-- Some edits lead from any graph to any other of its cycle policy; so edits can be undone. -/
theorem prepareCandidate_expressive (g g' : ProceduralGraph)
    (hpolicy : g.data.cyclePolicy = g'.data.cyclePolicy) :
    (∃ edits candidate, prepareCandidate g edits none = .ok candidate ∧
      ∀ sha256, candidate.fingerprint sha256 = g'.fingerprint sha256) ∧
    ∀ edits tools candidate, prepareCandidate g edits tools = .ok candidate →
      ∃ edits' restored, prepareCandidate candidate edits' none = .ok restored ∧
        ∀ sha256, restored.fingerprint sha256 = g.fingerprint sha256 := by
  constructor
  · obtain ⟨edits, candidate, hok, hdata⟩ := exists_prepareCandidate hpolicy
    refine ⟨edits, candidate, hok, fun sha256 => ?_⟩
    rw [ProceduralGraph.fingerprint, ProceduralGraph.fingerprint, hdata]
  · intro edits tools candidate h
    have hcandidate : candidate.data.cyclePolicy = g.data.cyclePolicy := by
      rw [(prepareCandidate_eq_ok.1 h).2]
      rfl
    obtain ⟨edits', restored, hok, hdata⟩ := exists_prepareCandidate hcandidate
    refine ⟨edits', restored, hok, fun sha256 => ?_⟩
    rw [ProceduralGraph.fingerprint, ProceduralGraph.fingerprint, hdata]

def skeletonGraph : ProceduralGraph := ⟨GraphData.skeleton, by decide⟩

/-- The graph of `Start` only. -/
def loneGraph : ProceduralGraph :=
  ⟨{ nodes := [⟨"Start", .status, "", none⟩], edges := [] }, by decide⟩

theorem prepareCandidate_expressive_skeleton :
    (∃ edits candidate, prepareCandidate skeletonGraph edits none = .ok candidate ∧
      ∀ sha256, candidate.fingerprint sha256 = loneGraph.fingerprint sha256) ∧
    ∀ edits tools candidate, prepareCandidate skeletonGraph edits tools = .ok candidate →
      ∃ edits' restored, prepareCandidate candidate edits' none = .ok restored ∧
        ∀ sha256, restored.fingerprint sha256 = skeletonGraph.fingerprint sha256 :=
  prepareCandidate_expressive skeletonGraph loneGraph rfl

end Hyperforge
