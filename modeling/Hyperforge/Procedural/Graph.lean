import Mathlib.Data.List.Dedup
import Mathlib.Data.List.Lex
import Mathlib.Data.List.Sort
import Mathlib.Data.String.Basic

/-!
# Procedural graphs

Immutable directed graphs advising an agent: nodes (actions bound to tools,
reasoning, statuses) and edges between them. A graph is *valid*
(`validateGraph`) if its identifiers, bindings and edges are consistent, every
node reaches a terminal one, and, where the policy rejects cycles, it has none;
it *fits* a set of tools if every binding of an action names one (`checkTools`).
A `ProceduralGraph` carries the proof that it is valid.

Edits are applied to a new graph, deletions first, then additions, and the
result is validated again (`prepareCandidate`): nothing is repaired.

The two traversals of the validation pop a queue, each node entering it at most
once; they are given as much fuel as there are nodes.
-/

namespace Hyperforge

/-- The characters Python's `str.strip` removes. -/
def isSpace (c : Char) : Bool :=
  let n := c.toNat
  (9 ≤ n && n ≤ 13) || (28 ≤ n && n ≤ 32) || n == 0x85 || n == 0xA0 || n == 0x1680 ||
    (0x2000 ≤ n && n ≤ 0x200A) || n == 0x2028 || n == 0x2029 || n == 0x202F || n == 0x205F ||
    n == 0x3000

/-- Nothing is left of the text once stripped. -/
def isBlank (s : String) : Bool := s.toList.all isSpace

inductive NodeType
  | action
  | reasoning
  | status
  deriving DecidableEq

structure ProcedureNode where
  id : String
  type : NodeType
  description : String := ""
  procedureName : Option String := none
  deriving DecidableEq

/-- The tool an action is bound to: its procedure name, or else its identifier. -/
def ProcedureNode.binding (n : ProcedureNode) : String :=
  match n.procedureName with
  | some p => if p = "" then n.id else p
  | none => n.id

inductive Relation
  | leadsTo
  | triggers
  | providesInputFor
  | convergesTo
  deriving DecidableEq

def Relation.text : Relation → String
  | leadsTo => "LEADS_TO"
  | triggers => "TRIGGERS"
  | providesInputFor => "PROVIDES_INPUT_FOR"
  | convergesTo => "CONVERGES_TO"

structure ProcedureEdge where
  source : String
  target : String
  relation : Relation := .leadsTo
  condition : Option String := none
  guidance : String
  pitfalls : String := ""
  deriving DecidableEq

/-- What identifies an edge in a graph. -/
def ProcedureEdge.triplet (e : ProcedureEdge) : String × String × Relation :=
  (e.source, e.target, e.relation)

inductive CyclePolicy
  | allow
  | reject
  deriving DecidableEq

/-- The versions of the format of graphs. -/
inductive SchemaVersion
  | one
  deriving DecidableEq

/-- A graph, not necessarily valid. -/
structure GraphData where
  schemaVersion : SchemaVersion := .one
  nodes : List ProcedureNode
  edges : List ProcedureEdge
  cyclePolicy : CyclePolicy := .allow
  deriving DecidableEq

/-- Why a graph, or an edit of it, is refused. -/
inductive GraphError
  | emptyId
  | blankName
  | emptyGuidance
  | tooManyNodes
  | tooManyEdges
  | duplicateIds
  | noStart
  | startNotStatus
  | startBinding
  | duplicateBindings
  | unknownEndpoint (source target : String)
  | duplicateTriplet (triplet : String × String × Relation)
  | unreachable (ids : List String)
  | cycle
  | unknownBindings (bindings : List String)
  | duplicateEdgeDeletion (source target : String)
  | unknownEdgeDeletion (source target : String)
  | duplicateNodeDeletion (id : String)
  | unknownNodeDeletion (id : String)
  | duplicateNodeAddition (id : String)
  | duplicateEdgeAddition (triplet : String × String × Relation)
  deriving DecidableEq

namespace GraphData

variable (g : GraphData)

def ids : List String := g.nodes.map (·.id)

/-- The bindings of the actions. -/
def bindings : List String := (g.nodes.filter (·.type = .action)).map (·.binding)

/-- The targets of the edges leaving a node, in the order of the edges. -/
def outgoing (id : String) : List String := (g.edges.filter (·.source = id)).map (·.target)

/-- The sources of the edges entering a node, in the order of the edges. -/
def incoming (id : String) : List String := (g.edges.filter (·.target = id)).map (·.source)

/-- The checks of the fields of the nodes and of the edges. -/
def validateFields : Except GraphError Unit :=
  if g.nodes.any (·.id = "") then .error .emptyId
  else if g.nodes.any fun n => isBlank n.id || n.procedureName.any isBlank then .error .blankName
  else if g.nodes.length > 1000 then .error .tooManyNodes
  else if g.edges.any (·.guidance = "") then .error .emptyGuidance
  else if g.edges.length > 10000 then .error .tooManyEdges
  else .ok ()

/-- The checks of the identifiers and of the bindings. -/
def validateNodes : Except GraphError Unit :=
  if ¬g.ids.Nodup then .error .duplicateIds
  else if "Start" ∉ g.ids then .error .noStart
  else if g.nodes.any fun n => n.id = "Start" && n.type != .status then .error .startNotStatus
  else if "Start" ∈ g.bindings then .error .startBinding
  else if ¬g.bindings.Nodup then .error .duplicateBindings
  else .ok ()

/-- The checks of the edges, in their order, given the triplets seen so far. -/
def validateEdges : List ProcedureEdge → List (String × String × Relation) → Except GraphError Unit
  | [], _ => .ok ()
  | e :: edges, triplets =>
    if e.source ∉ g.ids ∨ e.target ∉ g.ids then .error (.unknownEndpoint e.source e.target)
    else if e.triplet ∈ triplets then .error (.duplicateTriplet e.triplet)
    else validateEdges edges (e.triplet :: triplets)

/-- The sources reached for the first time join the queue. -/
def visitSources (sources : List String) (pending reached : List String) :
    List String × List String :=
  sources.foldl (fun (p, r) s => if s ∈ r then (p, r) else (p ++ [s], r ++ [s])) (pending, reached)

/-- The reverse traversal from the nodes of the queue. -/
def reverseReach : ℕ → List String → List String → List String
  | 0, _, reached => reached
  | _ + 1, [], reached => reached
  | fuel + 1, id :: pending, reached =>
    let (pending, reached) := visitSources (g.incoming id) pending reached
    reverseReach fuel pending reached

/-- The nodes from which a terminal one is reached. -/
def reachesTerminal : List String :=
  let terminals := g.ids.filter fun id => (g.outgoing id).isEmpty
  g.reverseReach g.ids.length terminals terminals

/-- The targets lose an incoming edge, and join the queue with their last one. -/
def visitTargets (targets : List String) (pending : List String) (indegree : String → ℕ) :
    List String × (String → ℕ) :=
  targets.foldl (fun (p, d) t =>
    let d' := Function.update d t (d t - 1)
    (if d' t = 0 then p ++ [t] else p, d')) (pending, indegree)

/-- The number of nodes visited by the topological traversal. -/
def topological : ℕ → List String → (String → ℕ) → ℕ → ℕ
  | 0, _, _, visited => visited
  | _ + 1, [], _, visited => visited
  | fuel + 1, id :: pending, indegree, visited =>
    let (pending, indegree) := visitTargets (g.outgoing id) pending indegree
    topological fuel pending indegree (visited + 1)

/-- The nodes visited from those without incoming edges. -/
def visited : ℕ :=
  g.topological g.ids.length (g.ids.filter fun id => (g.incoming id).length = 0)
    (fun id => (g.incoming id).length) 0

/-- The checks of a graph. -/
def validateGraph : Except GraphError Unit := do
  g.validateFields
  g.validateNodes
  g.validateEdges g.edges []
  if g.ids.any (· ∉ g.reachesTerminal) then
    throw (.unreachable ((g.ids.filter (· ∉ g.reachesTerminal)).mergeSort (· ≤ ·)))
  if g.cyclePolicy = .reject ∧ g.visited ≠ g.ids.length then throw .cycle

/-- Every binding of an action names an available tool. -/
def checkTools (available : List String) : Except GraphError Unit :=
  let unknown := (g.bindings.filter (· ∉ available)).dedup
  if unknown.isEmpty then .ok () else .error (.unknownBindings (unknown.mergeSort (· ≤ ·)))

/-- The graph with its nodes and edges in canonical order. -/
def canonical : GraphData where
  schemaVersion := g.schemaVersion
  nodes := g.nodes.mergeSort (·.id ≤ ·.id)
  edges := g.edges.mergeSort fun e e' =>
    [e.source, e.target, e.relation.text] ≤ [e'.source, e'.target, e'.relation.text]
  cyclePolicy := g.cyclePolicy

/-- A canonical graph is its own canonical form. -/
theorem canonical_canonical (g : GraphData) : g.canonical.canonical = g.canonical := by
  have hn : (g.nodes.mergeSort (·.id ≤ ·.id)).Pairwise fun n n' => decide (n.id ≤ n'.id) = true :=
    List.pairwise_mergeSort (fun a b c hab hbc => by
      simp only [decide_eq_true_eq] at *
      exact le_trans hab hbc) (fun a b => by
      simp only [Bool.or_eq_true, decide_eq_true_eq]
      exact le_total a.id b.id) _
  have he : (g.edges.mergeSort fun e e' => [e.source, e.target, e.relation.text] ≤
      [e'.source, e'.target, e'.relation.text]).Pairwise fun e e' =>
        decide ([e.source, e.target, e.relation.text] ≤
          [e'.source, e'.target, e'.relation.text]) = true :=
    List.pairwise_mergeSort (fun a b c hab hbc => by
      simp only [decide_eq_true_eq] at *
      exact le_trans hab hbc) (fun a b => by
      simp only [Bool.or_eq_true, decide_eq_true_eq]
      exact le_total _ _) _
  rw [canonical, canonical, List.mergeSort_of_pairwise hn, List.mergeSort_of_pairwise he]
end GraphData

/-- A valid graph. -/
structure ProceduralGraph where
  data : GraphData
  valid : data.validateGraph = .ok ()

namespace ProceduralGraph

/-- Validating a graph. -/
def ofData (g : GraphData) : Except GraphError ProceduralGraph :=
  match h : g.validateGraph with
  | .ok () => .ok ⟨g, h⟩
  | .error e => .error e

theorem data_of_ofData {g : GraphData} {p : ProceduralGraph} (h : ofData g = .ok p) :
    p.data = g := by
  unfold ofData at h
  split at h
  · cases h
    rfl
  · cases h

/-- The digest of the canonical form of a graph, given the digest of a document. -/
def fingerprint (sha256 : GraphData → String) (g : ProceduralGraph) : String :=
  sha256 g.data.canonical

end ProceduralGraph

/-- An edge deletion matches every relation between its endpoints. -/
structure EdgeEndpoints where
  source : String
  target : String
  deriving DecidableEq

structure GraphEdits where
  addNodes : List ProcedureNode := []
  deleteNodes : List String := []
  addEdges : List ProcedureEdge := []
  deleteEdges : List EdgeEndpoints := []
  deriving DecidableEq

/-- The pairs of endpoints to delete, which must be those of an edge and not be repeated. -/
def deletedEndpoints (edges : List ProcedureEdge) :
    List EdgeEndpoints → List (String × String) → Except GraphError (List (String × String))
  | [], deleted => .ok deleted
  | d :: deletions, deleted =>
    if (d.source, d.target) ∈ deleted then .error (.duplicateEdgeDeletion d.source d.target)
    else if (d.source, d.target) ∉ edges.map fun e => (e.source, e.target) then
      .error (.unknownEdgeDeletion d.source d.target)
    else deletedEndpoints edges deletions (deleted ++ [(d.source, d.target)])

/-- The nodes left once some are deleted, and the identifiers of these. -/
def deleteNodes : List String → List ProcedureNode → List String →
    Except GraphError (List ProcedureNode × List String)
  | [], nodes, deleted => .ok (nodes, deleted)
  | id :: deletions, nodes, deleted =>
    if id ∈ deleted then .error (.duplicateNodeDeletion id)
    else if id ∉ nodes.map (·.id) then .error (.unknownNodeDeletion id)
    else deleteNodes deletions (nodes.filter (·.id ≠ id)) (deleted ++ [id])

def addNodes : List ProcedureNode → List ProcedureNode → Except GraphError (List ProcedureNode)
  | [], nodes => .ok nodes
  | n :: additions, nodes =>
    if n.id ∈ nodes.map (·.id) then .error (.duplicateNodeAddition n.id)
    else addNodes additions (nodes ++ [n])

def addEdges : List ProcedureEdge → List ProcedureEdge → Except GraphError (List ProcedureEdge)
  | [], edges => .ok edges
  | e :: additions, edges =>
    if e.triplet ∈ edges.map (·.triplet) then .error (.duplicateEdgeAddition e.triplet)
    else addEdges additions (edges ++ [e])

/-- Applying deletions, then additions, to a new valid graph. -/
def prepareCandidate (graph : ProceduralGraph) (edits : GraphEdits)
    (availableTools : Option (List String)) : Except GraphError ProceduralGraph := do
  let deleted ← deletedEndpoints graph.data.edges edits.deleteEdges []
  let edges := graph.data.edges.filter fun e => (e.source, e.target) ∉ deleted
  let (nodes, deletedNodes) ← deleteNodes edits.deleteNodes graph.data.nodes []
  let edges := edges.filter fun e => e.source ∉ deletedNodes ∧ e.target ∉ deletedNodes
  let nodes ← addNodes edits.addNodes nodes
  let edges ← addEdges edits.addEdges edges
  let candidate ← ProceduralGraph.ofData
    ⟨graph.data.schemaVersion, nodes, edges, graph.data.cyclePolicy⟩
  if let some tools := availableTools then candidate.data.checkTools tools
  return candidate

theorem checkTools_of_prepareCandidate {graph candidate : ProceduralGraph} {edits : GraphEdits}
    {tools : List String} (h : prepareCandidate graph edits (some tools) = .ok candidate) :
    candidate.data.checkTools tools = .ok () := by
  unfold prepareCandidate at h
  simp only [bind, Except.bind, pure, Except.pure] at h
  repeat' split at h <;> try cases h
  assumption

end Hyperforge
