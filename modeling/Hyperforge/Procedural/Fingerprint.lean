import Hyperforge.Library.Json.Ascii
import Hyperforge.Procedural.Candidate
import Hyperforge.Procedural.Store

/-!
# Fingerprints of graphs

The fingerprint of a graph is the digest of the text of its canonical form, in ASCII and with
sorted keys (`GraphData.canonicalJson`). The text is that of one graph only, and the canonical
form that of all the orders of the nodes and edges of a valid graph: so the fingerprints of two
valid graphs are equal if and only if the graphs are equal up to these orders, the
digest being injective (`fingerprint_spec`).

Under the fingerprint of a valid graph, the artifact store thus never finds another graph
(`Published`), whatever its operations and failures so far (`Stored`).
-/

namespace Hyperforge

open Json

/-! ## The text of a graph -/

def NodeType.text : NodeType → String
  | action => "ACTION"
  | reasoning => "REASONING"
  | status => "STATUS"

def CyclePolicy.text : CyclePolicy → String
  | allow => "allow"
  | reject => "reject"

def SchemaVersion.number : SchemaVersion → ℤ
  | one => 1

/-- No float has a literal: there are none in a graph. -/
def noFloats : FloatFormat Unit where
  isFinite _ := false
  repr _ := []
  read _ := ()
  literal _ h := absurd h Bool.false_ne_true
  read_repr _ _ := rfl

abbrev Dump := Json.Tree Unit

def dumpStr (s : String) : Dump := .str (.ofString s)

def dumpOptional : Option String → Dump
  | none => .null
  | some s => dumpStr s

/-- The fields of a model, in their order. -/
def dumpFields (fields : List (String × Dump)) : Dump :=
  .obj (fields.map fun f => (.ofString f.1, f.2))

def ProcedureNode.modelDump (n : ProcedureNode) : Dump :=
  dumpFields [("id", dumpStr n.id), ("type", dumpStr n.type.text),
    ("description", dumpStr n.description), ("procedure_name", dumpOptional n.procedureName)]

def ProcedureEdge.modelDump (e : ProcedureEdge) : Dump :=
  dumpFields [("source", dumpStr e.source), ("target", dumpStr e.target),
    ("relation", dumpStr e.relation.text), ("condition", dumpOptional e.condition),
    ("guidance", dumpStr e.guidance), ("pitfalls", dumpStr e.pitfalls)]

namespace GraphData

def modelDump (g : GraphData) : Dump :=
  dumpFields [("schema_version", .int g.schemaVersion.number),
    ("nodes", .arr (g.nodes.map (·.modelDump))), ("edges", .arr (g.edges.map (·.modelDump))),
    ("cycle_policy", dumpStr g.cyclePolicy.text)]

/-- The text that is hashed, of a graph with its nodes and edges in canonical order. -/
def canonicalJson (g : GraphData) : Str := g.modelDump.sortKeys.write noFloats ascii

theorem isSome_encodeUtf8_canonicalJson (g : GraphData) :
    (encodeUtf8 g.canonicalJson).isSome := by
  obtain ⟨cs, hcs⟩ := exists_write_ascii noFloats g.modelDump.sortKeys
  rw [canonicalJson, hcs, encodeUtf8_chars]
  rfl

def canonicalBytes (g : GraphData) : ByteArray :=
  (encodeUtf8 g.canonicalJson).get g.isSome_encodeUtf8_canonicalJson

end GraphData

/-! ## The text is that of one graph -/

theorem ofString_injective : Function.Injective Str.ofString := fun _ _ h =>
  String.toList_injective (List.map_injective_iff.2 (fun _ _ => CodePoint.scalar.inj) h)

theorem dumpStr_injective : Function.Injective dumpStr := fun _ _ h =>
  ofString_injective (Json.Tree.str.inj h)

theorem dumpOptional_injective : Function.Injective dumpOptional := by
  rintro (_ | s) (_ | s') h
  · rfl
  · cases h
  · cases h
  · rw [dumpStr_injective h]

theorem NodeType.text_injective : Function.Injective NodeType.text := by
  intro t t' h
  cases t <;> cases t' <;> first | rfl | exact absurd h (by decide)

theorem CyclePolicy.text_injective : Function.Injective CyclePolicy.text := by
  intro p p' h
  cases p <;> cases p' <;> first | rfl | exact absurd h (by decide)

/-- A tree that is read back from its text: the integer it may have is of one digit. -/
def Readable (x : Dump) : Prop := x.WellFormed noFloats 1 ∧ x.Readable ascii

theorem readable_dumpStr (s : String) : Readable (dumpStr s) := ⟨trivial, s.toList, rfl⟩

theorem readable_dumpOptional (s : Option String) : Readable (dumpOptional s) := by
  cases s with
  | none => exact ⟨trivial, trivial⟩
  | some s => exact readable_dumpStr s

theorem readable_arr {items : List Dump} (h : ∀ x ∈ items, Readable x) :
    Readable (.arr items) :=
  ⟨itemsWellFormed_iff.2 fun x hx => (h x hx).1, itemsReadable_iff.2 fun x hx => (h x hx).2⟩

theorem readable_dumpFields {fields : List (String × Dump)} (hnames : (fields.map Prod.fst).Nodup)
    (h : ∀ f ∈ fields, Readable f.2) : Readable (dumpFields fields) := by
  refine ⟨⟨?_, membersWellFormed_iff.2 ?_⟩, membersReadable_iff.2 ?_⟩
  · have hkeys := hnames.map ofString_injective
    rwa [List.map_map] at hkeys ⊢
  · exact List.forall_mem_map.2 fun f hf => (h f hf).1
  · exact List.forall_mem_map.2 fun f hf => ⟨⟨f.1.toList, rfl⟩, (h f hf).2⟩

theorem sortKeys_dumpStr (s : String) : (dumpStr s).sortKeys = dumpStr s := rfl

theorem sortKeys_dumpOptional (s : Option String) :
    (dumpOptional s).sortKeys = dumpOptional s := by
  cases s <;> rfl

namespace ProcedureNode

variable {n n' : ProcedureNode}

theorem sortKeys_modelDump (n : ProcedureNode) : n.modelDump.sortKeys =
    dumpFields [("description", dumpStr n.description), ("id", dumpStr n.id),
      ("procedure_name", dumpOptional n.procedureName), ("type", dumpStr n.type.text)] := by
  simp +decide only [modelDump, dumpFields, Json.Tree.sortKeys, sortMembers, List.map_cons,
    List.map_nil, List.insertionSort_cons, List.insertionSort_nil, List.orderedInsert_cons,
    List.orderedInsert_nil, sortKeys_dumpStr, sortKeys_dumpOptional, if_true, if_false]

theorem readable_sortKeys (n : ProcedureNode) : Readable n.modelDump.sortKeys := by
  rw [sortKeys_modelDump]
  refine readable_dumpFields (by simp) ?_
  simp [readable_dumpStr, readable_dumpOptional]

theorem sortKeys_modelDump_inj (h : n.modelDump.sortKeys = n'.modelDump.sortKeys) : n = n' := by
  simp only [sortKeys_modelDump, dumpFields, List.map_cons, List.map_nil, Json.Tree.obj.injEq,
    List.cons.injEq, Prod.mk.injEq, true_and, and_true] at h
  obtain ⟨hdescription, hid, hname, htype⟩ := h
  cases n
  cases n'
  rw [mk.injEq]
  exact ⟨dumpStr_injective hid, NodeType.text_injective (dumpStr_injective htype),
    dumpStr_injective hdescription, dumpOptional_injective hname⟩

end ProcedureNode

namespace ProcedureEdge

variable {e e' : ProcedureEdge}

theorem sortKeys_modelDump (e : ProcedureEdge) : e.modelDump.sortKeys =
    dumpFields [("condition", dumpOptional e.condition), ("guidance", dumpStr e.guidance),
      ("pitfalls", dumpStr e.pitfalls), ("relation", dumpStr e.relation.text),
      ("source", dumpStr e.source), ("target", dumpStr e.target)] := by
  simp +decide only [modelDump, dumpFields, Json.Tree.sortKeys, sortMembers, List.map_cons,
    List.map_nil, List.insertionSort_cons, List.insertionSort_nil, List.orderedInsert_cons,
    List.orderedInsert_nil, sortKeys_dumpStr, sortKeys_dumpOptional, if_true, if_false]

theorem readable_sortKeys (e : ProcedureEdge) : Readable e.modelDump.sortKeys := by
  rw [sortKeys_modelDump]
  refine readable_dumpFields (by simp) ?_
  simp [readable_dumpStr, readable_dumpOptional]

theorem sortKeys_modelDump_inj (h : e.modelDump.sortKeys = e'.modelDump.sortKeys) : e = e' := by
  simp only [sortKeys_modelDump, dumpFields, List.map_cons, List.map_nil, Json.Tree.obj.injEq,
    List.cons.injEq, Prod.mk.injEq, true_and, and_true] at h
  obtain ⟨hcondition, hguidance, hpitfalls, hrelation, hsource, htarget⟩ := h
  cases e
  cases e'
  rw [mk.injEq]
  exact ⟨dumpStr_injective hsource, dumpStr_injective htarget,
    GraphData.relationText_injective (dumpStr_injective hrelation),
    dumpOptional_injective hcondition, dumpStr_injective hguidance, dumpStr_injective hpitfalls⟩

end ProcedureEdge

namespace GraphData

variable {g g' : GraphData}

theorem sortKeys_modelDump (g : GraphData) : g.modelDump.sortKeys =
    dumpFields [("cycle_policy", dumpStr g.cyclePolicy.text),
      ("edges", .arr (g.edges.map (·.modelDump.sortKeys))),
      ("nodes", .arr (g.nodes.map (·.modelDump.sortKeys))),
      ("schema_version", .int g.schemaVersion.number)] := by
  simp +decide only [modelDump, dumpFields, Json.Tree.sortKeys, sortMembers, List.map_cons,
    List.map_nil, List.insertionSort_cons, List.insertionSort_nil, List.orderedInsert_cons,
    List.orderedInsert_nil, sortKeys_dumpStr, sortItems_eq_map, List.map_map, if_false]
  rfl

theorem readable_sortKeys (g : GraphData) : Readable g.modelDump.sortKeys := by
  have hedges : Readable (.arr (g.edges.map (·.modelDump.sortKeys))) :=
    readable_arr (List.forall_mem_map.2 fun e _ => e.readable_sortKeys)
  have hnodes : Readable (.arr (g.nodes.map (·.modelDump.sortKeys))) :=
    readable_arr (List.forall_mem_map.2 fun n _ => n.readable_sortKeys)
  have hversion : Readable (.int g.schemaVersion.number) := by
    cases g.schemaVersion
    exact ⟨le_rfl, trivial⟩
  rw [sortKeys_modelDump]
  refine readable_dumpFields (by simp) ?_
  simp [readable_dumpStr, hedges, hnodes, hversion]

theorem sortKeys_modelDump_inj (h : g.modelDump.sortKeys = g'.modelDump.sortKeys) : g = g' := by
  simp only [sortKeys_modelDump, dumpFields, List.map_cons, List.map_nil, Json.Tree.obj.injEq,
    Json.Tree.arr.injEq, List.cons.injEq, Prod.mk.injEq, true_and, and_true] at h
  obtain ⟨hpolicy, hedges, hnodes⟩ := h
  cases g
  cases g'
  rw [mk.injEq]
  exact ⟨rfl, List.map_injective_iff.2 (fun _ _ => ProcedureNode.sortKeys_modelDump_inj) hnodes,
    List.map_injective_iff.2 (fun _ _ => ProcedureEdge.sortKeys_modelDump_inj) hedges,
    CyclePolicy.text_injective (dumpStr_injective hpolicy)⟩

/-- The text is that of one graph only. -/
theorem canonicalJson_injective : Function.Injective canonicalJson := fun g g' h =>
  sortKeys_modelDump_inj (write_ascii_injective g.readable_sortKeys.1 g'.readable_sortKeys.1
    g.readable_sortKeys.2 g'.readable_sortKeys.2 h)

theorem canonicalBytes_injective : Function.Injective canonicalBytes := by
  intro g g' h
  have hbytes (g : GraphData) : encodeUtf8 g.canonicalJson = some g.canonicalBytes :=
    (Option.some_get _).symm
  have hread := decodeUtf8_encodeUtf8 (hbytes g)
  rw [h, decodeUtf8_encodeUtf8 (hbytes g')] at hread
  exact canonicalJson_injective (Option.some.inj hread).symm

/-- Valid graphs with the same nodes and edges differ by their orders. -/
theorem rearranged_iff (hv : g.Valid) (hv' : g'.Valid) : g.Rearranged g' ↔
    g.schemaVersion = g'.schemaVersion ∧ g.cyclePolicy = g'.cyclePolicy ∧
      (∀ n, n ∈ g.nodes ↔ n ∈ g'.nodes) ∧ ∀ e, e ∈ g.edges ↔ e ∈ g'.edges := by
  constructor
  · intro h
    exact ⟨h.schemaVersion, h.cyclePolicy, fun _ => h.nodes.mem_iff, fun _ => h.edges.mem_iff⟩
  · rintro ⟨hversion, hpolicy, hnodes, hedges⟩
    refine ⟨hversion, ?_, ?_, hpolicy⟩
    · exact (List.perm_ext_iff_of_nodup (hv.ids_nodup.of_map _) (hv'.ids_nodup.of_map _)).2 hnodes
    · exact (List.perm_ext_iff_of_nodup (hv.triplets_nodup.of_map _)
        (hv'.triplets_nodup.of_map _)).2 hedges

/-- The canonical form determines a graph up to the orders. -/
theorem canonical_eq_iff (hv : g.Valid) : g.canonical = g'.canonical ↔ g.Rearranged g' := by
  refine ⟨fun h => ?_, fun h => h.canonical hv⟩
  rw [canonical, canonical, mk.injEq] at h
  obtain ⟨hversion, hnodes, hedges, hpolicy⟩ := h
  have hperm {α : Type} {l l' : List α} {le : α → α → Bool}
      (h : l.mergeSort le = l'.mergeSort le) : l.Perm l' :=
    (List.mergeSort_perm l le).symm.trans (h ▸ List.mergeSort_perm l' le)
  exact ⟨hversion, hperm hnodes, hperm hedges, hpolicy⟩

/-- The digest of the text of a graph. -/
def sha256 (digest : ByteArray → String) (g : GraphData) : String := digest g.canonicalBytes

end GraphData

theorem ProceduralGraph.valid_data (g : ProceduralGraph) : g.data.Valid :=
  (GraphData.validateGraph_eq_ok.1 g.valid).2

theorem ProceduralGraph.fingerprint_eq_iff {digest : ByteArray → String}
    (hdigest : Function.Injective digest) (g g' : ProceduralGraph) :
    g.fingerprint (GraphData.sha256 digest) = g'.fingerprint (GraphData.sha256 digest) ↔
      g.data.Rearranged g'.data := by
  rw [← GraphData.canonical_eq_iff g.valid_data]
  exact (hdigest.comp GraphData.canonicalBytes_injective).eq_iff

/-! ## The store -/

namespace Evolution

open Crash ArtifactStore

variable {J S R P : Type} (env : Env J S R P)

/-- What raises this exception is `ArtifactStore.graph`, if it finds another graph. -/
def collision : Exc := .valueError "Graph fingerprint collision"

/-- The worlds that operations of the store lead to, whether they raise or not. -/
inductive Stored (fault : ℕ → Option Exc) : World J S → Prop
  | start : Stored fault (start fault)
  | log {w : World J S} (f : Log J S → Log J S) (h : Stored fault w) :
    Stored fault ((log f : Program J S Unit).final w)
  | init {w : World J S} (outputExists : Bool) (h : Stored fault w) :
    Stored fault ((init outputExists : Program J S Unit).final w)
  | write {w : World J S} {n : Name} (hn : ∀ f, n ≠ .graph f) (doc : Document J S)
    (h : Stored fault w) : Stored fault ((write env n doc).final w)
  | graph {w : World J S} (g : ProceduralGraph) (h : Stored fault w) :
    Stored fault ((graph env g).final w)
  | retain {w : World J S} (g : ProceduralGraph) (score : Option S) (roundId : ℕ)
    (h : Stored fault w) : Stored fault ((retain env g score roundId).final w)

/-- The graphs that are there are valid ones in canonical form, under their fingerprints. -/
def Published (v : Name → Option (Option (Document J S))) : Prop :=
  ∀ f c, v (.graph f) = some c →
    ∃ g : ProceduralGraph, c = some (.graph g.data.canonical) ∧ env.fingerprint g = f

/-- A world whose store holds graphs in canonical form. -/
def Canonical (w : World J S) : Prop := ∃ v l, At v l w ∧ Published env v

variable {env} {v : Name → Option (Option (Document J S))} {l : Log J S} {fault : ℕ → Option Exc}
  {digest : ByteArray → String}

/-- Every operation of a program leaves graphs in canonical form. -/
abbrev KeepsCanonical {α : Type} (env : Env J S R P) (p : Program J S α) : Prop :=
  ∀ v l, Published env v → ∃ Q E, Triple (fun _ w' => Canonical env w') (At v l) p Q E

theorem KeepsCanonical.final {α : Type} {p : Program J S α} (hp : KeepsCanonical env p)
    {w : World J S} (h : Canonical env w) : Canonical env (p.final w) := by
  obtain ⟨v, l, hw, hv⟩ := h
  obtain ⟨Q, E, hp⟩ := hp v l hv
  exact hp.of_final (fun _ _ h => h) hw ⟨v, l, hw, hv⟩

theorem Published.allows {v' : Name → Option (Option (Document J S))} (h : Published env v') :
    Allows (fun _ w' => Canonical env w') v v' l := fun _ _ _ hw => ⟨v', l, hw, h⟩

/-- What is no graph may be published. -/
theorem Published.publish {n : Name} {doc : Document J S} (h : Published env v)
    (hn : ∀ f, n ≠ .graph f) : Published env (publish v n doc) := by
  intro f c hc
  rw [Evolution.publish, Function.update_of_ne (hn f).symm] at hc
  exact h f c hc

theorem Published.publishGraph (h : Published env v) (g : ProceduralGraph) :
    Published env (publishGraph env v g) := by
  intro f c hc
  by_cases hf : f = env.fingerprint g
  · subst hf
    rw [Evolution.publishGraph, Evolution.publish, Function.update_self] at hc
    cases hc
    exact ⟨g, rfl, rfl⟩
  · have hname : Name.graph f ≠ .graph (env.fingerprint g) := fun heq => hf (Name.graph.inj heq)
    rw [Evolution.publishGraph, Evolution.publish, Function.update_of_ne hname] at hc
    exact h f c hc

theorem Stored.canonical {w : World J S} (h : Stored env fault w) : Canonical env w := by
  induction h with
  | start => exact ⟨_, _, at_start fault, fun _ _ h => by cases h⟩
  | log f _ ih =>
    refine KeepsCanonical.final (fun v l hv => ⟨_, _, log_spec fun w hw => ?_⟩) ih
    exact ⟨v, f l, ⟨hw.shows, rfl⟩, hv⟩
  | init outputExists _ ih =>
    exact KeepsCanonical.final (fun v l hv => ⟨_, _, init_spec hv.allows⟩) ih
  | write hn doc _ ih =>
    exact KeepsCanonical.final (fun v l hv => ⟨_, _, write_spec hv.allows fun _ =>
      ⟨(hv.publish hn).allows, (hv.publish hn).allows⟩⟩) ih
  | graph g _ ih =>
    exact KeepsCanonical.final (fun v l hv => ⟨_, _, graph_spec hv.allows fun _ =>
      ⟨(hv.publishGraph g).allows, (hv.publishGraph g).allows⟩⟩) ih
  | retain g score roundId _ ih =>
    have hn (f : String) : Name.retained ≠ .graph f := nofun
    exact KeepsCanonical.final (fun v l hv => ⟨_, _, retain_spec hv.allows
      (hv.publish hn).allows (hv.publish hn).allows⟩) ih

/-- Only the operations of `p` themselves may fail with a collision. -/
abbrev Spares {α : Type} (p : Program J S α) : Prop :=
  Triple (fun _ _ => True) (fun w => Disk.Spared collision w.1) p
    (fun _ w => Disk.Spared collision w.1) (fun e w => e ≠ collision ∧ Disk.Spared collision w.1)

theorem onFst_spares {α : Type} {p : Prog (Disk Name (Document J S) Exc) Exc α}
    (h : Disk.Spares collision p) : Spares (Prog.onFst p : Program J S α) :=
  Triple.onFst fun _ => h

theorem Spares.final {α : Type} {p : Program J S α} (hp : Spares p) {w : World J S}
    (h : Disk.Spared collision w.1) : Disk.Spared collision (p.final w).1 := by
  have hp := hp.conseq (fun _ h => h) (fun _ _ h => h) (fun _ _ h => h.2)
  exact hp.final h

theorem write_spares (hjson : ∀ doc, env.json doc ≠ .error collision) (n : Name)
    (doc : Document J S) : Spares (write env n doc) :=
  Triple.bind (Triple.read (fun _ _ h _ => h) fun _ _ h he => ⟨fun hc => hjson doc (hc ▸ he), h⟩)
    fun _ => onFst_spares (Disk.publish_spares (by decide))

theorem init_spares (outputExists : Bool) : Spares (init outputExists : Program J S Unit) := by
  rw [init]
  split_ifs
  · exact Triple.raise fun _ h => ⟨by decide, h⟩
  · have hidle : Spares (Prog.onFst Disk.idle : Program J S Unit) := onFst_spares Disk.idle_spares
    exact .bind hidle fun _ => .bind hidle fun _ => .bind hidle fun _ => hidle

/-- What is under the fingerprint of a graph is its canonical form. -/
theorem Published.eq_canonical (hsha : Function.Injective env.sha256) (h : Published env v)
    (g : ProceduralGraph) : v (.graph (env.fingerprint g)) = none ∨
      v (.graph (env.fingerprint g)) = some (some (.graph g.data.canonical)) := by
  rcases hc : v (.graph (env.fingerprint g)) with _ | c
  · exact .inl rfl
  · obtain ⟨g', rfl, hg'⟩ := h _ c hc
    rw [hsha hg']
    exact .inr rfl

theorem graph_spares (hjson : ∀ doc, env.json doc ≠ .error collision)
    (hsha : Function.Injective env.sha256) (hv : Published env v) (g : ProceduralGraph) :
    Triple (fun _ _ => True) (fun w => At v l w ∧ Disk.Spared collision w.1) (graph env g)
      (fun _ w => Disk.Spared collision w.1)
      (fun e w => e ≠ collision ∧ Disk.Spared collision w.1) := by
  have hlook : Triple (fun _ _ => True) (At v l)
      (Prog.onFst (Disk.look (.graph (env.fingerprint g))) : Program J S _)
      (fun o w => (o = v (.graph (env.fingerprint g)) ∧ Disk.ShowsView v w.1) ∧ w.2 = l)
      (fun _ w => Disk.ShowsView v w.1 ∧ w.2 = l) :=
    onFst_spec (Disk.look_spec fun _ _ _ _ => trivial)
  refine Triple.bind (Q := fun o w => o = v (.graph (env.fingerprint g)) ∧
    Disk.Spared collision w.1) ((hlook.and (onFst_spares Disk.look_spares)).conseq
    (fun _ h => h) (fun _ _ h => ⟨h.1.1.1, h.2⟩) (fun _ _ h => h.2)) fun o => ?_
  refine Triple.and_pre fun ho => ?_
  rcases hv.eq_canonical hsha g with hnone | hsome
  · rw [ho, hnone]
    exact write_spares hjson _ _
  · rw [ho, hsome]
    dsimp only
    rw [if_neg (not_not.2 rfl)]
    exact Triple.pure fun _ h => h

theorem Stored.spared (hjson : ∀ doc, env.json doc ≠ .error collision)
    (hsha : Function.Injective env.sha256) (hfault : ∀ k, fault k ≠ some collision)
    {w : World J S} (h : Stored env fault w) : Disk.Spared collision w.1 := by
  induction h with
  | start => exact hfault
  | log f _ ih => exact ih
  | init outputExists _ ih => exact (init_spares outputExists).final ih
  | write _ doc _ ih => exact (write_spares hjson _ doc).final ih
  | graph g h ih =>
    obtain ⟨v, l, hw, hv⟩ := h.canonical
    have hgraph := (graph_spares (l := l) hjson hsha hv g).conseq (fun _ h => h)
      (fun _ _ h => h) (fun _ _ h => h.2)
    exact hgraph.final ⟨hw, ih⟩
  | retain g score roundId _ ih => exact (onFst_spares Disk.overwrite_spares).final ih

/-- Publishing a graph never finds another one under its fingerprint. -/
theorem Stored.graph_ne_collision (hjson : ∀ doc, env.json doc ≠ .error collision)
    (hsha : Function.Injective env.sha256) (hfault : ∀ k, fault k ≠ some collision)
    {w : World J S} (h : Stored env fault w) (g : ProceduralGraph) :
    (ArtifactStore.graph env g).result w ≠ .error collision := by
  obtain ⟨v, l, hw, hv⟩ := h.canonical
  obtain ⟨-, hr⟩ := graph_spares hjson hsha hv g w ⟨hw, h.spared hjson hsha hfault⟩
  intro hcollision
  rw [hcollision] at hr
  exact hr.1 rfl

/-- The text that is hashed determines a valid graph up to the orders of its nodes and edges, and
    so does its fingerprint: the store never finds another graph under it. -/
theorem fingerprint_spec (digest : ByteArray → String) (hdigest : Function.Injective digest) :
    (∀ g g' : ProceduralGraph,
      g.data.canonical.canonicalJson = g'.data.canonical.canonicalJson ↔
        g.data.schemaVersion = g'.data.schemaVersion ∧
        g.data.cyclePolicy = g'.data.cyclePolicy ∧
        (∀ n, n ∈ g.data.nodes ↔ n ∈ g'.data.nodes) ∧
        ∀ e, e ∈ g.data.edges ↔ e ∈ g'.data.edges) ∧
    (∀ g g' : ProceduralGraph,
      g.fingerprint (GraphData.sha256 digest) = g'.fingerprint (GraphData.sha256 digest) ↔
        g.data.Rearranged g'.data) ∧
    ∀ {J S R P : Type} (env : Env J S R P) (fault : ℕ → Option Exc),
      env.sha256 = GraphData.sha256 digest → (∀ doc, env.json doc ≠ .error collision) →
      (∀ k, fault k ≠ some collision) → ∀ w : World J S, Stored env fault w →
      ∀ g, (ArtifactStore.graph env g).result w ≠ .error collision := by
  refine ⟨fun g g' => ?_, fun g g' => g.fingerprint_eq_iff hdigest g', ?_⟩
  · rw [GraphData.canonicalJson_injective.eq_iff, GraphData.canonical_eq_iff g.valid_data,
      GraphData.rearranged_iff g.valid_data g'.valid_data]
  · intro J S R P env fault hsha hjson hfault w h g
    have hinj : Function.Injective env.sha256 := by
      rw [hsha]
      exact hdigest.comp GraphData.canonicalBytes_injective
    exact h.graph_ne_collision hjson hinj hfault g

/-- The bytes themselves, as characters. -/
def identityDigest (bytes : ByteArray) : String :=
  .ofList (bytes.data.toList.map fun b => Char.ofNat b.toNat)

theorem identityDigest_injective : Function.Injective identityDigest := by
  intro a b h
  have hbyte : Function.Injective fun b : UInt8 => Char.ofNat b.toNat := by
    intro x y hxy
    have hnat (z : UInt8) : (Char.ofNat z.toNat).toNat = z.toNat := by
      have hvalid : z.toNat.isValidChar := .inl (z.toNat_lt.trans (by decide))
      rw [Char.ofNat, dif_pos hvalid]
      rfl
    rw [← UInt8.toNat_inj, ← hnat x, ← hnat y]
    exact congrArg Char.toNat hxy
  have hlist := List.map_injective_iff.2 hbyte (String.ofList_injective h)
  exact ByteArray.ext (Array.toList_inj.1 hlist)

def idleEnv : Env Unit Unit Unit Unit where
  runner _ _ _ := .ok ()
  refiner _ := .ok ()
  scoredRollout _ := .error (.valueError "rollout")
  dumpProposal _ := .ok ()
  reprProposal _ := ()
  graphEdits _ := .ok {}
  graphException _ := .valueError "graph"
  json _ := .ok ""
  sha256 := GraphData.sha256 identityDigest
  hash _ := ""
  provenanceKeys _ := []
  sum _ := ()
  div _ _ := ()

def actNode : ProcedureNode := ⟨"Act", .action, "", none⟩

def startNode : ProcedureNode := ⟨"Start", .status, "", none⟩

def actEdge : ProcedureEdge := ⟨"Start", "Act", .leadsTo, none, "act", ""⟩

def actGraph : ProceduralGraph :=
  ⟨⟨.one, [startNode, actNode], [actEdge], .allow⟩, by decide +kernel⟩

def swappedGraph : ProceduralGraph :=
  ⟨⟨.one, [actNode, startNode], [actEdge], .allow⟩, by decide +kernel⟩

/-- A graph that is published again, in another order. -/
theorem fingerprint_spec_swapped :
    actGraph.fingerprint (GraphData.sha256 identityDigest) =
      swappedGraph.fingerprint (GraphData.sha256 identityDigest) ∧
    (ArtifactStore.graph idleEnv swappedGraph).result
      ((ArtifactStore.graph idleEnv actGraph).final (start fun _ => none)) ≠ .error collision := by
  obtain ⟨-, hfingerprint, hstore⟩ := fingerprint_spec identityDigest identityDigest_injective
  have hnodes : List.Perm [startNode, actNode] [actNode, startNode] := List.Perm.swap _ _ _
  exact ⟨(hfingerprint actGraph swappedGraph).2 ⟨rfl, hnodes, List.Perm.refl _, rfl⟩,
    hstore idleEnv (fun _ => none) rfl (fun _ h => by cases h) (fun _ h => by cases h) _
      (.graph actGraph .start) swappedGraph⟩

end Evolution

end Hyperforge
