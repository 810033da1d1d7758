import Hyperforge.Database.Content
import Mathlib.Data.List.Dedup

/-!
# Exports that are imported again

What an import adds to a new agent (`takes_storeActions`), and what of an agent is in its export
(`export_readable`). An agent is imported as it has been exported if and only if its drivers have
distinct names, none of its workflows requires anything, no other agent has a prompt, and the
export is not too large (`importConfig_export_iff`).
-/

namespace Hyperforge.Database

variable {J A D E : Type}

/-! ## Importing -/

section Import

variable {registry : Registry A D E} {owner : Owner}

/-- A workflow, as it is imported. -/
def imported (workflowId : String) (c : RetrievalAgentConfig J A D) : WorkflowData J :=
  ⟨workflowId, c.workflow.name, c.workflow.description, c.workflow.parameters,
    some (c.workflow.rules.getD []), []⟩

/-- The default workflow, as it is imported. -/
def importedDefault (c : RetrievalAgentConfig J A D) : WorkflowData J :=
  ⟨"default", c.workflow.name, some (c.workflow.description.getD ""),
    some (c.workflow.parameters.getD []), some (c.workflow.rules.getD []), []⟩

/-- The agents of a workflow, added to those that are there. -/
def Content.addAgents (x : Content J A D) (workflowId : String) (c : RetrievalAgentConfig J A D) :
    Content J A D :=
  { x with agents := fun stage => x.agents stage ++ (c.agents stage).map fun a => (workflowId, a) }

theorem takes_agentActions (workflowId : String) (c : RetrievalAgentConfig J A D) (stage : Stage) :
    Takes registry owner (agentActions owner workflowId c stage)
      (fun x => workflowId ∈ x.workflows.map WorkflowData.id)
      fun x => { x with
        agents := Function.update x.agents stage
          (x.agents stage ++ (c.agents stage).map fun a => (workflowId, a)) } := by
  rw [agentActions]
  induction c.agents stage with
  | nil =>
    refine takes_nil.imp (fun _ _ => trivial) fun x _ => ?_
    rw [List.map_nil, List.append_nil, Function.update_eq_self]
    rfl
  | cons a as ih =>
    rw [List.flatMap_cons]
    refine ((takes_insertAgent stage workflowId a).append ih fun _ h => h).imp (fun _ h => h)
      fun x _ => ?_
    simp

theorem takes_agents (workflowId : String) (c : RetrievalAgentConfig J A D) :
    Takes registry owner
      (agentActions owner workflowId c .preprocess ++ (agentActions owner workflowId c .context ++
        (agentActions owner workflowId c .generation ++
          agentActions owner workflowId c .postprocess)))
      (fun x => workflowId ∈ x.workflows.map WorkflowData.id)
      fun x => x.addAgents workflowId c := by
  refine ((takes_agentActions workflowId c .preprocess).append
    ((takes_agentActions workflowId c .context).append
      ((takes_agentActions workflowId c .generation).append
        (takes_agentActions workflowId c .postprocess) fun _ h => h) fun _ h => h)
          fun _ h => h).imp (fun _ h => h) fun x _ => ?_
  refine content_ext rfl rfl (fun stage => ?_) rfl rfl
  cases stage <;> simp [Content.addAgents]

/-- A workflow that is not there is added, with its agents. -/
theorem takes_workflowActions {workflowId : String} (h : workflowId ≠ "default")
    (c : RetrievalAgentConfig J A D) :
    Takes registry owner (workflowActions owner workflowId c)
      (fun x => workflowId ∉ x.workflows.map WorkflowData.id) fun x =>
        { x.addAgents workflowId c with workflows := x.workflows ++ [imported workflowId c] } := by
  rw [workflowActions, if_neg h]
  refine ((takes_insertWorkflow workflowId _).append (takes_agents workflowId c)
    fun x _ => ?_).imp (fun _ h => h) fun x _ => rfl
  rw [List.map_append]
  exact List.mem_append_right _ List.mem_cons_self

/-- The default workflow, which is there, is set, and its agents are added. -/
theorem takes_workflowActions_default (c : RetrievalAgentConfig J A D) :
    Takes registry owner (workflowActions owner "default" c)
      (fun x => x.workflows.map WorkflowData.id = ["default"]) fun x =>
        { x.addAgents "default" c with workflows := [importedDefault c] } := by
  rw [workflowActions, if_pos rfl]
  let v : WorkflowValues J := ⟨c.workflow.name, some (c.workflow.description.getD ""),
    some (c.workflow.parameters.getD []), [], c.workflow.rules.getD []⟩
  have hset : Takes registry owner ([.write (.setWorkflow owner "default" v)] : List (Action J A E))
      (fun x => x.workflows.map WorkflowData.id = ["default"])
      fun x => { x with workflows := [importedDefault c] } := by
    refine (takes_setWorkflow "default" v).imp (fun _ _ => trivial) fun x hx => ?_
    obtain ⟨w, hw, hid⟩ := List.map_eq_singleton_iff.1 hx
    rw [hw, List.map_singleton, if_pos hid]
    rfl
  refine ((hset.afterActive fun x hx => ?_).append (takes_agents "default" c)
    fun x _ => ?_).imp (fun _ h => h) fun x _ => rfl
  · rw [hx]
    exact List.mem_singleton_self _
  · exact List.mem_singleton_self _

/-- The rest of the workflows are added after the default one. -/
theorem takes_workflows (cs : List (String × RetrievalAgentConfig J A D))
    (hdefault : "default" ∉ cs.map Prod.fst) (hnodup : (cs.map Prod.fst).Nodup) :
    Takes registry owner (cs.flatMap fun c => workflowActions owner c.1 c.2)
      (fun x => ∀ id ∈ cs.map Prod.fst, id ∉ x.workflows.map WorkflowData.id) fun x => { x with
        workflows := x.workflows ++ cs.map fun c => imported c.1 c.2
        agents := fun stage => x.agents stage ++
          cs.flatMap fun c => (c.2.agents stage).map fun a => (c.1, a) } := by
  induction cs with
  | nil =>
    refine takes_nil.imp (fun _ _ => trivial) fun x _ => ?_
    simp
  | cons c cs ih =>
    rw [List.map_cons, List.mem_cons, not_or] at hdefault
    rw [List.map_cons, List.nodup_cons] at hnodup
    rw [List.flatMap_cons]
    have hfirst : Takes registry owner (workflowActions owner c.1 c.2)
        (fun x => ∀ id ∈ (c :: cs).map Prod.fst, id ∉ x.workflows.map WorkflowData.id) fun x =>
          { x.addAgents c.1 c.2 with workflows := x.workflows ++ [imported c.1 c.2] } :=
      (takes_workflowActions (Ne.symm hdefault.1) c.2).imp (fun x h => h c.1 List.mem_cons_self)
        fun _ _ => rfl
    refine (hfirst.append (ih hdefault.2 hnodup.2) fun x h id hid => ?_).imp (fun _ h => h)
      fun x _ => ?_
    · rw [List.map_append, List.mem_append, not_or]
      refine ⟨h id (List.mem_cons_of_mem _ hid), fun heq => ?_⟩
      have hkey : id = c.1 := List.mem_singleton.1 heq
      exact hnodup.1 (hkey ▸ hid)
    · simp [Content.addAgents]

/-- The drivers are added, if they have new identifiers. -/
theorem takes_drivers (ds : List (DriverConfig D)) :
    Takes registry owner (ds.map fun d => .write (.insertDriver owner d.name d.provider
      d.identifier (registry.encryptFields d.config)))
      (fun x : Content J A D => ((x.drivers ++ ds).map DriverConfig.identifier).Nodup)
      fun x => { x with drivers := x.drivers ++ ds.map DriverConfig.withoutId } := by
  induction ds with
  | nil =>
    refine takes_nil.imp (fun _ _ => trivial) fun x _ => ?_
    simp
  | cons d ds ih =>
    have hfirst : Takes registry owner
        [.write (.insertDriver owner d.name d.provider d.identifier
          (registry.encryptFields d.config))]
        (fun x : Content J A D => ((x.drivers ++ d :: ds).map DriverConfig.identifier).Nodup)
        fun x => { x with drivers := x.drivers ++ [d.withoutId] } := by
      refine (takes_insertDriver d.name d.provider d.identifier d.config).imp (fun x hx => ?_)
        fun _ _ => rfl
      rw [List.map_append, List.map_cons] at hx
      exact (List.nodup_middle.1 hx).notMem ∘ List.mem_append_left _
    rw [List.map_cons]
    refine (hfirst.append ih fun x hx => ?_).imp (fun _ h => h) fun x _ => ?_
    · rw [List.map_append] at hx ⊢
      rw [List.map_append, List.append_assoc]
      exact hx
    · simp

/-- The prompts are added. -/
theorem takes_prompts (ps : List PromptConfig) :
    Takes registry owner (ps.map fun p => .write (.insertPrompt owner p) : List (Action J A E))
      (fun _ => True) fun x : Content J A D =>
        { x with prompts := x.prompts ++ ps.map PromptConfig.withoutId } := by
  induction ps with
  | nil =>
    refine takes_nil.imp (fun _ _ => trivial) fun x _ => ?_
    simp
  | cons p ps ih =>
    refine ((takes_insertPrompt p).append ih fun _ _ => trivial).imp (fun _ _ => trivial)
      fun x _ => ?_
    simp

variable {setup : Setup J A D E}

/-- What an import adds to an agent that has only a default workflow. -/
theorem takes_storeActions {x : RetrievalAgentExport J A D} {c : RetrievalAgentConfig J A D}
    {cs : List (String × RetrievalAgentConfig J A D)} {rules : List Rule}
    (hconfigs : x.workflowConfigs = ("default", c) :: cs)
    (hnodup : (x.workflowConfigs.map Prod.fst).Nodup)
    (hrules : ∀ c ∈ x.workflowConfigs, c.2.rules = rules)
    (hdrivers : ((collectDrivers x.workflowConfigs).map fun d => d.2.identifier).Nodup) :
    Takes setup.registry owner (storeActions setup owner x)
      (fun y => y.workflows.map WorkflowData.id = ["default"] ∧ y.drivers = []) fun y =>
        { rules := y.rules.map fun _ => rules
          workflows := importedDefault c :: cs.map fun c => imported c.1 c.2
          agents := fun stage => y.agents stage ++
            x.workflowConfigs.flatMap fun c => (c.2.agents stage).map fun a => (c.1, a)
          drivers := (collectDrivers x.workflowConfigs).map fun d => d.2.withoutId
          prompts := y.prompts ++ x.prompts.map PromptConfig.withoutId } := by
  rw [hconfigs] at hnodup
  have hnotMem : "default" ∉ cs.map Prod.fst := (List.nodup_cons.1 hnodup).1
  have hworkflows : Takes setup.registry owner
      (x.workflowConfigs.flatMap fun c => workflowActions owner c.1 c.2)
      (fun y => y.workflows.map WorkflowData.id = ["default"] ∧ y.drivers = []) fun y =>
        { y with
          workflows := importedDefault c :: cs.map fun c => imported c.1 c.2
          agents := fun stage => y.agents stage ++
            x.workflowConfigs.flatMap fun c => (c.2.agents stage).map fun a => (c.1, a) } := by
    rw [hconfigs, List.flatMap_cons]
    refine (((takes_workflowActions_default c).imp (fun _ h => h) fun _ _ => rfl).append
      (takes_workflows cs hnotMem (List.nodup_cons.1 hnodup).2) fun y _ id hid => ?_).imp
        (fun _ h => h.1) fun y _ => ?_
    · intro hmem
      have hdefault : id = "default" := List.mem_singleton.1 hmem
      exact hnotMem (hdefault ▸ hid)
    · simp [Content.addAgents]
  have hlast : Takes setup.registry owner (rulesActions owner x.workflowConfigs)
      (fun y => y.drivers = []) fun y => { y with rules := y.rules.map fun _ => rules } := by
    rw [rulesActions, List.getLast?_eq_some_getLast (hconfigs ▸ List.cons_ne_nil _ _),
      Option.toList_some, List.map_singleton, hrules _ (List.getLast_mem _)]
    exact (takes_setRules rules).imp (fun _ _ => trivial) fun _ _ => rfl
  have hinsert : Takes setup.registry owner (driverActions setup owner x.workflowConfigs)
      (fun y => y.drivers = []) fun y => { y with
        drivers := (collectDrivers x.workflowConfigs).map fun d => d.2.withoutId } := by
    have hdriver : Takes (J := J) (A := A) setup.registry owner _ _ _ :=
      takes_drivers ((collectDrivers x.workflowConfigs).map Prod.snd)
    rw [List.map_map] at hdriver
    refine hdriver.imp (fun y hy => ?_) fun y hy => ?_
    · rw [hy, List.nil_append, List.map_map]
      exact hdrivers
    · rw [hy, List.nil_append, List.map_map]
      rfl
  exact (hworkflows.append (hlast.append (hinsert.append (takes_prompts x.prompts)
    fun _ _ => trivial) fun _ hy => hy) fun _ hy => hy.2).imp (fun _ h => h) fun _ _ => rfl

end Import

/-! ## Exporting -/

/-- An agent whose configuration can be read. -/
structure Readable (registry : Registry A D E) (owner : Owner) (t : Tables J A E) : Prop where
  valid : t.Valid
  mem : owner ∈ t.configs.map ConfigRow.owner
  agents : ∀ stage, ∀ a ∈ t.agents stage, a.owner = owner → registry.agent stage a.config = .ok ()
  drivers : ∀ d ∈ t.drivers, d.owner = owner → registry.driver d.provider = true

/-- An agent, as it is stored through the API: the default workflow cannot be deleted, and is
    created and updated with a description and with parameters. -/
structure Stored (registry : Registry A D E) (owner : Owner) (t : Tables J A E) : Prop
    extends Readable registry owner t where
  default : ∃ w ∈ activeWorkflows owner t, w.workflowId = "default" ∧
    w.description.isSome ∧ w.parameters.isSome

/-- An agent to which nothing has been added yet. -/
structure Fresh (owner : Owner) (t : Tables J A E) : Prop where
  valid : t.Valid
  mem : owner ∈ t.configs.map ConfigRow.owner
  workflows : (t.workflows.filter (·.owner = owner)).map (fun w => (w.workflowId, w.isDeleted)) =
    [("default", false)]
  agents : ∀ stage, ∀ a ∈ t.agents stage, a.owner ≠ owner
  drivers : ∀ d ∈ t.drivers, d.owner ≠ owner
  prompts : ∀ p ∈ t.prompts, p.owner ≠ owner

section Export

variable {registry : Registry A D E} {owner : Owner} {t : Tables J A E}

/-- The rules of an agent. -/
def agentRules (owner : Owner) (t : Tables J A E) : List Rule :=
  ((t.configs.find? (·.owner = owner)).map ConfigRow.rules).getD []

/-- The configuration of a workflow, as it is exported. -/
def configOf (registry : Registry A D E) (owner : Owner) (t : Tables J A E) (w : WorkflowRow J) :
    RetrievalAgentConfig J A D where
  drivers := (t.drivers.filter (·.owner = owner)).map (readDriver registry)
  rules := agentRules owner t
  memory := ⟨none⟩
  workflow := ⟨w.workflowId, w.name, w.description, w.parameters, some w.rules, []⟩
  agents := (selectConfig owner w.workflowId t).agents

def exportedConfigs (registry : Registry A D E) (owner : Owner) (t : Tables J A E) :
    List (String × RetrievalAgentConfig J A D) :=
  (activeWorkflows owner t).map fun w => (w.workflowId, configOf registry owner t w)

/-- What is in the export of an agent. -/
def exported (registry : Registry A D E) (owner : Owner) (timestamp : String)
    (t : Tables J A E) : RetrievalAgentExport J A D where
  agentConfig := (exportedConfigs registry owner t).lookup "default"
  agentConfigWorkflows := exportedConfigs registry owner t
  prompts := t.prompts.map PromptRow.config
  timestamp := timestamp

/-- There is one row of the agent. -/
theorem filter_configs (hvalid : t.Valid) (hmem : owner ∈ t.configs.map ConfigRow.owner) :
    ∃ c, t.configs.filter (·.owner = owner) = [c] ∧
      t.configs.find? (·.owner = owner) = some c := by
  obtain ⟨c, hc, rfl⟩ := List.mem_map.1 hmem
  have hselect := Query.select_key hvalid.configs hc
  refine ⟨c, hselect, ?_⟩
  rw [← List.head?_filter]
  exact congrArg List.head? hselect

/-- Active workflows have identifiers of their own. -/
theorem nodup_activeWorkflows (hvalid : t.Valid) (owner : Owner) :
    ((activeWorkflows owner t).map WorkflowRow.workflowId).Nodup := by
  have hkeys : ((activeWorkflows owner t).map WorkflowRow.key).Nodup :=
    hvalid.workflows.sublist (List.filter_sublist.map _)
  refine List.Nodup.of_map (Prod.mk owner) ?_
  rw [List.map_map]
  refine (List.map_congr_left fun w hw => ?_) ▸ hkeys
  exact Prod.ext (of_decide_eq_true (List.mem_filter.1 hw).2).1 rfl

theorem activeWorkflow_eq (hvalid : t.Valid) {w : WorkflowRow J}
    (hw : w ∈ activeWorkflows owner t) : activeWorkflow owner w.workflowId t = some w := by
  obtain ⟨hw, ho⟩ := List.mem_filter.1 hw
  obtain ⟨howner, hactive⟩ := of_decide_eq_true ho
  have hkey : w.key = (owner, w.workflowId) := Prod.ext howner rfl
  rw [activeWorkflow, ← List.head?_filter]
  have hselect := Query.select_key hvalid.workflows hw
  have hfilter : t.workflows.filter (fun w' => Tables.IsActive owner w.workflowId w') =
      (t.workflows.filter fun w' => w'.key = w.key).filter fun w' => w'.isDeleted = false := by
    rw [List.filter_filter, hkey]
    exact List.filter_congr fun w' _ => by simp [Tables.IsActive, and_comm]
  rw [hfilter]
  change ((Query.select t.workflows fun w' => w'.key = w.key).filter _).head? = _
  rw [hselect]
  simp [hactive]

theorem Readable.getAgentConfig (h : Readable registry owner t) {w : WorkflowRow J}
    (hw : w ∈ activeWorkflows owner t) (n : ℕ) :
    getAgentConfig registry owner w.workflowId ⟨t, n, fun _ => false⟩ =
      (.ok (configOf registry owner t w), ⟨t, n + 2, fun _ => false⟩) := by
  obtain ⟨c, -, hfind⟩ := filter_configs h.valid h.mem
  have hinstance : configInstance registry w.workflowId (selectConfig owner w.workflowId t)
      (activeWorkflow owner w.workflowId t) = .ok (configOf registry owner t w) := by
    refine configInstance_eq_ok.2 ⟨fun stage a ha => ?_, fun d hd => ?_, w, agentRules owner t,
      activeWorkflow_eq h.valid hw, ?_, rfl⟩
    · obtain ⟨row, hrow, rfl⟩ := List.mem_map.1 ha
      obtain ⟨hrow, hkey⟩ := List.mem_filter.1 hrow
      exact h.agents stage row hrow (Prod.mk.inj (of_decide_eq_true hkey)).1
    · obtain ⟨hd, ho⟩ := List.mem_filter.1 hd
      exact h.drivers d hd (of_decide_eq_true ho)
    · rw [agentRules, hfind]
      exact congrArg (Option.map ConfigRow.rules) hfind
  rw [Database.getAgentConfig, ← hinstance]
  rfl

variable {setup : Setup J A D E}

theorem Readable.workflowConfigsOf (h : Readable setup.registry owner t) {ws : List (WorkflowRow J)}
    (hws : ws ⊆ activeWorkflows owner t) (n : ℕ) :
    ∃ m, workflowConfigsOf setup owner (ws.map WorkflowRow.data) ⟨t, n, fun _ => false⟩ =
      (.ok (ws.map fun w => (w.workflowId, configOf setup.registry owner t w)),
        ⟨t, m, fun _ => false⟩) := by
  induction ws generalizing n with
  | nil => exact ⟨n, rfl⟩
  | cons w ws ih =>
    rw [List.cons_subset] at hws
    obtain ⟨m, hm⟩ := ih hws.2 (n + 2)
    refine ⟨m, ?_⟩
    have hfirst : mapException (fun _ => .other "Retrieval agent not found for export") (do
          let config ← Database.getAgentConfig setup.registry owner w.data.id
          return (w.data.id, config) : Db J A E (String × RetrievalAgentConfig J A D))
        ⟨t, n, fun _ => false⟩ =
          (.ok (w.workflowId, configOf setup.registry owner t w), ⟨t, n + 2, fun _ => false⟩) := by
      have hget : Database.getAgentConfig setup.registry owner w.data.id ⟨t, n, fun _ => false⟩ =
        (.ok (configOf setup.registry owner t w), ⟨t, n + 2, fun _ => false⟩) :=
          h.getAgentConfig hws.1 n
      rw [mapException, bind_ok hget]
      rfl
    rw [Database.workflowConfigsOf, List.map_cons, List.mapM_cons, bind_ok hfirst]
    rw [Database.workflowConfigsOf] at hm
    rw [bind_ok hm]
    rfl

theorem nodup_exportedConfigs (hvalid : t.Valid) :
    ((exportedConfigs registry owner t).map Prod.fst).Nodup := by
  rw [exportedConfigs, List.map_map]
  exact nodup_activeWorkflows hvalid owner

/-- All that is stored of the agent is exported, and the prompts of the others. -/
theorem export_readable (h : Readable setup.registry owner t) {passphrase : String}
    (hlength : 16 ≤ passphrase.length) (salt : Salt) (timestamp : String) :
    (run (export_ setup owner passphrase salt timestamp) t).1 = .ok (salt.1 ++
      setup.sealing.encrypt passphrase salt.1
        (exported setup.registry owner timestamp t)) := by
  obtain ⟨m, hconfigs⟩ := h.workflowConfigsOf (List.Subset.refl _) 1
  have hlist : workflowsList owner ⟨t, 0, fun _ => false⟩ =
      (.ok ((activeWorkflows owner t).map WorkflowRow.data), ⟨t, 1, fun _ => false⟩) := rfl
  have hupdate : Json.update [] (exportedConfigs setup.registry owner t) =
      exportedConfigs setup.registry owner t :=
    Json.update_of_disjoint (nodup_exportedConfigs h.valid)
  have hprompts : getPrompts owner ⟨t, m, fun _ => false⟩ =
      (.ok (t.prompts.map PromptRow.config), ⟨t, m + 1, fun _ => false⟩) := by
    have hselect := Query.selectFrom_of_unique t.prompts h.valid.configs owner
    rw [if_pos h.mem] at hselect
    rw [getPrompts, fetch]
    simp only [Bool.false_eq_true, if_false, World.send, hselect]
  rw [run, export_, if_neg (Nat.not_lt.2 hlength)]
  change (Prod.fst ((workflowsList owner >>= _) _)) = _
  rw [bind_ok hlist, bind_ok hconfigs, bind_ok hprompts, exported, ← hupdate]
  rfl

/-- A file with at most the bytes that may be read is read to its end. -/
theorem readChunks_eq {n : ℕ} {file read : List UInt8} (hn : file.length < n)
    (hread : read.length ≤ setup.exportReadMaxSize) :
    readChunks setup n file read =
      if (read ++ file).length ≤ setup.exportReadMaxSize then .ok (read ++ file)
      else .error (.parseExport "Import file too large") := by
  induction n generalizing file read with
  | zero => exact absurd hn (Nat.not_lt_zero _)
  | succ n ih =>
    have hpos := setup.exportReadChunkSize_pos
    rw [readChunks]
    by_cases hnil : file.take setup.exportReadChunkSize = []
    · have hfile : file = [] := by
        rcases List.take_eq_nil_iff.1 hnil with h | h
        · exact absurd h hpos.ne'
        · exact h
      rw [if_pos hnil, hfile, List.append_nil, if_pos hread]
    · rw [if_neg hnil]
      have hne : file ≠ [] := fun h => hnil (by rw [h, List.take_nil])
      have hsplit : read ++ file.take setup.exportReadChunkSize ++
          file.drop setup.exportReadChunkSize = read ++ file := by
        rw [List.append_assoc, List.take_append_drop]
      split_ifs with hlarge hsmall hsmall
      · -- what follows does not make it smaller
        refine absurd hsmall (Nat.not_le.2 (hlarge.trans_le ?_))
        rw [← hsplit, @List.length_append _ _ (file.drop _)]
        exact Nat.le_add_right _ _
      · rfl
      · rw [ih ?_ (Nat.not_lt.1 hlarge), hsplit, if_pos hsmall]
        have := List.length_pos_iff.2 hne
        rw [List.length_drop]
        omega
      · rw [ih ?_ (Nat.not_lt.1 hlarge), hsplit, if_neg hsmall]
        have := List.length_pos_iff.2 hne
        rw [List.length_drop]
        omega

theorem readFile_eq (file : List UInt8) : readFile setup file =
    if file.length ≤ setup.exportReadMaxSize then .ok file
    else .error (.parseExport "Import file too large") :=
  readChunks_eq (Nat.lt_succ_self _) (Nat.zero_le _)

/-- An export is opened if it is not too large. -/
theorem openFile_eq {passphrase : String} {salt : Salt} {x : RetrievalAgentExport J A D}
    (hsealing : setup.sealing.decrypt passphrase salt.1
      (setup.sealing.encrypt passphrase salt.1 x) = .ok x) :
    openFile setup (salt.1 ++ setup.sealing.encrypt passphrase salt.1 x) passphrase =
      if (setup.sealing.encrypt passphrase salt.1 x).length ≤ setup.exportReadMaxSize then .ok x
      else .error (.parseExport "Import file too large") := by
  rw [openFile, List.drop_left' salt.2, List.take_left' salt.2, readFile_eq]
  split_ifs
  · exact hsealing
  · rfl

theorem Fresh.activeWorkflows (h : Fresh owner t) :
    ∃ w, activeWorkflows owner t = [w] ∧ w.workflowId = "default" ∧
      ∀ w' ∈ t.workflows, w'.owner = owner → w'.isDeleted = false := by
  obtain ⟨w, hw, hdefault⟩ := List.map_eq_singleton_iff.1 h.workflows
  obtain ⟨hid, hdeleted⟩ := Prod.mk.inj hdefault
  have hall (w' : WorkflowRow J) (hw' : w' ∈ t.workflows) (ho : w'.owner = owner) : w' = w :=
    List.mem_singleton.1 (hw ▸ List.mem_filter.2 ⟨hw', decide_eq_true ho⟩)
  refine ⟨w, ?_, hid, fun w' hw' ho => hall w' hw' ho ▸ hdeleted⟩
  rw [← hw, Database.activeWorkflows]
  refine List.filter_congr fun w' hw' => ?_
  by_cases ho : w'.owner = owner
  · simp [ho, hall w' hw' ho ▸ hdeleted]
  · simp [ho]

theorem Fresh.undeleted (h : Fresh owner t) : Undeleted owner t := by
  obtain ⟨_, -, -, hactive⟩ := h.activeWorkflows
  exact ⟨h.valid, h.mem, hactive⟩

variable (registry) in
/-- There is nothing in an agent to which nothing has been added, but its rules. -/
theorem Fresh.content (h : Fresh owner t) : ∃ w : WorkflowRow J, w.workflowId = "default" ∧
    content registry owner t = ⟨[agentRules owner t], [w.data], fun _ => [], [], []⟩ := by
  obtain ⟨w, hw, hid, -⟩ := h.activeWorkflows
  obtain ⟨c, hc, hfind⟩ := filter_configs h.valid h.mem
  have hnone {α : Type} {f : α → Owner} {l : List α} (hl : ∀ a ∈ l, f a ≠ owner) :
      l.filter (f · = owner) = [] :=
    List.filter_eq_nil_iff.2 fun a ha heq => hl a ha (of_decide_eq_true heq)
  refine ⟨w, hid, content_ext ?_ ?_ (fun stage => ?_) ?_ ?_⟩
  · rw [Database.content, hc, agentRules, hfind]
    rfl
  · rw [Database.content, hw]
    rfl
  · rw [h.undeleted.agents, hnone (h.agents stage)]
    rfl
  · rw [Database.content, hnone h.drivers]
    rfl
  · rw [Database.content, hnone h.prompts]
    rfl

theorem Fresh.readable (h : Fresh owner t) : Readable registry owner t where
  valid := h.valid
  mem := h.mem
  agents stage a ha ho := absurd ho (h.agents stage a ha)
  drivers d hd ho := absurd ho (h.drivers d hd)

variable (registry) in
/-- The configuration that is read of an agent to which nothing has been added is empty. -/
theorem Fresh.getAgentConfig (h : Fresh owner t) :
    ∃ destination, getAgentConfig registry owner "default" ⟨t, 0, fun _ => false⟩ =
      (.ok destination, ⟨t, 2, fun _ => false⟩) ∧ destination.isEmpty = true := by
  obtain ⟨w, hw, hid, -⟩ := h.activeWorkflows
  have hreadable : Readable registry owner t := h.readable
  have hget := hreadable.getAgentConfig (hw ▸ List.mem_singleton_self w) 0
  rw [hid] at hget
  refine ⟨_, hget, ?_⟩
  have hagents (stage : Stage) : (configOf registry owner t w).agents stage = [] :=
    List.map_eq_nil_iff.2 (List.filter_eq_nil_iff.2 fun a ha heq =>
      h.agents stage a ha (Prod.mk.inj (of_decide_eq_true heq)).1)
  have hdrivers : (configOf registry owner t w).drivers = [] :=
    List.map_eq_nil_iff.2 (List.filter_eq_nil_iff.2 fun d hd heq =>
      h.drivers d hd (of_decide_eq_true heq))
  rw [RetrievalAgentConfig.isEmpty, hdrivers, hagents, hagents, hagents, hagents]
  rfl

/-- An export is imported into an agent to which nothing has been added by storing it. -/
theorem importConfig_fresh (h : Fresh owner t) {file : List UInt8} {passphrase : String}
    {x : RetrievalAgentExport J A D} (hopen : openFile setup file passphrase = .ok x)
    {effect : Content J A D → Content J A D} {pre : Content J A D → Prop}
    (htakes : Takes setup.registry owner (storeActions setup owner x) pre effect)
    (hpre : pre (Database.content setup.registry owner t)) (overwrite : Bool) :
    (run (importConfig setup owner file passphrase overwrite) t).1 = .ok () ∧
      Database.content setup.registry owner
          (run (importConfig setup owner file passphrase overwrite) t).2 =
        effect (Database.content setup.registry owner t) := by
  obtain ⟨destination, hget, hempty⟩ := h.getAgentConfig setup.registry
  obtain ⟨u, hexec, -, hcontent⟩ := htakes t h.undeleted hpre
  obtain ⟨m, hm⟩ := hexec 2
  have hperforms := performs_importConfig setup owner file passphrase overwrite
    ⟨t, 0, fun _ => false⟩
  rw [hget] at hperforms
  dsimp only at hperforms
  rw [importActions, clearActions, if_pos hempty, List.nil_append, fileActions, hopen] at hperforms
  dsimp only at hperforms
  rw [hm, finish] at hperforms
  obtain ⟨hok, hworld⟩ := Prod.mk.inj hperforms
  rw [run, hworld]
  refine ⟨?_, hcontent⟩
  rcases hresult : (importConfig setup owner file passphrase overwrite ⟨t, 0, fun _ => false⟩).1
    with e | _
  · rw [hresult] at hok
    cases hok
  · rfl

/-- An import of a file that cannot be opened fails. -/
theorem importConfig_error (h : Fresh owner t) {file : List UInt8} {passphrase : String} {e : Error}
    (hopen : openFile setup file passphrase = .error e) (overwrite : Bool) :
    (run (importConfig setup owner file passphrase overwrite) t).1 ≠ .ok () := by
  obtain ⟨destination, hget, hempty⟩ := h.getAgentConfig setup.registry
  have hperforms := performs_importConfig setup owner file passphrase overwrite
    ⟨t, 0, fun _ => false⟩
  rw [hget] at hperforms
  dsimp only at hperforms
  rw [importActions, clearActions, if_pos hempty, List.nil_append, fileActions, hopen] at hperforms
  intro hok
  have hbool := congrArg Prod.fst hperforms
  rw [finish] at hbool
  rw [run] at hok
  rw [hok] at hbool
  cases hbool

end Export

/-! ## Drivers -/

section Drivers

variable {cs : List (String × RetrievalAgentConfig J A D)} {m : String × DriverConfig D}

/-- Drivers that have been collected are those of workflows, under their names. -/
theorem mem_collectDrivers (h : m ∈ collectDrivers cs) :
    m.1 = m.2.name ∧ ∃ c ∈ cs, m.2 ∈ c.2.drivers := by
  have hfold (drivers : List (String × DriverConfig D))
      (hm : m ∈ cs.foldl (fun drivers c =>
        Json.update drivers (c.2.drivers.map fun d => (d.name, d))) drivers) :
      m ∈ drivers ∨ m.1 = m.2.name ∧ ∃ c ∈ cs, m.2 ∈ c.2.drivers := by
    clear h
    induction cs generalizing drivers with
    | nil => exact .inl hm
    | cons c cs ih =>
      rcases ih _ hm with hm | ⟨hname, c', hc', hd⟩
      · refine (Json.mem_update hm).imp_right fun hm => ?_
        obtain ⟨d, hd, rfl⟩ := List.mem_map.1 hm
        exact ⟨rfl, c, List.mem_cons_self, hd⟩
      · exact .inr ⟨hname, c', List.mem_cons_of_mem _ hc', hd⟩
  exact (hfold [] h).resolve_left List.not_mem_nil

theorem mem_keys_collectDrivers {name : String} :
    name ∈ (collectDrivers cs).map Prod.fst ↔ ∃ c ∈ cs, ∃ d ∈ c.2.drivers, d.name = name := by
  have hfold (drivers : List (String × DriverConfig D)) :
      name ∈ (cs.foldl (fun drivers c =>
        Json.update drivers (c.2.drivers.map fun d => (d.name, d))) drivers).map Prod.fst ↔
      name ∈ drivers.map Prod.fst ∨ ∃ c ∈ cs, ∃ d ∈ c.2.drivers, d.name = name := by
    induction cs generalizing drivers with
    | nil => simp
    | cons c cs ih =>
      rw [List.foldl_cons, ih, Json.mem_keys_update, List.map_map]
      simp [or_assoc]
  rw [collectDrivers, hfold]
  simp

theorem nodup_collectDrivers (cs : List (String × RetrievalAgentConfig J A D)) :
    ((collectDrivers cs).map Prod.fst).Nodup := by
  have hfold (drivers : List (String × DriverConfig D)) (h : (drivers.map Prod.fst).Nodup) :
      ((cs.foldl (fun drivers c => Json.update drivers
        (c.2.drivers.map fun d => (d.name, d))) drivers).map Prod.fst).Nodup := by
    induction cs generalizing drivers with
    | nil => exact h
    | cons c cs ih => exact ih _ (Json.nodup_update h _)
  exact hfold [] List.nodup_nil

variable {ds : List (DriverConfig D)}

/-- Where all workflows have the same drivers, those that have been collected are drivers with
    identifiers of their own. -/
theorem nodup_identifiers_collectDrivers (hds : (ds.map DriverConfig.identifier).Nodup)
    (hcs : ∀ c ∈ cs, c.2.drivers = ds) :
    ((collectDrivers cs).map fun d => d.2.identifier).Nodup := by
  refine (nodup_collectDrivers cs).of_map.map_on fun m hm m' hm' hid => ?_
  obtain ⟨hname, c, hc, hd⟩ := mem_collectDrivers hm
  obtain ⟨hname', c', hc', hd'⟩ := mem_collectDrivers hm'
  have heq : m.2 = m'.2 := List.inj_on_of_nodup_map hds (hcs c hc ▸ hd) (hcs c' hc' ▸ hd') hid
  exact Prod.ext (by rw [hname, hname', heq]) heq

/-- All drivers are collected if and only if they have names of their own. -/
theorem collectDrivers_perm_iff (hds : (ds.map DriverConfig.identifier).Nodup) (hne : cs ≠ [])
    (hcs : ∀ c ∈ cs, c.2.drivers = ds) :
    (((collectDrivers cs).map fun d => d.2.withoutId).Perm
      (ds.map DriverConfig.withoutId)) ↔ (ds.map DriverConfig.name).Nodup := by
  obtain ⟨c, hc⟩ := List.exists_mem_of_ne_nil cs hne
  have hkeys {name : String} :
      name ∈ (collectDrivers cs).map Prod.fst ↔ name ∈ ds.map DriverConfig.name := by
    rw [mem_keys_collectDrivers, List.mem_map]
    exact ⟨fun ⟨c', hc', d, hd, h⟩ => ⟨d, hcs c' hc' ▸ hd, h⟩,
      fun ⟨d, hd, h⟩ => ⟨c, hc, d, (hcs c hc).symm ▸ hd, h⟩⟩
  constructor
  · intro hperm
    -- there are as many drivers as names
    have hdedup : ((collectDrivers cs).map Prod.fst).Perm (ds.map DriverConfig.name).dedup :=
      (List.perm_ext_iff_of_nodup (nodup_collectDrivers cs) (List.nodup_dedup _)).2 fun name => by
        rw [hkeys, List.mem_dedup]
    have hlength := hdedup.length_eq.symm.trans ((List.length_map _).trans
      ((List.length_map _).symm.trans (hperm.length_eq.trans (List.length_map _))))
    have hself := (List.dedup_sublist (ds.map DriverConfig.name)).eq_of_length
      (hlength.trans (List.length_map _).symm)
    exact hself ▸ List.nodup_dedup _
  · intro hnames
    have hsnd : ((collectDrivers cs).map Prod.snd).Perm ds := by
      refine (List.perm_ext_iff_of_nodup ?_ hds.of_map).2 fun d => ?_
      · refine List.Nodup.of_map DriverConfig.identifier ?_
        rw [List.map_map]
        exact nodup_identifiers_collectDrivers hds hcs
      · constructor
        · intro hd
          obtain ⟨m, hm, rfl⟩ := List.mem_map.1 hd
          obtain ⟨-, c', hc', hd⟩ := mem_collectDrivers hm
          exact hcs c' hc' ▸ hd
        · intro hd
          obtain ⟨m, hm, hname⟩ := List.mem_map.1 (hkeys.2 (List.mem_map_of_mem hd))
          obtain ⟨hname', c', hc', hd'⟩ := mem_collectDrivers hm
          have heq : m.2 = d := List.inj_on_of_nodup_map hnames (hcs c' hc' ▸ hd') hd
            (hname'.symm.trans hname)
          exact List.mem_map.2 ⟨m, hm, heq⟩
    have hmap := hsnd.map DriverConfig.withoutId
    rwa [List.map_map] at hmap

end Drivers

/-! ## The round trip -/

section RoundTrip

variable {setup : Setup J A D E} {owner owner' : Owner} {t t' : Tables J A E}

/-- The workflows of an export, the default one first. -/
theorem workflowConfigs_exported {registry : Registry A D E} (h : Stored registry owner t)
    (timestamp : String) : ∃ w : WorkflowRow J, w.description.isSome ∧ w.parameters.isSome ∧
      ∃ cs, (exported registry owner timestamp t).workflowConfigs =
        ("default", configOf registry owner t w) :: cs ∧
      (exportedConfigs registry owner t).Perm (("default", configOf registry owner t w) :: cs) := by
  obtain ⟨w, hw, hid, hdescription, hparameters⟩ := h.default
  have hnodup : ((exportedConfigs registry owner t).map Prod.fst).Nodup :=
    nodup_exportedConfigs h.valid
  have hmem : ("default", configOf registry owner t w) ∈ exportedConfigs registry owner t :=
    List.mem_map.2 ⟨w, hw, by rw [hid]⟩
  refine ⟨w, hdescription, hparameters, _, ?_, Json.perm_cons_pop hnodup hmem⟩
  rw [RetrievalAgentExport.workflowConfigs, exported, Json.lookup_of_mem hnodup hmem]
  exact Json.update_cons hnodup hmem

/-- All agents of active workflows are exported. -/
theorem agents_exportedConfigs (registry : Registry A D E) (hvalid : t.Valid) (stage : Stage) :
    ((exportedConfigs registry owner t).flatMap fun c =>
      (c.2.agents stage).map fun a => (c.1, a)).Perm ((content registry owner t).agents stage) := by
  have hgroup := (Query.flatMap_select_perm ((t.agents stage).filter (·.owner = owner))
    AgentRow.workflowId (nodup_activeWorkflows hvalid owner)).map fun a => (a.workflowId, a.config)
  rw [List.map_flatMap, List.flatMap_map] at hgroup
  have hleft : ((exportedConfigs registry owner t).flatMap fun c =>
      (c.2.agents stage).map fun a => (c.1, a)) = (activeWorkflows owner t).flatMap fun w =>
        (Query.select ((t.agents stage).filter (·.owner = owner)) fun a =>
          a.workflowId = w.workflowId).map fun a => (a.workflowId, a.config) := by
    rw [exportedConfigs, List.flatMap_map]
    refine List.flatMap_congr fun w _ => ?_
    rw [configOf, selectConfig, List.map_map, Query.select, List.filter_filter]
    have hfilter : ((t.agents stage).filter fun a => a.key = (owner, w.workflowId)) =
        (t.agents stage).filter fun a =>
          decide (a.workflowId = w.workflowId) && decide (a.owner = owner) :=
      List.filter_congr fun a _ => by simp [AgentRow.key, and_comm]
    rw [hfilter]
    refine List.map_congr_left fun a ha => ?_
    have hid := (Bool.and_eq_true_iff.1 (List.mem_filter.1 ha).2).1
    rw [of_decide_eq_true hid]
    rfl
  have hright : (content registry owner t).agents stage =
      (Query.select ((t.agents stage).filter (·.owner = owner)) fun a =>
        a.workflowId ∈ (activeWorkflows owner t).map WorkflowRow.workflowId).map fun a =>
          (a.workflowId, a.config) := by
    rw [content, Query.select, List.filter_filter]
    exact congrArg (List.map _) (List.filter_congr fun a _ => by
      rw [Bool.decide_and, Bool.and_comm])
  rw [hleft, hright]
  exact hgroup

/-- A workflow is imported without what it requires. -/
theorem workflows_exportedConfigs (registry : Registry A D E) :
    ((exportedConfigs registry owner t).map fun c => imported c.1 c.2).Perm
      (content registry owner t).workflows ↔
        ∀ w ∈ (content registry owner t).workflows, w.required = [] := by
  have himported : (exportedConfigs registry owner t).map (fun c => imported c.1 c.2) =
      (activeWorkflows owner t).map fun w => { w.data with required := [] } := by
    rw [exportedConfigs, List.map_map]
    rfl
  rw [himported, content]
  constructor
  · intro hperm w hw
    obtain ⟨w', -, rfl⟩ := List.mem_map.1 (hperm.mem_iff.2 hw)
    rfl
  · intro hrequired
    refine List.Perm.of_eq (List.map_congr_left fun w hw => ?_)
    rw [← hrequired w.data (List.mem_map_of_mem hw)]

/-- The prompts of all agents are imported. -/
theorem prompts_exported (registry : Registry A D E) :
    ((t.prompts.map PromptRow.config).map PromptConfig.withoutId).Perm
      (content registry owner t).prompts ↔ ∀ p ∈ t.prompts, p.owner = owner := by
  constructor
  · intro hperm p hp
    have hlength := hperm.length_eq
    rw [List.length_map, List.length_map, content, List.length_map] at hlength
    exact of_decide_eq_true (List.length_filter_eq_length_iff.1 hlength.symm p hp)
  · intro hown
    rw [content, List.filter_eq_self.2 fun p hp => decide_eq_true (hown p hp), List.map_map]
    rfl

/-- What has been exported is imported, and is what was there if and only if the drivers have names
    of their own, no workflow requires anything, and no other agent has prompts. -/
theorem importConfig_exported (h : Stored setup.registry owner t) (h' : Fresh owner' t')
    {file : List UInt8} {passphrase timestamp : String}
    (hopen : openFile setup file passphrase = .ok (exported setup.registry owner timestamp t))
    (overwrite : Bool) :
    (run (importConfig setup owner' file passphrase overwrite) t').1 = .ok () ∧
    ((content setup.registry owner'
        (run (importConfig setup owner' file passphrase overwrite) t').2).Same
          (content setup.registry owner t) ↔
      ((content setup.registry owner t).drivers.map DriverConfig.name).Nodup ∧
        (∀ w ∈ (content setup.registry owner t).workflows, w.required = []) ∧
        ∀ p ∈ t.prompts, p.owner = owner) := by
  obtain ⟨w, hdescription, hparameters, cs, hconfigs, hperm⟩ := workflowConfigs_exported h timestamp
  let ds := (t.drivers.filter (·.owner = owner)).map (readDriver setup.registry)
  -- the configurations of all workflows have the rules and the drivers of the agent
  have hall (c : String × RetrievalAgentConfig J A D)
      (hc : c ∈ (exported setup.registry owner timestamp t).workflowConfigs) :
      c.2.rules = agentRules owner t ∧ c.2.drivers = ds := by
    obtain ⟨w', -, rfl⟩ := List.mem_map.1 (hperm.mem_iff.2 (hconfigs ▸ hc))
    exact ⟨rfl, rfl⟩
  have hidentifiers : (ds.map DriverConfig.identifier).Nodup := by
    refine List.Nodup.of_map (Prod.mk owner) ?_
    have hkeys : ((t.drivers.filter (·.owner = owner)).map DriverRow.key).Nodup :=
      h.valid.drivers.sublist (List.filter_sublist.map _)
    rw [List.map_map, List.map_map]
    refine (List.map_congr_left fun d hd => ?_) ▸ hkeys
    exact Prod.ext (of_decide_eq_true (List.mem_filter.1 hd).2) rfl
  have hnodup : ((exported setup.registry owner timestamp t).workflowConfigs.map Prod.fst).Nodup :=
    hconfigs ▸ (hperm.map Prod.fst).nodup_iff.1 (nodup_exportedConfigs h.valid)
  have htakes : Takes setup.registry owner' (storeActions setup owner' _) _ _ :=
    takes_storeActions hconfigs hnodup (fun c hc => (hall c hc).1)
      (nodup_identifiers_collectDrivers hidentifiers fun c hc => (hall c hc).2)
  obtain ⟨w', hid, hfresh⟩ := h'.content setup.registry
  obtain ⟨hok, hcontent⟩ := importConfig_fresh h' hopen htakes
    (by rw [hfresh]; exact ⟨by rw [← hid]; rfl, rfl⟩) overwrite
  refine ⟨hok, ?_⟩
  rw [hcontent, hfresh]
  obtain ⟨c, hc, hfind⟩ := filter_configs h.valid h.mem
  have hrules : (content setup.registry owner t).rules = [agentRules owner t] := by
    rw [content, hc, agentRules, hfind]
    rfl
  have hdefault : importedDefault (configOf setup.registry owner t w) =
      imported "default" (configOf setup.registry owner t w) := by
    obtain ⟨description, hdescription⟩ := Option.isSome_iff_exists.1 hdescription
    obtain ⟨parameters, hparameters⟩ := Option.isSome_iff_exists.1 hparameters
    rw [importedDefault, imported, configOf, hdescription, hparameters]
    rfl
  have hworkflows := ((hperm.map fun c => imported c.1 c.2).congr_left _).symm.trans
    (workflows_exportedConfigs setup.registry)
  rw [List.map_cons, ← hdefault] at hworkflows
  have hagents (stage : Stage) := (hperm.flatMap_right fun c =>
    (c.2.agents stage).map fun a => (c.1, a)).symm.trans
      (agents_exportedConfigs setup.registry h.valid stage)
  rw [← hconfigs] at hagents
  have hdrivers : (content setup.registry owner t).drivers = ds.map DriverConfig.withoutId := by
    rw [List.map_map]
    rfl
  have hnames : (content setup.registry owner t).drivers.map DriverConfig.name =
      ds.map DriverConfig.name := by
    rw [hdrivers, List.map_map]
    rfl
  have hcollect := collectDrivers_perm_iff hidentifiers (hconfigs ▸ List.cons_ne_nil _ _)
    fun c hc => (hall c hc).2
  rw [← hdrivers, ← hnames] at hcollect
  refine ⟨fun hsame => ⟨hcollect.1 hsame.drivers, hworkflows.1 hsame.workflows,
    (prompts_exported setup.registry).1 hsame.prompts⟩, fun hspec => ?_⟩
  obtain ⟨hnames, hrequired, hown⟩ := hspec
  exact ⟨hrules.symm, hworkflows.2 hrequired, hagents, hcollect.2 hnames,
    (prompts_exported setup.registry).2 hown⟩

/-- What is exported of an agent is imported into a new one as it was if and only if its drivers
    have names of their own, none of its workflows requires anything, no other agent has prompts,
    and the export is not too large. -/
theorem importConfig_export_iff (h : Stored setup.registry owner t) (h' : Fresh owner' t')
    {passphrase : String} (hlength : 16 ≤ passphrase.length)
    {salt : Salt} {timestamp : String}
    (hsealing : setup.sealing.decrypt passphrase salt.1 (setup.sealing.encrypt passphrase salt.1
      (exported setup.registry owner timestamp t)) =
        .ok (exported setup.registry owner timestamp t))
    (overwrite : Bool) :
    (∃ file, (run (export_ setup owner passphrase salt timestamp) t).1 = .ok file ∧
      (run (importConfig setup owner' file passphrase overwrite) t').1 = .ok () ∧
      (content setup.registry owner'
        (run (importConfig setup owner' file passphrase overwrite) t').2).Same
          (content setup.registry owner t)) ↔
    (((content setup.registry owner t).drivers.map DriverConfig.name).Nodup ∧
      (∀ w ∈ (content setup.registry owner t).workflows, w.required = []) ∧
      (∀ p ∈ t.prompts, p.owner = owner) ∧
      (setup.sealing.encrypt passphrase salt.1
        (exported setup.registry owner timestamp t)).length ≤ setup.exportReadMaxSize) := by
  have hexport : (run (export_ setup owner passphrase salt timestamp) t).1 = .ok _ :=
    export_readable h.toReadable hlength salt timestamp
  have hopen := openFile_eq hsealing
  constructor
  · rintro ⟨file, hfile, hok, hsame⟩
    obtain rfl := Except.ok.inj (hexport.symm.trans hfile)
    by_cases hsize : (setup.sealing.encrypt passphrase salt.1
        (exported setup.registry owner timestamp t)).length ≤ setup.exportReadMaxSize
    · rw [if_pos hsize] at hopen
      obtain ⟨hnames, hrequired, hown⟩ := (importConfig_exported h h' hopen overwrite).2.1 hsame
      exact ⟨hnames, hrequired, hown, hsize⟩
    · rw [if_neg hsize] at hopen
      exact absurd hok (importConfig_error h' hopen overwrite)
  · rintro ⟨hnames, hrequired, hown, hsize⟩
    rw [if_pos hsize] at hopen
    obtain ⟨hok, hsame⟩ := importConfig_exported h h' hopen overwrite
    exact ⟨_, hexport, hok, hsame.2 ⟨hnames, hrequired, hown⟩⟩

end RoundTrip

/-- An agent with the drivers. -/
def withDrivers (drivers : List (DriverRow Unit)) : Tables Unit Unit Unit where
  configs := [⟨⟨"a", "agent"⟩, [], ⟨none⟩⟩]
  workflows := [⟨⟨"a", "agent"⟩, "default", "default", some "Default workflow", some [], [], [],
    false⟩]
  agents _ := []
  drivers := drivers
  prompts := []
  nextId := 2

def anyRegistry : Registry Unit Unit Unit where
  agent _ _ := .ok ()
  driver _ := true
  encryptFields := id
  decryptFields := id
  decrypt_encrypt := @Eq.refl Unit

/-- Exports of the agent can be opened with the passphrase that they have been made with. -/
def setupFor (t : Tables Unit Unit Unit) : Setup Unit Unit Unit Unit where
  registry := anyRegistry
  sealing := {
    encrypt := fun passphrase _ _ => [UInt8.ofNat passphrase.length]
    decrypt := fun passphrase _ bytes =>
      if bytes = [UInt8.ofNat passphrase.length] then .ok (exported anyRegistry ⟨"a", "agent"⟩ "" t)
      else .error .exportEncryption }
  exportReadChunkSize := 1
  exportReadMaxSize := 1
  exportReadChunkSize_pos := Nat.one_pos

def zeroSalt : Salt := ⟨List.replicate 16 0, rfl⟩

/-- Two drivers with identifiers of their own, but one name. -/
def sharedName : List (DriverRow Unit) :=
  [⟨0, ⟨"a", "agent"⟩, "search", "brave", "news", ()⟩,
    ⟨1, ⟨"a", "agent"⟩, "search", "brave", "images", ()⟩]

theorem valid_withDrivers {drivers : List (DriverRow Unit)} (h : drivers.Sublist sharedName) :
    (withDrivers drivers).Valid := by
  have hdrivers : (sharedName.map DriverRow.key).Nodup := by decide
  have hrows : ∀ d ∈ sharedName, d.owner = ⟨"a", "agent"⟩ ∧ d.id < 2 := by decide
  refine ⟨List.nodup_singleton _, List.nodup_singleton _, hdrivers.sublist (h.map _),
    fun w hw => ?_, fun _ _ h => absurd h List.not_mem_nil, fun d hd => ?_,
    fun _ h => absurd h List.not_mem_nil, fun _ _ h => absurd h List.not_mem_nil,
    fun d hd => (hrows d (h.subset hd)).2⟩
  · rw [List.mem_singleton.1 hw]
    exact List.mem_singleton_self _
  · rw [(hrows d (h.subset hd)).1]
    exact List.mem_singleton_self _

theorem stored_withDrivers {drivers : List (DriverRow Unit)} (h : drivers.Sublist sharedName) :
    Stored anyRegistry ⟨"a", "agent"⟩ (withDrivers drivers) where
  valid := valid_withDrivers h
  mem := List.mem_singleton_self _
  agents _ _ h := absurd h List.not_mem_nil
  drivers _ _ _ := rfl
  default := ⟨_, List.mem_singleton_self _, rfl, rfl, rfl⟩

theorem fresh_withDrivers : Fresh ⟨"a", "agent"⟩ (withDrivers []) where
  valid := valid_withDrivers (List.nil_sublist _)
  mem := List.mem_singleton_self _
  workflows := rfl
  agents _ _ h := absurd h List.not_mem_nil
  drivers _ h := absurd h List.not_mem_nil
  prompts _ h := absurd h List.not_mem_nil

/-- An agent with one driver. -/
def withNews : Tables Unit Unit Unit := withDrivers (sharedName.take 1)

theorem decrypt_setupFor (t : Tables Unit Unit Unit) (passphrase : String) :
    (setupFor t).sealing.decrypt passphrase zeroSalt.1 ((setupFor t).sealing.encrypt passphrase
      zeroSalt.1 (exported anyRegistry ⟨"a", "agent"⟩ "" t)) =
        .ok (exported anyRegistry ⟨"a", "agent"⟩ "" t) :=
  if_pos rfl

theorem importConfig_export_iff_news :
    (∃ file, (run (export_ (setupFor withNews) ⟨"a", "agent"⟩ "a long passphrase" zeroSalt "")
        withNews).1 = .ok file ∧
      (run (importConfig (setupFor withNews) ⟨"a", "agent"⟩ file "a long passphrase" false)
        (withDrivers [])).1 = .ok () ∧
      (content anyRegistry ⟨"a", "agent"⟩ (run (importConfig (setupFor withNews) ⟨"a", "agent"⟩
        file "a long passphrase" false) (withDrivers [])).2).Same
          (content anyRegistry ⟨"a", "agent"⟩ withNews)) ↔
    (((content anyRegistry ⟨"a", "agent"⟩ withNews).drivers.map DriverConfig.name).Nodup ∧
      (∀ w ∈ (content anyRegistry ⟨"a", "agent"⟩ withNews).workflows, w.required = []) ∧
      (∀ p ∈ withNews.prompts, p.owner = ⟨"a", "agent"⟩) ∧
      ((setupFor withNews).sealing.encrypt "a long passphrase" zeroSalt.1
        (exported anyRegistry ⟨"a", "agent"⟩ "" withNews)).length ≤
          (setupFor withNews).exportReadMaxSize) :=
  importConfig_export_iff (stored_withDrivers (List.take_sublist _ _)) fresh_withDrivers
    (by decide) (decrypt_setupFor withNews _) false

/-- Of two drivers with the same name, only the last is imported. -/
theorem lost_name :
    Stored anyRegistry ⟨"a", "agent"⟩ (withDrivers sharedName) ∧
    Fresh ⟨"a", "agent"⟩ (withDrivers []) ∧
    ∃ file, (run (export_ (setupFor (withDrivers sharedName)) ⟨"a", "agent"⟩ "a long passphrase"
        zeroSalt "") (withDrivers sharedName)).1 = .ok file ∧
      (run (importConfig (setupFor (withDrivers sharedName)) ⟨"a", "agent"⟩ file
        "a long passphrase" false) (withDrivers [])).1 = .ok () ∧
      (content anyRegistry ⟨"a", "agent"⟩ (withDrivers sharedName)).drivers.map
        DriverConfig.identifier = ["news", "images"] ∧
      (content anyRegistry ⟨"a", "agent"⟩ (run (importConfig (setupFor (withDrivers sharedName))
        ⟨"a", "agent"⟩ file "a long passphrase" false) (withDrivers [])).2).drivers.map
          DriverConfig.identifier = ["images"] := by
  refine ⟨stored_withDrivers (List.Sublist.refl _), fresh_withDrivers, zeroSalt.1 ++ [17],
    by decide +kernel, by decide +kernel, by decide +kernel, by decide +kernel⟩

end Hyperforge.Database
