import Hyperforge.Database.Export

/-!
# The content of an agent

What is configured of an agent, whatever the identifiers of its rows: its rules, its active
workflows with their agents, its drivers and its prompts (`content`).

On an agent whose workflows are all active (`Undeleted`), the statements of an import act on the
content alone: they set a workflow or the rules, or add a workflow, an agent, a driver or a prompt
(`Takes`).
-/

namespace Hyperforge

/-- A prompt, whatever the identifier of its row. -/
def PromptConfig.withoutId (p : PromptConfig) : PromptConfig := { p with promptId := none }

namespace Database

variable {J A D E : Type}

/-- A driver, whatever the identifier of its row. -/
def DriverConfig.withoutId (d : DriverConfig D) : DriverConfig D := { d with id := none }

structure Content (J A D : Type) where
  rules : List (List Rule)
  workflows : List (WorkflowData J)
  /-- The agents of each stage, with their workflows. -/
  agents : Stage → List (String × A)
  drivers : List (DriverConfig D)
  prompts : List PromptConfig

/-- The content is the same, in whatever order. -/
structure Content.Same (c c' : Content J A D) : Prop where
  rules : c.rules = c'.rules
  workflows : c.workflows.Perm c'.workflows
  agents : ∀ stage, (c.agents stage).Perm (c'.agents stage)
  drivers : c.drivers.Perm c'.drivers
  prompts : c.prompts.Perm c'.prompts

/-- The active workflows of an agent. -/
def activeWorkflows (owner : Owner) (t : Tables J A E) : List (WorkflowRow J) :=
  t.workflows.filter fun w => w.owner = owner ∧ w.isDeleted = false

def content (registry : Registry A D E) (owner : Owner) (t : Tables J A E) : Content J A D where
  rules := (t.configs.filter (·.owner = owner)).map ConfigRow.rules
  workflows := (activeWorkflows owner t).map WorkflowRow.data
  agents stage := ((t.agents stage).filter fun a =>
    a.owner = owner ∧ a.workflowId ∈ (activeWorkflows owner t).map WorkflowRow.workflowId).map
      fun a => (a.workflowId, a.config)
  drivers := (t.drivers.filter (·.owner = owner)).map fun d => (readDriver registry d).withoutId
  prompts := (t.prompts.filter (·.owner = owner)).map fun p => p.config.withoutId

/-- An agent is there, and none of its workflows has been deleted. -/
structure Undeleted (owner : Owner) (t : Tables J A E) : Prop where
  valid : t.Valid
  mem : owner ∈ t.configs.map ConfigRow.owner
  active : ∀ w ∈ t.workflows, w.owner = owner → w.isDeleted = false

/-- The actions are taken without a failure. -/
def Executes (l : List (Action J A E)) (t t' : Tables J A E) : Prop :=
  ∀ n, ∃ m, performAll l ⟨t, n, fun _ => false⟩ = (true, ⟨t', m, fun _ => false⟩)

/-- From a content where a condition holds, the actions are taken, and have an effect on it. -/
def Takes (registry : Registry A D E) (owner : Owner) (l : List (Action J A E))
    (pre : Content J A D → Prop) (effect : Content J A D → Content J A D) : Prop :=
  ∀ t, Undeleted owner t → pre (content registry owner t) → ∃ t', Executes l t t' ∧
    Undeleted owner t' ∧ content registry owner t' = effect (content registry owner t)

section Rules

variable {registry : Registry A D E} {owner : Owner} {l l' : List (Action J A E)}
  {t t' u : Tables J A E} {st : Statement J A E} {pre pre' : Content J A D → Prop}
  {f g : Content J A D → Content J A D}

theorem executes_nil (t : Tables J A E) : Executes [] t t := fun n => ⟨n, rfl⟩

theorem Executes.append (h : Executes l t t') (h' : Executes l' t' u) :
    Executes (l ++ l') t u := by
  intro n
  obtain ⟨m, hm⟩ := h n
  obtain ⟨k, hk⟩ := h' m
  exact ⟨k, by rw [performAll_append, hm, if_pos rfl, hk]⟩

theorem executes_write (h : st.exec t = some t') : Executes [.write st] t t' := by
  intro n
  refine ⟨n + 1, ?_⟩
  rw [performAll, Action.perform, finish, execute, h]
  rfl

theorem executes_active {workflowId : String} (h : (activeWorkflow owner workflowId t).isSome) :
    Executes [.active owner workflowId] t t := by
  intro n
  refine ⟨n + 1, ?_⟩
  have hactive : finish (ensureWorkflowActive owner workflowId) ⟨t, n, fun _ => false⟩ =
      (true, ⟨t, n + 1, fun _ => false⟩) := by
    rw [ensureWorkflowActive, finish_bind, fetch]
    simp only [Bool.false_eq_true, if_false, h]
    rfl
  rw [performAll, Action.perform, hactive]
  rfl

theorem takes_nil : Takes registry owner ([] : List (Action J A E)) (fun _ => True) id :=
  fun t h _ => ⟨t, executes_nil t, h, rfl⟩

theorem Takes.append (h : Takes registry owner l pre f) (h' : Takes registry owner l' pre' g)
    (hpre : ∀ c, pre c → pre' (f c)) : Takes registry owner (l ++ l') pre (g ∘ f) := by
  intro t ht hc
  obtain ⟨t', hexec, ht', hcontent⟩ := h t ht hc
  obtain ⟨u, hexec', hu, hcontent'⟩ := h' t' ht' (hcontent ▸ hpre _ hc)
  exact ⟨u, hexec.append hexec', hu, by rw [hcontent', hcontent, Function.comp]⟩

theorem Takes.imp (h : Takes registry owner l pre f) (hpre : ∀ c, pre' c → pre c)
    (hf : ∀ c, pre' c → f c = g c) : Takes registry owner l pre' g := by
  intro t ht hc
  obtain ⟨t', hexec, ht', hcontent⟩ := h t ht (hpre _ hc)
  exact ⟨t', hexec, ht', hcontent.trans (hf _ hc)⟩

end Rules

/-! ## What the statements do -/

section Statements

variable {registry : Registry A D E} {owner : Owner} {t t' : Tables J A E} {workflowId : String}

theorem Undeleted.activeWorkflows (h : Undeleted owner t) :
    activeWorkflows owner t = t.workflows.filter (·.owner = owner) := by
  refine List.filter_congr fun w hw => ?_
  by_cases ho : w.owner = owner
  · simp [ho, h.active w hw ho]
  · simp [ho]

/-- Agents are in workflows that there are. -/
theorem Undeleted.agents (h : Undeleted owner t) (stage : Stage) :
    (content registry owner t).agents stage =
      ((t.agents stage).filter (·.owner = owner)).map fun a => (a.workflowId, a.config) := by
  refine congrArg (List.map _) (List.filter_congr fun a ha => ?_)
  by_cases ho : a.owner = owner
  · obtain ⟨w, hw, hkey⟩ := List.mem_map.1 (h.valid.agentWorkflow stage a ha)
    obtain ⟨howner, hid⟩ := Prod.mk.inj hkey
    have hmem : a.workflowId ∈ (Database.activeWorkflows owner t).map WorkflowRow.workflowId := by
      rw [h.activeWorkflows]
      exact List.mem_map.2 ⟨w, List.mem_filter.2 ⟨hw, decide_eq_true (howner.trans ho)⟩, hid⟩
    simp [ho, hmem]
  · simp [ho]

/-- The workflows of the content are those that there are. -/
theorem Undeleted.mem_workflows (h : Undeleted owner t) :
    workflowId ∈ (content registry owner t).workflows.map WorkflowData.id ↔
      (owner, workflowId) ∈ t.workflows.map WorkflowRow.key := by
  rw [content, h.activeWorkflows, List.map_map]
  constructor
  · intro hid
    obtain ⟨w, hw, rfl⟩ := List.mem_map.1 hid
    rw [List.mem_filter] at hw
    exact List.mem_map.2 ⟨w, hw.1, Prod.ext (of_decide_eq_true hw.2) rfl⟩
  · intro hkey
    obtain ⟨w, hw, hkey⟩ := List.mem_map.1 hkey
    obtain ⟨ho, rfl⟩ := Prod.mk.inj hkey
    exact List.mem_map.2 ⟨w, List.mem_filter.2 ⟨hw, decide_eq_true ho⟩, rfl⟩

/-- Actions after a check that a workflow is active. -/
theorem Takes.afterActive {l : List (Action J A E)} {pre : Content J A D → Prop}
    {effect : Content J A D → Content J A D} (h : Takes registry owner l pre effect)
    (hpre : ∀ c, pre c → workflowId ∈ c.workflows.map WorkflowData.id) :
    Takes registry owner (.active owner workflowId :: l) pre effect := by
  intro t ht hc
  obtain ⟨t', hexec, ht', hcontent⟩ := h t ht hc
  obtain ⟨w, hw, hkey⟩ := List.mem_map.1 (ht.mem_workflows.1 (hpre _ hc))
  have hactive : (activeWorkflow owner workflowId t).isSome :=
    List.find?_isSome.2 ⟨w, hw, decide_eq_true ⟨hkey, ht.active w hw (Prod.mk.inj hkey).1⟩⟩
  exact ⟨t', (executes_active hactive).append hexec, ht', hcontent⟩

/-- A statement that is executed, and whose effect is known. -/
theorem takes_write {st : Statement J A E} {pre : Content J A D → Prop}
    {effect : Content J A D → Content J A D}
    (h : ∀ t, Undeleted owner t → pre (content registry owner t) → ∃ t', st.exec t = some t' ∧
      owner ∈ t'.configs.map ConfigRow.owner ∧
      (∀ w ∈ t'.workflows, w.owner = owner → w.isDeleted = false) ∧
      (Undeleted owner t' → content registry owner t' = effect (content registry owner t))) :
    Takes registry owner [.write st] pre effect := by
  intro t ht hpre
  obtain ⟨t', hexec, hmem, hactive, hcontent⟩ := h t ht hpre
  have ht' : Undeleted owner t' := ⟨ht.valid.exec hexec, hmem, hactive⟩
  exact ⟨t', executes_write hexec, ht', hcontent ht'⟩

theorem content_ext {c c' : Content J A D} (hrules : c.rules = c'.rules)
    (hworkflows : c.workflows = c'.workflows) (hagents : ∀ stage, c.agents stage = c'.agents stage)
    (hdrivers : c.drivers = c'.drivers) (hprompts : c.prompts = c'.prompts) : c = c' := by
  cases c
  cases c'
  obtain rfl := hrules
  obtain rfl := hworkflows
  obtain rfl := hdrivers
  obtain rfl := hprompts
  congr
  funext stage
  exact hagents stage

theorem filter_concat_of_pos {α : Type} {p : α → Prop} [DecidablePred p] (l : List α) {a : α}
    (h : p a) : (l ++ [a]).filter p = l.filter p ++ [a] := by
  simp [List.filter_append, h]

theorem takes_insertWorkflow (workflowId : String) (v : WorkflowValues J) :
    Takes registry owner [.write (.insertWorkflow owner workflowId v)]
      (fun c => workflowId ∉ c.workflows.map WorkflowData.id)
      fun c => { c with workflows := c.workflows ++
        [⟨workflowId, v.name, v.description, v.parameters, some v.rules, v.required⟩] } := by
  refine takes_write fun t ht hpre => ⟨_, if_pos ⟨ht.mem, fun h => hpre (ht.mem_workflows.2 h)⟩,
    ht.mem, fun w hw ho => ?_, fun ht' => content_ext rfl ?_ (fun stage => ?_) rfl rfl⟩
  · rcases List.mem_append.1 hw with hw | hw
    · exact ht.active w hw ho
    · rw [List.mem_singleton.1 hw]
  · rw [content, content, ht.activeWorkflows, ht'.activeWorkflows]
    rw [filter_concat_of_pos _ (by rfl), List.map_append]
    rfl
  · rw [ht'.agents, ht.agents]

theorem takes_setWorkflow (workflowId : String) (v : WorkflowValues J) :
    Takes registry owner [.write (.setWorkflow owner workflowId v)] (fun _ => True)
      fun c => { c with workflows := c.workflows.map fun w => if w.id = workflowId then
        ⟨workflowId, v.name, v.description, v.parameters, some v.rules, v.required⟩ else w } := by
  let set : WorkflowRow J → WorkflowRow J := fun w =>
    if Tables.IsActive owner workflowId w then w.set v else w
  have hset (w : WorkflowRow J) : (set w).owner = w.owner ∧ (set w).isDeleted = w.isDeleted := by
    dsimp only [set]
    split_ifs <;> exact ⟨rfl, rfl⟩
  refine takes_write fun t ht _ => ⟨{ t with workflows := t.workflows.map set }, rfl, ht.mem,
    fun w hw ho => ?_, fun ht' => content_ext rfl ?_ (fun stage => ?_) rfl rfl⟩
  · obtain ⟨w', hw', rfl⟩ := List.mem_map.1 hw
    exact (hset w').2.trans (ht.active w' hw' ((hset w').1.symm.trans ho))
  · rw [content, content, ht.activeWorkflows, ht'.activeWorkflows]
    dsimp only
    have hfilter : (t.workflows.map set).filter (·.owner = owner) =
        (t.workflows.filter (·.owner = owner)).map set := by
      rw [List.filter_map]
      exact congrArg _ (List.filter_congr fun w _ => by rw [Function.comp, (hset w).1])
    rw [hfilter, List.map_map, List.map_map]
    refine List.map_congr_left fun w hw => ?_
    obtain ⟨hw, ho⟩ := List.mem_filter.1 hw
    have howner : w.owner = owner := of_decide_eq_true ho
    have hactive : Tables.IsActive owner workflowId w ↔ w.workflowId = workflowId :=
      ⟨fun h => (Prod.mk.inj h.1).2, fun h => ⟨Prod.ext howner h, ht.active w hw howner⟩⟩
    simp only [Function.comp, set, hactive]
    by_cases hid : w.workflowId = workflowId
    · rw [if_pos hid, if_pos (by exact hid), WorkflowRow.data, ← hid]
      rfl
    · rw [if_neg hid, if_neg (by exact hid)]
  · rw [ht'.agents, ht.agents]

theorem takes_setRules (rules : List Rule) :
    Takes registry owner ([.write (.setRules owner rules)] : List (Action J A E)) (fun _ => True)
      fun c : Content J A D => { c with rules := c.rules.map fun _ => rules } := by
  let set : ConfigRow → ConfigRow := fun c =>
    if c.owner = owner then { c with rules := rules } else c
  have hset (c : ConfigRow) : (set c).owner = c.owner := by
    dsimp only [set]
    split_ifs <;> rfl
  refine takes_write fun t ht _ => ⟨{ t with configs := t.configs.map set }, rfl, ?_, ht.active,
    fun ht' => content_ext ?_ rfl (fun _ => rfl) rfl rfl⟩
  · exact (map_map_of_forall hset t.configs).symm ▸ ht.mem
  · rw [content, content, List.map_map, List.filter_map, List.map_map]
    have hfilter : t.configs.filter ((fun c => decide (c.owner = owner)) ∘ set) =
        t.configs.filter (·.owner = owner) :=
      List.filter_congr fun c _ => by rw [Function.comp, hset]
    rw [hfilter]
    refine List.map_congr_left fun c hc => ?_
    have howner : c.owner = owner := of_decide_eq_true (List.mem_filter.1 hc).2
    simp only [Function.comp, set, if_pos howner]

theorem takes_insertAgent (stage : Stage) (workflowId : String) (a : A) :
    Takes registry owner [.active owner workflowId, .write (.insertAgent stage owner workflowId a)]
      (fun c : Content J A D => workflowId ∈ c.workflows.map WorkflowData.id)
      fun c => { c with
        agents := Function.update c.agents stage (c.agents stage ++ [(workflowId, a)]) } := by
  refine Takes.afterActive (takes_write fun t ht hpre => ⟨_, if_pos (ht.mem_workflows.1 hpre),
    ht.mem, ht.active, fun ht' => content_ext rfl rfl (fun stage' => ?_) rfl rfl⟩) fun _ h => h
  rw [ht'.agents]
  dsimp only
  rcases eq_or_ne stage' stage with rfl | hne
  · rw [Function.update_self, Function.update_self, ht.agents,
      filter_concat_of_pos _ (by rfl), List.map_append]
    rfl
  · rw [Function.update_of_ne hne, Function.update_of_ne hne, ht.agents]

theorem takes_insertDriver (name provider identifier : String) (d : D) :
    Takes registry owner
      [.write (.insertDriver owner name provider identifier (registry.encryptFields d))]
      (fun c : Content J A D => identifier ∉ c.drivers.map DriverConfig.identifier)
      fun c => { c with drivers := c.drivers ++ [⟨none, identifier, name, provider, d⟩] } := by
  have hkey (t : Tables J A E) (h : (owner, identifier) ∈ t.drivers.map DriverRow.key) :
      identifier ∈ (content registry owner t).drivers.map DriverConfig.identifier := by
    obtain ⟨row, hrow, hkey⟩ := List.mem_map.1 h
    obtain ⟨ho, rfl⟩ := Prod.mk.inj hkey
    rw [content, List.map_map]
    exact List.mem_map.2 ⟨row, List.mem_filter.2 ⟨hrow, decide_eq_true ho⟩, rfl⟩
  refine takes_write fun t ht hpre => ⟨_, if_pos ⟨ht.mem, fun h => hpre (hkey t h)⟩, ht.mem,
    ht.active, fun ht' => content_ext rfl rfl (fun stage => ?_) ?_ rfl⟩
  · rw [ht'.agents, ht.agents]
  · rw [content, content]
    dsimp only
    rw [filter_concat_of_pos _ (by rfl), List.map_append, List.map_singleton, readDriver,
      registry.decrypt_encrypt]
    rfl

theorem takes_insertPrompt (p : PromptConfig) :
    Takes registry owner ([.write (.insertPrompt owner p)] : List (Action J A E)) (fun _ => True)
      fun c : Content J A D =>
        { c with prompts := c.prompts ++ [p.withoutId] } := by
  refine takes_write fun t ht _ => ⟨_, if_pos ht.mem, ht.mem, ht.active,
    fun ht' => content_ext rfl rfl (fun stage => ?_) rfl ?_⟩
  · rw [ht'.agents, ht.agents]
  · rw [content, content]
    dsimp only
    rw [filter_concat_of_pos _ (by rfl), List.map_append]
    rfl

end Statements

end Database

end Hyperforge
