import Hyperforge.Library.Json
import Hyperforge.Library.Split

/-!
# The tools of a smart agent

A smart agent offers the functions of the agents that are registered with it to a language model,
each as a tool with a name (`buildTools`), and looks a tool up by its name when the model calls it
(`executeToolCall`).

A name consists of those of the function and of the agent. Which names are looked up as what they
are of, and when all of them are, is `namesResolve_iff`.
-/

namespace Hyperforge.Smart

open Json hiding Tree

abbrev Name := List Char
abbrev Text := List Char

instance : LawfulBEq Text := inferInstance

def toolNameSeparator : Name := ['_', '_']

structure FunctionDefinition (F : Type) where
  description : Text
  parameters : List (Str × Json.Tree F)

/-- An exception, with its text. -/
inductive Exc
  | typeError (text : Text)
  | other (text : Text)

/-- An agent as it is registered. Functions are called with arguments and have results of certain
    types. -/
structure RegisteredAgent (F A R : Type) where
  agentId : Name
  description : Option Text
  availableFunctions : Option (List (Name × FunctionDefinition F))
  /-- The attributes of the agent, other than `None`. -/
  getattr : Name → Option (A → Except Exc R)

variable {F A R : Type}

/-- The functions that are offered: none where they are not given. -/
def RegisteredAgent.functions (reg : RegisteredAgent F A R) :
    List (Name × FunctionDefinition F) := reg.availableFunctions.getD []

/-! ## Names -/

/-- `f"{function_id}{TOOL_NAME_SEPARATOR}{agent_id}"` -/
def toolName (functionId agentId : Name) : Name := functionId ++ (toolNameSeparator ++ agentId)

structure Tool (F : Type) where
  name : Name
  description : Text
  parameters : Json.Tree F

/-- A dictionary with strings as its keys. -/
def object (members : List (String × Json.Tree F)) : Json.Tree F :=
  .obj (members.map fun m => (.ofString m.1, m.2))

def text (s : String) : Json.Tree F := .str (.ofString s)

def taskCompleteTool : Tool F where
  name := "task_complete".toList
  description := ("Call this tool when you have gathered enough information to answer the " ++
    "question and no more tools are needed.").toList
  parameters := object [("type", text "object"), ("properties", .obj [])]

def userFeedbackTool : Tool F where
  name := "user_feedback".toList
  description :=
    "Ask the user a clarifying question when you need more information to proceed.".toList
  parameters := object [("type", text "object"),
    ("properties", object [
      ("decision_id", object [("type", text "string"),
        ("description", text ("Stable identifier for the underlying decision. " ++
          "Reuse it if the question is rephrased."))]),
      ("question", object [("type", text "string"),
        ("description", text "The question to ask the user")])]),
    ("required", .arr [text "decision_id", text "question"])]

/-- The tool of a function. -/
def RegisteredAgent.tool (reg : RegisteredAgent F A R)
    (function : Name × FunctionDefinition F) : Tool F where
  name := toolName function.1 reg.agentId
  description :=
    match reg.description with
    | none | some [] => function.2.description
    | some description => description ++ " — ".toList ++ function.2.description
  parameters := object [("type", text "object"), ("properties", .obj function.2.parameters),
    ("additionalProperties", .bool false)]

def buildTools (enableUserFeedback : Bool) (registeredAgents : List (RegisteredAgent F A R)) :
    List (Tool F) :=
  registeredAgents.flatMap (fun reg => reg.functions.map reg.tool) ++
    taskCompleteTool :: if enableUserFeedback then [userFeedbackTool] else []

/-! ## Calls -/

def getAgentById (registeredAgents : List (RegisteredAgent F A R)) (agentId : Name) :
    Option (RegisteredAgent F A R) := registeredAgents.find? (·.agentId = agentId)

/-- How strings and arguments, if there are any, are shown in texts, and what an error is replaced
    by if it exceeds the budget. -/
structure Rendering (A : Type) where
  repr : Text → Text
  arguments : A → Option Text
  overflow : Text → Option Text

/-- A `ToolError`, with the title of the step that reports it. -/
structure ToolError (A : Type) where
  title : String
  toolName : Name
  toolArguments : A
  error : Text

variable (render : Rendering A)

def reportToolError (title : String) (error : Text) (toolName : Name) (toolArguments : A) :
    ToolError A :=
  match render.overflow error with
  | some text => ⟨"Tool result rejected", toolName, toolArguments, text⟩
  | none => ⟨title, toolName, toolArguments, error⟩

/-- The agent and the function that a name is of, with the attribute to be called, or what is
    reported: a title, and an error. -/
def resolve (registeredAgents : List (RegisteredAgent F A R)) (toolName : Name) :
    Except (String × Text) (RegisteredAgent F A R × Name × (A → Except Exc R)) :=
  match List.splitOnce toolNameSeparator toolName with
  | none => .error ("Invalid tool name",
      "Invalid tool name format: ".toList ++ render.repr toolName)
  | some (functionId, agentId) =>
    match getAgentById registeredAgents agentId with
    | none => .error ("Agent not found",
        "Agent ".toList ++ render.repr agentId ++ " not found in registered agents".toList)
    | some reg =>
      if functionId ∉ reg.functions.map Prod.fst then
        .error ("Function not found", "Function ".toList ++ render.repr functionId ++
          " not found in agent ".toList ++ render.repr agentId)
      else
        match reg.getattr functionId with
        | none => .error ("Function not found", "Function ".toList ++ render.repr functionId ++
            " not found in agent ".toList ++ render.repr agentId ++ " instance".toList)
        | some call => .ok (reg, functionId, call)

/-- The result of a call, after what has been done, or an error. -/
def executeToolCall (registeredAgents : List (RegisteredAgent F A R)) (name : Name)
    (toolArguments : A) : Except (ToolError A) (Text × R) :=
  match resolve render registeredAgents name with
  | .error (title, error) => .error (reportToolError render title error name toolArguments)
  | .ok (reg, functionId, call) =>
    let tool := render.repr functionId ++ " of agent ".toList ++ render.repr reg.agentId
    match call toolArguments with
    | .error (.typeError text) => .error (reportToolError render "LLM Execution error"
        ("Binding error executing tool ".toList ++ tool ++ ": ".toList ++ text) name toolArguments)
    | .error (.other text) => .error (reportToolError render "LLM Execution error"
        ("Error executing tool ".toList ++ tool ++ ": ".toList ++ text) name toolArguments)
    | .ok result =>
      let actionInfo := functionId ++ " of ".toList ++ reg.agentId
      match render.arguments toolArguments with
      | none => .ok (actionInfo, result)
      | some arguments => .ok (actionInfo ++ " with parameters ".toList ++ arguments, result)

/-! ## Names that are looked up as what they are of -/

variable {render} {registeredAgents : List (RegisteredAgent F A R)}
  {reg reg' : RegisteredAgent F A R} {functionId functionId' agentId name : Name}

/-- A function of a registered agent, for which there is a tool. -/
def Published (registeredAgents : List (RegisteredAgent F A R)) (reg : RegisteredAgent F A R)
    (functionId : Name) : Prop :=
  reg ∈ registeredAgents ∧ functionId ∈ reg.functions.map Prod.fst

/-- The name of each tool is looked up as the agent and the function it is of, and different ones
    have different names. -/
structure NamesResolve (render : Rendering A)
    (registeredAgents : List (RegisteredAgent F A R)) : Prop where
  resolve : ∀ reg functionId, Published registeredAgents reg functionId →
    ∃ call, resolve render registeredAgents (toolName functionId reg.agentId) =
      .ok (reg, functionId, call)
  distinct : ∀ reg functionId reg' functionId', Published registeredAgents reg functionId →
    Published registeredAgents reg' functionId' →
    (reg.agentId, functionId) ≠ (reg'.agentId, functionId') →
    toolName functionId reg.agentId ≠ toolName functionId' reg'.agentId

/-- The separator does not begin within the name of a function. -/
def Separable (functionId : Name) : Prop := ¬ toolNameSeparator <:+: functionId ++ ['_']

/-- The names of the tools are those of the functions that are published, and of the tools of the
    agent itself. -/
theorem mem_names_buildTools {enableUserFeedback : Bool} :
    name ∈ (buildTools enableUserFeedback registeredAgents).map Tool.name ↔
      (∃ reg functionId, Published registeredAgents reg functionId ∧
        name = toolName functionId reg.agentId) ∨ name = "task_complete".toList ∨
        enableUserFeedback ∧ name = "user_feedback".toList := by
  rw [buildTools, List.map_append, List.mem_append, List.map_flatMap, List.mem_flatMap]
  refine or_congr ⟨?_, ?_⟩ ?_
  · rintro ⟨reg, hreg, hname⟩
    rw [List.map_map] at hname
    obtain ⟨function, hfunction, rfl⟩ := List.mem_map.1 hname
    exact ⟨reg, function.1, ⟨hreg, List.mem_map_of_mem hfunction⟩, rfl⟩
  · rintro ⟨reg, functionId, ⟨hreg, hfunctionId⟩, rfl⟩
    obtain ⟨function, hfunction, rfl⟩ := List.mem_map.1 hfunctionId
    exact ⟨reg, hreg, by rw [List.map_map]; exact List.mem_map_of_mem hfunction⟩
  · rw [List.map_cons, List.mem_cons]
    refine or_congr Iff.rfl ?_
    cases enableUserFeedback with
    | false => simp only [Bool.false_eq_true, if_false, List.map_nil, List.not_mem_nil, false_and]
    | true =>
      rw [if_pos rfl, List.map_singleton, List.mem_singleton]
      exact ⟨fun h => ⟨rfl, h⟩, And.right⟩

theorem splitOnce_toolName (h : Separable functionId) :
    List.splitOnce toolNameSeparator (toolName functionId agentId) = some (functionId, agentId) :=
  List.splitOnce_append (by decide) h

theorem toolName_inj {agentId' : Name} (h : Separable functionId) (h' : Separable functionId')
    (heq : toolName functionId agentId = toolName functionId' agentId') :
    functionId = functionId' ∧ agentId = agentId' := by
  have hsplit : List.splitOnce toolNameSeparator (toolName functionId agentId) =
      some (functionId, agentId) := splitOnce_toolName h
  rw [heq, splitOnce_toolName h', Option.some.injEq, Prod.mk.injEq] at hsplit
  exact ⟨hsplit.1.symm, hsplit.2.symm⟩

/-- What a name is looked up as. -/
theorem resolve_eq_ok {call : A → Except Exc R} :
    resolve render registeredAgents name = .ok (reg, functionId, call) ↔
      ∃ agentId, List.splitOnce toolNameSeparator name = some (functionId, agentId) ∧
        getAgentById registeredAgents agentId = some reg ∧
        functionId ∈ reg.functions.map Prod.fst ∧ reg.getattr functionId = some call := by
  unfold resolve
  constructor
  · intro h
    split at h
    · cases h
    · rename_i functionId' agentId hsplit
      split at h
      · cases h
      · rename_i reg' hagent
        split_ifs at h with hfunction
        split at h
        · cases h
        · rename_i hcall
          cases h
          exact ⟨agentId, hsplit, hagent, hfunction, hcall⟩
  · rintro ⟨agentId, hsplit, hagent, hfunction, hcall⟩
    simp only [hsplit, hagent, not_not.2 hfunction, if_false, hcall]

/-- The name of a function is looked up as what it is of if the separator does not begin within
    it, the agent is the first one that is registered with its id, and it has the function. -/
theorem exists_resolve_toolName_iff (h : Published registeredAgents reg functionId) :
    (∃ call, resolve render registeredAgents (toolName functionId reg.agentId) =
      .ok (reg, functionId, call)) ↔ Separable functionId ∧
        getAgentById registeredAgents reg.agentId = some reg ∧ (reg.getattr functionId).isSome := by
  simp only [resolve_eq_ok]
  constructor
  · rintro ⟨call, agentId, hsplit, hagent, -, hcall⟩
    obtain ⟨heq, hseparable⟩ := (List.splitOnce_eq_some (by decide)).1 hsplit
    have hid : agentId = reg.agentId :=
      (List.append_cancel_left (List.append_cancel_left heq)).symm
    exact ⟨hseparable, hid ▸ hagent, by rw [hcall]; rfl⟩
  · rintro ⟨hseparable, hagent, hcall⟩
    obtain ⟨call, hcall⟩ := Option.isSome_iff_exists.1 hcall
    exact ⟨call, reg.agentId, splitOnce_toolName hseparable, hagent, h.2, hcall⟩

/-- All names are looked up as what they are of exactly if each of them is; different ones are then
    different. -/
theorem namesResolve_iff : NamesResolve render registeredAgents ↔
    ∀ reg functionId, Published registeredAgents reg functionId → Separable functionId ∧
      getAgentById registeredAgents reg.agentId = some reg ∧
      (reg.getattr functionId).isSome := by
  constructor
  · intro h reg functionId hpublished
    exact (exists_resolve_toolName_iff hpublished).1 (h.resolve reg functionId hpublished)
  · intro h
    refine ⟨fun reg functionId hpublished =>
      (exists_resolve_toolName_iff hpublished).2 (h reg functionId hpublished), ?_⟩
    intro reg functionId reg' functionId' hpublished hpublished' hne heq
    obtain ⟨hfunction, hagent⟩ := toolName_inj (h reg functionId hpublished).1
      (h reg' functionId' hpublished').1 heq
    exact hne (by rw [hfunction, hagent])

/-- An agent with a function of which the name contains the separator. -/
def namespacedAgent : RegisteredAgent Empty Unit Unit where
  agentId := "mcp".toList
  description := none
  availableFunctions := some [("github__search".toList, ⟨"Search".toList, []⟩)]
  getattr _ := some fun _ => .ok ()

/-- Strings as they are, and no limit for errors. -/
def plainRendering : Rendering Unit where
  repr name := name
  arguments _ := none
  overflow _ := none

theorem not_namesResolve : ¬ NamesResolve plainRendering [namespacedAgent] := by
  intro h
  have hpublished : Published [namespacedAgent] namespacedAgent "github__search".toList :=
    ⟨List.mem_singleton_self _, List.mem_singleton_self _⟩
  obtain ⟨hseparable, -⟩ :=
    (exists_resolve_toolName_iff hpublished).1 (h.resolve _ _ hpublished)
  exact hseparable (by decide)

end Hyperforge.Smart
