import Hyperforge.HarnessSdk.ToolCalls
import Hyperforge.Library.Json.Groups

/-!
# Chat requests, streamed or not

`Manager.execute_raw` asks the client for the whole response, or, if there is a memory that streams,
emits the chunks of the response while it puts it together. The client here is
`AsyncLocalOpenAIClient`, of which both are made from the same chunks (`generativeStream`).

* `executeRaw_agree_iff`: both give the same response, but the headers are the same only without
  tracking.
-/

namespace Hyperforge.Manager

open Json hiding Tree
open HarnessSdk (ToolCallDelta CompletionDelta CompletionChoice CompletionUsage CompletionChunk
  LoadsError argumentsText)

variable {F N E : Type}

/-! ## Responses -/

structure TokensDetail (N : Type) where
  input : N
  output : N
  image : N

structure Consumption (N : Type) where
  normalizedTokens : Option (TokensDetail N)
  customerKeyTokens : Option (TokensDetail N)

structure ToolCall (F : Type) where
  id : Option Str
  name : Str
  arguments : Json.Tree F

structure MetaGenerativeResponse (F N : Type) where
  inputTokens : Option N
  outputTokens : Option N
  inputNucliaTokens : Option N
  outputNucliaTokens : Option N
  timings : Json.Tree F
  learningId : Option Str
  modelName : Option Str
  traceId : Option Str

/-- A chunk of a response. -/
inductive GenerativeResponse (F N : Type)
  | text (text : Str)
  | reasoning (text : Str)
  | json (object : Json.Tree F)
  | metadata (m : MetaGenerativeResponse F N)
  | citations (citations : Json.Tree F)
  | footnoteCitations (footnoteToContext : Json.Tree F)
  | status (code : Str)
  | tools (tools : List (Str × List (ToolCall F)))
  | consumption (c : Consumption N)

structure GenerativeFullResponse (F N : Type) where
  answer : Option Str
  reasoning : Option Str := none
  object : Option (Json.Tree F) := none
  inputTokens : Option N := none
  outputTokens : Option N := none
  inputNucliaTokens : Option N := none
  outputNucliaTokens : Option N := none
  timings : Option (Json.Tree F) := none
  learningId : Option Str := none
  modelName : Option Str := none
  traceId : Option Str := none
  citations : Option (Json.Tree F) := none
  citationFootnoteToContext : Option (Json.Tree F) := none
  code : Option Str := none
  tools : Option (List (Str × List (ToolCall F))) := none
  consumption : Option (Consumption N) := none

/-! ## The chunks of the local client -/

/-- A call of a tool, as far as it has been received. -/
structure AccumulatedCall where
  id : Option Str
  name : Str := []
  arguments : Str := []

def AccumulatedCall.receive (current : AccumulatedCall) (call : ToolCallDelta) :
    AccumulatedCall where
  id := match call.id with
    | none | some [] => current.id
    | some id => some id
  name := current.name ++ (call.function.bind (·.name)).getD []
  arguments := current.arguments ++ (call.function.bind (·.arguments)).getD []

/-- What has been received of a response. -/
structure Received (N : Type) where
  content : Str := []
  toolCalls : List (ℤ × AccumulatedCall) := []
  usage : Option (CompletionUsage N) := none

def Received.receive (s : Received N) (call : ToolCallDelta) : Received N :=
  { s with
    toolCalls := assign call.index
      (((s.toolCalls.lookup call.index).getD { id := call.id }).receive call) s.toolCalls }

/-- What is made of a choice, and what has been received with it. -/
def onChoice (withSchema : Bool) (s : Received N) (delta : CompletionDelta) :
    List (GenerativeResponse F N) × Received N :=
  let reasoning := delta.reasoningContent.getD []
  let content := delta.content.getD []
  ((if reasoning.isEmpty then [] else [.reasoning reasoning]) ++
    (if content.isEmpty || withSchema then [] else [.text content]),
    delta.toolCalls.foldl Received.receive { s with content := s.content ++ content })

/-- All that is made in a loop, and the state at its end. -/
def collect {α σ R : Type} (f : σ → α → List R × σ) (s : σ) (xs : List α) : List R × σ :=
  xs.foldl (fun r x => (r.1 ++ (f r.2 x).1, (f r.2 x).2)) ([], s)

def onCompletionChunk (withSchema : Bool) (s : Received N) (chunk : CompletionChunk N) :
    List (GenerativeResponse F N) × Received N :=
  collect (fun s choice => onChoice withSchema s choice.delta)
    { s with usage := chunk.usage.or s.usage } chunk.choices

/-- The third-party code that is relied on: reading JSON, and checking a chunk that is made. -/
structure StreamEnv (F N E : Type) where
  loads : Str → Except LoadsError (Json.Tree F)
  loadsError : LoadsError → E
  check : GenerativeResponse F N → Except E Unit

section Stream

variable [Zero N] (env : StreamEnv F N E)

/-- The arguments of a call; there are none if they cannot be read. -/
def argumentsOf (call : AccumulatedCall) : Except E (Json.Tree F) :=
  match env.loads (argumentsText call.arguments) with
  | .ok arguments => .ok arguments
  | .error (.decode _) => .ok (.obj [])
  | .error e => .error (env.loadsError e)

/-- The calls, by the names of their tools. -/
def toolsOf (toolCalls : List (ℤ × AccumulatedCall)) :
    Except E (List (Str × List (ToolCall F))) := do
  let calls ← toolCalls.mapM fun c => do
    let arguments ← argumentsOf env c.2
    return (c.2.name, ⟨c.2.id, c.2.name, arguments⟩)
  return group calls

def CompletionUsage.detail (u : CompletionUsage N) : TokensDetail N :=
  ⟨u.promptTokens, u.completionTokens, 0⟩

/-- What is made at the end of all that has been received. -/
def atEnd (withSchema : Bool) (s : Received N) : List (Except E (GenerativeResponse F N)) :=
  (if withSchema && !s.content.isEmpty then
      [((env.loads s.content).mapError env.loadsError).map .json] else []) ++
  (if s.toolCalls.isEmpty then [] else [(toolsOf env s.toolCalls).map .tools]) ++
  s.usage.toList.map fun u =>
    .ok (.consumption ⟨some (CompletionUsage.detail u), some (CompletionUsage.detail u)⟩)

/-- What a generator yields, up to the first exception. -/
def yields {R : Type} : List (Except E R) → List R × Option E
  | [] => ([], none)
  | .error e :: _ => ([], some e)
  | .ok r :: rs => (r :: (yields rs).1, (yields rs).2)

/-- `_generative_stream`, for the chunks of a completion and the exception that may end them. -/
def generativeStream (withSchema : Bool) (chunks : List (CompletionChunk N)) (failure : Option E) :
    List (GenerativeResponse F N) × Option E :=
  let r := collect (onCompletionChunk withSchema) {} chunks
  let made := r.1.map .ok ++
    match failure with
    | some e => [.error e]
    | none => atEnd env withSchema r.2
  yields (made.map fun m => do
    let response ← m
    env.check response
    return response)

end Stream

/-- The response gets a chunk, when the client puts it together. -/
def GenerativeFullResponse.receive (result : GenerativeFullResponse F N) :
    GenerativeResponse F N → GenerativeFullResponse F N
  | .text text => { result with answer := result.answer.map (· ++ text) }
  | .reasoning text => { result with reasoning := some (result.reasoning.getD [] ++ text) }
  | .json object => { result with object := some object }
  | .metadata m =>
    { result with
      inputTokens := m.inputTokens
      outputTokens := m.outputTokens
      inputNucliaTokens := m.inputNucliaTokens
      outputNucliaTokens := m.outputNucliaTokens
      timings := some m.timings }
  | .citations citations => { result with citations := some citations }
  | .footnoteCitations c => { result with citationFootnoteToContext := some c }
  | .status code => { result with code := some code }
  | .tools tools => { result with tools := some tools }
  | .consumption c => { result with consumption := some c }

/-- `AsyncLocalOpenAIClient.generate`, of the chunks of the stream. -/
def generate (stream : List (GenerativeResponse F N) × Option E) :
    Except E (GenerativeFullResponse F N) :=
  match stream.2 with
  | some e => .error e
  | none => .ok (stream.1.foldl GenerativeFullResponse.receive { answer := some [] })

/-! ## The manager -/

structure TrackingInfo where
  raoId : String
  session : String
  message : String

/-- Headers of a request. -/
abbrev Headers := List (String × String)

def buildExtraHeaders (sendRaoOrigin : Bool) (tracking : Option TrackingInfo)
    (extraHeaders : Option Headers) : Headers :=
  let headers := [("x-show-consumption", "true")]
  let headers := if sendRaoOrigin then assign "x-origin" "RAO" headers else headers
  let headers := match tracking with
    | none => headers
    | some t => assign "x-message" t.message <| assign "x-session" t.session <|
        assign "x-client-ident" t.raoId headers
  match extraHeaders with
  | none => headers
  | some e => update headers e

structure StreamingChunk where
  text : Str
  last : Bool := false

/-- What is emitted to a memory. -/
structure Emission where
  chunk : Option StreamingChunk := none
  reasoning : Bool := false
  agentRequest : Option String := none

/-- What happens when a request is executed: the headers that the client is called with, what is
    emitted, and the response with the numbers of its tokens. -/
structure Execution (F N E : Type) where
  extraHeaders : Headers
  emitted : List Emission
  result : Except E (GenerativeFullResponse F N × N × N)

/-- The response while it is streamed, with the numbers of its tokens. -/
structure Streamed (F N : Type) where
  result : GenerativeFullResponse F N
  inputTokens : N
  outputTokens : N
  emitted : List Emission

def Streamed.receive (s : Streamed F N) : GenerativeResponse F N → Streamed F N
  | .text text =>
    { s with
      result := { s.result with answer := some (s.result.answer.getD [] ++ text) }
      emitted := s.emitted ++ [{ chunk := some { text := text } }] }
  | .reasoning text =>
    { s with
      result := { s.result with reasoning := some (s.result.reasoning.getD [] ++ text) }
      emitted := s.emitted ++ [{ chunk := some { text := text }, reasoning := true }] }
  | .json object => { s with result := { s.result with object := some object } }
  | .metadata m =>
    { s with
      result := { s.result with
        timings := some m.timings
        learningId := m.learningId
        modelName := m.modelName
        traceId := m.traceId } }
  | .citations citations => { s with result := { s.result with citations := some citations } }
  | .footnoteCitations c =>
    { s with result := { s.result with citationFootnoteToContext := some c } }
  | .status code => { s with result := { s.result with code := some code } }
  | .tools tools => { s with result := { s.result with tools := some tools } }
  | .consumption c =>
    { s with
      result := { s.result with consumption := some c }
      inputTokens := (c.normalizedTokens.map (·.input)).getD s.inputTokens
      outputTokens := (c.normalizedTokens.map (·.output)).getD s.outputTokens }

section Execute

variable [Zero N] (sendRaoOrigin : Bool) (stream : List (GenerativeResponse F N) × Option E)

/-- `module@agent_path` is emitted first, if there is any. -/
def agentRequest (module agentPath : String) : List Emission :=
  if module.isEmpty && agentPath.isEmpty then []
  else [{ agentRequest := some (module ++ "@" ++ agentPath) }]

def executeRawStreaming (module agentPath : String) : Execution F N E :=
  let s := stream.1.foldl Streamed.receive
    ⟨{ answer := some [] }, 0, 0, agentRequest module agentPath⟩
  { extraHeaders := buildExtraHeaders sendRaoOrigin none none
    emitted := s.emitted ++
      if stream.2.isNone then [{ chunk := some { text := [], last := true } }] else []
    result := match stream.2 with
      | some e => .error e
      | none => .ok (s.result, s.inputTokens, s.outputTokens) }

/-- `execute_raw`, with what `memory.get_streaming()` returns, if there is a memory. `noObject` is
    the exception without an answer. -/
def executeRaw (noObject : E) (tracking : Option TrackingInfo) (memory : Option Bool)
    (module agentPath : String) (disableStreaming : Bool) : Execution F N E :=
  if memory.getD false && !disableStreaming then
    executeRawStreaming sendRaoOrigin stream module agentPath
  else
    { extraHeaders := buildExtraHeaders sendRaoOrigin tracking none
      emitted := []
      result := do
        let resp ← generate stream
        if resp.answer.isNone then throw noObject
        match resp.consumption.bind (·.normalizedTokens) with
        | none => return (resp, 0, 0)
        | some tokens => return (resp, tokens.input, tokens.output) }

end Execute

/-! ## What both executions have to give -/

/-- The responses are the same in what an answer consists of. -/
structure SameResponse (r r' : GenerativeFullResponse F N) : Prop where
  answer : r.answer = r'.answer
  reasoning : r.reasoning = r'.reasoning
  object : r.object = r'.object
  tools : r.tools = r'.tools
  citations : r.citations = r'.citations
  citationFootnoteToContext : r.citationFootnoteToContext = r'.citationFootnoteToContext
  code : r.code = r'.code
  consumption : r.consumption = r'.consumption

def SameResult : Except E (GenerativeFullResponse F N × N × N) →
    Except E (GenerativeFullResponse F N × N × N) → Prop
  | .ok r, .ok r' => SameResponse r.1 r'.1 ∧ r.2 = r'.2
  | .error e, .error e' => e = e'
  | _, _ => False

/-- The text of an emission, or of its reasoning. -/
def Emission.text (reasoning : Bool) (e : Emission) : Str :=
  if e.reasoning = reasoning then (e.chunk.map (·.text)).getD [] else []

def Emission.IsLast (e : Emission) : Prop := ∃ chunk ∈ e.chunk, chunk.last

/-- What is emitted makes up the response, and ends with the only last chunk. -/
def EmitsResult (x : Execution F N E) : Prop :=
  ∀ r, x.result = .ok r → r.1.answer = some (x.emitted.flatMap (Emission.text false)) ∧
    r.1.reasoning.getD [] = x.emitted.flatMap (Emission.text true) ∧
    ∃ before last, x.emitted = before ++ [last] ∧ last.IsLast ∧ ∀ e ∈ before, ¬ e.IsLast

/-- A request is executed alike when it is streamed. -/
structure Alike (plain streamed : Execution F N E) : Prop where
  extraHeaders : plain.extraHeaders = streamed.extraHeaders
  result : SameResult plain.result streamed.result
  emitted : EmitsResult streamed

/-! ## The chunks of the stream -/

/-- If it is about the consumption, it tells the normalized tokens. -/
def GenerativeResponse.Detailed (r : GenerativeResponse F N) : Prop :=
  ∀ c, r = .consumption c → c.normalizedTokens.isSome

theorem mem_yields {R : Type} {r : R} {rs : List (Except E R)} (h : r ∈ (yields rs).1) :
    .ok r ∈ rs := by
  induction rs with
  | nil => cases h
  | cons x rs ih =>
    rcases x with e | r'
    · cases h
    · rcases List.mem_cons.1 h with rfl | h
      · exact List.mem_cons_self
      · exact List.mem_cons_of_mem _ (ih h)

variable {withSchema : Bool} {s : Received N} {r : GenerativeResponse F N}

theorem detailed_onChoice {delta : CompletionDelta}
    (h : r ∈ (onChoice (F := F) withSchema s delta).1) : r.Detailed := by
  rintro c rfl
  rcases List.mem_append.1 h with h | h
  · split_ifs at h
    · cases h
    · cases List.mem_singleton.1 h
  · split_ifs at h
    · cases h
    · cases List.mem_singleton.1 h

theorem forall_mem_collect {α σ R : Type} {P : R → Prop} {f : σ → α → List R × σ} {xs : List α}
    {s : σ} (hf : ∀ t x, ∀ r ∈ (f t x).1, P r) : ∀ r ∈ (collect f s xs).1, P r := by
  refine List.foldlRecOn xs _ (motive := fun t : List R × σ => ∀ r ∈ t.1, P r) ?_ ?_
  · exact fun _ h => absurd h List.not_mem_nil
  · exact fun t ht x _ => List.forall_mem_append.2 ⟨ht, hf t.2 x⟩

theorem detailed_onCompletionChunk {chunk : CompletionChunk N} :
    ∀ r ∈ (onCompletionChunk (F := F) withSchema s chunk).1, r.Detailed :=
  forall_mem_collect fun _ _ _ => detailed_onChoice

variable [Zero N] {env : StreamEnv F N E} {chunks : List (CompletionChunk N)} {failure : Option E}

theorem detailed_atEnd (h : .ok r ∈ atEnd env withSchema s) : r.Detailed := by
  rintro c rfl
  rw [atEnd, List.mem_append, List.mem_append] at h
  rcases h with (h | h) | h
  · split_ifs at h
    · have heq := List.mem_singleton.1 h
      rcases hloads : (env.loads s.content).mapError env.loadsError with e | x <;>
        rw [hloads] at heq <;> cases heq
    · cases h
  · split_ifs at h
    · cases h
    · have heq := List.mem_singleton.1 h
      rcases htools : toolsOf env s.toolCalls with e | x <;> rw [htools] at heq <;> cases heq
  · obtain ⟨u, -, heq⟩ := List.mem_map.1 h
    cases heq
    rfl

/-- The stream tells the normalized tokens whenever it tells the consumption. -/
theorem detailed_generativeStream (h : r ∈ (generativeStream env withSchema chunks failure).1) :
    r.Detailed := by
  obtain ⟨made, hmade, heq⟩ := List.mem_map.1 (mem_yields h)
  obtain rfl : made = .ok r := by
    rcases made with e | response
    · cases heq
    · rcases hcheck : env.check response with e | x
      · simp [bind, Except.bind, hcheck] at heq
      · simp [bind, Except.bind, hcheck, pure, Except.pure] at heq
        rw [heq]
  rcases List.mem_append.1 hmade with hmade | hmade
  · obtain ⟨response, hresponse, heq⟩ := List.mem_map.1 hmade
    cases heq
    exact forall_mem_collect (fun _ _ => detailed_onCompletionChunk) r hresponse
  · rcases failure with _ | e
    · exact detailed_atEnd hmade
    · cases List.mem_singleton.1 hmade

/-! ## Both executions -/

/-- The numbers of the tokens of a response. -/
def tokensOf (c : Option (Consumption N)) : N × N :=
  match c.bind (·.normalizedTokens) with
  | none => (0, 0)
  | some tokens => (tokens.input, tokens.output)

/-- What has been streamed is what the client has put together. -/
structure Simulates (plain : GenerativeFullResponse F N) (s : Streamed F N) : Prop where
  same : SameResponse plain s.result
  answer : s.result.answer = some (s.emitted.flatMap (Emission.text false))
  reasoning : s.result.reasoning.getD [] = s.emitted.flatMap (Emission.text true)
  notLast : ∀ e ∈ s.emitted, ¬ e.IsLast
  tokens : (s.inputTokens, s.outputTokens) = tokensOf s.result.consumption

variable {plain : GenerativeFullResponse F N} {t : Streamed F N}

theorem simulates_start (module agentPath : String) :
    Simulates (F := F) (N := N) { answer := some [] }
      ⟨{ answer := some [] }, 0, 0, agentRequest module agentPath⟩ := by
  rw [agentRequest]
  split_ifs
  · exact ⟨⟨rfl, rfl, rfl, rfl, rfl, rfl, rfl, rfl⟩, rfl, rfl,
      fun _ h => absurd h List.not_mem_nil, rfl⟩
  · refine ⟨⟨rfl, rfl, rfl, rfl, rfl, rfl, rfl, rfl⟩, rfl, rfl, fun e he => ?_, rfl⟩
    rw [List.mem_singleton.1 he]
    rintro ⟨chunk, hchunk, -⟩
    cases hchunk

theorem not_isLast_append {emitted : List Emission} {text : Str} {reasoning : Bool}
    (h : ∀ e ∈ emitted, ¬ e.IsLast) :
    ∀ e ∈ emitted ++ [{ chunk := some { text := text }, reasoning := reasoning }],
      ¬ e.IsLast := by
  refine List.forall_mem_append.2 ⟨h, List.forall_mem_singleton.2 ?_⟩
  rintro ⟨chunk, ⟨⟩, hlast⟩
  cases hlast

/-- Both get a chunk. -/
theorem Simulates.receive (h : Simulates plain t) (hdetailed : r.Detailed) :
    Simulates (plain.receive r) (t.receive r) := by
  obtain ⟨hsame, hanswer, hreasoning, hlast, htokens⟩ := h
  cases r with
  | text text =>
    refine ⟨{ hsame with answer := ?_ }, ?_, ?_, not_isLast_append hlast, htokens⟩
    · change plain.answer.map (· ++ text) = some (t.result.answer.getD [] ++ text)
      rw [hsame.answer, hanswer]
      rfl
    · rw [Streamed.receive, hanswer, List.flatMap_append, List.flatMap_singleton]
      rfl
    · rw [Streamed.receive, hreasoning, List.flatMap_append, List.flatMap_singleton]
      exact (List.append_nil _).symm
  | reasoning text =>
    refine ⟨{ hsame with reasoning := ?_ }, ?_, ?_, not_isLast_append hlast, htokens⟩
    · rw [GenerativeFullResponse.receive, hsame.reasoning]
      rfl
    · rw [Streamed.receive, hanswer, List.flatMap_append, List.flatMap_singleton]
      exact congrArg some (List.append_nil _).symm
    · rw [Streamed.receive, hreasoning, List.flatMap_append, List.flatMap_singleton]
      rfl
  | json object => exact ⟨{ hsame with object := rfl }, hanswer, hreasoning, hlast, htokens⟩
  | metadata m => exact ⟨{ hsame with }, hanswer, hreasoning, hlast, htokens⟩
  | citations c => exact ⟨{ hsame with citations := rfl }, hanswer, hreasoning, hlast, htokens⟩
  | footnoteCitations c =>
    exact ⟨{ hsame with citationFootnoteToContext := rfl }, hanswer, hreasoning, hlast, htokens⟩
  | status code => exact ⟨{ hsame with code := rfl }, hanswer, hreasoning, hlast, htokens⟩
  | tools tools => exact ⟨{ hsame with tools := rfl }, hanswer, hreasoning, hlast, htokens⟩
  | consumption c =>
    refine ⟨{ hsame with consumption := rfl }, hanswer, hreasoning, hlast, ?_⟩
    obtain ⟨tokens, hnormalized⟩ := Option.isSome_iff_exists.1 (hdetailed c rfl)
    rw [Streamed.receive, tokensOf, Option.bind_some, hnormalized]
    rfl

/-- Both executions are the same up to their headers. -/
theorem sameResult_executeRaw (sendRaoOrigin : Bool) (noObject : E)
    (tracking : Option TrackingInfo) (module agentPath : String)
    {stream : List (GenerativeResponse F N) × Option E}
    (hdetailed : ∀ r ∈ stream.1, r.Detailed) :
    SameResult
        (executeRaw sendRaoOrigin stream noObject tracking none module agentPath false).result
        (executeRawStreaming sendRaoOrigin stream module agentPath).result ∧
      EmitsResult (executeRawStreaming sendRaoOrigin stream module agentPath) := by
  obtain ⟨responses, failure⟩ := stream
  rcases failure with _ | e
  · have hsimulates : Simulates
        (responses.foldl GenerativeFullResponse.receive { answer := some [] })
        (responses.foldl Streamed.receive
          ⟨{ answer := some [] }, 0, 0, agentRequest module agentPath⟩) :=
      List.foldl_rel (simulates_start module agentPath) fun r hr _ _ h => h.receive (hdetailed r hr)
    generalize hplain : responses.foldl GenerativeFullResponse.receive _ = plain at hsimulates
    generalize hstreamed : responses.foldl Streamed.receive _ = streamed at hsimulates
    obtain ⟨hsame, hanswer, hreasoning, hlast, htokens⟩ := hsimulates
    have hplain' : (executeRaw sendRaoOrigin (responses, (none : Option E)) noObject tracking none
        module agentPath false).result = .ok (plain, tokensOf plain.consumption) := by
      have hsome : plain.answer.isNone = false := by
        rw [hsame.answer, hanswer]
        rfl
      simp only [executeRaw, generate, Option.getD_none, Bool.false_and, Bool.false_eq_true,
        if_false]
      rw [hplain, tokensOf]
      simp only [bind, Except.bind, hsome, Bool.false_eq_true, if_false]
      rcases plain.consumption.bind fun c => c.normalizedTokens with _ | tokens <;> rfl
    have hstreamed' : executeRawStreaming sendRaoOrigin (responses, (none : Option E)) module
        agentPath = {
          extraHeaders := buildExtraHeaders sendRaoOrigin none none
          emitted := streamed.emitted ++ [{ chunk := some { text := [], last := true } }]
          result := .ok (streamed.result, streamed.inputTokens, streamed.outputTokens) } := by
      rw [executeRawStreaming]
      dsimp only
      rw [hstreamed]
      rfl
    rw [hplain', hstreamed']
    refine ⟨⟨hsame, ?_⟩, ?_⟩
    · rw [hsame.consumption]
      exact htokens.symm
    · rintro _ ⟨⟩
      refine ⟨?_, ?_, streamed.emitted, _, rfl, ⟨_, rfl, by rfl⟩, hlast⟩
      · rw [hanswer, List.flatMap_append, List.flatMap_singleton]
        exact congrArg some (List.append_nil _).symm
      · rw [hreasoning, List.flatMap_append, List.flatMap_singleton]
        exact (List.append_nil _).symm
  · refine ⟨rfl, fun r hr => ?_⟩
    cases hr

theorem lookup_buildExtraHeaders {sendRaoOrigin : Bool} :
    (buildExtraHeaders sendRaoOrigin none none).lookup "x-message" = none := by
  cases sendRaoOrigin <;> rfl

/-- A streamed request is executed like any other, if and only if it is not tracked. -/
theorem executeRaw_agree_iff {sendRaoOrigin : Bool} {noObject : E} {tracking : Option TrackingInfo}
    {module agentPath : String} :
    Alike (executeRaw sendRaoOrigin (generativeStream env withSchema chunks failure) noObject
          tracking none module agentPath false)
        (executeRaw sendRaoOrigin (generativeStream env withSchema chunks failure) noObject
          tracking (some true) module agentPath false) ↔ tracking = none := by
  have hdetailed : ∀ r ∈ (generativeStream env withSchema chunks failure).1, r.Detailed :=
    fun r => detailed_generativeStream
  obtain ⟨hresult, hemitted⟩ :=
    sameResult_executeRaw sendRaoOrigin noObject tracking module agentPath hdetailed
  constructor
  · intro h
    by_contra hne
    obtain ⟨t, rfl⟩ := Option.ne_none_iff_exists'.1 hne
    have hlookup : (buildExtraHeaders sendRaoOrigin (some t) none).lookup "x-message" =
        (buildExtraHeaders sendRaoOrigin none none).lookup "x-message" :=
      congrArg (List.lookup "x-message") h.extraHeaders
    rw [lookup_buildExtraHeaders, buildExtraHeaders] at hlookup
    rw [lookup_assign, if_pos rfl] at hlookup
    cases hlookup
  · rintro rfl
    exact ⟨rfl, hresult, hemitted⟩

/-- Every text is read as `null`. -/
def nullEnv : StreamEnv Unit ℕ Unit where
  loads _ := .ok .null
  loadsError _ := ()
  check _ := .ok ()

/-- A completion of one chunk. -/
def greeting : List (CompletionChunk ℕ) :=
  [⟨none, [⟨⟨some (.ofString "Hello"), none, none, []⟩, none⟩], none,
    some ⟨3, 1, none, none, none, none⟩⟩]

/-- A tracked request is sent without its tracking when it is streamed. -/
theorem not_alike_tracked : ¬ Alike
    (executeRaw true (generativeStream nullEnv false greeting none) () (some ⟨"rao", "s", "m"⟩)
      none "" "" false)
    (executeRaw true (generativeStream nullEnv false greeting none) () (some ⟨"rao", "s", "m"⟩)
      (some true) "" "" false) := by
  intro h
  have hlookup : some "m" = none := congrArg (List.lookup "x-message") h.extraHeaders
  cases hlookup

end Hyperforge.Manager
