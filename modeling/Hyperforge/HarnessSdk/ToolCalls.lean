import Hyperforge.HarnessSdk.Generation
import Hyperforge.Library.Crash
import Hyperforge.Library.Json.Dict
import Hyperforge.Library.JsonSchema.Inline
import Mathlib.Algebra.GroupWithZero.Nat
import Mathlib.Data.List.Sort

/-!
# The assembly of tool calls

A model streams the tool calls that it requests in fragments, those of one call under one index.
`NucliaModelClient` joins them, and emits the calls that it has when a choice finishes with
`tool_calls`, and those that are left at the end of the stream.

* `toolCalls_iff`: however the names and arguments of calls are cut into fragments and these
  spread over chunks, the calls are emitted in the order of their indexes, with arguments or with
  what is wrong with them, if and only if reading the arguments raises no other exception than a
  `JSONDecodeError`;
* whatever it raises, what is emitted depends on the calls only.
-/

namespace Hyperforge.HarnessSdk

open Json hiding Tree
open JsonSchema (Object)

variable {F N : Type}

/-! ## Chunks -/

structure ToolCallFunctionDelta where
  name : Option Str
  arguments : Option Str

structure ToolCallDelta where
  index : ℤ
  id : Option Str
  function : Option ToolCallFunctionDelta

structure CompletionDelta where
  content : Option Str
  reasoningContent : Option Str
  refusal : Option Str
  toolCalls : List ToolCallDelta

structure CompletionChoice where
  delta : CompletionDelta
  finishReason : Option Str

structure CompletionUsage (N : Type) where
  promptTokens : N
  completionTokens : N
  nucliaInputTokens : Option N
  nucliaOutputTokens : Option N
  modelInputTokens : Option N
  modelOutputTokens : Option N

structure CompletionChunk (N : Type) where
  id : Option Str
  choices : List CompletionChoice
  model : Option Str
  usage : Option (CompletionUsage N)

def CompletionUsage.inputTokens (u : CompletionUsage N) : N :=
  u.modelInputTokens.getD u.promptTokens

def CompletionUsage.outputTokens (u : CompletionUsage N) : N :=
  u.modelOutputTokens.getD u.completionTokens

structure HarnessToolCall (F : Type) where
  id : Option Str
  name : Str
  arguments : Object F

/-- The tokens that a call has used. -/
structure Tokens (N : Type) where
  input : N
  output : N
  nucliaInput : N
  nucliaOutput : N
  modelInput : N
  modelOutput : N

structure ModelDelta (F N : Type) where
  text : Str := []
  reasoning : Str := []
  toolCalls : List (HarnessToolCall F) := []
  tokens : Tokens N
  traceId : Option Str := none
  model : Option Str := none

/-! ## Fragments -/

/-- What has been received of a call. -/
structure PendingCall where
  id : Str := []
  name : Str := []
  arguments : Str := []
  deriving DecidableEq

/-- The calls, by index, and the indexes of those that have been emitted. -/
structure CallState where
  pending : List (ℤ × PendingCall) := []
  emitted : List ℤ := []

/-- Another fragment of a call. -/
def PendingCall.receive (p : PendingCall) (d : ToolCallDelta) : PendingCall where
  id := match d.id with
    | none | some [] => p.id
    | some id => id
  name := p.name ++ (d.function.bind (·.name)).getD []
  arguments := p.arguments ++ (d.function.bind (·.arguments)).getD []

def CallState.receive (st : CallState) (d : ToolCallDelta) : CallState :=
  { st with
    pending := assign d.index (((st.pending.lookup d.index).getD {}).receive d) st.pending }

/-! ## Calls -/

/-- What `json.loads` raises: a `JSONDecodeError`, or another exception. -/
inductive LoadsError
  | decode (message : Str)
  | other (type text : String)

variable (loads : Str → Except LoadsError (Json.Tree F))

/-- The text that is read for the arguments. -/
def argumentsText (text : Str) : Str := if text = [] then .ofString "\x7b\x7d" else text

def toolError (message : Str) : Object F := [(.ofString "_tool_error", .str message)]

/-- The arguments of a call, or what is wrong with them. -/
def parseArguments (text : Str) : Except (String × String) (Object F) :=
  match loads (argumentsText text) with
  | .ok (.obj arguments) => .ok arguments
  | .ok _ => .ok (toolError (.ofString "Tool arguments must decode to a JSON object"))
  | .error (.decode message) =>
    .ok (toolError (.ofString "Malformed tool arguments: " ++ message))
  | .error (.other type text) => .error (type, text)

def orNone (s : Str) : Option Str := if s = [] then none else some s

/-- The calls that are emitted, of those in order, and the indexes of all that have been. -/
def completeFrom (emitted : List ℤ) : List (ℤ × PendingCall) →
    Except (String × String) (List (HarnessToolCall F) × List ℤ)
  | [] => .ok ([], emitted)
  | (index, p) :: pending =>
    if index ∈ emitted ∨ p.name = [] then completeFrom emitted pending
    else do
      let arguments ← parseArguments loads p.arguments
      let (calls, emitted) ← completeFrom (emitted ++ [index]) pending
      return (⟨orNone p.id, p.name, arguments⟩ :: calls, emitted)

/-- The calls in the order of their indexes. -/
def CallState.sorted (st : CallState) : List (ℤ × PendingCall) :=
  st.pending.insertionSort fun p q => p.1 ≤ q.1

/-- `completed_calls` -/
def CallState.complete (st : CallState) :
    Except (String × String) (List (HarnessToolCall F) × CallState) :=
  (completeFrom loads st.emitted st.sorted).map fun r => (r.1, { st with emitted := r.2 })

/-! ## The stream -/

variable [Zero N]

def noTokens : Tokens N := ⟨0, 0, 0, 0, 0, 0⟩

def CompletionChunk.tokens (chunk : CompletionChunk N) : Tokens N :=
  match chunk.usage with
  | none => noTokens
  | some u => {
      input := u.inputTokens
      output := u.outputTokens
      nucliaInput := u.nucliaInputTokens.getD 0
      nucliaOutput := u.nucliaOutputTokens.getD 0
      modelInput := u.modelInputTokens.getD 0
      modelOutput := u.modelOutputTokens.getD 0 }

/-- The first string that is not empty. -/
def firstText (s t : Option Str) : Str :=
  match s with
  | none | some [] => t.getD []
  | some s => s

/-- What is yielded for a choice. -/
def choiceDelta (chunk : CompletionChunk N) (choice : CompletionChoice)
    (calls : List (HarnessToolCall F)) : ModelDelta F N where
  text := firstText choice.delta.content choice.delta.refusal
  reasoning := choice.delta.reasoningContent.getD []
  toolCalls := calls
  tokens := chunk.tokens
  traceId := chunk.id
  model := chunk.model

/-- The calls that are emitted with a choice. -/
def CallState.finish (st : CallState) (finishReason : Option Str) :
    Except (String × String) (List (HarnessToolCall F) × CallState) :=
  if finishReason = some (.ofString "tool_calls") then st.complete loads else .ok ([], st)

/-- What is yielded for the choices of a chunk, and the state after them. -/
def onChoices (chunk : CompletionChunk N) (st : CallState) :
    List CompletionChoice → List (ModelDelta F N) × Except (String × String) CallState
  | [] => ([], .ok st)
  | choice :: choices =>
    match (choice.delta.toolCalls.foldl CallState.receive st).finish loads choice.finishReason with
    | .error e => ([], .error e)
    | .ok (calls, st) =>
      (choiceDelta chunk choice calls :: (onChoices chunk st choices).1,
        (onChoices chunk st choices).2)

/-- What is yielded for a chunk, and the state after it. -/
def onChunk (chunk : CompletionChunk N) (st : CallState) :
    List (ModelDelta F N) × Except (String × String) CallState :=
  if chunk.choices = [] then
    ([{ tokens := chunk.tokens, traceId := chunk.id, model := chunk.model }], .ok st)
  else onChoices loads chunk st chunk.choices

/-- What is yielded after the last chunk, and what is raised. -/
def remaining (st : CallState) : List (ModelDelta F N) × Option (String × String) :=
  match st.complete loads with
  | .error e => ([], some e)
  | .ok (calls, _) =>
    (if calls = [] then [] else [{ toolCalls := calls, tokens := noTokens }], none)

/-- What `NucliaModelClient.stream` yields and raises, given the chunks of the client and what it
    fails with after them. -/
def deltas (failure : Option (String × String)) (st : CallState) :
    List (CompletionChunk N) → List (ModelDelta F N) × Option (String × String)
  | [] =>
    match failure with
    | some e => ([], some e)
    | none => remaining loads st
  | chunk :: chunks =>
    match onChunk loads chunk st with
    | (yields, .error e) => (yields, some e)
    | (yields, .ok st) => (yields ++ (deltas failure st chunks).1, (deltas failure st chunks).2)

/-- `NucliaModelClient.stream` -/
def modelStream (failure : Option (String × String)) (chunks : List (CompletionChunk N)) :
    List (ModelDelta F N) × Option (String × String) := deltas loads failure {} chunks

/-! ## What has been received -/

/-- The fragments of the call of an index. -/
def ofIndex (i : ℤ) (ds : List ToolCallDelta) : List ToolCallDelta := ds.filter (·.index = i)

def ToolCallDelta.nameText (d : ToolCallDelta) : Str := (d.function.bind (·.name)).getD []

def ToolCallDelta.argumentsText (d : ToolCallDelta) : Str := (d.function.bind (·.arguments)).getD []

theorem foldl_receive_name (ds : List ToolCallDelta) (p : PendingCall) :
    (ds.foldl PendingCall.receive p).name = p.name ++ ds.flatMap (·.nameText) := by
  induction ds generalizing p with
  | nil => exact (List.append_nil _).symm
  | cons d ds ih =>
    rw [List.foldl_cons, ih, List.flatMap_cons, ← List.append_assoc]
    rfl

theorem foldl_receive_arguments (ds : List ToolCallDelta) (p : PendingCall) :
    (ds.foldl PendingCall.receive p).arguments = p.arguments ++ ds.flatMap (·.argumentsText) := by
  induction ds generalizing p with
  | nil => exact (List.append_nil _).symm
  | cons d ds ih =>
    rw [List.foldl_cons, ih, List.flatMap_cons, ← List.append_assoc]
    rfl

theorem receive_id {d : ToolCallDelta} {p : PendingCall} {id : Str}
    (hd : d.id = none ∨ d.id = some [] ∨ d.id = some id) :
    (p.receive d).id = if d.id = some id ∧ id ≠ [] then id else p.id := by
  rcases hd with hd | hd | hd <;> cases id <;> simp [PendingCall.receive, hd]

/-- Once the identifier has been received, it stays. -/
theorem foldl_receive_id {ds : List ToolCallDelta} {p : PendingCall} {id : Str}
    (hd : ∀ d ∈ ds, d.id = none ∨ d.id = some [] ∨ d.id = some id)
    (hid : p.id = id ∨ p.id = [] ∧ (id ≠ [] → ∃ d ∈ ds, d.id = some id)) :
    (ds.foldl PendingCall.receive p).id = id := by
  induction ds generalizing p with
  | nil =>
    rcases hid with hid | ⟨hp, hid⟩
    · exact hid
    · by_contra hne
      rw [List.foldl_nil, hp] at hne
      obtain ⟨d, hmem, -⟩ := hid (Ne.symm hne)
      exact List.not_mem_nil hmem
  | cons d ds ih =>
    have hreceive := receive_id (p := p) (hd d List.mem_cons_self)
    refine ih (fun e he => hd e (List.mem_cons_of_mem _ he)) ?_
    split_ifs at hreceive with hsome
    · exact .inl hreceive
    -- this fragment leaves the identifier as it is
    refine hid.imp hreceive.trans fun ⟨hp, hex⟩ => ⟨hreceive.trans hp, fun hne => ?_⟩
    obtain ⟨e, he, heq⟩ := hex hne
    rcases List.mem_cons.1 he with rfl | he
    · exact absurd ⟨heq, hne⟩ hsome
    · exact ⟨e, he, heq⟩

/-- What is pending under an index is what its fragments make. -/
theorem lookup_foldl_receive (ds : List ToolCallDelta) (st : CallState) (i : ℤ) :
    ((ds.foldl CallState.receive st).pending.lookup i).getD {} =
      (ofIndex i ds).foldl PendingCall.receive ((st.pending.lookup i).getD {}) := by
  induction ds generalizing st with
  | nil => rfl
  | cons d ds ih =>
    rw [List.foldl_cons, ih, CallState.receive, lookup_assign, ofIndex, ofIndex,
      List.filter_cons]
    by_cases h : d.index = i
    · rw [if_pos h, if_pos (decide_eq_true h), List.foldl_cons, h, Option.getD_some]
    · rw [if_neg h, if_neg (by rwa [decide_eq_true_eq])]

theorem nodup_foldl_receive (ds : List ToolCallDelta) (st : CallState)
    (h : (st.pending.map Prod.fst).Nodup) :
    ((ds.foldl CallState.receive st).pending.map Prod.fst).Nodup := by
  induction ds generalizing st with
  | nil => exact h
  | cons d ds ih => exact ih _ (nodup_assign h _ _)

theorem foldl_receive_emitted (ds : List ToolCallDelta) (st : CallState) :
    (ds.foldl CallState.receive st).emitted = st.emitted := by
  induction ds generalizing st with
  | nil => rfl
  | cons d ds ih => exact ih _

/-! ## Requested calls -/

/-- A call as the model means it. -/
structure RequestedCall where
  index : ℤ
  id : Str
  name : Str
  arguments : Str

def RequestedCall.entry (c : RequestedCall) : ℤ × PendingCall :=
  (c.index, ⟨c.id, c.name, c.arguments⟩)

def CompletionChunk.fragments (chunk : CompletionChunk N) : List ToolCallDelta :=
  chunk.choices.flatMap (·.delta.toolCalls)

def CompletionChunk.Finishes (chunk : CompletionChunk N) : Prop :=
  ∃ choice ∈ chunk.choices, choice.finishReason = some (.ofString "tool_calls")

/-- The chunks, of one choice each, have the fragments of the calls, none of them after a choice
    that finishes with `tool_calls`. -/
structure Delivers (calls : List RequestedCall) (chunks : List (CompletionChunk N)) : Prop where
  choices : ∀ chunk ∈ chunks, chunk.choices.length ≤ 1
  finish : chunks.Pairwise fun chunk later => chunk.Finishes → later.fragments = []
  index : ∀ d ∈ chunks.flatMap (·.fragments), ∃ c ∈ calls, c.index = d.index
  name : ∀ c ∈ calls,
    (ofIndex c.index (chunks.flatMap (·.fragments))).flatMap (·.nameText) = c.name
  arguments : ∀ c ∈ calls,
    (ofIndex c.index (chunks.flatMap (·.fragments))).flatMap (·.argumentsText) = c.arguments
  id : ∀ c ∈ calls, ∀ d ∈ ofIndex c.index (chunks.flatMap (·.fragments)),
    d.id = none ∨ d.id = some [] ∨ d.id = some c.id
  exists_id : ∀ c ∈ calls, c.id ≠ [] →
    ∃ d ∈ ofIndex c.index (chunks.flatMap (·.fragments)), d.id = some c.id

/-- The calls that have a name, in the order of their indexes. -/
def sortedCalls (calls : List RequestedCall) : List RequestedCall :=
  (calls.filter (·.name ≠ [])).insertionSort fun c d => c.index ≤ d.index

variable {calls : List RequestedCall} {chunks : List (CompletionChunk N)}

omit [Zero N] in
theorem Delivers.foldl_receive (h : Delivers calls chunks) {c : RequestedCall} (hc : c ∈ calls) :
    (ofIndex c.index (chunks.flatMap (·.fragments))).foldl PendingCall.receive {} = c.entry.2 := by
  have hid := foldl_receive_id (p := {}) (h.id c hc) (.inr ⟨rfl, h.exists_id c hc⟩)
  have hname := foldl_receive_name (ofIndex c.index (chunks.flatMap (·.fragments))) {}
  have harguments := foldl_receive_arguments (ofIndex c.index (chunks.flatMap (·.fragments))) {}
  rw [h.name c hc, List.nil_append] at hname
  rw [h.arguments c hc, List.nil_append] at harguments
  rw [RequestedCall.entry, ← hid, ← hname, ← harguments]

omit [Zero N] in
/-- The entries that have a name are those of the calls that have one. -/
theorem Delivers.mem_iff (h : Delivers calls chunks) {m : ℤ × PendingCall} (hm : m.2.name ≠ []) :
    m ∈ ((chunks.flatMap (·.fragments)).foldl CallState.receive {}).pending ↔
      m ∈ calls.map (·.entry) := by
  set ds := chunks.flatMap (·.fragments) with hds
  have hnodup := nodup_foldl_receive ds {} List.nodup_nil
  have hlookup := lookup_foldl_receive ds {} m.1
  constructor
  · intro hmem
    rw [lookup_of_mem hnodup hmem, Option.getD_some] at hlookup
    -- a name comes from a fragment, and a fragment from a call
    obtain ⟨d, hd⟩ : ∃ d, d ∈ ofIndex m.1 ds := by
      refine List.exists_mem_of_ne_nil _ fun hnil => hm ?_
      rw [hlookup, hnil]
      rfl
    obtain ⟨hd, hindex⟩ := List.mem_filter.1 hd
    obtain ⟨c, hc, heq⟩ := h.index d hd
    rw [decide_eq_true_eq, ← heq] at hindex
    refine List.mem_map.2 ⟨c, hc, Prod.ext hindex ?_⟩
    rw [hlookup, ← hindex]
    exact (h.foldl_receive hc).symm
  · intro hmem
    obtain ⟨c, hc, rfl⟩ := List.mem_map.1 hmem
    have hfold : _ = c.entry.2 := hlookup.trans (h.foldl_receive hc)
    refine mem_of_lookup (k := c.entry.1) (x := c.entry.2) ?_
    rcases hpending : (ds.foldl CallState.receive {}).pending.lookup c.entry.1 with _ | p
    · rw [hpending] at hfold
      exact absurd (congrArg PendingCall.name hfold.symm) hm
    · rw [hpending] at hfold
      exact congrArg some hfold

theorem RequestedCall.entry_injective : Function.Injective RequestedCall.entry := by
  rintro ⟨i, a, b, c⟩ ⟨i', a', b', c'⟩ h
  simp only [RequestedCall.entry, Prod.mk.injEq, PendingCall.mk.injEq] at h
  obtain ⟨rfl, rfl, rfl, rfl⟩ := h
  rfl

omit [Zero N] in
/-- The entries that have a name, in order, are those of the calls. -/
theorem Delivers.filter_sorted (h : Delivers calls chunks)
    (hcalls : (calls.map (·.index)).Nodup) :
    (((chunks.flatMap (·.fragments)).foldl CallState.receive {}).sorted.filter (·.2.name ≠ [])) =
      (sortedCalls calls).map (·.entry) := by
  set st := (chunks.flatMap (·.fragments)).foldl CallState.receive {} with hst
  have hnodup : (st.pending.map Prod.fst).Nodup := nodup_foldl_receive _ _ List.nodup_nil
  have hperm : (st.sorted.filter (·.2.name ≠ [])).Perm ((sortedCalls calls).map (·.entry)) := by
    refine (List.perm_ext_iff_of_nodup ?_ ?_).2 fun m => ?_
    · exact (((List.perm_insertionSort _ _).nodup_iff).2 (List.Nodup.of_map _ hnodup)).filter _
    · refine List.Nodup.map RequestedCall.entry_injective ?_
      exact ((List.perm_insertionSort _ _).nodup_iff).2 ((List.Nodup.of_map _ hcalls).filter _)
    · rw [List.mem_filter, CallState.sorted, List.mem_insertionSort, decide_eq_true_eq, sortedCalls,
        List.mem_map]
      simp only [List.mem_insertionSort, List.mem_filter, decide_eq_true_eq]
      constructor
      · rintro ⟨hm, hname⟩
        obtain ⟨c, hc, rfl⟩ := List.mem_map.1 ((h.mem_iff hname).1 hm)
        exact ⟨c, ⟨hc, hname⟩, rfl⟩
      · rintro ⟨c, ⟨hc, hname⟩, rfl⟩
        exact ⟨(h.mem_iff hname).2 (List.mem_map_of_mem hc), hname⟩
  have hsorted : ((sortedCalls calls).map (·.entry)).Pairwise fun p q => p.1 ≤ q.1 :=
    List.pairwise_map.2 (List.pairwise_insertionSort _ _)
  refine hperm.eq_of_pairwise (fun m n hm hn hmn hnm => ?_) ?_ hsorted
  · -- the order is one of indexes, which are distinct
    have hn := (List.mem_filter.1 (hperm.mem_iff.2 hn)).1
    have hm := (List.mem_filter.1 hm).1
    rw [CallState.sorted, List.mem_insertionSort] at hm hn
    exact List.inj_on_of_nodup_map hnodup hm hn (le_antisymm hmn hnm)
  · exact (List.pairwise_insertionSort _ _).filter _

/-! ## Completion -/

/-- The call that is emitted for an entry. -/
def completedCall (m : ℤ × PendingCall) : Except (String × String) (HarnessToolCall F) :=
  (parseArguments loads m.2.arguments).map fun arguments => ⟨orNone m.2.id, m.2.name, arguments⟩

/-- The calls that are emitted for those that were requested. -/
def completedCalls (calls : List RequestedCall) :
    Except (String × String) (List (HarnessToolCall F)) :=
  (sortedCalls calls).mapM (completedCall loads ∘ RequestedCall.entry)

variable {loads}

variable (loads) in
/-- The calls that are emitted are those of the entries that have a name. -/
theorem completeFrom_eq {emitted : List ℤ} {entries : List (ℤ × PendingCall)}
    (h : ∀ m ∈ entries, m.1 ∉ emitted) (hn : (entries.map Prod.fst).Nodup) :
    completeFrom loads emitted entries =
      ((entries.filter (·.2.name ≠ [])).mapM (completedCall loads)).map
        fun calls => (calls, emitted ++ (entries.filter (·.2.name ≠ [])).map Prod.fst) := by
  induction entries generalizing emitted with
  | nil => rw [completeFrom, List.filter_nil, List.map_nil, List.append_nil]; rfl
  | cons m entries ih =>
    obtain ⟨index, p⟩ := m
    rw [List.forall_mem_cons] at h
    rw [List.map_cons, List.nodup_cons] at hn
    rw [completeFrom, List.filter_cons]
    by_cases hp : p.name = []
    · rw [if_pos (.inr hp), if_neg (by simpa using hp), ih h.2 hn.2]
    have hentries : ∀ m ∈ entries, m.1 ∉ emitted ++ [index] := fun m hm hmem => by
      rcases List.mem_append.1 hmem with hmem | hmem
      · exact h.2 m hm hmem
      · exact hn.1 (List.mem_map.2 ⟨m, hm, List.mem_singleton.1 hmem⟩)
    rw [if_neg (by simp [h.1, hp]), if_pos (by simpa using hp), List.mapM_cons, ih hentries hn.2,
      completedCall]
    rcases parseArguments loads p.arguments with e | arguments
    · rfl
    generalize (entries.filter _).mapM (completedCall loads) = calls
    rcases calls with e | calls
    · rfl
    · have hemitted (is : List ℤ) : emitted ++ [index] ++ is = emitted ++ index :: is :=
        (List.append_cons emitted index is).symm
      simp only [hemitted]
      rfl

/-- Entries that have been emitted are not emitted again. -/
theorem completeFrom_of_mem {emitted : List ℤ} {entries : List (ℤ × PendingCall)}
    (h : ∀ m ∈ entries, m.2.name ≠ [] → m.1 ∈ emitted) :
    completeFrom loads emitted entries = .ok ([], emitted) := by
  induction entries with
  | nil => rfl
  | cons m entries ih =>
    rw [List.forall_mem_cons] at h
    rw [completeFrom, if_pos (by tauto), ih h.2]

theorem mem_of_completeFrom {emitted emitted' : List ℤ} {entries : List (ℤ × PendingCall)}
    {completed : List (HarnessToolCall F)}
    (h : completeFrom loads emitted entries = .ok (completed, emitted')) :
    emitted ⊆ emitted' ∧ ∀ m ∈ entries, m.2.name ≠ [] → m.1 ∈ emitted' := by
  induction entries generalizing emitted completed with
  | nil =>
    obtain ⟨-, rfl⟩ := Prod.mk.inj (Except.ok.inj h)
    exact ⟨List.Subset.refl _, fun _ hm => absurd hm List.not_mem_nil⟩
  | cons m entries ih =>
    obtain ⟨index, p⟩ := m
    rw [completeFrom] at h
    split_ifs at h with hskip
    · obtain ⟨hsub, hmem⟩ := ih h
      refine ⟨hsub, List.forall_mem_cons.2 ⟨fun hname => ?_, hmem⟩⟩
      exact hsub (hskip.resolve_right hname)
    · rcases hparse : parseArguments loads p.arguments with e | arguments
      · simp [hparse, bind, Except.bind] at h
      rcases hrest : completeFrom loads (emitted ++ [index]) entries with e | ⟨calls, last⟩
      · simp [hparse, hrest, bind, Except.bind] at h
      simp only [hparse, hrest, bind, Except.bind, pure, Except.pure, Except.ok.injEq,
        Prod.mk.injEq] at h
      obtain ⟨-, rfl⟩ := h
      obtain ⟨hsub, hmem⟩ := ih hrest
      exact ⟨fun i hi => hsub (List.mem_append_left _ hi), List.forall_mem_cons.2
        ⟨fun _ => hsub (List.mem_append_right _ List.mem_cons_self), hmem⟩⟩

/-- After the calls have been completed, none is left. -/
theorem CallState.complete_complete {st st' : CallState} {completed : List (HarnessToolCall F)}
    (h : st.complete loads = .ok (completed, st')) : st'.complete loads = .ok ([], st') := by
  rw [CallState.complete] at h
  rcases hfrom : completeFrom loads st.emitted st.sorted with e | ⟨calls, emitted⟩
  · rw [hfrom] at h
    cases h
  rw [hfrom] at h
  obtain ⟨-, rfl⟩ := Prod.mk.inj (Except.ok.inj h)
  have hmem := (mem_of_completeFrom hfrom).2
  have hagain : completeFrom loads emitted st.sorted = .ok ([], emitted) :=
    completeFrom_of_mem hmem
  rw [CallState.complete]
  exact congrArg (Except.map _) hagain

/-! ## What a stream emits -/

/-- The calls that are emitted in total, and what is raised. -/
def emission (r : List (ModelDelta F N) × Option (String × String)) :
    List (HarnessToolCall F) × Option (String × String) := (r.1.flatMap (·.toolCalls), r.2)

/-- All the calls, emitted at once. -/
def completed : Except (String × String) (List (HarnessToolCall F) × CallState) →
    List (HarnessToolCall F) × Option (String × String)
  | .error e => ([], some e)
  | .ok (calls, _) => (calls, none)

theorem emission_remaining (st : CallState) :
    emission (remaining (N := N) loads st) = completed (st.complete loads) := by
  rw [remaining]
  rcases st.complete loads with e | ⟨calls, st'⟩
  · rfl
  rcases calls with _ | ⟨call, calls⟩
  · rfl
  · simp [emission, completed]

omit [Zero N] in
theorem fragments_singleton {chunk : CompletionChunk N} {choice : CompletionChoice}
    (h : chunk.choices = [choice]) : chunk.fragments = choice.delta.toolCalls := by
  rw [CompletionChunk.fragments, h, List.flatMap_singleton]

/-- A stream goes on after a chunk that has no choice. -/
theorem emission_deltas_nil {chunk : CompletionChunk N} (h : chunk.choices = [])
    (st : CallState) (chunks : List (CompletionChunk N)) :
    emission (deltas loads none st (chunk :: chunks)) = emission (deltas loads none st chunks) := by
  rw [deltas, onChunk, if_pos h]
  rfl

/-- A stream after a chunk that has one. -/
theorem emission_deltas_singleton {chunk : CompletionChunk N} {choice : CompletionChoice}
    (h : chunk.choices = [choice]) (st : CallState) (chunks : List (CompletionChunk N)) :
    emission (deltas loads none st (chunk :: chunks)) =
      match (chunk.fragments.foldl CallState.receive st).finish loads choice.finishReason with
      | .error e => ([], some e)
      | .ok (calls, st') => (calls ++ (emission (deltas loads none st' chunks)).1,
          (emission (deltas loads none st' chunks)).2) := by
  rw [deltas, onChunk, if_neg (h ▸ List.cons_ne_nil _ _), h, onChoices, fragments_singleton h]
  rcases (choice.delta.toolCalls.foldl CallState.receive st).finish loads choice.finishReason with
    e | ⟨calls, st'⟩
  · rfl
  · rfl

/-- Nothing is emitted any more. -/
theorem emission_deltas_of_completed {st : CallState} (hst : st.complete loads = .ok ([], st))
    (hchoices : ∀ chunk ∈ chunks, chunk.choices.length ≤ 1)
    (h : ∀ chunk ∈ chunks, chunk.fragments = []) :
    emission (deltas loads none st chunks) = ([], none) := by
  induction chunks with
  | nil => rw [deltas, emission_remaining, hst]; rfl
  | cons chunk chunks ih =>
    rw [List.forall_mem_cons] at hchoices h
    have hrest := ih hchoices.2 h.2
    rcases hchoice : chunk.choices with _ | ⟨choice, _ | _⟩
    · rw [emission_deltas_nil hchoice, hrest]
    · have hfinish : st.finish loads choice.finishReason = .ok ([], st) := by
        rw [CallState.finish, hst, ite_self]
      rw [emission_deltas_singleton hchoice, h.1, List.foldl_nil, hfinish]
      exact hrest
    · rw [hchoice] at hchoices
      simp at hchoices

/-- A stream emits the calls that all its fragments make. -/
theorem emission_deltas {st : CallState}
    (hchoices : ∀ chunk ∈ chunks, chunk.choices.length ≤ 1)
    (hfinish : chunks.Pairwise fun chunk later => chunk.Finishes → later.fragments = []) :
    emission (deltas loads none st chunks) =
      completed (((chunks.flatMap (·.fragments)).foldl CallState.receive st).complete loads) := by
  induction chunks generalizing st with
  | nil => rw [deltas, emission_remaining, List.flatMap_nil, List.foldl_nil]
  | cons chunk chunks ih =>
    rw [List.forall_mem_cons] at hchoices
    rw [List.pairwise_cons] at hfinish
    rw [List.flatMap_cons, List.foldl_append]
    rcases hchoice : chunk.choices with _ | ⟨choice, _ | _⟩
    · rw [emission_deltas_nil hchoice, ih hchoices.2 hfinish.2, CompletionChunk.fragments, hchoice]
      rfl
    · rw [emission_deltas_singleton hchoice, CallState.finish]
      generalize chunk.fragments.foldl CallState.receive st = st'
      by_cases hreason : choice.finishReason = some (.ofString "tool_calls")
      · -- the calls are emitted here, and there is nothing after them
        have hnone : ∀ later ∈ chunks, later.fragments = [] := fun later hlater =>
          hfinish.1 later hlater ⟨choice, hchoice ▸ List.mem_cons_self, hreason⟩
        rw [if_pos hreason, List.flatMap_eq_nil_iff.2 hnone, List.foldl_nil]
        rcases hcomplete : st'.complete loads with e | ⟨calls, st''⟩
        · rfl
        · have hrest := emission_deltas_of_completed (N := N)
            (CallState.complete_complete hcomplete) hchoices.2 hnone
          simp only [hrest, List.append_nil, completed]
      · rw [if_neg hreason]
        exact ih hchoices.2 hfinish.2
    · rw [hchoice] at hchoices
      simp at hchoices

/-! ## Calls that are assembled -/

/-- The arguments of a call, given the text that is read for them. -/
inductive Arguments (loads : Str → Except LoadsError (Json.Tree F)) (text : Str) : Object F → Prop
  | parsed {arguments : Object F} (h : loads text = .ok (.obj arguments)) :
    Arguments loads text arguments
  | notObject {x : Json.Tree F} (h : loads text = .ok x) (hx : ∀ arguments, x ≠ .obj arguments) :
    Arguments loads text (toolError (.ofString "Tool arguments must decode to a JSON object"))
  | malformed {message : Str} (h : loads text = .error (.decode message)) :
    Arguments loads text (toolError (.ofString "Malformed tool arguments: " ++ message))

/-- A call is emitted for the one that was requested. -/
structure Emits (loads : Str → Except LoadsError (Json.Tree F)) (c : RequestedCall)
    (call : HarnessToolCall F) : Prop where
  id : call.id = orNone c.id
  name : call.name = c.name
  arguments : Arguments loads (argumentsText c.arguments) call.arguments

/-- The calls that have a name, and no others, are emitted in order, and nothing is raised. -/
def Assembled (loads : Str → Except LoadsError (Json.Tree F)) (calls : List RequestedCall)
    (r : List (ModelDelta F N) × Option (String × String)) : Prop :=
  List.Forall₂ (Emits loads) (sortedCalls calls) (emission r).1 ∧ (emission r).2 = none

theorem parseArguments_eq_ok {text : Str} {arguments : Object F} :
    parseArguments loads text = .ok arguments ↔
      Arguments loads (argumentsText text) arguments := by
  rw [parseArguments]
  constructor
  · intro h
    split at h <;> rename_i hloads
    · obtain rfl := Except.ok.inj h
      exact .parsed hloads
    · rename_i hne
      obtain rfl := Except.ok.inj h
      exact .notObject hloads fun arguments heq => hne arguments heq
    · obtain rfl := Except.ok.inj h
      exact .malformed hloads
    · cases h
  · rintro (h | ⟨h, hx⟩ | h)
    · rw [h]
    · rw [h]
      split <;> simp_all
    · rw [h]

theorem exists_parseArguments {text : Str} :
    (∃ arguments, parseArguments loads text = .ok arguments) ↔
      ∀ type message, loads (argumentsText text) ≠ .error (.other type message) := by
  rw [parseArguments]
  split <;> simp_all

theorem completedCall_eq_ok {c : RequestedCall} {call : HarnessToolCall F} :
    completedCall loads c.entry = .ok call ↔ Emits loads c call := by
  rw [completedCall]
  constructor
  · intro h
    rcases hparse : parseArguments loads c.entry.2.arguments with e | arguments
    · rw [hparse] at h
      cases h
    rw [hparse] at h
    obtain rfl := Except.ok.inj h
    exact ⟨rfl, rfl, parseArguments_eq_ok.1 hparse⟩
  · rintro ⟨hid, hname, harguments⟩
    obtain ⟨id, name, arguments⟩ := call
    obtain ⟨rfl, rfl⟩ : id = orNone c.id ∧ name = c.name := ⟨hid, hname⟩
    rw [RequestedCall.entry, parseArguments_eq_ok.2 harguments]
    rfl

variable (loads) in
omit [Zero N] in
/-- What is emitted is given by the calls. -/
theorem Delivers.complete (h : Delivers calls chunks) (hcalls : (calls.map (·.index)).Nodup) :
    ∃ st : CallState, (((chunks.flatMap (·.fragments)).foldl CallState.receive {}).complete loads) =
      (completedCalls loads calls).map fun r => (r, st) := by
  set st := (chunks.flatMap (·.fragments)).foldl CallState.receive {} with hst
  have hnodup : (st.sorted.map Prod.fst).Nodup :=
    (((List.perm_insertionSort _ _).map _).nodup_iff).2 (nodup_foldl_receive _ _ List.nodup_nil)
  have hemitted : st.emitted = [] := foldl_receive_emitted _ _
  have hnone : ∀ m ∈ st.sorted, m.1 ∉ st.emitted := fun m _ => hemitted ▸ List.not_mem_nil
  have hfrom := completeFrom_eq loads hnone hnodup
  rw [h.filter_sorted hcalls, List.mapM_map, ← completedCalls] at hfrom
  refine ⟨{ st with emitted := st.emitted ++ (sortedCalls calls).map (·.index) }, ?_⟩
  rw [CallState.complete, hfrom, List.map_map]
  rcases completedCalls loads calls with e | r
  · rfl
  · rfl

theorem Delivers.emission_eq (h : Delivers calls chunks) (hcalls : (calls.map (·.index)).Nodup) :
    emission (modelStream loads none chunks) =
      match completedCalls loads calls with
      | .error e => ([], some e)
      | .ok r => (r, none) := by
  obtain ⟨st, hst⟩ := h.complete loads hcalls
  rw [modelStream, emission_deltas h.choices h.finish, hst]
  rcases completedCalls loads calls with e | r
  · rfl
  · rfl

theorem assembled_iff_exists (h : Delivers calls chunks) (hcalls : (calls.map (·.index)).Nodup) :
    Assembled loads calls (modelStream loads none chunks) ↔
      ∃ r, completedCalls loads calls = .ok r := by
  rw [Assembled, h.emission_eq hcalls]
  constructor
  · rintro ⟨-, hnone⟩
    rcases hr : completedCalls loads calls with e | r
    · rw [hr] at hnone
      cases hnone
    · exact ⟨r, rfl⟩
  · rintro ⟨r, hr⟩
    rw [hr]
    exact ⟨(Crash.mapM_eq_ok.1 hr).imp fun c call hcall => completedCall_eq_ok.1 hcall, rfl⟩

theorem exists_completedCall {c : RequestedCall} :
    (∃ call, completedCall loads c.entry = .ok call) ↔
      ∀ type message, loads (argumentsText c.arguments) ≠ .error (.other type message) := by
  rw [← exists_parseArguments]
  constructor
  · rintro ⟨call, hcall⟩
    exact ⟨call.arguments, parseArguments_eq_ok.2 (completedCall_eq_ok.1 hcall).arguments⟩
  · rintro ⟨arguments, harguments⟩
    exact ⟨⟨orNone c.id, c.name, arguments⟩,
      completedCall_eq_ok.2 ⟨rfl, rfl, parseArguments_eq_ok.1 harguments⟩⟩

theorem assembled_iff (h : Delivers calls chunks) (hcalls : (calls.map (·.index)).Nodup) :
    Assembled loads calls (modelStream loads none chunks) ↔
      ∀ c ∈ calls, c.name ≠ [] → ∀ type message,
        loads (argumentsText c.arguments) ≠ .error (.other type message) := by
  rw [assembled_iff_exists h hcalls, completedCalls, Crash.exists_mapM_iff]
  simp only [Function.comp_apply, exists_completedCall, sortedCalls, List.mem_insertionSort,
    List.mem_filter, decide_eq_true_eq, and_imp]

/-- Whatever the fragments of the calls are, these are assembled if and only if reading their
    arguments raises nothing else than a `JSONDecodeError`; and what is emitted depends on the calls
    only. -/
theorem toolCalls_iff (loads : Str → Except LoadsError (Json.Tree F)) {calls : List RequestedCall}
    (hcalls : (calls.map (·.index)).Nodup) {chunks : List (CompletionChunk N)}
    (h : Delivers calls chunks) :
    (Assembled loads calls (modelStream loads none chunks) ↔
      ∀ c ∈ calls, c.name ≠ [] → ∀ type message,
        loads (argumentsText c.arguments) ≠ .error (.other type message)) ∧
    ∀ chunks' : List (CompletionChunk N), Delivers calls chunks' →
      emission (modelStream loads none chunks') = emission (modelStream loads none chunks) :=
  ⟨assembled_iff h hcalls, fun chunks' h' => by rw [h.emission_eq hcalls, h'.emission_eq hcalls]⟩

/-- A call of the tool `lookup`. -/
def lookupCall (arguments : Str) : RequestedCall :=
  ⟨0, .ofString "call_1", .ofString "lookup", arguments⟩

/-- The call, in one fragment. -/
def lookupChunk (arguments : Str) : CompletionChunk ℕ where
  id := none
  choices := [{
    delta := {
      content := none
      reasoningContent := none
      refusal := none
      toolCalls :=
        [⟨0, some (.ofString "call_1"), some ⟨some (.ofString "lookup"), some arguments⟩⟩] }
    finishReason := some (.ofString "tool_calls") }]
  model := none
  usage := none

theorem delivers_lookupChunk (arguments : Str) :
    Delivers [lookupCall arguments] [lookupChunk arguments] where
  choices := List.forall_mem_singleton.2 (Nat.le_refl 1)
  finish := List.pairwise_singleton _ _
  index := by simp [lookupCall, lookupChunk, CompletionChunk.fragments]
  name := by simp [lookupCall, lookupChunk, CompletionChunk.fragments, ofIndex,
    ToolCallDelta.nameText]
  arguments := by simp [lookupCall, lookupChunk, CompletionChunk.fragments, ofIndex,
    ToolCallDelta.argumentsText]
  id := by simp [lookupCall, lookupChunk, CompletionChunk.fragments, ofIndex]
  exists_id := by simp [lookupCall, lookupChunk, CompletionChunk.fragments, ofIndex]

theorem toolCalls_lookup : Assembled (F := Unit) (fun _ => .ok (.obj [])) [lookupCall []]
    (modelStream (fun _ => .ok (.obj [])) none [lookupChunk []]) :=
  have hcalls : ([lookupCall []].map (·.index)).Nodup := List.nodup_singleton _
  (toolCalls_iff _ hcalls (delivers_lookupChunk [])).1.2 fun _ _ _ _ _ => nofun

/-- `json.loads`, the messages of its decode errors left out: it raises a `ValueError` for an
    integer of more than 4300 digits. -/
def pythonLoads (φ : FloatFormat F) (text : Str) : Except LoadsError (Json.Tree F) :=
  match Json.loads φ 4300 text, Json.loads φ text.length text with
  | some x, _ => .ok x
  | none, some _ => .error (.other "ValueError"
    "Exceeds the limit (4300 digits) for integer string conversion")
  | none, none => .error (.decode [])

def onesText (n : ℕ) : Str := chars (List.replicate n '1')

theorem loads_ones (φ : FloatFormat F) (maxDigits n : ℕ) :
    (Json.loads φ maxDigits (onesText (n + 1))).isSome = decide (n + 1 ≤ maxDigits) := by
  set l : Literal := ⟨[], List.replicate (n + 1) '1', [], []⟩ with hl
  have hwell : l.WellFormed := by
    refine ⟨.inl rfl, ⟨List.cons_ne_nil _ _, fun c hc => ?_⟩,
      .inr (by simp [hl, List.replicate_succ]), .inl rfl, .inl rfl⟩
    rw [List.eq_of_mem_replicate hc]
    rfl
  have htext : onesText (n + 1) = chars l.text ++ [] := by simp [onesText, hl, Literal.text]
  have hskip : skip (onesText (n + 1)) = onesText (n + 1) := rfl
  have hstops : Stops [] := trivial
  rw [Json.loads, hskip, htext, value_literal hwell _ hstops]
  have hint : l.IsInt := ⟨rfl, rfl⟩
  have hlength : l.integer.length = n + 1 := List.length_replicate
  rw [if_pos hint, hlength]
  by_cases h : n + 1 ≤ maxDigits
  · simp [h, skip]
  · simp [h]

theorem pythonLoads_ones (φ : FloatFormat F) :
    pythonLoads φ (onesText 4301) = .error (.other "ValueError"
      "Exceeds the limit (4300 digits) for integer string conversion") := by
  have hlimit : Json.loads φ 4300 (onesText 4301) = none := by
    rw [← Option.not_isSome_iff_eq_none, loads_ones φ 4300 4300]
    simp
  have hlength : (onesText 4301).length = 4301 := by
    rw [onesText, chars, List.length_map, List.length_replicate]
  obtain ⟨x, hx⟩ : ∃ x, Json.loads φ 4301 (onesText 4301) = some x := by
    rw [← Option.isSome_iff_exists, loads_ones φ 4301 4300]
    simp
  rw [pythonLoads, hlimit, hlength, hx]

/-- A format without finite floats. -/
def zeroFloats : FloatFormat ℤ where
  isFinite _ := false
  repr _ := []
  read _ := 0
  literal _ h := absurd h Bool.false_ne_true
  read_repr _ h := absurd h Bool.false_ne_true

theorem toolCalls_long_integer :
    Delivers [lookupCall (onesText 4301)] [lookupChunk (onesText 4301)] ∧
      ¬Assembled (pythonLoads zeroFloats) [lookupCall (onesText 4301)]
        (modelStream (pythonLoads zeroFloats) none [lookupChunk (onesText 4301)]) := by
  have h := delivers_lookupChunk (onesText 4301)
  refine ⟨h, fun hassembled => ?_⟩
  have hloads := (assembled_iff h (List.nodup_singleton _)).1 hassembled _ List.mem_cons_self
    (by simp [lookupCall, Str.ofString]) "ValueError"
      "Exceeds the limit (4300 digits) for integer string conversion"
  have htext : argumentsText (onesText 4301) = onesText 4301 := if_neg (List.cons_ne_nil _ _)
  rw [lookupCall, htext] at hloads
  exact hloads (pythonLoads_ones zeroFloats)

end Hyperforge.HarnessSdk
