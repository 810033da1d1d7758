import Hyperforge.Contexts
import Hyperforge.Library.Json.Dict
import Hyperforge.Procedural.Graph
import Mathlib.Data.List.Infix
import Mathlib.Data.Nat.Digits.Defs

/-!
# Validation of contexts

A context is validated by a language model, which is shown its chunks and structured entries, each
under the id of a block, and cites those that are relevant (`validateCtxAndAnswer`), or several
contexts at once (`validateContextsAndAnswer`). What is not cited is then dropped
(`pruneToCitations`).

There are ids for as many as `maxBlocks` items. For no more of them, what is kept is what was shown
under the ids that are cited (`KeepsCited`), as long as no chunk is named like a structured entry.
-/

namespace Hyperforge.Contexts

open Json

abbrev Text := List Char

instance : LawfulBEq Text := inferInstance

/-! ## Block ids -/

/-- The blocks that there are ids for. -/
def maxBlocks : ℕ := 26 * 26

def asciiUppercase (k : ℕ) : Char := Char.ofNat ('A'.toNat + k)

/-- The id of a block, of which there are no more than a number of different ones. -/
def generateCtxBlockId (n : ℕ) : Text :=
  let n := if maxBlocks ≤ n then n % maxBlocks else n
  "block-".toList ++ [asciiUppercase (n / 26), asciiUppercase (n % 26)]

/-- `f"structured-{i}"` -/
def structuredId (i : ℕ) : Text := "structured-".toList ++ Nat.toDigits 10 i

/-- What is shown of a context, with what it is cited as. -/
def items (context : Context) : List (Text × Text) :=
  context.chunks.map (fun chunk => (chunk.render, chunk.chunkId)) ++
    context.structured.zipIdx.map fun p => (p.1, structuredId p.2)

/-! ## Pruning -/

def pruneToCitations (context : Context) : Context :=
  match context.citations with
  | none => context
  | some citations =>
    { context with
      chunks := context.chunks.filter fun chunk =>
        chunk.chunkId ∈ citations.filter fun id => ¬ "structured-".toList <+: id
      structured := (context.structured.zipIdx.filter fun p =>
        structuredId p.2 ∈ citations).map Prod.fst }

/-! ## One context -/

inductive Useful
  | yes
  | no
  | error
  deriving DecidableEq

/-- What the model says of a context. -/
structure ValidatorResponse where
  answer : Text := []
  useful : Useful := .yes
  missing : Option Text := none
  citations : Option (List Text) := none

/-- The blocks that the model is shown. -/
def contextsItems (context : Context) : List (Text × Text) :=
  let contexts := context.chunks.map (·.render) ++ context.structured
  update (update [] (contexts.zipIdx.map fun p => (generateCtxBlockId p.2, p.1)))
    (context.structured.zipIdx.map fun p =>
      (generateCtxBlockId (p.2 + context.chunks.length), p.1))

def blockIdToChunk (context : Context) : List (Text × Text) :=
  update (update [] (context.chunks.zipIdx.map fun p => (generateCtxBlockId p.2, p.1.chunkId)))
    ((List.range context.structured.length).map fun i =>
      (generateCtxBlockId (i + context.chunks.length), structuredId i))

/-- A text, unless nothing is left of it once stripped. -/
def unlessBlank (text : Option Text) : Option Text := text.filter fun text => !text.all isSpace

/-- A context after its validation, of which there may be no response as an exception was raised.
    The citations are those of a set of ids, in some order. -/
def validateCtxAndAnswer (question : Text) (response : Option ValidatorResponse)
    (context : Context) : Context × Useful × Option Text :=
  match response with
  | none => (context, .error, some question)
  | some response =>
    let citations :=
      match response.citations with
      | none => context.citations
      | some citations =>
        some (citations.dedup.filterMap fun id => (blockIdToChunk context).lookup id)
    ({ context with citations := citations, summary := response.answer }, response.useful,
      unlessBlank response.missing)

/-! ## Several contexts -/

/-- What the model says of one of several contexts. -/
structure ContextResult where
  contextId : Text
  answer : Text
  citations : List Text

/-- The items of a context, each with the id of a block, numbered from an index. -/
def blocks (index : ℕ) (context : Context) : List (Text × Text × Text) :=
  ((items context).zipIdx index).map fun p => (generateCtxBlockId p.2, p.1)

/-- The contexts with their blocks, of which the numbers go on from one context to the next. -/
def numberBlocks : ℕ → List Context → List (Context × List (Text × Text × Text))
  | _, [] => []
  | index, context :: contexts => (context, blocks index context) ::
      numberBlocks (index + (items context).length) contexts

/-- The blocks of each context that the model is shown. -/
def promptBlocks (contexts : List Context) : List (Text × List (Text × Text)) :=
  (numberBlocks 0 contexts).map fun p =>
    (p.1.id, update [] (p.2.map fun block => (block.1, block.2.1)))

/-- The contexts, and what is cited of them, by the ids of blocks. -/
def blockTargets (contexts : List Context) : List (Text × Text × Text) :=
  update [] ((numberBlocks 0 contexts).flatMap fun p =>
    p.2.map fun block => (block.1, p.1.id, block.2.2))

/-- An element that is not in a list is appended to it. -/
def appendNew (xs : List Text) (x : Text) : List Text := if x ∈ xs then xs else xs ++ [x]

/-- The answers for a context, and what is cited of it, with one more result. -/
def addResult (targets : List (Text × Text × Text)) (result : ContextResult)
    (aggregated : List Text × List Text) : List Text × List Text :=
  (if result.answer = [] then aggregated.1 else appendNew aggregated.1 result.answer,
    result.citations.eraseDups.foldl (fun cited blockId =>
      match targets.lookup blockId with
      | some (contextId, item) =>
        if contextId = result.contextId then appendNew cited item else cited
      | none => cited) aggregated.2)

def aggregate (contextIds : List Text) (targets : List (Text × Text × Text))
    (results : List ContextResult) : List (Text × List Text × List Text) :=
  results.foldl (fun aggregated result =>
    if result.contextId ∉ contextIds then aggregated
    else assign result.contextId
      (addResult targets result ((aggregated.lookup result.contextId).getD ([], []))) aggregated) []

/-- `x or y`, of lists that may be missing. -/
def orCitations (x y : Option (List Text)) : Option (List Text) :=
  match x with
  | none | some [] => y
  | some x => some x

/-- A context with its answers and citations, and whether it is relevant. -/
def settle (summary : Text) (citations : Option (List Text))
    (aggregated : List Text × List Text) (context : Context) : Context × Bool :=
  let (answers, cited) := aggregated
  if answers = [] ∧ cited = [] ∧ summary.all isSpace then
    ({ context with citations := none }, false)
  else if !summary.all isSpace then
    ({ context with
      summary := summary
      citations := some ((orCitations citations (some cited)).getD []) }, true)
  else
    ({ context with
      summary := ['\n'].intercalate answers
      citations := some ((orCitations (some cited) citations).getD []) }, true)

/-- Contexts after their validation, of which there may be no response as an exception was
    raised. -/
def validateContextsAndAnswer (question : Text)
    (response : Option (List ContextResult × Option Text)) (contexts : List Context) :
    List Context × Useful × Option Text :=
  match response with
  | none => (contexts, .error, some question)
  | some (results, missing) =>
    let summaries := update [] (contexts.map fun context => (context.id, context.summary))
    let citations := update [] (contexts.map fun context => (context.id, context.citations))
    let aggregated := aggregate (contexts.map (·.id)) (blockTargets contexts) results
    let settled := contexts.map fun context =>
      settle ((summaries.lookup context.id).getD []) ((citations.lookup context.id).getD none)
        ((aggregated.lookup context.id).getD ([], [])) context
    (settled.map Prod.fst, if settled.any Prod.snd then .yes else .no,
      missing.filter (· ≠ []))

/-! ## What is shown under which id -/

variable {α β : Type} {context : Context} {contexts : List Context} {cited : List Text}
  {index i j : ℕ}

theorem asciiUppercase_inj (hi : i < 26) (hj : j < 26) (h : asciiUppercase i = asciiUppercase j) :
    i = j := by
  have hall : ∀ i < 26, ∀ j < 26, asciiUppercase i = asciiUppercase j → i = j := by decide
  exact hall i hi j hj h

theorem generateCtxBlockId_inj (hi : i < maxBlocks) (hj : j < maxBlocks)
    (h : generateCtxBlockId i = generateCtxBlockId j) : i = j := by
  rw [maxBlocks] at hi hj
  rw [generateCtxBlockId, generateCtxBlockId, maxBlocks, if_neg (by omega), if_neg (by omega)] at h
  have hletters := List.append_cancel_left h
  rw [List.cons.injEq, List.cons.injEq] at hletters
  have hquotient := asciiUppercase_inj (by omega) (by omega) hletters.1
  have hremainder := asciiUppercase_inj (by omega) (by omega) hletters.2.1
  omega

theorem structuredId_inj (h : structuredId i = structuredId j) : i = j := by
  have hdigits := congrArg (Nat.ofDigitChars 10 · 0) (List.append_cancel_left h)
  simpa only [Nat.ofDigitChars_ten_toDigits] using hdigits

/-- The ids of consecutive blocks are different, as long as there are ids for them. -/
theorem nodup_blockIds (xs : List α) (h : index + xs.length ≤ maxBlocks) :
    ((xs.zipIdx index).map fun p => generateCtxBlockId p.2).Nodup := by
  induction xs generalizing index with
  | nil => exact List.nodup_nil
  | cons x xs ih =>
    rw [List.length_cons] at h
    rw [List.zipIdx_cons, List.map_cons, List.nodup_cons]
    refine ⟨fun hmem => ?_, ih (by omega)⟩
    obtain ⟨⟨y, j⟩, hy, heq⟩ := List.mem_map.1 hmem
    have hj := List.mem_zipIdx hy
    have hj := generateCtxBlockId_inj (by omega) (by omega) heq
    omega

/-- The elements, numbered from an index, that are shown under an id that is cited. -/
def kept (cited : List Text) (index : ℕ) (xs : List α) : List α :=
  ((xs.zipIdx index).filter fun p => generateCtxBlockId p.2 ∈ cited).map Prod.fst

/-- A context keeps exactly the items that are shown under the ids that are cited, in their
    order. -/
structure KeepsCited (index : ℕ) (cited : List Text) (context result : Context) : Prop where
  chunks : result.chunks = kept cited index context.chunks
  structured : result.structured =
    kept cited (index + context.chunks.length) context.structured

theorem filter_eq_kept {xs : List α} {p : α → Bool}
    (h : ∀ i x, xs[i]? = some x → (p x ↔ generateCtxBlockId (index + i) ∈ cited)) :
    xs.filter p = kept cited index xs := by
  induction xs generalizing index with
  | nil => rfl
  | cons x xs ih =>
    have hx := h 0 x rfl
    rw [Nat.add_zero] at hx
    have hxs : xs.filter p = kept cited (index + 1) xs := ih fun i y hy => by
      rw [Nat.add_right_comm, Nat.add_assoc]
      exact h (i + 1) y hy
    rw [kept, List.zipIdx_cons, List.filter_cons, List.filter_cons, hxs]
    by_cases hp : p x
    · rw [if_pos hp, if_pos (decide_eq_true (hx.1 hp)), List.map_cons, kept]
    · rw [if_neg hp, if_neg (by simpa using mt hx.2 hp), kept]

theorem filter_zipIdx_eq_kept {xs : List α} {p : ℕ → Bool} {n : ℕ}
    (h : ∀ i < xs.length, p (n + i) ↔ generateCtxBlockId (index + i) ∈ cited) :
    ((xs.zipIdx n).filter fun q => p q.2).map Prod.fst = kept cited index xs := by
  induction xs generalizing index n with
  | nil => rfl
  | cons x xs ih =>
    have hx := h 0 (Nat.zero_lt_succ _)
    rw [Nat.add_zero, Nat.add_zero] at hx
    have hxs : ((xs.zipIdx (n + 1)).filter fun q => p q.2).map Prod.fst =
        kept cited (index + 1) xs := ih fun i hi => by
      rw [Nat.add_right_comm, Nat.add_assoc, Nat.add_right_comm, Nat.add_assoc]
      exact h (i + 1) (Nat.succ_lt_succ hi)
    rw [kept, List.zipIdx_cons, List.zipIdx_cons, List.filter_cons, List.filter_cons]
    by_cases hp : p n
    · rw [if_pos hp, if_pos (decide_eq_true (hx.1 hp)), List.map_cons, List.map_cons, hxs, kept]
    · rw [if_neg hp, if_neg (by simpa using mt hx.2 hp), hxs, kept]

/-! ## Items by their ids -/

/-- What the ids of chunks and structured entries rely on: those of chunks are distinct, and not
    like those of structured entries. -/
structure Named (context : Context) : Prop where
  nodup : (context.chunks.map (·.chunkId)).Nodup
  plain : ∀ chunk ∈ context.chunks, ¬ "structured-".toList <+: chunk.chunkId

theorem isPrefix_structuredId : "structured-".toList <+: structuredId i := List.prefix_append _ _

theorem map_snd_items : (items context).map Prod.snd =
    context.chunks.map (·.chunkId) ++ (List.range context.structured.length).map structuredId := by
  rw [items, List.map_append, List.map_map, List.map_map, List.range_eq_range',
    ← List.zipIdx_map_snd, List.map_map]
  rfl

/-- What items are cited as is different. -/
theorem Named.nodup_items (h : Named context) : ((items context).map Prod.snd).Nodup := by
  rw [map_snd_items, List.nodup_append']
  refine ⟨h.nodup, List.nodup_range.map fun _ _ => structuredId_inj, fun id hid hid' => ?_⟩
  obtain ⟨chunk, hchunk, rfl⟩ := List.mem_map.1 hid
  obtain ⟨i, -, heq⟩ := List.mem_map.1 hid'
  exact h.plain chunk hchunk (heq ▸ isPrefix_structuredId)

theorem mem_blocks {block : Text × Text × Text} : block ∈ blocks index context ↔
    ∃ j, (items context)[j]? = some block.2 ∧ block.1 = generateCtxBlockId (index + j) := by
  rw [blocks, List.mem_map]
  constructor
  · rintro ⟨⟨item, n⟩, hmem, rfl⟩
    obtain ⟨hle, hn⟩ := List.mk_mem_zipIdx_iff_le_and_getElem?_sub.1 hmem
    exact ⟨n - index, hn, by rw [Nat.add_sub_cancel' hle]⟩
  · rintro ⟨j, hj, heq⟩
    refine ⟨(block.2, index + j), ?_, Prod.ext heq.symm rfl⟩
    rw [List.mk_mem_zipIdx_iff_le_and_getElem?_sub, Nat.add_sub_cancel_left]
    exact ⟨Nat.le_add_right _ _, hj⟩

/-- An item is cited by the id it is shown under. -/
theorem Named.exists_block_iff (h : Named context) {item : Text × Text}
    (hj : (items context)[j]? = some item) :
    (∃ id ∈ cited, ∃ text, (id, text, item.2) ∈ blocks index context) ↔
      generateCtxBlockId (index + j) ∈ cited := by
  constructor
  · rintro ⟨id, hid, text, hmem⟩
    obtain ⟨i, hi, rfl⟩ := mem_blocks.1 hmem
    have hids : ((items context).map Prod.snd)[i]? = ((items context).map Prod.snd)[j]? := by
      rw [List.getElem?_map, List.getElem?_map, hi, hj]
      rfl
    have hlt : i < ((items context).map Prod.snd).length := by
      rw [List.length_map]
      exact (List.getElem?_eq_some_iff.1 hi).1
    rwa [← (List.getElem?_inj hlt h.nodup_items).1 hids]
  · exact fun hid => ⟨_, hid, item.1, mem_blocks.2 ⟨j, hj, rfl⟩⟩

theorem getElem?_items_chunk {i : ℕ} {chunk : Chunk} (h : context.chunks[i]? = some chunk) :
    (items context)[i]? = some (chunk.render, chunk.chunkId) := by
  have hi := (List.getElem?_eq_some_iff.1 h).1
  rw [items, List.getElem?_append_left (by rwa [List.length_map]), List.getElem?_map, h]
  rfl

theorem getElem?_items_structured {i : ℕ} {entry : Text} (h : context.structured[i]? = some entry) :
    (items context)[context.chunks.length + i]? = some (entry, structuredId i) := by
  rw [items, List.getElem?_append_right (by rw [List.length_map]; exact Nat.le_add_right _ _),
    List.length_map, Nat.add_sub_cancel_left, List.getElem?_map, List.getElem?_zipIdx, h]
  simp

/-- If the items that are cited are those that are shown under certain ids, it is these that are
    kept. -/
theorem Named.keepsCited (h : Named context) {citations : List Text} (summary : Text)
    (hcitations : ∀ j item, (items context)[j]? = some item →
      (item.2 ∈ citations ↔ generateCtxBlockId (index + j) ∈ cited)) :
    KeepsCited index cited context
      (pruneToCitations { context with citations := some citations, summary := summary }) := by
  refine ⟨?_, ?_⟩
  · refine filter_eq_kept fun i chunk hi => ?_
    have hplain := h.plain chunk (List.mem_of_getElem? hi)
    rw [← hcitations i _ (getElem?_items_chunk hi), decide_eq_true_eq, List.mem_filter,
      decide_eq_true_eq]
    exact and_iff_left hplain
  · refine filter_zipIdx_eq_kept (p := fun i => structuredId i ∈ citations) fun i hi => ?_
    have hentry := getElem?_items_structured (List.getElem?_eq_getElem hi)
    rw [Nat.zero_add, Nat.add_assoc, ← hcitations _ _ hentry, decide_eq_true_eq]

/-! ## One context -/

theorem update_of_lookup {κ : Type} [DecidableEq κ] [BEq κ] [LawfulBEq κ] {d e : List (κ × α)}
    (h : ∀ m ∈ e, d.lookup m.1 = some m.2) : update d e = d := by
  induction e with
  | nil => rfl
  | cons m e ih =>
    rw [List.forall_mem_cons] at h
    rw [update, List.foldl_cons, assign_of_lookup h.1, ← update, ih h.2]

theorem update_nil {κ : Type} [DecidableEq κ] {e : List (κ × α)} (h : (e.map Prod.fst).Nodup) :
    update [] e = e := update_of_disjoint h

theorem keys_blocks : (blocks index context).map Prod.fst =
    ((items context).zipIdx index).map fun p => generateCtxBlockId p.2 := by
  rw [blocks, List.map_map]
  rfl

theorem getElem?_keys_blocks (h : j < (items context).length) :
    ((blocks index context).map Prod.fst)[j]? = some (generateCtxBlockId (index + j)) := by
  rw [keys_blocks, List.getElem?_map, List.getElem?_zipIdx, List.getElem?_eq_getElem h]
  rfl

theorem map_blocks_fst (f : Text × Text → α) :
    ((blocks index context).map fun block => (block.1, f block.2)).map Prod.fst =
      (blocks index context).map Prod.fst := by
  rw [List.map_map]
  rfl

theorem nodup_keys_blocks (h : index + (items context).length ≤ maxBlocks) :
    ((blocks index context).map Prod.fst).Nodup := by
  rw [keys_blocks]
  exact nodup_blockIds (items context) h

theorem length_items :
    (items context).length = context.chunks.length + context.structured.length := by
  rw [items, List.length_append, List.length_map, List.length_map, List.length_zipIdx]

/-- Each item is shown under one id, and different items under different ids. -/
theorem contextsItems_eq (h : (items context).length ≤ maxBlocks) :
    contextsItems context = (blocks 0 context).map fun block => (block.1, block.2.1) := by
  have htexts : (context.chunks.map (·.render) ++ context.structured).zipIdx.map
      (fun p => (generateCtxBlockId p.2, p.1)) =
        (blocks 0 context).map fun block => (block.1, block.2.1) := by
    have hitems : (items context).map Prod.fst =
        context.chunks.map (·.render) ++ context.structured := by
      rw [items, List.map_append, List.map_map, List.map_map]
      exact congrArg _ (List.zipIdx_map_fst 0 context.structured)
    rw [blocks, List.map_map, ← hitems, List.zipIdx_map, List.map_map]
    rfl
  have hnodup : ((blocks 0 context).map Prod.fst).Nodup :=
    nodup_keys_blocks (by rwa [Nat.zero_add])
  rw [← map_blocks_fst Prod.fst] at hnodup
  rw [contextsItems, htexts, update_nil hnodup]
  -- The structured entries are put in once more.
  refine update_of_lookup fun m hm => lookup_of_mem hnodup ?_
  obtain ⟨⟨entry, i⟩, hi, rfl⟩ := List.mem_map.1 hm
  have hi := getElem?_items_structured (List.mk_mem_zipIdx_iff_getElem?.1 hi)
  exact List.mem_map.2 ⟨(generateCtxBlockId (i + context.chunks.length), entry, structuredId i),
    mem_blocks.2 ⟨_, hi, by rw [Nat.zero_add, Nat.add_comm]⟩, rfl⟩

theorem blockIdToChunk_eq (h : (items context).length ≤ maxBlocks) :
    blockIdToChunk context = (blocks 0 context).map fun block => (block.1, block.2.2) := by
  have hchunks : ((context.chunks.map fun chunk => (chunk.render, chunk.chunkId)).zipIdx.map
      fun p => (generateCtxBlockId p.2, p.1.2)) =
        context.chunks.zipIdx.map fun p => (generateCtxBlockId p.2, p.1.chunkId) := by
    rw [List.zipIdx_map, List.map_map]
    rfl
  have hstructured : (((context.structured.zipIdx.map fun p => (p.1, structuredId p.2)).zipIdx
      context.chunks.length).map fun p => (generateCtxBlockId p.2, p.1.2)) =
        (List.range context.structured.length).map fun i =>
          (generateCtxBlockId (i + context.chunks.length), structuredId i) := by
    refine List.ext_getElem (by simp) fun i hi _ => ?_
    simp [Nat.add_comm]
  have hsplit : (blocks 0 context).map (fun block => (block.1, block.2.2)) =
      context.chunks.zipIdx.map (fun p => (generateCtxBlockId p.2, p.1.chunkId)) ++
        (List.range context.structured.length).map fun i =>
          (generateCtxBlockId (i + context.chunks.length), structuredId i) := by
    rw [← hchunks, ← hstructured, blocks, items, List.zipIdx_append, List.map_append,
      List.map_append, List.map_map, List.map_map, List.length_map, Nat.zero_add]
    rfl
  have hnodup : ((blocks 0 context).map Prod.fst).Nodup :=
    nodup_keys_blocks (by rwa [Nat.zero_add])
  rw [← map_blocks_fst Prod.snd] at hnodup
  rw [hsplit] at hnodup ⊢
  have hleft := hnodup.sublist ((List.sublist_append_left _ _).map _)
  rw [blockIdToChunk, update_nil hleft, update_of_disjoint hnodup]

/-- What is cited, of one context. -/
theorem mem_filterMap_iff (h : Named context) (hcount : (items context).length ≤ maxBlocks)
    {item : Text × Text} (hj : (items context)[j]? = some item) :
    item.2 ∈ cited.dedup.filterMap (fun id => (blockIdToChunk context).lookup id) ↔
      generateCtxBlockId (0 + j) ∈ cited := by
  have hnodup : ((blocks 0 context).map Prod.fst).Nodup :=
    nodup_keys_blocks (by rwa [Nat.zero_add])
  rw [← map_blocks_fst Prod.snd] at hnodup
  rw [← h.exists_block_iff hj, List.mem_filterMap, blockIdToChunk_eq hcount]
  simp only [List.mem_dedup]
  refine exists_congr fun id => and_congr_right fun _ => ⟨fun hlookup => ?_, ?_⟩
  · obtain ⟨block, hblock, heq⟩ := List.mem_map.1 (mem_of_lookup hlookup)
    obtain ⟨rfl, hitem⟩ := Prod.mk.inj heq
    exact ⟨block.2.1, hitem ▸ hblock⟩
  · rintro ⟨text, hmem⟩
    exact lookup_of_mem hnodup (List.mem_map.2 ⟨_, hmem, rfl⟩)

/-- What is kept of one context. -/
theorem validateCtxAndAnswer_keepsCited (h : Named context)
    (hcount : (items context).length ≤ maxBlocks) (question : Text) (response : ValidatorResponse)
    (hresponse : response.citations = some cited) : KeepsCited 0 cited context
      (pruneToCitations (validateCtxAndAnswer question (some response) context).1) := by
  rw [validateCtxAndAnswer, hresponse]
  exact h.keepsCited _ fun j item hj => mem_filterMap_iff h hcount hj

/-! ## Several contexts -/

variable {targets : List (Text × Text × Text)} {results : List ContextResult}
  {contextId item : Text} {k : ℕ}

/-- The number of the first block of a context. -/
def blockOffset (contexts : List Context) (k : ℕ) : ℕ := ((contexts.take k).flatMap items).length

/-- The ids that are cited for a context. -/
def citedFor (results : List ContextResult) (contextId : Text) : List Text :=
  (results.filter (·.contextId = contextId)).flatMap (·.citations)

theorem getElem?_numberBlocks (h : contexts[k]? = some context) :
    (numberBlocks index contexts)[k]? =
      some (context, blocks (index + blockOffset contexts k) context) := by
  induction contexts generalizing index k with
  | nil => cases h
  | cons first contexts ih =>
    cases k with
    | zero =>
      cases h
      rfl
    | succ k =>
      rw [numberBlocks, List.getElem?_cons_succ, ih h, blockOffset, blockOffset,
        List.take_succ_cons, List.flatMap_cons, List.length_append, Nat.add_assoc]

theorem map_fst_numberBlocks : (numberBlocks index contexts).map Prod.fst = contexts := by
  induction contexts generalizing index with
  | nil => rfl
  | cons context contexts ih => rw [numberBlocks, List.map_cons, ih]

theorem keys_numberBlocks : (numberBlocks index contexts).flatMap (fun p => p.2.map Prod.fst) =
    ((contexts.flatMap items).zipIdx index).map fun p => generateCtxBlockId p.2 := by
  induction contexts generalizing index with
  | nil => rfl
  | cons context contexts ih =>
    rw [numberBlocks, List.flatMap_cons, ih, List.flatMap_cons, List.zipIdx_append, List.map_append,
      keys_blocks]

/-- The ids of the blocks of all contexts are different. -/
theorem nodup_keys_numberBlocks (h : (contexts.flatMap items).length ≤ maxBlocks) :
    ((numberBlocks 0 contexts).flatMap fun p => p.2.map Prod.fst).Nodup := by
  rw [keys_numberBlocks]
  exact nodup_blockIds _ (by rwa [Nat.zero_add])

theorem promptBlocks_eq (h : (contexts.flatMap items).length ≤ maxBlocks) :
    promptBlocks contexts = (numberBlocks 0 contexts).map fun p =>
      (p.1.id, p.2.map fun block => (block.1, block.2.1)) := by
  refine List.map_congr_left fun p hp => congrArg _ (update_nil ?_)
  rw [List.map_map]
  exact (List.nodup_flatMap.1 (nodup_keys_numberBlocks h)).1 p hp

theorem lookup_blockTargets (h : (contexts.flatMap items).length ≤ maxBlocks) {id : Text} :
    (blockTargets contexts).lookup id = some (contextId, item) ↔
      ∃ p ∈ numberBlocks 0 contexts, p.1.id = contextId ∧ ∃ text, (id, text, item) ∈ p.2 := by
  have hnodup : (((numberBlocks 0 contexts).flatMap fun p =>
      p.2.map fun block => (block.1, p.1.id, block.2.2)).map Prod.fst).Nodup := by
    rw [List.map_flatMap]
    simp only [List.map_map]
    exact nodup_keys_numberBlocks h
  rw [blockTargets, update_nil hnodup]
  constructor
  · intro hlookup
    obtain ⟨p, hp, hmem⟩ := List.mem_flatMap.1 (mem_of_lookup hlookup)
    obtain ⟨block, hblock, heq⟩ := List.mem_map.1 hmem
    obtain ⟨rfl, rfl, rfl⟩ := heq
    exact ⟨p, hp, rfl, block.2.1, hblock⟩
  · rintro ⟨p, hp, rfl, text, hmem⟩
    exact lookup_of_mem hnodup (List.mem_flatMap.2 ⟨p, hp, List.mem_map.2 ⟨_, hmem, rfl⟩⟩)

theorem mem_appendNew {xs : List Text} {x y : Text} : y ∈ appendNew xs x ↔ y ∈ xs ∨ y = x := by
  rw [appendNew]
  split_ifs with h
  · exact ⟨.inl, fun hy => hy.elim id fun heq => heq ▸ h⟩
  · rw [List.mem_append, List.mem_singleton]

/-- What is cited of a context after one more result for it. -/
theorem mem_addResult {result : ContextResult} {aggregated : List Text × List Text} :
    item ∈ (addResult targets result aggregated).2 ↔ item ∈ aggregated.2 ∨
      ∃ id ∈ result.citations, targets.lookup id = some (result.contextId, item) := by
  have hfold (ids : List Text) (start : List Text) : item ∈ ids.foldl (fun cited blockId =>
      match targets.lookup blockId with
      | some (contextId, item) =>
        if contextId = result.contextId then appendNew cited item else cited
      | none => cited) start ↔
      item ∈ start ∨ ∃ id ∈ ids, targets.lookup id = some (result.contextId, item) := by
    induction ids generalizing start with
    | nil => simp
    | cons id ids ih =>
      rw [List.foldl_cons, ih, List.exists_mem_cons_iff, ← or_assoc]
      refine or_congr_left ?_
      cases hid : targets.lookup id with
      | none => simp
      | some target =>
        obtain ⟨contextId, target⟩ := target
        dsimp only
        by_cases hcontext : contextId = result.contextId
        · rw [if_pos hcontext, mem_appendNew, hcontext]
          simp [eq_comm]
        · simp [hcontext]
  rw [addResult, hfold]
  simp only [List.mem_eraseDups]

/-- What is cited of a context, of all results. -/
theorem mem_aggregate {contextIds : List Text} (hid : contextId ∈ contextIds) :
    item ∈ (((aggregate contextIds targets results).lookup contextId).getD ([], [])).2 ↔
      ∃ id ∈ citedFor results contextId, targets.lookup id = some (contextId, item) := by
  have hfold (start : List (Text × List Text × List Text)) :
      item ∈ (((results.foldl (fun aggregated result =>
        if result.contextId ∉ contextIds then aggregated
        else assign result.contextId (addResult targets result
          ((aggregated.lookup result.contextId).getD ([], []))) aggregated) start).lookup
            contextId).getD ([], [])).2 ↔
      item ∈ ((start.lookup contextId).getD ([], [])).2 ∨
        ∃ id ∈ citedFor results contextId, targets.lookup id = some (contextId, item) := by
    induction results generalizing start with
    | nil => simp [citedFor]
    | cons result results ih =>
      rw [List.foldl_cons, ih]
      by_cases hcontext : result.contextId = contextId
      · subst hcontext
        have hcited : citedFor (result :: results) result.contextId =
            result.citations ++ citedFor results result.contextId := by
          rw [citedFor, List.filter_cons_of_pos (by simp), List.flatMap_cons, ← citedFor]
        rw [if_neg (not_not.2 hid), lookup_assign, if_pos rfl, Option.getD_some, mem_addResult,
          or_assoc, hcited]
        refine or_congr_right ?_
        simp only [List.mem_append, or_and_right, exists_or]
      · have hcited : citedFor (result :: results) contextId = citedFor results contextId := by
          rw [citedFor, List.filter_cons_of_neg (by simpa using hcontext), ← citedFor]
        rw [hcited]
        refine or_congr_left ?_
        split_ifs
        · rw [lookup_assign, if_neg hcontext]
        · rfl
  rw [aggregate, hfold]
  exact or_iff_right List.not_mem_nil

/-- An item is cited of a context if it is shown under one of the ids that are cited for it. -/
theorem Named.mem_aggregate_iff (h : Named context)
    (hcount : (contexts.flatMap items).length ≤ maxBlocks)
    (hids : (contexts.map (·.id)).Nodup) (hk : contexts[k]? = some context)
    {item : Text × Text} (hj : (items context)[j]? = some item) :
    item.2 ∈ (((aggregate (contexts.map (·.id)) (blockTargets contexts) results).lookup
      context.id).getD ([], [])).2 ↔
        generateCtxBlockId (blockOffset contexts k + j) ∈ citedFor results context.id := by
  have hmem : context.id ∈ contexts.map (·.id) := List.mem_map_of_mem (List.mem_of_getElem? hk)
  have hblocks : (numberBlocks 0 contexts)[k]? =
      some (context, blocks (0 + blockOffset contexts k) context) := getElem?_numberBlocks hk
  rw [Nat.zero_add] at hblocks
  rw [mem_aggregate hmem, ← h.exists_block_iff hj]
  refine exists_congr fun id => and_congr_right fun _ => ?_
  rw [lookup_blockTargets hcount]
  refine ⟨?_, fun ⟨text, htext⟩ => ⟨_, List.mem_of_getElem? hblocks, rfl, text, htext⟩⟩
  rintro ⟨p, hp, hpid, hitem⟩
  obtain ⟨k', hk'⟩ := List.mem_iff_getElem?.1 hp
  have hcontext : contexts[k']? = some p.1 := by
    have hcontexts : (numberBlocks 0 contexts).map Prod.fst = contexts := map_fst_numberBlocks
    rw [← hcontexts, List.getElem?_map, hk']
    rfl
  have hk : k' = k := by
    have hlt : k' < (contexts.map (·.id)).length := by
      rw [List.length_map]
      exact (List.getElem?_eq_some_iff.1 hcontext).1
    refine (List.getElem?_inj hlt hids).1 ?_
    rw [List.getElem?_map, List.getElem?_map, hcontext, hk, Option.map_some, Option.map_some, hpid]
  rw [hk, hblocks] at hk'
  cases hk'
  exact hitem

/-- What is known of each context by its id. -/
theorem lookup_id (f : Context → α) (hids : (contexts.map (·.id)).Nodup)
    (h : context ∈ contexts) :
    (update [] (contexts.map fun c => (c.id, f c))).lookup context.id = some (f context) := by
  have hkeys : ((contexts.map fun c => (c.id, f c)).map Prod.fst).Nodup := by rwa [List.map_map]
  rw [update_nil hkeys]
  exact lookup_of_mem hkeys (List.mem_map.2 ⟨context, h, rfl⟩)

/-- A context that the validation may settle the citations of: it has no summary, or has no
    citations. -/
def Unsettled (context : Context) : Prop :=
  context.summary.all isSpace ∨ context.citations = none ∨ context.citations = some []

theorem Unsettled.settle_eq (h : Unsettled context) {aggregated : List Text × List Text}
    (hcited : aggregated.2 ≠ []) :
    ∃ summary, (settle context.summary context.citations aggregated context).1 =
      { context with citations := some aggregated.2, summary := summary } := by
  obtain ⟨answers, cited⟩ := aggregated
  have hcited : cited ≠ [] := hcited
  have hrelevant : ¬ (answers = [] ∧ cited = [] ∧ context.summary.all isSpace) :=
    fun hnone => hcited hnone.2.1
  obtain ⟨id, cited, rfl⟩ := List.exists_cons_of_ne_nil hcited
  simp only [settle, if_neg hrelevant]
  by_cases hsummary : context.summary.all isSpace
  · rw [if_neg (by rw [hsummary]; exact Bool.false_ne_true)]
    exact ⟨_, rfl⟩
  · rw [if_pos (by rw [Bool.eq_false_iff.2 hsummary]; rfl)]
    obtain hnone | hnone := h.resolve_left hsummary
    · rw [hnone]
      exact ⟨_, rfl⟩
    · rw [hnone]
      exact ⟨_, rfl⟩

/-- What is kept of one of several contexts. -/
theorem validateContextsAndAnswer_keepsCited (hids : (contexts.map (·.id)).Nodup)
    (hcount : (contexts.flatMap items).length ≤ maxBlocks) (hk : contexts[k]? = some context)
    (h : Named context) (hunsettled : Unsettled context)
    (hcited : ∃ id ∈ citedFor results context.id,
      id ∈ (blocks (blockOffset contexts k) context).map Prod.fst)
    (question : Text) (missing : Option Text) :
    ∃ result, (validateContextsAndAnswer question (some (results, missing)) contexts).1[k]? =
      some result ∧ KeepsCited (blockOffset contexts k) (citedFor results context.id) context
        (pruneToCitations result) := by
  have hmem := List.mem_of_getElem? hk
  have hitems : ∀ j item, (items context)[j]? = some item →
      (item.2 ∈ (((aggregate (contexts.map (·.id)) (blockTargets contexts) results).lookup
        context.id).getD ([], [])).2 ↔
          generateCtxBlockId (blockOffset contexts k + j) ∈ citedFor results context.id) :=
    fun j item hj => h.mem_aggregate_iff hcount hids hk hj
  have hne : (((aggregate (contexts.map (·.id)) (blockTargets contexts) results).lookup
      context.id).getD ([], [])).2 ≠ [] := by
    obtain ⟨id, hid, hblock⟩ := hcited
    obtain ⟨block, hmem, rfl⟩ := List.mem_map.1 hblock
    obtain ⟨j, hj, heq⟩ := mem_blocks.1 hmem
    exact List.ne_nil_of_mem ((hitems j block.2 hj).2 (heq ▸ hid))
  obtain ⟨summary, hsettle⟩ := hunsettled.settle_eq hne
  refine ⟨_, ?_, h.keepsCited summary hitems⟩
  simp only [validateContextsAndAnswer, List.getElem?_map, hk, Option.map_some,
    lookup_id (·.summary) hids hmem, lookup_id (·.citations) hids hmem, Option.getD_some]
  exact congrArg some hsettle

/-! ## What survives -/

/-- A context of which the items are shown under one id each, and that keeps those that are
    cited. -/
structure SurvivesAlone (context : Context) : Prop where
  shown : contextsItems context = (blocks 0 context).map fun block => (block.1, block.2.1)
  nodup : ((blocks 0 context).map Prod.fst).Nodup
  keeps : ∀ question response cited, response.citations = some cited → KeepsCited 0 cited context
    (pruneToCitations (validateCtxAndAnswer question (some response) context).1)

/-- Contexts of which the items are shown under one id each, and that keep those that are cited, of
    each context that has not been settled and of which something is cited. -/
structure SurvivesAmong (contexts : List Context) : Prop where
  shown : ∀ k context, contexts[k]? = some context → (promptBlocks contexts)[k]? = some (context.id,
    (blocks (blockOffset contexts k) context).map fun block => (block.1, block.2.1))
  nodup : ((numberBlocks 0 contexts).flatMap fun p => p.2.map Prod.fst).Nodup
  keeps : ∀ question results missing k context, contexts[k]? = some context → Unsettled context →
    (∃ id ∈ citedFor results context.id,
      id ∈ (blocks (blockOffset contexts k) context).map Prod.fst) →
    ∃ result, (validateContextsAndAnswer question (some (results, missing)) contexts).1[k]? =
      some result ∧ KeepsCited (blockOffset contexts k) (citedFor results context.id) context
        (pruneToCitations result)

/-- As long as there are ids for all items, what is cited survives. -/
theorem cited_blocks_survive :
    (∀ context, Named context → (items context).length ≤ maxBlocks → SurvivesAlone context) ∧
      ∀ contexts, (contexts.map (·.id)).Nodup → (∀ context ∈ contexts, Named context) →
        (contexts.flatMap items).length ≤ maxBlocks → SurvivesAmong contexts := by
  refine ⟨fun context hnamed hcount => ?_, fun contexts hids hnamed hcount => ?_⟩
  · exact {
      shown := contextsItems_eq hcount
      nodup := nodup_keys_blocks (by rwa [Nat.zero_add])
      keeps := fun question response cited hresponse =>
        validateCtxAndAnswer_keepsCited hnamed hcount question response hresponse }
  · refine ⟨fun k context hk => ?_, nodup_keys_numberBlocks hcount, ?_⟩
    · rw [promptBlocks_eq hcount, List.getElem?_map, getElem?_numberBlocks hk, Nat.zero_add]
      rfl
    · intro question results missing k context hk hunsettled hcited
      exact validateContextsAndAnswer_keepsCited hids hcount hk
        (hnamed context (List.mem_of_getElem? hk)) hunsettled hcited question missing

/-- Two chunks and a structured entry. -/
def reportContext : Context where
  id := "report".toList
  chunks := [{ chunkId := "a/1".toList, text := "one".toList },
    { chunkId := "a/2".toList, text := "two".toList }]
  structured := ["rows".toList]

theorem cited_blocks_survive_report : SurvivesAlone reportContext ∧
    SurvivesAmong [reportContext, { reportContext with id := "copy".toList }] := by
  have hnamed : Named reportContext := ⟨by decide +kernel, by decide +kernel⟩
  refine ⟨cited_blocks_survive.1 reportContext hnamed (by decide +kernel), ?_⟩
  refine cited_blocks_survive.2 _ (by decide +kernel) (fun context hmem => ?_) (by decide +kernel)
  obtain rfl | hmem := List.mem_cons.1 hmem
  · exact hnamed
  · rw [List.mem_singleton.1 hmem]
    exact ⟨hnamed.nodup, hnamed.plain⟩

/-- More chunks than there are ids. -/
def manyChunks : Context where
  id := []
  chunks := (List.range (maxBlocks + 1)).map fun i =>
    { chunkId := List.replicate i 'c', text := [] }

/-- Not for more items, of which some are shown under the id of others. -/
theorem not_cited_blocks_survive :
    ¬ ((∀ context : Context, (context.chunks.map (·.chunkId)).Nodup → SurvivesAlone context) ∧
      ∀ contexts : List Context, (contexts.map (·.id)).Nodup →
        (∀ context ∈ contexts, (context.chunks.map (·.chunkId)).Nodup) →
          SurvivesAmong contexts) := by
  rintro ⟨h, -⟩
  have hids : (manyChunks.chunks.map (·.chunkId)).Nodup := by
    rw [manyChunks, List.map_map]
    refine List.nodup_range.map fun i j hij => ?_
    simpa using congrArg List.length hij
  have hlength : (items manyChunks).length = maxBlocks + 1 := by
    rw [length_items, manyChunks, List.length_map, List.length_range, List.length_nil, Nat.add_zero]
  have hkeys : ∀ j < maxBlocks + 1, ((blocks 0 manyChunks).map Prod.fst)[j]? =
      some (generateCtxBlockId (0 + j)) := fun j hj => getElem?_keys_blocks (hlength ▸ hj)
  have hlt : 0 < ((blocks 0 manyChunks).map Prod.fst).length := by
    rw [keys_blocks, List.length_map, List.length_zipIdx, hlength]
    exact Nat.zero_lt_succ _
  -- The last chunk has the id of the first one.
  have hsame : generateCtxBlockId (0 + 0) = generateCtxBlockId (0 + maxBlocks) := rfl
  have heq := (hkeys 0 (Nat.zero_lt_succ _)).trans
    ((congrArg some hsame).trans (hkeys maxBlocks (Nat.lt_succ_self _)).symm)
  exact absurd ((List.getElem?_inj hlt (h manyChunks hids).nodup).1 heq) (by decide)

end Hyperforge.Contexts
