import Hyperforge.Contexts
import Hyperforge.Library.Json.Dict
import Hyperforge.Summarize.Footnotes

/-!
# Chunk-level citations

The footnotes of an answer cite contexts, or single chunks of them, by citation ids. When citations
of chunks are forced, each footnote of a context is expanded to footnotes of its chunks that are
selected, and all footnotes are numbered anew (`normalizeChunkLevelCitations`).

If no footnote is expanded, the answer stays as it is. Otherwise the markers in its body are
replaced by those of what they stood for. Either way, what is attributed to the answer stays the
same, and nothing is left to be done (`normalizes_chunkLevelCitations`).
-/

namespace Hyperforge.Summarize

open Json hiding Tree

/-! ## Citation ids -/

/-- `text.rsplit("-", 1)`, of a text with a dash. -/
def rsplitDash (text : Text) : Text × Text :=
  ((text.reverse.dropWhile (· ≠ '-')).tail.reverse, (text.reverse.takeWhile (· ≠ '-')).reverse)

/-- The citation id of a context, and the index of a chunk, if the id is of one. -/
def parseCitationId (citationId : Text) : Option (Text × Option ℕ) :=
  if 2 ≤ citationId.count '-' then
    (Decimal.int (rsplitDash citationId).2).map fun index => ((rsplitDash citationId).1, some index)
  else some (citationId, none)

def contextsByCitationId (contexts : List Context) : List (Text × Context) :=
  update [] (contexts.filterMap fun context => context.citationsId.map fun id => (id, context))

/-- `list(dict.fromkeys(xs))` -/
def fromKeys (xs : List Text) : List Text := (update [] (xs.map fun x => (x, ()))).map Prod.fst

/-- A chunk is selected if it is cited, or if nothing is known of what is. -/
def isSelected (context : Context) (chunk : Chunk) : Bool :=
  context.citations.elim true fun citations => chunk.chunkId ∈ citations

/-! ## Attribution -/

structure CitationMetadata where
  contextId : Text
  originUrls : List Text
  chunkIndex : Option ℕ

/-- The origins of chunks, of those that have one. -/
def urlsOf (chunks : List Chunk) : List Text :=
  chunks.filterMap fun chunk => chunk.originUrl.filter (· ≠ [])

/-- The origins of what is cited of a context: those of one chunk, if there is one with its index,
    or those of the chunks that are selected. -/
def originUrls (context : Context) : Option ℕ → List Text
  | some index => urlsOf context.chunks[index]?.toList
  | none =>
    let urls := urlsOf (context.chunks.filter (isSelected context))
    if urls = [] ∧ context.citations = none then urlsOf context.chunks else urls

/-- What is known of a citation, unless its id has an unknown format or is of no context. -/
def metadataOf (contexts : List Context) (citationId : Text) : Option CitationMetadata :=
  (parseCitationId citationId).bind fun p =>
    ((contextsByCitationId contexts).lookup p.1).map fun context =>
      ⟨context.id, fromKeys (originUrls context p.2), p.2⟩

def buildAnswerCitations (answer : Text) (contexts : List Context) :
    List (Text × CitationMetadata) :=
  update [] ((fromKeys ((splitMarkdownFootnotes answer).2.map Prod.snd)).filterMap fun id =>
    (metadataOf contexts id).map fun metadata => (id, metadata))

/-! ## Normalization -/

def selectedIndices (context : Context) : List ℕ :=
  (context.chunks.zipIdx.filter fun p => isSelected context p.1).map Prod.snd

/-- `f"{citation_id}-{index}"` -/
def chunkCitationId (citationId : Text) (index : ℕ) : Text :=
  citationId ++ '-' :: Nat.toDigits 10 index

/-- The citation ids of the selected chunks of a context, if there are any, for the citation id of
    the context. -/
def expand (contexts : List Context) (citationId : Text) : Option (List Text) :=
  match parseCitationId citationId with
  | some (contextCitationId, none) =>
    match (contextsByCitationId contexts).lookup contextCitationId with
    | some context =>
      if selectedIndices context = [] then none
      else some ((selectedIndices context).map (chunkCitationId citationId))
    | none => none
  | _ => none

/-- What a citation id stands for. -/
def targetsOf (contexts : List Context) (citationId : Text) : List Text :=
  (expand contexts citationId).getD [citationId]

def targetsByMarker (contexts : List Context) (footnotes : List (Text × Text)) :
    List (Text × List Text) :=
  footnotes.foldl (fun targets footnote =>
    assign footnote.1 (targetsOf contexts footnote.2) targets) []

/-- The citation ids that footnotes stand for, each once. -/
def citationIdsOf (contexts : List Context) (footnotes : List (Text × Text)) : List Text :=
  fromKeys (footnotes.flatMap fun footnote =>
    ((targetsByMarker contexts footnotes).lookup footnote.1).getD [])

def citationNumbers (citationIds : List Text) : List (Text × ℕ) := citationIds.zipIdx 1

/-- The markers for what a marker stands for, or the marker itself if it is not defined. -/
def replaceMarker (contexts : List Context) (footnotes : List (Text × Text)) (marker : Text) :
    Text :=
  match (targetsByMarker contexts footnotes).lookup marker with
  | none => markerText marker
  | some targets =>
    let numbers := citationNumbers (citationIdsOf contexts footnotes)
    joined (targets.map fun target => Nat.toDigits 10 ((numbers.lookup target).getD 0))

def normalizeChunkLevelCitations (answer : Text) (contexts : List Context) : Text :=
  let (body, footnotes) := splitMarkdownFootnotes answer
  if footnotes = [] then answer
  else if footnotes.all fun footnote => (expand contexts footnote.2).isNone then answer
  else renderMarkdownFootnotes (sub (replaceMarker contexts footnotes) body)
    (citationIdsOf contexts footnotes)

/-! ## Keys -/

variable {contexts : List Context} {context : Context} {citationId : Text} {index : ℕ}
  {xs citationIds : List Text} {x marker : Text}

theorem nodup_fromKeys : (fromKeys xs).Nodup := by
  have hnil : (([] : List (Text × Unit)).map Prod.fst).Nodup := List.nodup_nil
  exact nodup_update hnil _

theorem mem_fromKeys : x ∈ fromKeys xs ↔ x ∈ xs := by
  rw [fromKeys, mem_keys_update, List.map_map]
  simp

theorem nodup_numbered : ((numbered citationIds).map Prod.fst).Nodup := by
  have hkeys : (numbered citationIds).map Prod.fst =
      (List.range' 1 citationIds.length).map (Nat.toDigits 10) := by
    rw [← List.zipIdx_map_snd, numbered, List.map_map, List.map_map]
    rfl
  rw [hkeys]
  exact (List.nodup_range' 1).map fun n m => Decimal.toDigits_inj

theorem exists_mem_numbered {P : Text → Prop} :
    (∃ footnote ∈ numbered citationIds, P footnote.2) ↔ ∃ id ∈ citationIds, P id := by
  have hids : (numbered citationIds).map Prod.snd = citationIds := by
    rw [numbered, List.map_map]
    exact List.zipIdx_map_fst 1 citationIds
  constructor
  · rintro ⟨footnote, hmem, h⟩
    exact ⟨footnote.2, hids ▸ List.mem_map_of_mem hmem, h⟩
  · rintro ⟨id, hmem, h⟩
    rw [← hids] at hmem
    obtain ⟨footnote, hfootnote, rfl⟩ := List.mem_map.1 hmem
    exact ⟨footnote, hfootnote, h⟩

/-- The number that a citation id gets is read back as the id. -/
theorem lookup_numbered (h : x ∈ citationIds) : (numbered citationIds).lookup
    (Nat.toDigits 10 (((citationNumbers citationIds).lookup x).getD 0)) = some x := by
  obtain ⟨n, hn⟩ : ∃ n, (citationNumbers citationIds).lookup x = some n := by
    refine Option.ne_none_iff_exists'.1 fun hnone => lookup_eq_none.1 hnone ?_
    rwa [citationNumbers, List.zipIdx_map_fst]
  rw [hn, Option.getD_some]
  exact lookup_of_mem nodup_numbered (List.mem_map.2 ⟨(x, n), mem_of_lookup hn, rfl⟩)

/-! ## Expansion -/

theorem parseCitationId_of_none (h : parseCitationId citationId = some (x, none)) :
    x = citationId ∧ citationId.count '-' < 2 := by
  rw [parseCitationId] at h
  split_ifs at h with hcount
  · obtain ⟨index, -, hindex⟩ := Option.map_eq_some_iff.1 h
    exact absurd (Prod.mk.inj hindex).2 nofun
  · exact ⟨(Prod.mk.inj (Option.some.inj h)).1.symm, by omega⟩

theorem rsplitDash_append {digits : Text} (h : '-' ∉ digits) (text : Text) :
    rsplitDash (text ++ '-' :: digits) = (text, digits) := by
  have hdigits : ∀ c ∈ digits.reverse, decide (c ≠ '-') := by
    intro c hc
    rw [decide_eq_true_eq]
    rintro rfl
    exact h (List.mem_reverse.1 hc)
  have hdash : ∀ c ∈ ('-' :: text.reverse).head?, decide (c ≠ '-') = false := by
    rintro _ ⟨⟩
    rfl
  obtain ⟨htake, hdrop⟩ := span_append hdigits hdash
  rw [rsplitDash, List.reverse_append, List.reverse_cons, List.append_assoc]
  rw [List.singleton_append, htake, hdrop, List.tail_cons, List.reverse_reverse,
    List.reverse_reverse]

theorem dash_notMem_toDigits (n : ℕ) : '-' ∉ Nat.toDigits 10 n := fun hmem =>
  absurd (Decimal.isDigit_of_mem_toDigits hmem) (by decide)

theorem parseCitationId_chunkCitationId (hid : IsCitationId citationId) (index : ℕ) :
    parseCitationId (chunkCitationId citationId index) = some (citationId, some index) := by
  have hcount : 2 ≤ (chunkCitationId citationId index).count '-' := by
    obtain ⟨rest, rfl⟩ := hid.isPrefix
    rw [chunkCitationId, List.append_assoc, List.count_append, List.count_append,
      List.count_cons_self]
    have hblock : "block-".toList.count '-' = 1 := by decide
    omega
  rw [parseCitationId, if_pos hcount, chunkCitationId,
    rsplitDash_append (dash_notMem_toDigits index), Decimal.int_toDigits]
  rfl

/-- What is expanded is the id of a context, of which there are chunks that are selected. -/
theorem expand_eq_some {targets : List Text} (h : expand contexts citationId = some targets) :
    ∃ context, parseCitationId citationId = some (citationId, none) ∧
      (contextsByCitationId contexts).lookup citationId = some context ∧
        selectedIndices context ≠ [] ∧
          targets = (selectedIndices context).map (chunkCitationId citationId) := by
  rw [expand] at h
  rcases hparse : parseCitationId citationId with _ | ⟨contextCitationId, _ | index⟩
  · rw [hparse] at h
    exact absurd h nofun
  · simp only [hparse] at h
    obtain ⟨rfl, -⟩ := parseCitationId_of_none hparse
    rcases hcontext : (contextsByCitationId contexts).lookup contextCitationId with _ | context
    · rw [hcontext] at h
      exact absurd h nofun
    · simp only [hcontext] at h
      split_ifs at h with hselected
      exact ⟨context, rfl, rfl, hselected, (Option.some.inj h).symm⟩
  · rw [hparse] at h
    exact absurd h nofun

theorem expand_chunkCitationId (hid : IsCitationId citationId) (index : ℕ) :
    expand contexts (chunkCitationId citationId index) = none := by
  rw [expand, parseCitationId_chunkCitationId hid]

theorem targetsOf_ne_nil : targetsOf contexts citationId ≠ [] := by
  rw [targetsOf]
  rcases h : expand contexts citationId with _ | targets
  · exact List.cons_ne_nil _ _
  · obtain ⟨context, -, -, hselected, rfl⟩ := expand_eq_some h
    exact mt List.map_eq_nil_iff.1 hselected

theorem IsCitationId.chunkCitationId (h : IsCitationId citationId) (index : ℕ) :
    IsCitationId (chunkCitationId citationId index) where
  isPrefix := h.isPrefix.trans (List.prefix_append _ _)
  length := by
    rw [Summarize.chunkCitationId, List.length_append]
    exact Nat.lt_add_right _ h.length
  plain := by
    rw [Summarize.chunkCitationId, List.forall_mem_append, List.forall_mem_cons]
    exact ⟨h.plain, by decide, fun c hc => isSpace_of_isDigit (Decimal.isDigit_of_mem_toDigits hc)⟩

/-- What an id stands for are ids that stand for themselves. -/
theorem IsCitationId.of_mem_targetsOf (h : IsCitationId citationId)
    (hx : x ∈ targetsOf contexts citationId) : IsCitationId x ∧ expand contexts x = none := by
  rw [targetsOf] at hx
  rcases hexpand : expand contexts citationId with _ | targets
  · rw [hexpand] at hx
    rw [List.mem_singleton.1 hx]
    exact ⟨h, hexpand⟩
  · obtain ⟨context, -, -, -, rfl⟩ := expand_eq_some hexpand
    rw [hexpand] at hx
    obtain ⟨index, -, rfl⟩ := List.mem_map.1 hx
    exact ⟨h.chunkCitationId index, expand_chunkCitationId h index⟩

/-! ## Attribution -/

theorem mem_urlsOf {chunks : List Chunk} {url : Text} : url ∈ urlsOf chunks ↔
    ∃ chunk ∈ chunks, chunk.originUrl.filter (· ≠ []) = some url := List.mem_filterMap

theorem mem_selectedIndices : index ∈ selectedIndices context ↔
    ∃ chunk, context.chunks[index]? = some chunk ∧ isSelected context chunk := by
  rw [selectedIndices, List.mem_map]
  constructor
  · rintro ⟨⟨chunk, i⟩, hmem, rfl⟩
    obtain ⟨hmem, hselected⟩ := List.mem_filter.1 hmem
    exact ⟨chunk, List.mk_mem_zipIdx_iff_getElem?.1 hmem, hselected⟩
  · rintro ⟨chunk, hchunk, hselected⟩
    exact ⟨(chunk, index), List.mem_filter.2 ⟨List.mk_mem_zipIdx_iff_getElem?.2 hchunk, hselected⟩,
      rfl⟩

/-- The origins of a context are those of its chunks that are selected. -/
theorem mem_originUrls {url : Text} : url ∈ originUrls context none ↔
    ∃ index ∈ selectedIndices context, url ∈ originUrls context (some index) := by
  have hall (hnone : context.citations = none) :
      context.chunks.filter (isSelected context) = context.chunks := by
    refine List.filter_eq_self.2 fun chunk _ => ?_
    rw [isSelected, hnone]
    rfl
  have hurls : originUrls context none = urlsOf (context.chunks.filter (isSelected context)) := by
    simp only [originUrls]
    split_ifs with h
    · rw [hall h.2]
    · rfl
  rw [hurls, mem_urlsOf]
  constructor
  · rintro ⟨chunk, hmem, hurl⟩
    obtain ⟨hmem, hselected⟩ := List.mem_filter.1 hmem
    obtain ⟨index, hindex⟩ := List.mem_iff_getElem?.1 hmem
    refine ⟨index, mem_selectedIndices.2 ⟨chunk, hindex, hselected⟩, ?_⟩
    rw [originUrls, mem_urlsOf, hindex]
    exact ⟨chunk, List.mem_singleton_self chunk, hurl⟩
  · rintro ⟨index, hindex, hurl⟩
    obtain ⟨chunk, hchunk, hselected⟩ := mem_selectedIndices.1 hindex
    rw [originUrls, mem_urlsOf, hchunk] at hurl
    obtain ⟨chunk', hmem, hurl⟩ := hurl
    obtain rfl := List.mem_singleton.1 hmem
    exact ⟨chunk', List.mem_filter.2 ⟨List.mem_of_getElem? hchunk, hselected⟩, hurl⟩

/-- A context that a citation is attributed to, and possibly an origin in it. -/
def Attributes (metadata : CitationMetadata) (contextId : Text) (url : Option Text) : Prop :=
  metadata.contextId = contextId ∧ ∀ u ∈ url, u ∈ metadata.originUrls

/-- What an id is attributed to is what the ids it stands for are attributed to. -/
theorem attributes_targetsOf (h : IsCitationId citationId) {contextId : Text} {url : Option Text} :
    (∃ x ∈ targetsOf contexts citationId, ∃ metadata, metadataOf contexts x = some metadata ∧
      Attributes metadata contextId url) ↔
        ∃ metadata, metadataOf contexts citationId = some metadata ∧
          Attributes metadata contextId url := by
  rw [targetsOf]
  rcases hexpand : expand contexts citationId with _ | targets
  · simp
  · obtain ⟨context, hparse, hcontext, hselected, rfl⟩ := expand_eq_some hexpand
    have hmetadata : metadataOf contexts citationId =
        some ⟨context.id, fromKeys (originUrls context none), none⟩ := by
      rw [metadataOf, hparse, Option.bind_some, hcontext]
      rfl
    have hchunk (index : ℕ) : metadataOf contexts (chunkCitationId citationId index) =
        some ⟨context.id, fromKeys (originUrls context (some index)), some index⟩ := by
      rw [metadataOf, parseCitationId_chunkCitationId h, Option.bind_some, hcontext]
      rfl
    simp only [Option.getD_some, List.mem_map, exists_exists_and_eq_and, hchunk, hmetadata,
      Option.some.injEq, exists_eq_left', Attributes, mem_fromKeys]
    rcases url with _ | url
    · obtain ⟨index, hindex⟩ := List.exists_mem_of_ne_nil _ hselected
      exact ⟨fun ⟨_, _, hid, _⟩ => ⟨hid, nofun⟩, fun ⟨hid, _⟩ => ⟨index, hindex, hid, nofun⟩⟩
    · simp only [Option.mem_some_iff, forall_eq', mem_originUrls]
      exact ⟨fun ⟨index, hindex, hid, hurl⟩ => ⟨hid, index, hindex, hurl⟩,
        fun ⟨hid, index, hindex, hurl⟩ => ⟨index, hindex, hid, hurl⟩⟩

/-! ## Answers -/

variable {answer out : Text} {footnotes : List (Text × Text)}

def bodyOf (answer : Text) : Text := (splitMarkdownFootnotes answer).1

def footnotesOf (answer : Text) : List (Text × Text) := (splitMarkdownFootnotes answer).2

theorem isCitationId_of_mem_findDefinitions {atStart : Bool} {text : Text} :
    ∀ definition ∈ findDefinitions atStart text,
      IsMarker definition.1 ∧ IsCitationId definition.2 := by
  induction text generalizing atStart with
  | nil => exact nofun
  | cons c text ih =>
    intro definition hmem
    obtain hmem | hmem := List.mem_append.1 hmem
    · split_ifs at hmem
      · obtain ⟨hmarker, hid, -⟩ := matchDefinition_eq_some.1 (Option.mem_toList.1 hmem)
        exact ⟨hmarker, hid⟩
      · exact absurd hmem List.not_mem_nil
    · exact ih definition hmem

theorem isCitationId_of_mem_footnotesOf :
    ∀ footnote ∈ footnotesOf answer, IsMarker footnote.1 ∧ IsCitationId footnote.2 := by
  rw [footnotesOf, splitMarkdownFootnotes]
  rcases beforeDefinitions true answer with _ | before
  · exact fun _ h => absurd h List.not_mem_nil
  · exact isCitationId_of_mem_findDefinitions

/-- A context that an answer is attributed to, and possibly an origin in it. -/
def AttributedTo (contexts : List Context) (answer contextId : Text) (url : Option Text) : Prop :=
  ∃ citation ∈ buildAnswerCitations answer contexts, Attributes citation.2 contextId url

theorem attributedTo_iff {contextId : Text} {url : Option Text} :
    AttributedTo contexts answer contextId url ↔ ∃ footnote ∈ footnotesOf answer,
      ∃ metadata, metadataOf contexts footnote.2 = some metadata ∧
        Attributes metadata contextId url := by
  have hkeys : (((fromKeys ((footnotesOf answer).map Prod.snd)).filterMap fun id =>
      (metadataOf contexts id).map fun metadata => (id, metadata)).map Prod.fst).Nodup := by
    rw [List.map_filterMap]
    refine nodup_fromKeys.filterMap fun id id' key hkey hkey' => ?_
    simp only [Option.map_map, Option.mem_def, Option.map_eq_some_iff] at hkey hkey'
    obtain ⟨_, -, rfl⟩ := hkey
    obtain ⟨_, -, heq⟩ := hkey'
    exact heq.symm
  have hbuild : buildAnswerCitations answer contexts =
      (fromKeys ((footnotesOf answer).map Prod.snd)).filterMap fun id =>
        (metadataOf contexts id).map fun metadata => (id, metadata) := update_of_disjoint hkeys
  rw [AttributedTo, hbuild]
  constructor
  · rintro ⟨citation, hmem, hattributes⟩
    obtain ⟨id, hid, hcitation⟩ := List.mem_filterMap.1 hmem
    obtain ⟨footnote, hfootnote, rfl⟩ := List.mem_map.1 (mem_fromKeys.1 hid)
    obtain ⟨metadata, hmetadata, rfl⟩ := Option.map_eq_some_iff.1 hcitation
    exact ⟨footnote, hfootnote, metadata, hmetadata, hattributes⟩
  · rintro ⟨footnote, hfootnote, metadata, hmetadata, hattributes⟩
    refine ⟨(footnote.2, metadata), List.mem_filterMap.2 ⟨footnote.2, ?_, ?_⟩, hattributes⟩
    · exact mem_fromKeys.2 (List.mem_map_of_mem hfootnote)
    · rw [hmetadata]
      rfl

/-! ## New markers -/

theorem targetsByMarker_eq (h : (footnotes.map Prod.fst).Nodup) :
    targetsByMarker contexts footnotes =
      footnotes.map fun footnote => (footnote.1, targetsOf contexts footnote.2) := by
  have hkeys : ((footnotes.map fun footnote =>
      (footnote.1, targetsOf contexts footnote.2)).map Prod.fst).Nodup := by
    rwa [List.map_map]
  rw [← List.nil_append (footnotes.map _), ← update_of_disjoint hkeys, update, List.foldl_map]
  rfl

theorem lookup_targetsByMarker (h : (footnotes.map Prod.fst).Nodup) {footnote : Text × Text}
    (hmem : footnote ∈ footnotes) : (targetsByMarker contexts footnotes).lookup footnote.1 =
      some (targetsOf contexts footnote.2) := by
  rw [targetsByMarker_eq h]
  refine lookup_of_mem ?_ (List.mem_map_of_mem hmem)
  rwa [List.map_map]

theorem mem_citationIdsOf (h : (footnotes.map Prod.fst).Nodup) :
    x ∈ citationIdsOf contexts footnotes ↔
      ∃ footnote ∈ footnotes, x ∈ targetsOf contexts footnote.2 := by
  rw [citationIdsOf, mem_fromKeys, List.mem_flatMap]
  refine exists_congr fun footnote => and_congr_right fun hmem => ?_
  rw [lookup_targetsByMarker h hmem, Option.getD_some]

/-- The markers that a marker is replaced by. -/
def newMarkers (contexts : List Context) (footnotes : List (Text × Text)) (marker : Text) :
    List Text :=
  ((targetsByMarker contexts footnotes).lookup marker).elim [marker] fun targets =>
    targets.map fun target => Nat.toDigits 10
      (((citationNumbers (citationIdsOf contexts footnotes)).lookup target).getD 0)

theorem replaceMarker_eq : replaceMarker contexts footnotes marker =
    joined (newMarkers contexts footnotes marker) := by
  rw [replaceMarker, newMarkers]
  rcases (targetsByMarker contexts footnotes).lookup marker with _ | targets
  · exact List.intercalate_singleton.symm
  · rfl

theorem newMarkers_of_notMem (h : (footnotes.map Prod.fst).Nodup)
    (hmarker : marker ∉ footnotes.map Prod.fst) :
    newMarkers contexts footnotes marker = [marker] := by
  have hnone : (targetsByMarker contexts footnotes).lookup marker = none := by
    rw [targetsByMarker_eq h, lookup_eq_none, List.map_map]
    exact hmarker
  rw [newMarkers, hnone]
  rfl

/-- The markers for a footnote are read back as what it stands for. -/
theorem map_newMarkers (h : (footnotes.map Prod.fst).Nodup) {footnote : Text × Text}
    (hmem : footnote ∈ footnotes) : (newMarkers contexts footnotes footnote.1).map
      (fun m => (numbered (citationIdsOf contexts footnotes)).lookup m) =
        (targetsOf contexts footnote.2).map some := by
  rw [newMarkers, lookup_targetsByMarker h hmem]
  refine (List.map_map ..).trans (List.map_congr_left fun target htarget => ?_)
  exact lookup_numbered ((mem_citationIdsOf h).2 ⟨footnote, hmem, htarget⟩)

theorem replaces_replaceMarker (h : (footnotes.map Prod.fst).Nodup) :
    Replaces (replaceMarker contexts footnotes) := by
  intro marker hmarker
  refine ⟨_, ?_, ?_, replaceMarker_eq⟩
  · by_cases hmem : marker ∈ footnotes.map Prod.fst
    · obtain ⟨footnote, hfootnote, rfl⟩ := List.mem_map.1 hmem
      rw [newMarkers, lookup_targetsByMarker h hfootnote]
      exact mt List.map_eq_nil_iff.1 targetsOf_ne_nil
    · rw [newMarkers_of_notMem h hmem]
      exact List.cons_ne_nil _ _
  · rw [newMarkers]
    rcases (targetsByMarker contexts footnotes).lookup marker with _ | targets
    · intro m hm
      rwa [List.mem_singleton.1 hm]
    · intro m hm
      obtain ⟨target, -, rfl⟩ := List.mem_map.1 hm
      exact isMarker_toDigits _

/-! ## Normalized answers -/

/-- An answer of which the citations are those of another one, normalized. -/
structure Normalizes (contexts : List Context) (answer out : Text) : Prop where
  /-- Without a footnote to expand, the answer stays as it is. -/
  unchanged : (∀ footnote ∈ footnotesOf answer, expand contexts footnote.2 = none) → out = answer
  /-- Otherwise there is one footnote for each citation id, and they are numbered. -/
  numbered : (∃ footnote ∈ footnotesOf answer, expand contexts footnote.2 ≠ none) →
    ∃ citationIds, citationIds.Nodup ∧ footnotesOf out = numbered citationIds
  /-- The markers of footnotes are replaced by those of what they stood for, and the rest of the
      body stays as it is. -/
  body : ∃ markers : Text → List Text,
    bodyOf out = sub (fun marker => joined (markers marker)) (bodyOf answer) ∧
      (∀ footnote ∈ footnotesOf answer, (markers footnote.1).map
        (fun m => (footnotesOf out).lookup m) = (targetsOf contexts footnote.2).map some) ∧
          ∀ marker ∉ (footnotesOf answer).map Prod.fst, markers marker = [marker]
  attribution : ∀ contextId url,
    AttributedTo contexts out contextId url ↔ AttributedTo contexts answer contextId url
  idempotent : normalizeChunkLevelCitations out contexts = out

theorem normalize_of_unchanged
    (h : ∀ footnote ∈ footnotesOf answer, expand contexts footnote.2 = none) :
    normalizeChunkLevelCitations answer contexts = answer := by
  have hall : (footnotesOf answer).all fun footnote => (expand contexts footnote.2).isNone := by
    refine List.all_eq_true.2 fun footnote hmem => ?_
    rw [h footnote hmem]
    rfl
  simp only [normalizeChunkLevelCitations]
  split_ifs with hnil hsome
  · rfl
  · rfl
  · exact absurd hall hsome

theorem sub_markerText (text : Text) : sub (fun marker => joined [marker]) text = text := by
  induction text using tokens_induction with
  | nil => rfl
  | char c text hchar ih => rw [sub_char hchar, ih]
  | marker marker rest hmarker ih =>
    rw [sub_marker hmarker, ih, joined_cons, if_pos rfl, List.cons_append, List.append_assoc]
    rfl

theorem normalizes_of_unchanged (hmarkers : ((footnotesOf answer).map Prod.fst).Nodup)
    (h : ∀ footnote ∈ footnotesOf answer, expand contexts footnote.2 = none) :
    Normalizes contexts answer answer where
  unchanged _ := rfl
  numbered := by
    rintro ⟨footnote, hmem, hexpand⟩
    exact absurd (h footnote hmem) hexpand
  body := by
    refine ⟨fun marker => [marker], (sub_markerText _).symm, fun footnote hmem => ?_,
      fun marker _ => rfl⟩
    rw [targetsOf, h footnote hmem, List.map_singleton, lookup_of_mem hmarkers hmem]
    rfl
  attribution _ _ := Iff.rfl
  idempotent := normalize_of_unchanged h

theorem normalize_of_expanded
    (h : ∃ footnote ∈ footnotesOf answer, expand contexts footnote.2 ≠ none) :
    normalizeChunkLevelCitations answer contexts =
      renderMarkdownFootnotes (sub (replaceMarker contexts (footnotesOf answer)) (bodyOf answer))
        (citationIdsOf contexts (footnotesOf answer)) := by
  obtain ⟨footnote, hmem, hexpand⟩ := h
  simp only [normalizeChunkLevelCitations]
  split_ifs with hnil hall
  · rw [footnotesOf, hnil] at hmem
    exact absurd hmem List.not_mem_nil
  · have hnone := List.all_eq_true.1 hall footnote hmem
    exact absurd (Option.isNone_iff_eq_none.1 hnone) hexpand
  · rfl

/-- An answer with footnotes to expand is normalized. -/
theorem normalizes_of_expanded (hmarkers : ((footnotesOf answer).map Prod.fst).Nodup)
    (h : ∃ footnote ∈ footnotesOf answer, expand contexts footnote.2 ≠ none) :
    Normalizes contexts answer (normalizeChunkLevelCitations answer contexts) := by
  obtain ⟨footnote, hmem, hexpand⟩ := h
  have hnormalize := normalize_of_expanded ⟨footnote, hmem, hexpand⟩
  have hids : ∀ id ∈ citationIdsOf contexts (footnotesOf answer),
      IsCitationId id ∧ expand contexts id = none := by
    intro id hid
    obtain ⟨footnote, hfootnote, htarget⟩ := (mem_citationIdsOf hmarkers).1 hid
    exact (isCitationId_of_mem_footnotesOf footnote hfootnote).2.of_mem_targetsOf htarget
  have hne : citationIdsOf contexts (footnotesOf answer) ≠ [] := by
    obtain ⟨target, htarget⟩ := List.exists_mem_of_ne_nil _ targetsOf_ne_nil
    exact List.ne_nil_of_mem ((mem_citationIdsOf hmarkers).2 ⟨footnote, hmem, htarget⟩)
  have hsplit : splitMarkdownFootnotes (normalizeChunkLevelCitations answer contexts) =
      (sub (replaceMarker contexts (footnotesOf answer)) (bodyOf answer),
        numbered (citationIdsOf contexts (footnotesOf answer))) := by
    rw [hnormalize]
    exact splitMarkdownFootnotes_render (replaces_replaceMarker hmarkers) rfl
      (List.ne_nil_of_mem hmem) hne fun id hid => (hids id hid).1
  have hfootnotes : footnotesOf (normalizeChunkLevelCitations answer contexts) =
      numbered (citationIdsOf contexts (footnotesOf answer)) := by rw [footnotesOf, hsplit]
  refine ⟨fun hnone => absurd (hnone footnote hmem) hexpand,
    fun _ => ⟨_, nodup_fromKeys, hfootnotes⟩,
    ⟨newMarkers contexts (footnotesOf answer), ?_, fun footnote hfootnote => ?_,
      fun marker hmarker => newMarkers_of_notMem hmarkers hmarker⟩, fun contextId url => ?_, ?_⟩
  · rw [bodyOf, hsplit]
    exact congrArg (sub · _) (funext fun marker => replaceMarker_eq)
  · rw [hfootnotes]
    exact map_newMarkers hmarkers hfootnote
  · rw [attributedTo_iff, attributedTo_iff, hfootnotes,
      exists_mem_numbered (P := fun id => ∃ metadata, metadataOf contexts id = some metadata ∧
        Attributes metadata contextId url)]
    constructor
    · rintro ⟨id, hid, hattributes⟩
      obtain ⟨footnote, hfootnote, htarget⟩ := (mem_citationIdsOf hmarkers).1 hid
      exact ⟨footnote, hfootnote, (attributes_targetsOf
        (isCitationId_of_mem_footnotesOf footnote hfootnote).2).1 ⟨id, htarget, hattributes⟩⟩
    · rintro ⟨footnote, hfootnote, hattributes⟩
      obtain ⟨id, htarget, hid⟩ := (attributes_targetsOf
        (isCitationId_of_mem_footnotesOf footnote hfootnote).2).2 hattributes
      exact ⟨id, (mem_citationIdsOf hmarkers).2 ⟨footnote, hfootnote, htarget⟩, hid⟩
  · refine normalize_of_unchanged fun footnote hfootnote => ?_
    rw [hfootnotes] at hfootnote
    obtain ⟨id, hid, heq⟩ := exists_mem_numbered.1 ⟨footnote, hfootnote, Eq.refl footnote.2⟩
    exact heq ▸ (hids id hid).2

/-- An answer is normalized, if its footnotes have different markers. -/
theorem normalizes_chunkLevelCitations (contexts : List Context) (answer : Text)
    (hmarkers : ((footnotesOf answer).map Prod.fst).Nodup) :
    Normalizes contexts answer (normalizeChunkLevelCitations answer contexts) := by
  by_cases h : ∀ footnote ∈ footnotesOf answer, expand contexts footnote.2 = none
  · rw [normalize_of_unchanged h]
    exact normalizes_of_unchanged hmarkers h
  · push Not at h
    exact normalizes_of_expanded hmarkers h

/-- Two contexts with chunks and one without. -/
def auroraContexts : List Context := [
  { id := "a".toList, citationsId := some "block-AA".toList, chunks := [
    { chunkId := "chunk-1".toList, text := "First source".toList },
    { chunkId := "chunk-2".toList, text := "Second source".toList }] },
  { id := "b".toList, citationsId := some "block-AB".toList, chunks := [
    { chunkId := "chunk-3".toList, text := "Third source".toList }] },
  { id := "c".toList, citationsId := some "block-AC".toList }]

def auroraAnswer : Text := ("Aurora [1]. Beta [2]. Gamma [3]. Aurora again [1].\n\n" ++
  "[1]: block-AA\n[2]: block-AB\n[3]: block-AC").toList

def auroraNormalized : Text := ("Aurora [1] [2]. Beta [3]. Gamma [4]. Aurora again [1] [2].\n\n" ++
  "[1]: block-AA-0\n[2]: block-AA-1\n[3]: block-AB-0\n[4]: block-AC").toList

theorem normalizes_aurora : Normalizes auroraContexts auroraAnswer auroraNormalized := by
  have hnormalized : normalizeChunkLevelCitations auroraAnswer auroraContexts =
      auroraNormalized := by
    unfold auroraAnswer auroraContexts auroraNormalized
    simp only [String.toList_append]
    -- the characters of a literal, which take long to run
    repeat rewrite [String.toList_ofList]
    decide +kernel
  rw [← hnormalized]
  exact normalizes_chunkLevelCitations auroraContexts auroraAnswer (by decide +kernel)

/-- A footnote that is of a chunk already. -/
def chunkAnswer : Text := "The answer is here [2].\n\n[2]: block-AA-1".toList

/-- Without a footnote to expand, the footnotes are not numbered. -/
theorem not_numbered_chunkAnswer : ((footnotesOf chunkAnswer).map Prod.fst).Nodup ∧
    ¬ ∃ citationIds, citationIds.Nodup ∧
      footnotesOf (normalizeChunkLevelCitations chunkAnswer auroraContexts) =
        numbered citationIds := by
  refine ⟨by decide +kernel, ?_⟩
  rintro ⟨citationIds, -, h⟩
  have hfootnotes : footnotesOf (normalizeChunkLevelCitations chunkAnswer auroraContexts) =
      [(['2'], "block-AA-1".toList)] := by decide +kernel
  rw [hfootnotes] at h
  rcases citationIds with _ | ⟨id, citationIds⟩
  · exact absurd h (List.cons_ne_nil _ _)
  · rw [numbered, List.zipIdx_cons, List.map_cons, List.cons.injEq, Prod.mk.injEq] at h
    have hone : ['2'] ≠ Nat.toDigits 10 1 := by decide
    exact hone h.1.1

end Hyperforge.Summarize
