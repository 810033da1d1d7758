import Hyperforge.Contexts
import Hyperforge.Library.Crash
import Hyperforge.Library.Json.Dict
import Hyperforge.Library.Json.Literal

/-!
# Hydration of search results

The paragraphs that a search finds become chunks of a context, with the text of their field around
them: as many paragraphs before and after as is asked for. The neighbours of a paragraph are found
by links between the ids of paragraphs (`generateChunk`, `cutTheProperText`).

The ids under which the links are stored are not those of the paragraphs that are found: the id of
a field begins with a slash, which is then doubled. So no neighbour is found, and the text is that
of the paragraph alone (`cutTheProperText_of_unlinked`).
-/

namespace Hyperforge.NucliaDB

open Json hiding Tree

abbrev Text := List Char

/-! ## Search results -/

/-- The ids of the paragraphs that a paragraph is related to. -/
structure ParagraphRelations where
  parents : List Text := []
  siblings : List Text := []
  replacements : List Text := []

/-- A paragraph of a field, by where it is in the text of the field. -/
structure Paragraph where
  start : Option ℤ
  stop : Option ℤ
  relations : Option ParagraphRelations := none

/-- A field, as to what has been extracted of it: its text and its paragraphs. -/
structure Field where
  text : Option Text := none
  paragraphs : Option (List Paragraph) := none

inductive FieldTypeName
  | conversation
  | file
  | text
  | generic
  | link
  deriving DecidableEq

/-- The fields of a resource by their names. -/
structure ResourceData where
  conversations : List (Text × Field) := []
  files : List (Text × Field) := []
  texts : List (Text × Field) := []
  generics : List (Text × Field) := []
  links : List (Text × Field) := []

def ResourceData.fields (data : ResourceData) : FieldTypeName → List (Text × Field)
  | .conversation => data.conversations
  | .file => data.files
  | .text => data.texts
  | .generic => data.generics
  | .link => data.links

structure Position where
  start : ℤ
  stop : ℤ
  pageNumber : Option ℤ := none

/-- A paragraph that is found. -/
structure FindParagraph where
  text : Text
  position : Option Position
  labels : Option (List Text) := none
  pageWithVisual : Bool := false
  reference : Option Text := none

/-- The paragraphs that are found of a field, by their ids. -/
structure FindField where
  paragraphs : List (Text × FindParagraph)

structure Origin where
  url : Option Text := none
  path : Option Text := none

/-- A resource of which something is found, with the sets and names of its labels. -/
structure FindResource where
  classifications : List (Text × Text) := []
  fields : List (Text × FindField)
  data : Option ResourceData
  origin : Option Origin := none

structure KnowledgeboxFindResults where
  resources : Option (List (Text × FindResource))

structure GraphNode where
  value : Text
  type : Text
  group : Option Text

structure GraphRelation where
  label : Text
  type : Text

structure GraphPath where
  source : GraphNode
  relation : GraphRelation
  destination : GraphNode

structure SearchResults where
  lexicalFindResults : Option KnowledgeboxFindResults := none
  semanticFindResults : Option KnowledgeboxFindResults := none
  graphFindResults : Option KnowledgeboxFindResults := none
  graphResults : Option (List GraphPath) := none
  nodesResults : Option (List GraphNode) := none
  relationsResults : Option (List GraphRelation) := none

/-! ## Chunks and links -/

inductive Error
  | index
  | key (key : Text)
  | value
  | exception (message : Text)

inductive Relation
  | next
  | prev
  | parent
  | replacement
  | sibling
  deriving DecidableEq

structure NDBChunk where
  chunkId : Text
  text : Text
  pageWithVisual : Bool := false
  reference : Option Text := none
  start : Option ℤ := none
  stop : Option ℤ := none
  page : Option ℤ := none
  labels : List Text := []
  field : Option Field := none
  resourceLabels : List Text := []
  link : Option Text := none

structure HydrateData where
  chunks : List (Text × NDBChunk) := []
  paragraphs : List (Text × Paragraph) := []
  links : List ((Text × Relation) × Text) := []

/-- The field of a resource, of which the types are tried one after another. -/
def findField (abbreviation : FieldTypeName → Text) (resourceId : Text)
    (data : Option ResourceData) (fieldType fieldName : Text) : Except Error Field :=
  let fields := fun type => (data.map (·.fields type)).getD []
  match [FieldTypeName.conversation, .file, .text, .generic, .link].find? fun type =>
    fieldType = abbreviation type ∧ !(fields type).isEmpty with
  | some type =>
    match (fields type).lookup fieldName with
    | some field => .ok field
    | none => .error (.key fieldName)
  | none => .error (.exception ("Unknown field type ".toList ++ fieldType ++
      " for field ".toList ++ fieldName ++ " in resource ".toList ++ resourceId))

/-- `f"{x}"`, of a number that may be missing. -/
def boundText (x : Option ℤ) : Text := x.elim "None".toList intText

/-- `f"{resource_id}/{field_id}/{paragraph.start}-{paragraph.end}"` -/
def paragraphId (resourceId fieldId : Text) (paragraph : Paragraph) : Text :=
  resourceId ++ '/' :: (fieldId ++ '/' ::
    (boundText paragraph.start ++ '-' :: boundText paragraph.stop))

/-- Links from a paragraph, of which only the last of a relation stays. -/
def addLinks (actual : Text) (relation : Relation) (targets : List Text)
    (links : List ((Text × Relation) × Text)) : List ((Text × Relation) × Text) :=
  targets.foldl (fun links target => assign (actual, relation) target links) links

/-- The paragraphs of a field, each linked with the previous one. -/
def addParagraphs (resourceId fieldId : Text) : Option Text → List Paragraph → HydrateData →
    HydrateData
  | _, [], data => data
  | previous, paragraph :: paragraphs, data =>
    let actual := paragraphId resourceId fieldId paragraph
    let links :=
      match previous with
      | none => data.links
      | some previous =>
        assign (actual, .prev) previous (assign (previous, .next) actual data.links)
    let links :=
      match paragraph.relations with
      | none => links
      | some relations => addLinks actual .sibling relations.siblings
          (addLinks actual .replacement relations.replacements
            (addLinks actual .parent relations.parents links))
    addParagraphs resourceId fieldId (some actual) paragraphs
      { data with links := links, paragraphs := assign actual paragraph data.paragraphs }

/-- `x or y` -/
def orText (x y : Option Text) : Option Text :=
  match x with
  | none | some [] => y
  | some x => some x

/-- The chunk of a paragraph that is found. -/
def toChunk (resource : FindResource) (field : Field) (chunkId : Text)
    (paragraph : FindParagraph) : NDBChunk where
  chunkId := chunkId
  text := paragraph.text
  pageWithVisual := paragraph.pageWithVisual
  reference := paragraph.reference
  start := paragraph.position.map (·.start)
  stop := paragraph.position.map (·.stop)
  page := paragraph.position.bind (·.pageNumber)
  labels := paragraph.labels.getD []
  resourceLabels := resource.classifications.map fun label =>
    'l' :: '/' :: (label.1 ++ '/' :: label.2)
  field := some field
  link := resource.origin.bind fun origin => orText origin.url origin.path

/-- The field with an id that is found of a resource. -/
def fieldOf (abbreviation : FieldTypeName → Text) (resourceId : Text) (resource : FindResource)
    (fieldId : Text) : Except Error Field :=
  match fieldId.splitOn '/' with  -- /t/page
  | _ :: fieldType :: fieldName :: _ =>
    findField abbreviation resourceId resource.data fieldType fieldName
  | _ => .error .index

/-- What is found of a field. -/
def addField (abbreviation : FieldTypeName → Text) (resourceId : Text) (resource : FindResource)
    (data : HydrateData) (found : Text × FindField) : Except Error HydrateData := do
  let (fieldId, fieldObj) := found
  let field ← fieldOf abbreviation resourceId resource fieldId
  let data := addParagraphs resourceId fieldId none (field.paragraphs.getD []) data
  return { data with chunks := fieldObj.paragraphs.foldl (fun chunks paragraph =>
    assign paragraph.1 (toChunk resource field paragraph.1 paragraph.2) chunks) data.chunks }

def generateChunk (abbreviation : FieldTypeName → Text)
    (retrieval : Option KnowledgeboxFindResults) (data : HydrateData) : Except Error HydrateData :=
  ((retrieval.bind (·.resources)).getD []).foldlM (fun data resource =>
    resource.2.fields.foldlM (addField abbreviation resource.1 resource.2) data) data

/-- The ids that are drawn for chunks of the graph. -/
structure Uuids where
  relations : Text
  paths : Text
  nodes : Text

/-- A chunk that is not of a field. -/
def addText (chunkId text : Text) (data : HydrateData) : HydrateData :=
  { data with chunks := assign chunkId { chunkId := chunkId, text := text } data.chunks }

/-- `f"{x}"`, of a text that may be missing. -/
def optionText (x : Option Text) : Text := x.getD "None".toList

def generateGraphRelationsChunk (hex : Text) (relations : List GraphRelation) :
    HydrateData → HydrateData :=
  addText ("relations-".toList ++ hex) ("Existing relations that can be used to query:\n".toList ++
    relations.flatMap fun relation =>
      "- ".toList ++ relation.type ++ ": ".toList ++ relation.label ++ " \n".toList)

def generateGraphSearchChunk (hex : Text) (paths : List GraphPath) : HydrateData → HydrateData :=
  let node := fun (node : GraphNode) =>
    node.value ++ ' ' :: node.type ++ ' ' :: optionText node.group ++ ['\n']
  addText ("paths-".toList ++ hex) ("Existing nodes and relations:\n".toList ++
    paths.flatMap fun path =>
      "- Source node: ".toList ++ node path.source ++ "  Relation: ".toList ++
        path.relation.label ++ ' ' :: path.relation.type ++ "\n  Destination node: ".toList ++
        node path.destination)

def generateGraphNodesChunk (hex : Text) (nodes : List GraphNode) : HydrateData → HydrateData :=
  addText ("nodes-".toList ++ hex) ("Existing Nodes that can be used at query time:\n".toList ++
    nodes.flatMap fun node =>
      "- ".toList ++ optionText node.group ++ ": ".toList ++ node.type ++ " - ".toList ++
        node.value ++ ['\n'])

/-- What is known of the results of a search before the texts are cut. -/
def collect (abbreviation : FieldTypeName → Text) (uuids : Uuids) (results : SearchResults) :
    Except Error HydrateData := do
  let data ← generateChunk abbreviation results.semanticFindResults {}
  let data ← generateChunk abbreviation results.lexicalFindResults data
  let data ← generateChunk abbreviation results.graphFindResults data
  let data := results.relationsResults.elim data
    (generateGraphRelationsChunk uuids.relations · data)
  let data := results.graphResults.elim data (generateGraphSearchChunk uuids.paths · data)
  return results.nodesResults.elim data (generateGraphNodesChunk uuids.nodes · data)

/-! ## Cutting the text -/

/-- The paragraphs before one, and where the first of them starts. -/
def walkBefore (data : HydrateData) : ℕ → Text → ℤ → ℤ
  | 0, _, start => start
  | n + 1, actualId, start =>
    match data.links.lookup (actualId, .prev) with
    | none => walkBefore data n actualId start
    | some prevChunk =>
      match data.paragraphs.lookup prevChunk with
      | none => walkBefore data n actualId start
      | some newParagraph => walkBefore data n prevChunk
          (newParagraph.start.elim start fun newStart =>
            if newStart < start then newStart else start)

/-- The paragraph after one, that is looked up again and again, and where it ends. -/
def walkAfter (data : HydrateData) (chunkId : Text) : ℕ → ℤ → ℤ
  | 0, stop => stop
  | n + 1, stop =>
    match data.links.lookup (chunkId, .next) with
    | none => walkAfter data chunkId n stop
    | some nextChunk =>
      match data.paragraphs.lookup nextChunk with
      | none => walkAfter data chunkId n stop
      | some newParagraph => walkAfter data chunkId n
          (newParagraph.stop.elim stop fun newStop => if newStop > stop then newStop else stop)

def cutTheProperText (chunkId : Text) (chunk : NDBChunk) (before after : ℕ) (data : HydrateData) :
    List (ℤ × ℤ) :=
  [(walkBefore data before chunkId (chunk.start.getD 0),
    walkAfter data chunkId after (chunk.stop.getD 0))]

/-- `text[start:stop]` -/
def slice (text : Text) (start stop : ℤ) : Text :=
  let index := fun (i : ℤ) => if i < 0 then (i + text.length).toNat else i.toNat
  (text.take (index stop)).drop (index start)

/-- A chunk of the context. -/
def hydrateChunk (fullResource : Bool) (before after : ℕ) (link : Bool) (data : HydrateData)
    (chunkId : Text) (chunk : NDBChunk) : Except Error Chunk :=
  let hydrated := fun text => ({
    chunkId := chunkId
    text := text
    labels := chunk.labels ++ chunk.resourceLabels } : Chunk)
  if chunkId.count '/' < 3 then .ok (hydrated chunk.text)
  else if (chunkId.splitOn '/').length ≠ 4 ∧ (chunkId.splitOn '/').length ≠ 5 then .error .value
  else
    match chunk.field.bind (·.text) with
    | none => .ok (hydrated chunk.text)
    | some fieldText =>
      let text :=
        if fullResource then fieldText
        else (cutTheProperText chunkId chunk before after data).flatMap fun position =>
          slice fieldText position.1 position.2 ++ ['\n']
      .ok (hydrated (text ++
        match chunk.link with
        | some url => if link then "\n\nLink: ".toList ++ url ++ ['\n'] else []
        | none => []))

/-- A context with the chunks of the results of a search. The images that may be fetched for them
    are left out. -/
def hydrate (abbreviation : FieldTypeName → Text) (uuids : Uuids) (context : Context)
    (results : SearchResults) (fullResource : Bool) (before after : ℕ) (link : Bool) :
    Except Error Context := do
  let data ← collect abbreviation uuids results
  let chunks ← data.chunks.mapM fun chunk =>
    hydrateChunk fullResource before after link data chunk.1 chunk.2
  return { context with chunks := context.chunks ++ chunks }

/-! ## What a search finds -/

def resourcesOf (retrieval : Option KnowledgeboxFindResults) : List (Text × FindResource) :=
  (retrieval.bind (·.resources)).getD []

/-- The id of a paragraph that is found, by the rest after the id of its field: where it is, after
    the part of the field that it is in, if there are several. -/
def IsChunkId (resourceId fieldId chunkId : Text) : Prop :=
  ∃ rest : Text, (rest.splitOn '/').length ≤ 2 ∧ chunkId = resourceId ++ (fieldId ++ '/' :: rest)

/-- The id of a field: a slash, its type, a slash and its name. -/
def IsFieldId (fieldId : Text) : Prop :=
  ∃ fieldType fieldName : Text, fieldType ≠ [] ∧ '/' ∉ fieldType ∧ '/' ∉ fieldName ∧
    fieldId = '/' :: (fieldType ++ '/' :: fieldName)

/-- What the results rely on: ids are of the form that the database gives them, and the fields that
    are found are among the data of their resource. -/
structure WellFormed (abbreviation : FieldTypeName → Text)
    (retrieval : Option KnowledgeboxFindResults) : Prop where
  resourceId : ∀ resource ∈ resourcesOf retrieval, '/' ∉ resource.1
  fieldId : ∀ resource ∈ resourcesOf retrieval, ∀ found ∈ resource.2.fields, IsFieldId found.1
  field : ∀ resource ∈ resourcesOf retrieval, ∀ found ∈ resource.2.fields,
    ∃ field, fieldOf abbreviation resource.1 resource.2 found.1 = .ok field
  chunkId : ∀ resource ∈ resourcesOf retrieval, ∀ found ∈ resource.2.fields,
    ∀ paragraph ∈ found.2.paragraphs, IsChunkId resource.1 found.1 paragraph.1

variable {abbreviation : FieldTypeName → Text} {retrieval : Option KnowledgeboxFindResults}
  {resourceId fieldId chunkId : Text} {own : ℤ × ℤ} {data : HydrateData}

/-- The parts of the id that the links of a paragraph are stored under. -/
theorem splitOn_paragraphId (hresource : '/' ∉ resourceId) (hfield : IsFieldId fieldId)
    (paragraph : Paragraph) :
    ((paragraphId resourceId fieldId paragraph).splitOn '/')[1]? = some [] := by
  obtain ⟨fieldType, fieldName, -, -, -, rfl⟩ := hfield
  have hempty : ('/' ∉ ([] : Text)) := List.not_mem_nil
  have hfield := List.splitOn_append_cons_self_of_not_mem hempty
    (fieldType ++ '/' :: fieldName ++ '/' ::
      (boundText paragraph.start ++ '-' :: boundText paragraph.stop))
  rw [paragraphId, List.splitOn_append_cons_self_of_not_mem hresource, List.getElem?_cons_succ]
  rw [List.nil_append] at hfield
  rw [List.cons_append, hfield]
  rfl

/-- The parts of the id of a paragraph that is found. -/
theorem IsChunkId.splitOn_eq (h : IsChunkId resourceId fieldId chunkId)
    (hresource : '/' ∉ resourceId) (hfield : IsFieldId fieldId) :
    ∃ fieldType fieldName rest, fieldType ≠ [] ∧ rest ≠ [] ∧ rest.length ≤ 2 ∧
      chunkId.splitOn '/' = resourceId :: fieldType :: fieldName :: rest := by
  obtain ⟨rest, hrest, rfl⟩ := h
  obtain ⟨fieldType, fieldName, hne, htype, hname, rfl⟩ := hfield
  refine ⟨fieldType, fieldName, _, hne, List.splitOn_ne_nil '/' rest, hrest, ?_⟩
  rw [List.cons_append, List.append_assoc, List.cons_append,
    List.splitOn_append_cons_self_of_not_mem hresource,
    List.splitOn_append_cons_self_of_not_mem htype, List.splitOn_append_cons_self_of_not_mem hname]

/-! ## Links that are not found -/

/-- No link leads from a paragraph. -/
def Unlinked (chunkId : Text) (data : HydrateData) : Prop :=
  ∀ relation, data.links.lookup (chunkId, relation) = none

theorem Unlinked.walkBefore (h : Unlinked chunkId data) (n : ℕ) (start : ℤ) :
    walkBefore data n chunkId start = start := by
  induction n with
  | zero => rfl
  | succ n ih => rw [NucliaDB.walkBefore, h .prev, ih]

theorem Unlinked.walkAfter (h : Unlinked chunkId data) (n : ℕ) (stop : ℤ) :
    walkAfter data chunkId n stop = stop := by
  induction n with
  | zero => rfl
  | succ n ih => rw [NucliaDB.walkAfter, h .next, ih]

/-- Without links, a paragraph is alone in its text. -/
theorem cutTheProperText_of_unlinked (h : Unlinked chunkId data) (chunk : NDBChunk)
    (before after : ℕ) : cutTheProperText chunkId chunk before after data =
      [(chunk.start.getD 0, chunk.stop.getD 0)] := by
  rw [cutTheProperText, h.walkBefore, h.walkAfter]

/-- What holds of the data at any time: links are stored under the ids of paragraphs, the chunks
    with an id are where their paragraph is, and ids can be taken apart. -/
structure Settled (chunkId : Text) (own : ℤ × ℤ) (data : HydrateData) : Prop where
  links : ∀ link ∈ data.links, (link.1.1.splitOn '/')[1]? = some []
  chunks : ∀ chunk, (chunkId, chunk) ∈ data.chunks →
    chunk.start = some own.1 ∧ chunk.stop = some own.2
  ids : ∀ chunk ∈ data.chunks, chunk.1.count '/' < 3 ∨ (chunk.1.splitOn '/').length = 4 ∨
    (chunk.1.splitOn '/').length = 5

theorem Settled.unlinked (h : Settled chunkId own data)
    (hresource : '/' ∉ resourceId) (hfield : IsFieldId fieldId)
    (hchunk : IsChunkId resourceId fieldId chunkId) : Unlinked chunkId data := by
  obtain ⟨fieldType, fieldName, rest, hne, -, -, hsplit⟩ := hchunk.splitOn_eq hresource hfield
  intro relation
  rw [lookup_eq_none]
  intro hmem
  obtain ⟨link, hlink, heq⟩ := List.mem_map.1 hmem
  -- The second part of its id is the type of a field, and not empty.
  have hempty := h.links link hlink
  rw [heq, hsplit] at hempty
  exact hne (Option.some.inj hempty)

/-! ## Collecting the results -/

/-- The ids of the chunks. -/
def HydrateData.ids (data : HydrateData) : List Text := data.chunks.map Prod.fst

/-- A step that succeeds: what holds at any time stays, no chunk is lost, and those with certain ids
    are there. -/
def Adds (chunkId : Text) (own : ℤ × ℤ) (ids : List Text) (data : HydrateData)
    (result : Except Error HydrateData) : Prop :=
  ∃ data', result = .ok data' ∧ Settled chunkId own data' ∧ data.ids ⊆ data'.ids ∧ ids ⊆ data'.ids

theorem Adds.foldlM {α : Type} {f : HydrateData → α → Except Error HydrateData} {xs : List α}
    {ids : α → List Text}
    (hf : ∀ x ∈ xs, ∀ data, Settled chunkId own data → Adds chunkId own (ids x) data (f data x))
    (hdata : Settled chunkId own data) :
    Adds chunkId own (xs.flatMap ids) data (xs.foldlM f data) := by
  induction xs generalizing data with
  | nil => exact ⟨data, rfl, hdata, List.Subset.refl _, List.nil_subset _⟩
  | cons x xs ih =>
    rw [List.forall_mem_cons] at hf
    obtain ⟨data₁, hok₁, hsettled₁, hkeeps₁, hids₁⟩ := hf.1 data hdata
    obtain ⟨data₂, hok₂, hsettled₂, hkeeps₂, hids₂⟩ := ih hf.2 hsettled₁
    refine ⟨data₂, ?_, hsettled₂, List.Subset.trans hkeeps₁ hkeeps₂, ?_⟩
    · rw [List.foldlM_cons, hok₁]
      exact hok₂
    · rw [List.flatMap_cons, List.append_subset]
      exact ⟨List.Subset.trans hids₁ hkeeps₂, hids₂⟩

theorem links_addLinks {actual : Text} {relation : Relation} {targets : List Text}
    {links : List ((Text × Relation) × Text)} {P : Text → Prop} (hactual : P actual)
    (h : ∀ link ∈ links, P link.1.1) :
    ∀ link ∈ addLinks actual relation targets links, P link.1.1 := by
  induction targets generalizing links with
  | nil => exact h
  | cons target targets ih =>
    refine ih fun link hlink => ?_
    obtain rfl | hlink := mem_assign hlink
    · exact hactual
    · exact h link hlink

theorem chunks_addParagraphs (resourceId fieldId : Text) (previous : Option Text)
    (paragraphs : List Paragraph) (data : HydrateData) :
    (addParagraphs resourceId fieldId previous paragraphs data).chunks = data.chunks := by
  induction paragraphs generalizing previous data with
  | nil => rfl
  | cons paragraph paragraphs ih => exact ih _ _

/-- All links of a field are stored under the ids of its paragraphs. -/
theorem links_addParagraphs {P : Text → Prop} (hid : ∀ paragraph, P (paragraphId resourceId fieldId
    paragraph)) {previous : Option Text} (hprevious : ∀ id ∈ previous, P id)
    (paragraphs : List Paragraph) (h : ∀ link ∈ data.links, P link.1.1) :
    ∀ link ∈ (addParagraphs resourceId fieldId previous paragraphs data).links, P link.1.1 := by
  induction paragraphs generalizing previous data with
  | nil => exact h
  | cons paragraph paragraphs ih =>
    have hlinked : ∀ link ∈ (match previous with
        | none => data.links
        | some previous => assign (paragraphId resourceId fieldId paragraph, .prev) previous
            (assign (previous, .next) (paragraphId resourceId fieldId paragraph) data.links)),
        P link.1.1 := by
      rcases previous with _ | previous
      · exact h
      · intro link hlink
        obtain rfl | hlink := mem_assign hlink
        · exact hid paragraph
        · obtain rfl | hlink := mem_assign hlink
          · exact hprevious previous rfl
          · exact h link hlink
    refine ih ?_ ?_
    · rintro _ ⟨⟩
      exact hid paragraph
    · dsimp only
      rcases paragraph.relations with _ | relations
      · exact hlinked
      · exact links_addLinks (hid paragraph) (links_addLinks (hid paragraph)
          (links_addLinks (hid paragraph) hlinked))

/-- A chunk that is added is where its paragraph is. -/
theorem Settled.addField (hdata : Settled chunkId own data) {resource : FindResource}
    (hresource : '/' ∉ resourceId) {found : Text × FindField} (hfield : IsFieldId found.1)
    (hok : ∃ field, fieldOf abbreviation resourceId resource found.1 = .ok field)
    (hids : ∀ paragraph ∈ found.2.paragraphs, IsChunkId resourceId found.1 paragraph.1)
    (hown : ∀ paragraph, (chunkId, paragraph) ∈ found.2.paragraphs →
      ∃ position, paragraph.position = some position ∧ (position.start, position.stop) = own) :
    Adds chunkId own (found.2.paragraphs.map Prod.fst) data
      (addField abbreviation resourceId resource data found) := by
  obtain ⟨field, hfieldOf⟩ := hok
  have hupdate (chunks : List (Text × NDBChunk)) : found.2.paragraphs.foldl (fun chunks paragraph =>
      assign paragraph.1 (toChunk resource field paragraph.1 paragraph.2) chunks) chunks =
        update chunks (found.2.paragraphs.map fun paragraph =>
          (paragraph.1, toChunk resource field paragraph.1 paragraph.2)) := by
    rw [update, List.foldl_map]
  have hkeys : (found.2.paragraphs.map fun paragraph =>
      (paragraph.1, toChunk resource field paragraph.1 paragraph.2)).map Prod.fst =
        found.2.paragraphs.map Prod.fst := by
    rw [List.map_map]
    rfl
  refine ⟨_, by rw [NucliaDB.addField, hfieldOf]; rfl, ⟨?_, ?_, ?_⟩, ?_, ?_⟩
  · intro link hlink
    have hid := splitOn_paragraphId hresource hfield
    refine links_addParagraphs (P := fun id => (id.splitOn '/')[1]? = some []) hid ?_ _
      hdata.links link hlink
    rintro _ ⟨⟩
  · intro chunk hchunk
    rw [hupdate, chunks_addParagraphs] at hchunk
    obtain hchunk | hchunk := mem_update hchunk
    · exact hdata.chunks chunk hchunk
    · obtain ⟨paragraph, hparagraph, heq⟩ := List.mem_map.1 hchunk
      obtain ⟨rfl, rfl⟩ := Prod.mk.inj heq
      obtain ⟨position, hposition, rfl⟩ := hown paragraph.2 hparagraph
      rw [toChunk, hposition]
      exact ⟨rfl, rfl⟩
  · intro chunk hchunk
    rw [hupdate, chunks_addParagraphs] at hchunk
    obtain hchunk | hchunk := mem_update hchunk
    · exact hdata.ids chunk hchunk
    · obtain ⟨paragraph, hparagraph, rfl⟩ := List.mem_map.1 hchunk
      obtain ⟨fieldType, fieldName, rest, -, hne, hrest, hsplit⟩ :=
        (hids paragraph hparagraph).splitOn_eq hresource hfield
      have hpos := List.length_pos_iff.2 hne
      simp only [hsplit, List.length_cons]
      omega
  · intro id hid
    rw [HydrateData.ids, hupdate, chunks_addParagraphs, mem_keys_update]
    exact .inl hid
  · intro id hid
    rw [HydrateData.ids, hupdate, mem_keys_update, hkeys]
    exact .inr hid

/-- The paragraphs that are found. -/
def foundOf (retrieval : Option KnowledgeboxFindResults) : List (Text × FindParagraph) :=
  (resourcesOf retrieval).flatMap fun resource =>
    resource.2.fields.flatMap fun found => found.2.paragraphs

theorem Settled.generateChunk (hdata : Settled chunkId own data)
    (hretrieval : WellFormed abbreviation retrieval)
    (hown : ∀ paragraph, (chunkId, paragraph) ∈ foundOf retrieval →
      ∃ position, paragraph.position = some position ∧ (position.start, position.stop) = own) :
    Adds chunkId own ((foundOf retrieval).map Prod.fst) data
      (generateChunk abbreviation retrieval data) := by
  rw [foundOf, List.map_flatMap]
  refine Adds.foldlM (fun resource hresource data hdata => ?_) hdata
  rw [List.map_flatMap]
  refine Adds.foldlM (fun found hfound data hdata => ?_) hdata
  refine hdata.addField (hretrieval.resourceId resource hresource)
    (hretrieval.fieldId resource hresource found hfound)
    (hretrieval.field resource hresource found hfound)
    (hretrieval.chunkId resource hresource found hfound) fun paragraph hparagraph => ?_
  exact hown paragraph (List.mem_flatMap.2 ⟨resource, hresource,
    List.mem_flatMap.2 ⟨found, hfound, hparagraph⟩⟩)

/-- A chunk of the graph is not one of a paragraph, of which the id has slashes. -/
theorem Settled.addText (hdata : Settled chunkId own data) (hchunk : '/' ∈ chunkId) (id : Text)
    (hid : '/' ∉ id) (text : Text) : Settled chunkId own (addText id text data) ∧
      data.ids ⊆ (NucliaDB.addText id text data).ids := by
  refine ⟨⟨hdata.links, fun chunk hmem => ?_, fun chunk hmem => ?_⟩,
    fun id' hid' => mem_keys_assign.2 (.inr hid')⟩
  · obtain heq | hmem := mem_assign hmem
    · exact absurd ((Prod.mk.inj heq).1 ▸ hchunk) hid
    · exact hdata.chunks chunk hmem
  · obtain rfl | hmem := mem_assign hmem
    · rw [List.count_eq_zero.2 hid]
      exact .inl (by omega)
    · exact hdata.ids chunk hmem

theorem Settled.elim {α : Type} (hdata : Settled chunkId own data) (x : Option α)
    {f : α → HydrateData} (hf : ∀ a, Settled chunkId own (f a) ∧ data.ids ⊆ (f a).ids) :
    Settled chunkId own (x.elim data f) ∧ data.ids ⊆ (x.elim data f).ids := by
  rcases x with _ | a
  · exact ⟨hdata, List.Subset.refl _⟩
  · exact hf a

def SearchResults.retrievals (results : SearchResults) : List (Option KnowledgeboxFindResults) :=
  [results.semanticFindResults, results.lexicalFindResults, results.graphFindResults]

/-- What the results of a search rely on. -/
structure Answered (abbreviation : FieldTypeName → Text) (uuids : Uuids)
    (results : SearchResults) : Prop where
  wellFormed : ∀ retrieval ∈ results.retrievals, WellFormed abbreviation retrieval
  relations : '/' ∉ uuids.relations
  paths : '/' ∉ uuids.paths
  nodes : '/' ∉ uuids.nodes

/-- A paragraph of a field, by its number, that is among the results: the paragraphs have certain
    bounds, and it is at its own wherever it is found. -/
structure IsMatch (abbreviation : FieldTypeName → Text) (results : SearchResults)
    (resource : Text × FindResource) (found : Text × FindField) (bounds : List (ℤ × ℤ)) (i : ℕ)
    (own : ℤ × ℤ) (chunkId : Text) : Prop where
  resource_mem : ∃ retrieval ∈ results.retrievals, resource ∈ resourcesOf retrieval
  found_mem : found ∈ resource.2.fields
  chunkId_mem : chunkId ∈ found.2.paragraphs.map Prod.fst
  field : ∃ field paragraphs, fieldOf abbreviation resource.1 resource.2 found.1 = .ok field ∧
    field.paragraphs = some paragraphs ∧ paragraphs.map (fun p => (p.start, p.stop)) =
      bounds.map fun b => (some b.1, some b.2)
  bounds : bounds[i]? = some own
  position : ∀ retrieval ∈ results.retrievals, ∀ paragraph,
    (chunkId, paragraph) ∈ foundOf retrieval →
      ∃ position, paragraph.position = some position ∧ (position.start, position.stop) = own

variable {uuids : Uuids} {results : SearchResults} {resource : Text × FindResource}
  {found : Text × FindField} {bounds : List (ℤ × ℤ)} {i : ℕ}

theorem collect_eq : collect abbreviation uuids results =
    (results.retrievals.foldlM (fun data retrieval => generateChunk abbreviation retrieval data)
      {}) >>= fun data =>
        let data := results.relationsResults.elim data
          (generateGraphRelationsChunk uuids.relations · data)
        let data := results.graphResults.elim data (generateGraphSearchChunk uuids.paths · data)
        .ok (results.nodesResults.elim data (generateGraphNodesChunk uuids.nodes · data)) := by
  simp only [SearchResults.retrievals, List.foldlM_cons, List.foldlM_nil, bind_assoc, pure_bind]
  rfl

/-- A paragraph that is found is in a chunk, that no link leads from. -/
theorem IsMatch.collect (h : IsMatch abbreviation results resource found bounds i own chunkId)
    (hanswered : Answered abbreviation uuids results) :
    ∃ data, collect abbreviation uuids results = .ok data ∧ Settled chunkId own data ∧
      chunkId ∈ data.ids ∧ Unlinked chunkId data := by
  obtain ⟨retrieval, hretrieval, hresource⟩ := h.resource_mem
  have hwell := hanswered.wellFormed retrieval hretrieval
  have hslash := hwell.resourceId resource hresource
  have hfield := hwell.fieldId resource hresource found h.found_mem
  obtain ⟨paragraph, hparagraph, rfl⟩ := List.mem_map.1 h.chunkId_mem
  have hid := hwell.chunkId resource hresource found h.found_mem paragraph hparagraph
  have hchunk : '/' ∈ paragraph.1 := by
    obtain ⟨rest, -, heq⟩ := hid
    rw [heq]
    simp
  have hempty : Settled paragraph.1 own {} :=
    ⟨List.forall_mem_nil _, fun _ h => absurd h List.not_mem_nil, List.forall_mem_nil _⟩
  obtain ⟨data, hok, hdata, -, hids⟩ := Adds.foldlM (f := fun data retrieval =>
    generateChunk abbreviation retrieval data) (fun retrieval hmem data hdata =>
      hdata.generateChunk (hanswered.wellFormed retrieval hmem) (h.position retrieval hmem)) hempty
  have hmem : paragraph.1 ∈ data.ids := by
    refine hids (List.mem_flatMap.2 ⟨retrieval, hretrieval, List.mem_map_of_mem ?_⟩)
    exact List.mem_flatMap.2 ⟨resource, hresource, List.mem_flatMap.2 ⟨found, h.found_mem,
      hparagraph⟩⟩
  obtain ⟨hrelations, hkeeps₁⟩ := hdata.elim results.relationsResults fun relations =>
    hdata.addText hchunk ("relations-".toList ++ uuids.relations)
      (by simpa using hanswered.relations) _
  obtain ⟨hpaths, hkeeps₂⟩ := hrelations.elim results.graphResults fun paths =>
    hrelations.addText hchunk ("paths-".toList ++ uuids.paths)
      (by simpa using hanswered.paths) _
  obtain ⟨hnodes, hkeeps₃⟩ := hpaths.elim results.nodesResults fun nodes =>
    hpaths.addText hchunk ("nodes-".toList ++ uuids.nodes)
      (by simpa using hanswered.nodes) _
  refine ⟨_, ?_, hnodes, hkeeps₃ (hkeeps₂ (hkeeps₁ hmem)), hnodes.unlinked hslash hfield hid⟩
  rw [collect_eq, hok]
  rfl

/-! ## The window of a paragraph -/

/-- The text that is selected for a paragraph is that from the start of as many paragraphs before it
    as are asked for to the end of as many after it, as far as there are, with its own text. -/
def SelectsWindow (collected : Except Error HydrateData) (chunkId : Text) (bounds : List (ℤ × ℤ))
    (i before after : ℕ) : Prop :=
  ∃ data chunk own first last, collected = .ok data ∧ data.chunks.lookup chunkId = some chunk ∧
    bounds[i]? = some own ∧ bounds[i - before]? = some first ∧
      bounds[min (i + after) (bounds.length - 1)]? = some last ∧
        cutTheProperText chunkId chunk before after data = [(first.1, last.2)] ∧
          first.1 ≤ own.1 ∧ own.2 ≤ last.2

/-- The window of a paragraph is the paragraph itself. -/
def NothingAround (bounds : List (ℤ × ℤ)) (i before after : ℕ) : Prop :=
  bounds[i - before]?.map Prod.fst = bounds[i]?.map Prod.fst ∧
    bounds[min (i + after) (bounds.length - 1)]?.map Prod.snd = bounds[i]?.map Prod.snd

/-- A paragraph that is found is cut out of its text alone. -/
theorem IsMatch.cutTheProperText
    (h : IsMatch abbreviation results resource found bounds i own chunkId)
    (hanswered : Answered abbreviation uuids results) :
    ∃ data chunk, NucliaDB.collect abbreviation uuids results = .ok data ∧
      Settled chunkId own data ∧ data.chunks.lookup chunkId = some chunk ∧
        ∀ before after, cutTheProperText chunkId chunk before after data = [own] := by
  obtain ⟨data, hok, hdata, hmem, hunlinked⟩ := h.collect hanswered
  obtain ⟨chunk, hchunk⟩ : ∃ chunk, data.chunks.lookup chunkId = some chunk :=
    Option.ne_none_iff_exists'.1 fun hnone => lookup_eq_none.1 hnone hmem
  obtain ⟨hstart, hstop⟩ := hdata.chunks chunk (mem_of_lookup hchunk)
  refine ⟨data, chunk, hok, hdata, hchunk, fun before after => ?_⟩
  rw [cutTheProperText_of_unlinked hunlinked, hstart, hstop]
  rfl

/-- The window of a paragraph is selected if and only if it is the paragraph itself. -/
theorem IsMatch.selectsWindow_iff (hanswered : Answered abbreviation uuids results)
    (h : IsMatch abbreviation results resource found bounds i own chunkId) (before after : ℕ) :
    SelectsWindow (NucliaDB.collect abbreviation uuids results) chunkId bounds i before after ↔
      NothingAround bounds i before after := by
  obtain ⟨data, chunk, hok, -, hchunk, hcut⟩ := h.cutTheProperText hanswered
  constructor
  · rintro ⟨data', chunk', own', first, last, hok', hchunk', hown, hfirst, hlast, hcut', -, -⟩
    obtain rfl : data = data' := Except.ok.inj (hok.symm.trans hok')
    obtain rfl : chunk = chunk' := Option.some.inj (hchunk.symm.trans hchunk')
    rw [hcut] at hcut'
    rw [NothingAround, hfirst, hlast, h.bounds, List.head_eq_of_cons_eq hcut']
    exact ⟨rfl, rfl⟩
  · rintro ⟨hfirst, hlast⟩
    rw [h.bounds] at hfirst hlast
    obtain ⟨first, hfirst, hstart⟩ := Option.map_eq_some_iff.1 hfirst
    obtain ⟨last, hlast, hstop⟩ := Option.map_eq_some_iff.1 hlast
    refine ⟨data, chunk, own, first, last, hok, hchunk, h.bounds, hfirst, hlast, ?_,
      Int.le_of_eq hstart, Int.le_of_eq hstop.symm⟩
    rw [hcut, hstart, hstop]

/-- If no two paragraphs start or end together, there is nothing around a paragraph only if nothing
    is asked for, or it is the first or the last one. -/
theorem nothingAround_iff (hbounds : bounds.Pairwise fun p q => p.1 < q.1 ∧ p.2 < q.2)
    (hi : bounds[i]? = some own) (before after : ℕ) : NothingAround bounds i before after ↔
      (before = 0 ∨ i = 0) ∧ (after = 0 ∨ i = bounds.length - 1) := by
  have hlt : i < bounds.length := (List.getElem?_eq_some_iff.1 hi).1
  have hsame (j : ℕ) (hj : j < bounds.length) (hji : j < i ∨ i < j) :
      bounds[j]?.map Prod.fst ≠ bounds[i]?.map Prod.fst ∧
        bounds[j]?.map Prod.snd ≠ bounds[i]?.map Prod.snd := by
    rw [List.getElem?_eq_getElem hj, List.getElem?_eq_getElem hlt]
    rw [List.pairwise_iff_getElem] at hbounds
    obtain hji | hij := hji
    · have hless := hbounds j i hj hlt hji
      exact ⟨fun heq => Int.ne_of_lt hless.1 (Option.some.inj heq), fun heq =>
        Int.ne_of_lt hless.2 (Option.some.inj heq)⟩
    · have hless := hbounds i j hlt hj hij
      exact ⟨fun heq => Int.ne_of_gt hless.1 (Option.some.inj heq), fun heq =>
        Int.ne_of_gt hless.2 (Option.some.inj heq)⟩
  constructor
  · rintro ⟨hfirst, hlast⟩
    refine ⟨?_, ?_⟩
    · by_contra hbefore
      exact (hsame (i - before) (by omega) (by omega)).1 hfirst
    · by_contra hafter
      exact (hsame (min (i + after) (bounds.length - 1)) (by omega) (by omega)).2 hlast
  · rintro ⟨hbefore, hafter⟩
    have hfirst : i - before = i := by omega
    have hlast : min (i + after) (bounds.length - 1) = i := by omega
    rw [NothingAround, hfirst, hlast]
    exact ⟨rfl, rfl⟩

theorem IsChunkId.three_le_count (h : IsChunkId resourceId fieldId chunkId)
    (hfield : IsFieldId fieldId) : 3 ≤ chunkId.count '/' := by
  obtain ⟨rest, -, rfl⟩ := h
  obtain ⟨fieldType, fieldName, -, -, -, rfl⟩ := hfield
  simp only [List.count_append, List.count_cons_self]
  omega

theorem hydrateChunk_ok {chunk : Text × NDBChunk} (h : chunk.1.count '/' < 3 ∨
    (chunk.1.splitOn '/').length = 4 ∨ (chunk.1.splitOn '/').length = 5) (fullResource : Bool)
    (before after : ℕ) (link : Bool) (data : HydrateData) :
    ∃ hydrated, hydrateChunk fullResource before after link data chunk.1 chunk.2 =
      .ok hydrated := by
  rw [hydrateChunk]
  by_cases hcount : chunk.1.count '/' < 3
  · rw [if_pos hcount]
    exact ⟨_, rfl⟩
  · rw [if_neg hcount, if_neg (by omega)]
    rcases chunk.2.field.bind (·.text) with _ | fieldText
    · exact ⟨_, rfl⟩
    · exact ⟨_, rfl⟩

/-- The text of a context for a paragraph that is found begins with the paragraph, and the text of
    the field around it does not follow. -/
theorem IsMatch.hydrate (h : IsMatch abbreviation results resource found bounds i own chunkId)
    (hanswered : Answered abbreviation uuids results) (context : Context) (before after : ℕ) :
    ∃ data chunk context', NucliaDB.collect abbreviation uuids results = .ok data ∧
      data.chunks.lookup chunkId = some chunk ∧
        hydrate abbreviation uuids context results false before after false = .ok context' ∧
          ∀ fieldText, chunk.field.bind (·.text) = some fieldText →
            ∃ hydrated ∈ context'.chunks, hydrated.chunkId = chunkId ∧
              hydrated.text = slice fieldText own.1 own.2 ++ ['\n'] := by
  obtain ⟨retrieval, hretrieval, hresource⟩ := h.resource_mem
  have hwell := hanswered.wellFormed retrieval hretrieval
  have hfield := hwell.fieldId resource hresource found h.found_mem
  obtain ⟨paragraph, hparagraph, hid⟩ := List.mem_map.1 h.chunkId_mem
  have hchunkId : IsChunkId resource.1 found.1 chunkId :=
    hid ▸ hwell.chunkId resource hresource found h.found_mem paragraph hparagraph
  obtain ⟨data, chunk, hok, hdata, hchunk, hcut⟩ := h.cutTheProperText hanswered
  have hmem := mem_of_lookup hchunk
  obtain ⟨chunks, hchunks⟩ := Crash.exists_mapM_iff.2 fun chunk hchunk =>
    hydrateChunk_ok (hdata.ids chunk hchunk) false before after false data
  refine ⟨data, chunk, { context with chunks := context.chunks ++ chunks }, hok, hchunk, ?_,
    fun fieldText hfieldText => ?_⟩
  · rw [NucliaDB.hydrate, hok]
    exact congrArg (· >>= fun chunks => .ok { context with chunks := context.chunks ++ chunks })
      hchunks
  · obtain ⟨hydrated, hhydrated, heq⟩ := Crash.exists_of_mapM hchunks hmem
    refine ⟨hydrated, List.mem_append_right _ hhydrated, ?_⟩
    have hcount := hchunkId.three_le_count hfield
    have hparts := hdata.ids _ hmem
    dsimp only at hparts heq
    rw [hydrateChunk, if_neg (by omega), if_neg (by omega), hfieldText] at heq
    obtain rfl := Except.ok.inj heq
    have hlink : (match chunk.link with
        | some url => if false then "\n\nLink: ".toList ++ url ++ ['\n'] else []
        | none => []) = [] := by
      rcases chunk.link with _ | url
      · rfl
      · rfl
    refine ⟨rfl, ?_⟩
    simp only [hcut, hlink]
    rw [if_neg Bool.false_ne_true, List.flatMap_singleton, List.append_nil]

/-- Paragraphs in their order, of which no two start or end together. -/
def StrictlyOrdered (bounds : List (ℤ × ℤ)) : Prop :=
  bounds.Pairwise fun p q => p.1 < q.1 ∧ p.2 < q.2

/-- The neighbours of a paragraph are never found: its window is selected if and only if there is
    nothing around it that is asked for. -/
theorem window_selected_iff (hanswered : Answered abbreviation uuids results)
    (h : IsMatch abbreviation results resource found bounds i own chunkId) (before after : ℕ) :
    (SelectsWindow (collect abbreviation uuids results) chunkId bounds i before after ↔
      NothingAround bounds i before after) ∧
        (StrictlyOrdered bounds →
          (SelectsWindow (collect abbreviation uuids results) chunkId bounds i before after ↔
            (before = 0 ∨ i = 0) ∧ (after = 0 ∨ i = bounds.length - 1))) := by
  have hiff := h.selectsWindow_iff hanswered before after
  exact ⟨hiff, fun hbounds => hiff.trans (nothingAround_iff hbounds h.bounds before after)⟩

/-- The letters of the types of fields. -/
def letter : FieldTypeName → Text
  | .conversation => ['c']
  | .file => ['f']
  | .text => ['t']
  | .generic => ['a']
  | .link => ['u']

/-- A page of three paragraphs. -/
def page : Field where
  text := "one. two. three.".toList
  paragraphs := some [⟨some 0, some 5, none⟩, ⟨some 5, some 10, none⟩, ⟨some 10, some 16, none⟩]

def pageBounds : List (ℤ × ℤ) := [(0, 5), (5, 10), (10, 16)]

/-- The second paragraph of the page is found. -/
def foundPage : Text × FindField :=
  ("/t/page".toList, ⟨[("r/t/page/5-10".toList,
    { text := "two. ".toList, position := some ⟨5, 10, none⟩ })]⟩)

def foundResource : Text × FindResource :=
  ("r".toList, { fields := [foundPage], data := some { texts := [("page".toList, page)] } })

def foundResults : SearchResults where
  semanticFindResults := some ⟨some [foundResource]⟩

theorem eq_foundResource {retrieval : Option KnowledgeboxFindResults}
    (hretrieval : retrieval ∈ foundResults.retrievals) {resource : Text × FindResource}
    (hresource : resource ∈ resourcesOf retrieval) : resource = foundResource := by
  simp only [SearchResults.retrievals, foundResults, List.mem_cons, List.not_mem_nil,
    or_false] at hretrieval
  obtain rfl | rfl | rfl := hretrieval
  · exact List.mem_singleton.1 hresource
  · exact absurd hresource List.not_mem_nil
  · exact absurd hresource List.not_mem_nil

theorem answered_foundResults : Answered letter ⟨[], [], []⟩ foundResults where
  wellFormed retrieval hretrieval := by
    refine ⟨fun resource hresource => ?_, fun resource hresource found hfound => ?_,
      fun resource hresource found hfound => ?_,
      fun resource hresource found hfound paragraph hparagraph => ?_⟩
    all_goals obtain rfl := eq_foundResource hretrieval hresource
    · decide
    all_goals obtain rfl := List.mem_singleton.1 hfound
    · exact ⟨['t'], "page".toList, by decide, by decide, by decide, rfl⟩
    · exact ⟨page, rfl⟩
    · obtain rfl := List.mem_singleton.1 hparagraph
      exact ⟨"5-10".toList, by decide, rfl⟩
  relations := List.not_mem_nil
  paths := List.not_mem_nil
  nodes := List.not_mem_nil

theorem isMatch_foundResults : IsMatch letter foundResults foundResource foundPage pageBounds 1
    (5, 10) "r/t/page/5-10".toList where
  resource_mem := ⟨foundResults.semanticFindResults, List.mem_cons_self, List.mem_cons_self⟩
  found_mem := List.mem_cons_self
  chunkId_mem := List.mem_cons_self
  field := ⟨page, _, rfl, rfl, rfl⟩
  bounds := rfl
  position retrieval hretrieval paragraph hparagraph := by
    obtain ⟨resource, hresource, hparagraph⟩ := List.mem_flatMap.1 hparagraph
    obtain rfl := eq_foundResource hretrieval hresource
    obtain ⟨found, hfound, hparagraph⟩ := List.mem_flatMap.1 hparagraph
    obtain rfl := List.mem_singleton.1 hfound
    obtain ⟨-, rfl⟩ := Prod.mk.inj (List.mem_singleton.1 hparagraph)
    exact ⟨_, rfl, rfl⟩

theorem window_selected_page :
    SelectsWindow (collect letter ⟨[], [], []⟩ foundResults) "r/t/page/5-10".toList pageBounds
      1 0 0 :=
  (window_selected_iff answered_foundResults isMatch_foundResults 0 0).1.2 ⟨rfl, rfl⟩

/-- The paragraph before is not found. -/
theorem not_window_selected :
    ¬ ∀ before after, SelectsWindow (collect letter ⟨[], [], []⟩ foundResults)
      "r/t/page/5-10".toList pageBounds 1 before after := by
  intro h
  have hnothing := (isMatch_foundResults.selectsWindow_iff answered_foundResults 1 0).1 (h 1 0)
  exact absurd hnothing.1 (by decide)

end Hyperforge.NucliaDB
