import Mathlib.Data.Nat.Notation

/-!
# Contexts

What retrieval agents find to answer a question from: chunks of text, structured entries, and
others, of which some may be cited.
-/

namespace Hyperforge

structure Chunk where
  chunkId : List Char
  title : Option (List Char) := none
  text : List Char
  labels : List (List Char) := []
  url : List (List Char) := []
  action : Option (List Char) := none
  originUrl : Option (List Char) := none
  deriving DecidableEq

/-- `x or y`, of texts. -/
def orElse (x : Option (List Char)) (y : List Char) : List Char :=
  match x with
  | none | some [] => y
  | some x => x

/-- A line of a label and some texts, if there are any. -/
def listLine (label : String) (texts : List (List Char)) : List (List Char) :=
  if texts = [] then [] else [label.toList ++ ", ".toList.intercalate texts]

/-- The text of a chunk, with an id for citations or without. -/
def Chunk.render (chunk : Chunk) (citationsId : Option (List Char) := none) : List Char :=
  let title := orElse chunk.title chunk.chunkId
  let header :=
    match citationsId with
    | none | some [] => "#### Chunk: ".toList ++ title
    | some id => "#### Chunk: [".toList ++ id ++ "] ".toList ++ title
  let action :=
    match chunk.action with
    | none | some [] => []
    | some action => ["Result of running: ".toList ++ action]
  let text := "``` ".toList ++ chunk.text ++ " ```\n".toList
  ['\n'].intercalate (header :: action ++ listLine "Tags: " chunk.labels ++
    listLine "URLs: " chunk.url ++ [text])

/-- A context. Its images, prompts and JSON objects are given by their keys, texts and ids. -/
structure Context where
  id : List Char
  title : Option (List Char) := none
  chunks : List Chunk := []
  images : List (List Char) := []
  prompts : List (List Char) := []
  structured : List (List Char) := []
  jsonObjects : List (Option (List Char)) := []
  summary : List Char := []
  /-- The ids of the chunks, and the positions of the structured entries, that are relevant. -/
  citations : Option (List (List Char)) := none
  citationsId : Option (List Char) := none
  imageUrls : List (List Char) := []
  deriving DecidableEq

end Hyperforge
