import Mathlib.Data.Nat.Notation

/-!
# Data models

What the components of the program pass to each other: rules, prompts, the configuration of
memories, and the questions of a conversation with their answers.
-/

namespace Hyperforge

structure HistoryQuestionAnswer where
  question : String
  answer : String
deriving DecidableEq

structure NucliaDBMemoryConfig where
  key : Option String
  url : String
  kbid : String
  internal : Bool
deriving DecidableEq

structure MemoryConfig where
  nucliadb : Option NucliaDBMemoryConfig
deriving DecidableEq

inductive Rule
  | text (rule : String)
  | rule (prompt : Option String)
deriving DecidableEq

structure PromptArgument where
  name : String
  description : Option String
  required : Option Bool
deriving DecidableEq

structure PromptConfig where
  name : String
  description : String
  prompt : String
  arguments : Option (List PromptArgument)
  icons : Option (List (String × String))
  metadata : Option (List (String × String))
  promptId : Option String
deriving DecidableEq

end Hyperforge
