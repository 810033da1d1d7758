import Hyperforge.Library.Calls
import Hyperforge.Library.Json.Groups
import Hyperforge.NucliaDB.FilterExpressions

/-!
# Synced resources

A knowledge box has resources that are synced from elsewhere, each by a sync configuration, which
its origin names. What a user may see of them is not known to the knowledge box: an agent that
answers from it finds resources first, has them validated by the service that syncs them, with the
credentials of the user, and asks its question about those that are left.

A driver either has sync configurations of its own, to which it is restricted
(`postFilterConfiguredResources`), or none, and then the resources that are not synced are public,
and the others are validated by the configurations that they name (`postFilterHybridResources`).

Everything that the agent asks of others is a call (`Call`): of the knowledge box, the service, and
the user. So is what it shares with other agents, as these change it in between.
-/

namespace Hyperforge.NucliaDB.Sync

open Calling

/-- Ids of sources, resources, sync configurations and connections. -/
abbrev Id := List Char

abbrev Credential := List Char

/-- What calls fail with, and what the agent raises. -/
inductive Fault
  | connectError
  | connectTimeout
  | readTimeout
  | remoteProtocolError
  | httpStatus (code : ℕ)
  | keyError (key : List Char)
  | indexError
  | attributeError
  | assertionError
  | valueError (message : List Char)
  | exception (message : List Char)
  | other (name : List Char)

inductive Provider
  | googleOauth
  | azureOauth
  | azureCertificateCredentials
  | awsS3AccessKeys
  | sharefileOauth
  | mcpOauth
  deriving DecidableEq

/-- What a synced resource is at its origin. -/
structure SyncMetadata (M : Type) where
  fileId : List Char
  other : M

structure Origin (M : Type) where
  sourceId : Option Id := none
  syncMetadata : Option (SyncMetadata M) := none

structure Resource (M : Type) where
  id : Id
  origin : Option (Origin M) := none

structure SyncConnection (O P : Type) extends DriverConfig O P where
  catalogFilterExpression : Option (Formula (NdbFilter O)) := none
  connectionIds : List Id := []

/-- An answer over HTTP, with its body read as what is expected of it. -/
structure Response (α : Type) where
  status : ℕ
  body : Except Fault α

/-- The resources that are valid, each with a file id. -/
structure Validation where
  validResources : Option (List (Option (List Char)))

inductive RagStrategy
  | fullResource (count : ℕ)
  | metadataExtension (types : List (List Char))
  | fieldExtension (fields : List (List Char))
  | neighbouringParagraphs (before after : ℕ)

structure AskRequest (O P : Type) where
  query : List Char
  generativeModel : List Char
  filterExpression : Option (FilterExpression O P)
  ragStrategies : List RagStrategy

abbrev Credentials := List (Id × List (Id × Credential))

structure Feedback where
  question : List Char
  getCredentials : Option (List (Id × Provider))
  credentials : Option Credentials
  requestId : Id

/-- What the user answers, read as credentials. -/
structure FeedbackAnswer where
  requestId : Option Id
  response : Except Fault (Option Credentials)

variable {O P M : Type}

/-- What the agent calls on others for. -/
inductive Call (O P M : Type)
  | synonyms
  | storeSynonyms (synonyms : List (List Char × Synonyms))
  | synonymsRaw (source : Id)
  | find (source : Id) (query : List Char) (filterExpression : Option (FilterExpression O P))
  | catalogSearch (source : Id) (query : List Char)
      (filterExpression : Option (Formula (NdbFilter O)))
  | getResources (source : Id) (ids : List Id)
  | syncConfigs (source : Id)
  | information (source : Id)
  | storeInformation (source syncConfigId connectionId : Id) (provider : Provider)
  | getSyncConfig (source syncConfigId : Id)
  | getExternalConnection (source connectionId : Id)
  | authorize (source syncConfigId connectionId : Id)
  | sendFeedback (feedback : Feedback)
  | sendOauth (url : List Char)
  | recvOauthCallback
  | validateResources (source syncConfigId : Id) (resources : List (SyncMetadata M))
      (credentials : Credential)
  | ask (requests : List (Id × AskRequest O P))

/-- What is answered. Of the answers to a question, nothing is used here. -/
abbrev Call.Answer : Call O P M → Type
  | .synonyms => List (List Char × Synonyms)
  | .storeSynonyms _ => Unit
  | .synonymsRaw _ => Synonyms
  | .find .. => List Id
  | .catalogSearch .. => List Id
  | .getResources .. => List (Resource M)
  | .syncConfigs _ => List (Id × List Id)
  | .information _ => List (Id × Provider)
  | .storeInformation .. => Unit
  | .getSyncConfig .. => Response Id
  | .getExternalConnection .. => Response Provider
  | .authorize .. => Response (List Char)
  | .sendFeedback _ => Option FeedbackAnswer
  | .sendOauth _ => Unit
  | .recvOauthCallback => Option Credential
  | .validateResources .. => Response Validation
  | .ask _ => Unit

abbrev Prog (O P M α : Type) := Program (Call O P M) Call.Answer Fault α

def await (c : Call O P M) : Prog O P M c.Answer := .ask c

/-- What an agent is configured with, and the session that it is in. -/
structure Agent (O P : Type) where
  sources : List Id
  drivers : List (Id × SyncConnection O P)
  generativeModel : List Char
  sessionId : Id
  table : AliasTable
  lower : List Char → List Char
  isUuid : List Char → Bool

/-! ## The origin of a resource -/

def syncConfigPrefix : List Char := "sync_config_".toList

/-- The sync configuration that is named by an origin. -/
def Origin.syncConfigId (o : Origin M) : Option Id :=
  o.sourceId.bind fun sourceId =>
    if syncConfigPrefix <+: sourceId then some (sourceId.drop syncConfigPrefix.length) else none

/-- The sync configuration of a resource, and what the resource is there. -/
def Resource.synced (r : Resource M) : Option (Id × SyncMetadata M) :=
  r.origin.bind fun o => o.syncConfigId.bind fun c => o.syncMetadata.map (c, ·)

/-- The resource is not synced, and nothing of its origin says so. -/
def Resource.isPublic (r : Resource M) : Bool :=
  match r.origin with
  | none => true
  | some o => o.syncConfigId.isNone && o.syncMetadata.isNone

/-! ## The driver -/

section Driver

/-- `raise_for_status` -/
def raiseForStatus {α : Type} (response : Response α) : Prog O P M Unit :=
  if 200 ≤ response.status ∧ response.status < 300 then pure ()
  else .raise (.httpStatus response.status)

variable (isUuid : List Char → Bool) (config : SyncConnection O P) (source : Id)

def resolveSyncConfig (syncConfigId : Id) : Prog O P M Provider := do
  if !config.connectionIds.isEmpty && !config.connectionIds.contains syncConfigId then
    .raise (.valueError ("Sync configuration ".toList ++ syncConfigId ++
      " is not configured for this driver".toList))
  else
    match ((← await (.syncConfigs source)).lookup syncConfigId).getD [] with
    | existing :: _ =>
      let information ← await (.information source)
      match information.lookup existing with
      | some provider => pure provider
      | none => .raise (.keyError existing)
    | [] =>
      if isUuid syncConfigId then
        let response ← await (.getSyncConfig source syncConfigId)
        raiseForStatus response
        let connectionId ← .ofExcept response.body
        let response ← await (.getExternalConnection source connectionId)
        raiseForStatus response
        let provider ← .ofExcept response.body
        await (.storeInformation source syncConfigId connectionId provider)
        pure provider
      else
        .raise (.valueError "badly formed hexadecimal UUID string".toList)

def getOauthUrl (syncConfigId connectionId : Id) : Prog O P M (List Char) := do
  let response ← await (.authorize source syncConfigId connectionId)
  raiseForStatus response
  .ofExcept response.body

def syncValidateRetryStatusCodes : List ℕ := [502, 503, 504]

def Fault.retried : Fault → Bool
  | .connectError | .connectTimeout | .readTimeout | .remoteProtocolError => true
  | _ => false

/-- Posts resources to be validated, for so many more attempts. -/
def postValidation (syncConfigId : Id) (resources : List (SyncMetadata M))
    (credentials : Credential) : ℕ → Prog O P M (Response Validation)
  | 0 => .raise (.exception "Sync resource validation made no request attempts".toList)
  | attempts + 1 => .call (.validateResources source syncConfigId resources credentials) fun
    | .ok response =>
      if response.status ∉ syncValidateRetryStatusCodes ∨ attempts = 0 then pure response
      else postValidation syncConfigId resources credentials attempts
    | .error fault =>
      if fault.retried ∧ attempts ≠ 0 then
        postValidation syncConfigId resources credentials attempts
      else .raise fault

def syncValidateAttempts : ℕ := 2

/-- The file ids of the valid resources. -/
def validFileIds (validation : Validation) : Except Fault (List (List Char)) :=
  (validation.validResources.getD []).mapM fun
    | some fileId => .ok fileId
    | none => .error (.keyError "file_id".toList)

/-- Of the resources with what they are at their origin, those that are valid. -/
def validateResources (syncConfigId : Id) (credentials : Credential)
    (syncMetadataByResource : List (Id × SyncMetadata M)) : Prog O P M (List Id) := do
  let response ← postValidation source syncConfigId (syncMetadataByResource.map (·.2)) credentials
    syncValidateAttempts
  raiseForStatus response
  let validation ← .ofExcept response.body
  let fileIds ← .ofExcept (validFileIds validation)
  let resourceOf := Json.update [] (syncMetadataByResource.map fun (id, m) => (m.fileId, id))
  pure (fileIds.filterMap fun fileId => resourceOf.lookup fileId)

end Driver

/-! ## Filtering what has been found -/

/-- For each source, and each sync configuration, some of its resources. -/
abbrev Filtered := List (Id × List (Id × List Id))

section Filter

variable (agent : Agent O P)

/-- `self.sources[source]`, after `get_connections` -/
def connection (source : Id) : Except Fault (SyncConnection O P) :=
  if agent.sources.contains source then
    match agent.drivers.lookup source with
    | some driver => .ok driver
    | none => .error .attributeError
  else .error (.keyError source)

def getNdbDriver (source : Id) : Except Fault (SyncConnection O P) :=
  match agent.drivers.lookup source with
  | some driver => .ok driver
  | none => .error (.exception "No NDB available".toList)

/-- The urls at which the user gives credentials for sync configurations. -/
def getOauthUrls (source : Id) (syncConfigIds : List Id) :
    Prog O P M (List (Id × List Char)) :=
  syncConfigIds.foldlM (fun urls syncConfigId => do
    match ((← await (.syncConfigs source)).lookup syncConfigId).getD [] with
    | [] => pure urls
    | connectionId :: _ =>
      let url ← getOauthUrl source syncConfigId connectionId
      pure (Json.assign syncConfigId url urls)) []

def connectionNotFound (syncConfigId : Id) : List Char :=
  "Connection ID ".toList ++ syncConfigId ++ " not found in source sync configs".toList

/-- The providers of sync configurations. -/
def credsProviders (syncConfigs : List (Id × List Id)) (information : List (Id × Provider))
    (syncConfigIds : List Id) : Except Fault (List (Id × Provider)) :=
  syncConfigIds.mapM fun syncConfigId =>
    match (syncConfigs.lookup syncConfigId).getD [] with
    | [] => .error (.exception (connectionNotFound syncConfigId))
    | connectionId :: _ =>
      match information.lookup connectionId with
      | some provider => .ok (syncConfigId, provider)
      | none => .error (.keyError connectionId)

/-- The answer to a feedback request, if there is one to this session's. -/
def sendFeedback (feedback : Feedback) : Prog O P M FeedbackAnswer := do
  match ← await (.sendFeedback feedback) with
  | none => .raise (.exception "No answer received for OAuth initiation".toList)
  | some answer =>
    match answer.requestId with
    | none => .raise (.exception "No answer received for OAuth initiation".toList)
    | some requestId =>
      if requestId = agent.sessionId then pure answer else .raise .assertionError

/-- Has the user give credentials for a sync configuration, if they do. -/
def askCredential (source : Id) (existing : Credentials) (url : Id × List Char) :
    Prog O P M Credentials := do
  await (.sendOauth url.2)
  match ← await .recvOauthCallback with
  | none => pure existing
  | some credential =>
    match (← await (.syncConfigs source)).lookup url.1 with
    | none => .raise (.keyError url.1)
    | some [] => .raise .indexError
    | some (connectionId :: _) => pure (Json.assign url.1 [(connectionId, credential)] existing)

/-- The credentials that the user has, or gives now. -/
def getCredentials (source : Id) (providers : List (Id × Provider)) : Prog O P M Credentials := do
  let answer ← sendFeedback agent {
    question := "Get credentials".toList
    getCredentials := some providers
    credentials := none
    requestId := agent.sessionId }
  let existing ← .ofExcept (answer.response.mapError fun _ =>
    .exception "Invalid OAuth feedback response: ".toList)
  if (existing.getD []).isEmpty then
    let urls ← getOauthUrls source (providers.map (·.1))
    let credentials ← urls.foldlM (askCredential source) []
    let _ ← sendFeedback agent {
      question := "Send credentials".toList
      getCredentials := none
      credentials := some credentials
      requestId := agent.sessionId }
    pure credentials
  else pure (existing.getD [])

/-- Adds the valid resources of a sync configuration that there are credentials for. -/
def filterConnection (source : Id) (connectionsByResource : List (Id × List Id))
    (syncMetadataByResource : List (Id × SyncMetadata M)) (filtered : Filtered)
    (entry : Id × List (Id × Credential)) : Prog O P M Filtered := do
  match connectionsByResource.lookup entry.1 with
  | none => pure filtered
  | some resourceIds =>
    match ((← await (.syncConfigs source)).lookup entry.1).getD [] with
    | [] => .raise (.exception "Connection / source not found".toList)
    | connectionId :: _ =>
      match entry.2.lookup connectionId with
      | none => .raise (.keyError connectionId)
      | some credential =>
        let syncMetadata := Json.update [] (resourceIds.filterMap fun id =>
          (syncMetadataByResource.lookup id).map (id, ·))
        let valid ← validateResources source entry.1 credential syncMetadata
        pure (Json.assign source (Json.assign entry.1 valid ((filtered.lookup source).getD []))
          filtered)

/-- The resources that are synced by one of the sync configurations. -/
def syncedBy (allowed : List Id) (resources : List (Resource M)) :
    List (Id × Id × SyncMetadata M) :=
  resources.filterMap fun r => (r.synced.filter fun s => allowed.contains s.1).map (r.id, ·)

/-- Of the resources of a source, those of the allowed sync configurations that are valid. -/
def filterConfigured (allowedConnectionIds : Option (List Id)) (filtered : Filtered)
    (entry : Id × List Id) : Prog O P M Filtered := do
  let driver ← .ofExcept (connection agent entry.1)
  let allowed := allowedConnectionIds.getD driver.connectionIds
  let _ ← .ofExcept (getNdbDriver agent entry.1)
  let resources ← await (.getResources entry.1 entry.2)
  let synced := syncedBy allowed resources
  let connectionsByResource := Json.group (synced.map fun s => (s.2.1, s.1))
  let syncMetadataByResource := Json.update [] (synced.map fun s => (s.1, s.2.2))
  if connectionsByResource.isEmpty then pure filtered
  else
    let syncConfigs ← await (.syncConfigs entry.1)
    let information ← await (.information entry.1)
    let providers ← .ofExcept
      (credsProviders syncConfigs information (connectionsByResource.map (·.1)))
    let credentials ← getCredentials agent entry.1 providers
    credentials.foldlM (filterConnection entry.1 connectionsByResource syncMetadataByResource)
      filtered

def postFilterConfiguredResources (resources : List (Id × List Id))
    (allowedConnectionIds : Option (List Id)) : Prog O P M Filtered :=
  resources.foldlM (filterConfigured agent allowedConnectionIds) []

/-- Adds the resources of a sync configuration, if it can be resolved. -/
def resolveResources (driver : SyncConnection O P) (source : Id)
    (resolved : List (Id × List Id)) (entry : Id × List Id) : Prog O P M (List (Id × List Id)) :=
  .handle (do
    let _ ← resolveSyncConfig agent.isUuid driver source entry.1
    pure (resolved ++ [entry])) fun _ => pure resolved

/-- The valid resources of some sync configurations, or none if that cannot be told. -/
def filterResolved (source : Id) (resolved : List (Id × List Id)) : Prog O P M Filtered :=
  if resolved.flatMap (·.2) = [] then pure []
  else .handle (postFilterConfiguredResources agent [(source, resolved.flatMap (·.2))]
    (some (resolved.map (·.1)))) fun _ => pure []

def hybrid : Id := "__hybrid__".toList

def postFilterHybridResources (source : Id) (resourceIds : List Id) : Prog O P M Filtered := do
  let driver ← .ofExcept (connection agent source)
  let _ ← .ofExcept (getNdbDriver agent source)
  let resources ← await (.getResources source resourceIds)
  let publicIds := (resources.filter (·.isPublic)).map (·.id)
  let connected := Json.group (resources.filterMap fun r =>
    (r.synced.filter fun s => !s.1.isEmpty).map fun s => (s.1, r.id))
  let resolved ← connected.foldlM (resolveResources agent driver source) []
  let filtered ← filterResolved agent source resolved
  let authorizedIds := ((filtered.lookup source).getD []).flatMap (·.2)
  pure [(source, [(hybrid, resourceIds.filter fun id =>
    publicIds.contains id || authorizedIds.contains id)])]

def postFilterSource (entry : Id × List Id) : Prog O P M Filtered := do
  let driver ← .ofExcept (connection agent entry.1)
  if driver.connectionIds.isEmpty then postFilterHybridResources agent entry.1 entry.2
  else postFilterConfiguredResources agent [entry] none

def postFilterResourcesByConnection (resources : List (Id × List Id)) : Prog O P M Filtered :=
  resources.foldlM (fun filtered entry => do
    let sourceResources ← postFilterSource agent entry
    pure (Json.update filtered sourceResources)) []

/-! ## Answering -/

/-- The synonyms of a source, if they are needed and not known. -/
def synonymsRaw (source : Id) (synonyms : List (List Char × Synonyms))
    (keywordFilters : List (List Char)) : Prog O P M Synonyms :=
  if !keywordFilters.isEmpty && (synonyms.lookup source).isNone then await (.synonymsRaw source)
  else pure []

/-- Applies all the filters to create a single expression. -/
def filterExpression (driver : SyncConnection O P) (source : Id) (filters : Filters O P) :
    Prog O P M (Option (FilterExpression O P)) := do
  let synonyms ← await .synonyms
  let raw ← synonymsRaw source synonyms (filters.keywordFilters.getD [])
  let built := buildFilterExpression agent.table agent.lower synonyms source raw
    driver.toDriverConfig filters
  await (.storeSynonyms built.1)
  .ofExcept (built.2.mapError fun message => .valueError message.toList)

def retrieve (source : Id) (question : List Char) (filters : Filters O P) :
    Prog O P M (List Id) := do
  let driver ← .ofExcept (getNdbDriver agent source)
  let expression ← filterExpression agent driver source filters
  await (.find source question expression)

/-- The resources of a source that may be used, of those found for a question. -/
def retrieveValid (source : Id) (question : List Char) (filters : Filters O P) :
    Prog O P M (List Id) := do
  let resources ← retrieve agent source question filters
  let byConnection ← postFilterResourcesByConnection agent [(source, resources)]
  match ((byConnection.lookup source).getD []).flatMap (·.2) with
  | [] => .raise (.exception "No valid resources found after OAuth validation".toList)
  | resourceIds => pure resourceIds

/-- What an answer is generated from. -/
def ragStrategies (fullResource : Bool) : List RagStrategy :=
  let metadata := .metadataExtension ["classification_labels".toList, "origin".toList]
  if fullResource then [.fullResource 1, metadata]
  else [.fieldExtension ["a/title".toList, "a/summary".toList], .neighbouringParagraphs 5 5,
    metadata]

/-- Asks a question about the resources that have been found for it, if there are valid ones. -/
def innerRag (source : Id) (question : List Char)
    (keywordFilters : List (List Char)) (andFilters orFilters : Option (List (List Char)))
    (fullResource : Bool) : Prog O P M Unit := do
  let resourceIds ← retrieveValid agent source question {
    keywordFilters := some keywordFilters
    andFilters, orFilters
    filterExpression := some {} }
  let driver ← .ofExcept (getNdbDriver agent source)
  let expression ← filterExpression agent driver source {
    keywordFilters := some keywordFilters
    andFilters, orFilters
    resourceFilters := some resourceIds }
  await (.ask [(source, {
    query := question
    generativeModel := agent.generativeModel
    filterExpression := expression
    ragStrategies := ragStrategies fullResource })])

/-- The request that asks a question about a resource, if one is given. -/
def nucliadbQuery (source : Id) (question : List Char) (resourceId : Option Id) :
    Except Fault (AskRequest O P) := do
  let driver ← getNdbDriver agent source
  let expression ← (buildFilterExpression agent.table agent.lower [] source []
    driver.toDriverConfig { filterExpression := resourceId.bind fun id =>
      if id.isEmpty then none else some { field := some (.leaf (.resource id)) } }).2.mapError
        fun message => .valueError message.toList
  pure {
    query := question
    generativeModel := agent.generativeModel
    filterExpression := expression
    ragStrategies := [.fullResource 1] }

/-- `resource_ids[0] if len(resource_ids) == 1 else None` -/
def onlyResource : List Id → Option Id
  | [id] => some id
  | _ => none

/-- The resources that are given, or else those that are found for the question. -/
def resourcesToAsk (source : Id) (question : List Char) (resourceIds : List Id) :
    Prog O P M (List Id) :=
  if resourceIds.isEmpty then retrieveValid agent source question {} else pure resourceIds

def innerAskByTitle (source : Id) (question : List Char) (resourceIds : List Id) :
    Prog O P M Unit := do
  let resourceIds ← resourcesToAsk agent source question resourceIds
  let request ← .ofExcept (nucliadbQuery agent source question (onlyResource resourceIds))
  await (.ask [(source, request)])

/-- Where each source has sync configurations, a search is restricted to these. -/
def enrichCatalogFilter : Except Fault (Option (Formula (NdbFilter O))) := do
  if ← agent.sources.anyM fun source => (·.connectionIds.isEmpty) <$> connection agent source then
    pure none
  else
    let connections ← agent.sources.mapM (connection agent)
    pure (some (.or ((connections.flatMap (·.connectionIds)).map fun id =>
      .leaf (.originSource (syncConfigPrefix ++ id)))))

/-- The resources that are valid, of those of a title, for each source. -/
def searchByTitle (title : List Char) : Prog O P M (List (Id × List Id)) := do
  let catalogFilter ← .ofExcept (enrichCatalogFilter agent)
  let resources ← agent.sources.foldlM (fun resources source => do
    let driver ← .ofExcept (getNdbDriver agent source)
    let found ← await (.catalogSearch source title
      (Formula.join .and (catalogFilter.toList ++ driver.catalogFilterExpression.toList)))
    pure (Json.assign source found resources)) []
  let byConnection ← postFilterResourcesByConnection agent resources
  pure ((byConnection.filter (!·.2.isEmpty)).map fun (source, connections) =>
    (source, connections.flatMap (·.2)))

/-- The question is asked of all sources where there are valid resources of the title. Where a
    request cannot be made, those of the other sources are sent all the same. -/
def askByTitle (title question : List Char) : Prog O P M Unit := do
  let resources ← searchByTitle agent title
  let requests := (resources.filter (!·.2.isEmpty)).map fun (source, resourceIds) =>
    (nucliadbQuery agent source question (onlyResource resourceIds)).map (source, ·)
  await (.ask (requests.filterMap Except.toOption))
  let _ ← .ofExcept (requests.mapM id)
  pure ()

/-- Does the same as `askByTitle`. -/
def searchImagesByTitle (title question : List Char) : Prog O P M Unit :=
  askByTitle agent title question

end Filter

end Hyperforge.NucliaDB.Sync
