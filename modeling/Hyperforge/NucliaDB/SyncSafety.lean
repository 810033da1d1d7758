import Hyperforge.Library.Crash
import Hyperforge.NucliaDB.Sync

/-!
# Questions about synced resources

Whatever the knowledge box, the service and the user answer, and whatever other agents do in
between, the agent asks a question about those resources only that are public, or that the service
has validated by the sync configuration that they name, with a credential of the user for it
(`Admitted`).
-/

namespace Hyperforge.NucliaDB.Sync

open Calling Program

variable {O P M Field Paragraph : Type}

/-- Calls and their answers. -/
abbrev History (O P M : Type) := List (Exchange (Call O P M) Call.Answer Fault)

/-- The call has been answered so. -/
def Answered (past : History O P M) (c : Call O P M) (a : c.Answer) : Prop :=
  (⟨c, .ok a⟩ : Exchange (Call O P M) Call.Answer Fault) ∈ past

variable {past past' : History O P M} {agent : Agent O P} {source c id : Id}

theorem Answered.mono {c : Call O P M} {a : c.Answer} (h : Answered past c a)
    (hle : past <+: past') : Answered past' c a := hle.subset h

/-! ## What may be used -/

def Response.IsSuccess {α : Type} (response : Response α) : Prop :=
  200 ≤ response.status ∧ response.status < 300

/-- The resource has been read from the knowledge box. -/
def Read (past : History O P M) (source : Id) (r : Resource M) : Prop :=
  ∃ ids resources, Answered past (.getResources source ids) resources ∧ r ∈ resources

/-- The resource names the sync configuration. -/
def Names (past : History O P M) (source id c : Id) : Prop :=
  ∃ r, Read past source r ∧ r.id = id ∧ ∃ m, r.synced = some (c, m)

/-- The resource is that one at its origin. -/
def HasMetadata (past : History O P M) (source id : Id) (m : SyncMetadata M) : Prop :=
  ∃ r, Read past source r ∧ r.id = id ∧ ∃ c, r.synced = some (c, m)

/-- The sync configuration is known. -/
def Resolved (past : History O P M) (source c : Id) : Prop :=
  (∃ configs, Answered past (.syncConfigs source) configs ∧ (configs.lookup c).getD [] ≠ []) ∨
    ∃ response, Answered past (.getSyncConfig source c) response ∧ response.IsSuccess

/-- The sync configuration is one of those of the driver, if it has any, and else it is known. -/
def MayUse (agent : Agent O P) (past : History O P M) (source c : Id) : Prop :=
  ∃ driver, connection agent source = .ok driver ∧
    (c ∈ driver.connectionIds ∨ driver.connectionIds = [] ∧ Resolved past source c)

/-- The user has had the credential for the sync configuration, or has given it for that. -/
inductive Granted (agent : Agent O P) (past : History O P M) (c : Id) (credential : Credential) :
    Prop
  | existing {feedback : Feedback} {answer : FeedbackAnswer} {credentials : Credentials}
      {entry : List (Id × Credential)} {connectionId : Id}
      (h : Answered past (.sendFeedback feedback) (some answer))
      (hrequest : answer.requestId = some agent.sessionId)
      (hresponse : answer.response = .ok (some credentials)) (hentry : (c, entry) ∈ credentials)
      (hcredential : (connectionId, credential) ∈ entry)
  | given {source connectionId : Id} {response : Response (List Char)} {url : List Char}
      (h : Answered past (.authorize source c connectionId) response)
      (hurl : response.body = .ok url)
      (hcallback :
        [⟨.sendOauth url, .ok ()⟩, ⟨.recvOauthCallback, .ok (some credential)⟩] <:+: past)

/-- The service has validated the file, with a credential of the user. -/
def Validated (agent : Agent O P) (past : History O P M) (source c : Id) (fileId : List Char) :
    Prop :=
  ∃ resources credential response validation fileIds,
    Answered past (.validateResources source c resources credential) response ∧
      Granted agent past c credential ∧ response.IsSuccess ∧ response.body = .ok validation ∧
      validFileIds validation = .ok fileIds ∧ fileId ∈ fileIds

/-- The resource is validated by the sync configuration that it names. -/
def Authorized (agent : Agent O P) (past : History O P M) (source id : Id) : Prop :=
  ∃ c m, Names past source id c ∧ HasMetadata past source id m ∧ MayUse agent past source c ∧
    Validated agent past source c m.fileId

/-- The resource is public, as the driver has no sync configurations. -/
def IsPublic (agent : Agent O P) (past : History O P M) (source id : Id) : Prop :=
  (∃ driver, connection agent source = .ok driver ∧ driver.connectionIds = []) ∧
    ∃ r, Read past source r ∧ r.id = id ∧ r.isPublic

def Admitted (agent : Agent O P) (past : History O P M) (source id : Id) : Prop :=
  IsPublic agent past source id ∨ Authorized agent past source id

/-- What is sent to be validated: resources that name the sync configuration, and a credential of
    the user for it. -/
structure MayValidate (agent : Agent O P) (past : History O P M) (source c : Id)
    (resources : List (SyncMetadata M)) (credential : Credential) : Prop where
  mayUse : MayUse agent past source c
  granted : Granted agent past c credential
  named : ∀ m ∈ resources, ∃ id, Names past source id c ∧ HasMetadata past source id m

/-- The resources that are asked to be validated may be, and the questions are in `asks`. -/
def Guarded (agent : Agent O P) (asks : History O P M → List (Id × AskRequest O P) → Prop)
    (past : History O P M) : Call O P M → Prop
  | .validateResources source c resources credential =>
    MayValidate agent past source c resources credential
  | .ask requests => asks past requests
  | _ => True

/-! ## What stays true -/

theorem Read.mono {r : Resource M} (h : Read past source r) (hle : past <+: past') :
    Read past' source r := by
  obtain ⟨ids, resources, hread, hr⟩ := h
  exact ⟨ids, resources, hread.mono hle, hr⟩

theorem Names.mono (h : Names past source id c) (hle : past <+: past') :
    Names past' source id c := by
  obtain ⟨r, hr, hid⟩ := h
  exact ⟨r, hr.mono hle, hid⟩

theorem HasMetadata.mono {m : SyncMetadata M} (h : HasMetadata past source id m)
    (hle : past <+: past') : HasMetadata past' source id m := by
  obtain ⟨r, hr, hid⟩ := h
  exact ⟨r, hr.mono hle, hid⟩

theorem Resolved.mono (h : Resolved past source c) (hle : past <+: past') :
    Resolved past' source c := by
  obtain ⟨configs, hconfigs, hne⟩ | ⟨response, hresponse, hsuccess⟩ := h
  · exact .inl ⟨configs, hconfigs.mono hle, hne⟩
  · exact .inr ⟨response, hresponse.mono hle, hsuccess⟩

theorem MayUse.mono (h : MayUse agent past source c) (hle : past <+: past') :
    MayUse agent past' source c := by
  obtain ⟨driver, hdriver, h⟩ := h
  exact ⟨driver, hdriver, h.imp_right fun h => ⟨h.1, h.2.mono hle⟩⟩

theorem Granted.mono {credential : Credential} (h : Granted agent past c credential)
    (hle : past <+: past') : Granted agent past' c credential := by
  cases h with
  | existing h hrequest hresponse hentry hcredential =>
    exact .existing (h.mono hle) hrequest hresponse hentry hcredential
  | given h hurl hcallback => exact .given (h.mono hle) hurl (hcallback.trans hle.isInfix)

theorem Validated.mono {fileId : List Char} (h : Validated agent past source c fileId)
    (hle : past <+: past') : Validated agent past' source c fileId := by
  obtain ⟨resources, credential, response, validation, fileIds, h, hgranted, hvalid⟩ := h
  exact ⟨resources, credential, response, validation, fileIds, h.mono hle, hgranted.mono hle,
    hvalid⟩

theorem Admitted.mono (h : Admitted agent past source id) (hle : past <+: past') :
    Admitted agent past' source id := by
  obtain ⟨hdriver, r, hr, hid⟩ | ⟨c, m, hnames, hm, huse, hvalid⟩ := h
  · exact .inl ⟨hdriver, r, hr.mono hle, hid⟩
  · exact .inr ⟨c, m, hnames.mono hle, hm.mono hle, huse.mono hle, hvalid.mono hle⟩

theorem MayValidate.mono {resources : List (SyncMetadata M)} {credential : Credential}
    (h : MayValidate agent past source c resources credential) (hle : past <+: past') :
    MayValidate agent past' source c resources credential := by
  refine ⟨h.mayUse.mono hle, h.granted.mono hle, fun m hm => ?_⟩
  obtain ⟨id, hnames, hmetadata⟩ := h.named m hm
  exact ⟨id, hnames.mono hle, hmetadata.mono hle⟩

theorem mem_of_mem_lookup {α : Type} {d : List (Id × List α)} {k : Id} {x : α}
    (h : x ∈ (d.lookup k).getD []) : ∃ xs, (k, xs) ∈ d ∧ x ∈ xs := by
  rcases hlookup : d.lookup k with _ | xs
  · rw [hlookup] at h
    cases h
  · rw [hlookup] at h
    exact ⟨xs, Json.mem_of_lookup hlookup, h⟩

/-! ## The driver -/

section

variable {asks : History O P M → List (Id × AskRequest O P) → Prop}

theorem keeps_await {call : Call O P M} (h : Guarded agent asks past call) :
    Keeps (Guarded agent asks) (fun past' a => Answered past' call a) past (await call) := by
  refine (Keeps.ask h).conseq fun past' a _ hpast => ?_
  rw [hpast]
  exact List.mem_append_right past List.mem_cons_self

theorem keeps_raiseForStatus {α : Type} (response : Response α) :
    Keeps (Guarded agent asks) (fun _ _ => response.IsSuccess) past
      (raiseForStatus response : Prog O P M Unit) := by
  rw [raiseForStatus]
  split
  next h => exact .pure h
  · trivial

theorem keeps_resolveSyncConfig (isUuid : List Char → Bool) (config : SyncConnection O P)
    (source c : Id) : Keeps (Guarded agent asks) (fun past' _ => Resolved past' source c) past
      (resolveSyncConfig isUuid config source c : Prog O P M Provider) := by
  rw [resolveSyncConfig]
  split
  · trivial
  refine (keeps_await (by trivial)).bind fun past₁ configs _ hconfigs => ?_
  split
  next existing _ hexisting =>
    have hresolved : Resolved past₁ source c := .inl ⟨configs, hconfigs, by simp [hexisting]⟩
    refine (keeps_await (by trivial)).bind fun past₂ information hle _ => ?_
    split
    · exact .pure (hresolved.mono hle)
    · trivial
  · split
    · refine (keeps_await (by trivial)).bind fun past₂ response _ hresponse => ?_
      refine (keeps_raiseForStatus response).bind fun past₃ _ hle₃ hsuccess => ?_
      have hresolved : Resolved past₃ source c := .inr ⟨response, hresponse.mono hle₃, hsuccess⟩
      refine Keeps.ofExcept.bind fun past₄ _ hle₄ _ => ?_
      refine (keeps_await (by trivial)).bind fun past₅ response' hle₅ _ => ?_
      refine (keeps_raiseForStatus response').bind fun past₆ _ hle₆ _ => ?_
      refine Keeps.ofExcept.bind fun past₇ _ hle₇ _ => ?_
      refine (keeps_await (by trivial)).bind fun past₈ _ hle₈ _ => ?_
      exact .pure (hresolved.mono
        (hle₄.trans (hle₅.trans (hle₆.trans (hle₇.trans hle₈)))))
    · trivial

/-- Every attempt posts the same. -/
theorem keeps_postValidation {resources : List (SyncMetadata M)} {credential : Credential}
    (h : MayValidate agent past source c resources credential) (attempts : ℕ) :
    Keeps (Guarded agent asks) (fun past' response =>
        Answered past' (.validateResources source c resources credential) response) past
      (postValidation source c resources credential attempts : Prog O P M _) := by
  induction attempts generalizing past with
  | zero => trivial
  | succ attempts ih =>
    have hnext r := ih (h.mono (List.prefix_append past
      [⟨.validateResources source c resources credential, r⟩]))
    refine ⟨h, fun r => ?_⟩
    cases r with
    | ok response =>
      dsimp only
      split
      · exact .pure (List.mem_append_right past List.mem_cons_self)
      · exact hnext _
    | error fault =>
      dsimp only
      split
      · exact hnext _
      · trivial

/-- What is returned are resources that are given, with files that have been validated. -/
theorem keeps_validateResources {credential : Credential} {metadata : List (Id × SyncMetadata M)}
    (h : MayValidate agent past source c (metadata.map (·.2)) credential) :
    Keeps (Guarded agent asks) (fun past' ids => ∀ id ∈ ids, ∃ m, (id, m) ∈ metadata ∧
        Validated agent past' source c m.fileId) past
      (validateResources source c credential metadata : Prog O P M _) := by
  rw [validateResources]
  refine (keeps_postValidation h _).bind fun past₁ response hle₁ hresponse => ?_
  refine (keeps_raiseForStatus response).bind fun past₂ _ hle₂ hsuccess => ?_
  refine Keeps.ofExcept.bind fun past₃ validation hle₃ hbody => ?_
  refine Keeps.ofExcept.bind fun past₄ fileIds hle₄ hfileIds => ?_
  refine .pure fun id hid => ?_
  obtain ⟨fileId, hfileId, hlookup⟩ := List.mem_filterMap.1 hid
  have hmem := Json.mem_update (Json.mem_of_lookup hlookup)
  rw [or_iff_right List.not_mem_nil, List.mem_map] at hmem
  obtain ⟨⟨id', m⟩, hm, heq⟩ := hmem
  obtain ⟨rfl, rfl⟩ := Prod.mk.inj heq
  refine ⟨m, hm, _, credential, response, validation, fileIds, ?_, ?_, hsuccess, hbody, hfileIds,
    hfileId⟩
  · exact hresponse.mono (hle₂.trans (hle₃.trans hle₄))
  · exact h.granted.mono (hle₁.trans (hle₂.trans (hle₃.trans hle₄)))

/-! ## Credentials -/

theorem keeps_sendFeedback (feedback : Feedback) :
    Keeps (Guarded agent asks) (fun past' answer =>
        Answered past' (.sendFeedback feedback) (some answer) ∧
          answer.requestId = some agent.sessionId) past
      (sendFeedback agent feedback : Prog O P M FeedbackAnswer) := by
  rw [sendFeedback]
  refine (keeps_await (by trivial)).bind fun past₁ answer? _ hanswer => ?_
  split
  · trivial
  next answer _ =>
    split
    · trivial
    next requestId hrequest =>
      split
      next heq => exact .pure ⟨hanswer, heq ▸ hrequest⟩
      · trivial

/-- The url is where a credential for the sync configuration is given. -/
def Authorizes (past : History O P M) (source c : Id) (url : List Char) : Prop :=
  ∃ connectionId response, Answered past (.authorize source c connectionId) response ∧
    response.body = .ok url

theorem Authorizes.mono {url : List Char} (h : Authorizes past source c url)
    (hle : past <+: past') : Authorizes past' source c url := by
  obtain ⟨connectionId, response, h, hurl⟩ := h
  exact ⟨connectionId, response, h.mono hle, hurl⟩

theorem keeps_getOauthUrl (connectionId : Id) :
    Keeps (Guarded agent asks) (fun past' url => Authorizes past' source c url) past
      (getOauthUrl source c connectionId : Prog O P M _) := by
  rw [getOauthUrl]
  refine (keeps_await (by trivial)).bind fun past₁ response _ hresponse => ?_
  refine (keeps_raiseForStatus response).bind fun past₂ _ hle₂ _ => ?_
  refine Keeps.ofExcept.conseq fun past₃ url hle₃ hurl => ?_
  exact ⟨connectionId, response, hresponse.mono (hle₂.trans hle₃), hurl⟩

theorem keeps_getOauthUrls (syncConfigIds : List Id) :
    Keeps (Guarded agent asks) (fun past' urls => ∀ e ∈ urls, Authorizes past' source e.1 e.2) past
      (getOauthUrls source syncConfigIds : Prog O P M _) := by
  refine .foldlM (by simp) fun past₁ urls _ hurls c _ => ?_
  refine (keeps_await (by trivial)).bind fun past₂ configs hle₂ _ => ?_
  split
  · exact .pure fun e he => (hurls e he).mono hle₂
  · refine (keeps_getOauthUrl _).bind fun past₃ url hle₃ hurl => .pure fun e he => ?_
    obtain rfl | he := Json.mem_assign he
    · exact hurl
    · exact (hurls e he).mono (hle₂.trans hle₃)

/-- The user has had all credentials for their sync configurations, or has given them for these. -/
def AllGranted (agent : Agent O P) (past : History O P M) (credentials : Credentials) : Prop :=
  ∀ entry ∈ credentials, ∀ e ∈ entry.2, Granted agent past entry.1 e.2

theorem AllGranted.mono {credentials : Credentials} (h : AllGranted agent past credentials)
    (hle : past <+: past') : AllGranted agent past' credentials :=
  fun entry hentry e he => (h entry hentry e he).mono hle

/-- The credential is what comes back after the user has been sent the url. -/
theorem keeps_askCredential {existing : Credentials} {url : Id × List Char}
    (hexisting : AllGranted agent past existing) (hurl : Authorizes past source url.1 url.2) :
    Keeps (Guarded agent asks) (AllGranted agent) past
      (askCredential source existing url : Prog O P M Credentials) := by
  obtain ⟨connectionId, response, hauthorize, hbody⟩ := hurl
  rw [askCredential]
  refine (Keeps.ask (by trivial)).bind fun past₁ sent hle₁ hpast₁ => ?_
  refine (Keeps.ask (by trivial)).bind fun past₂ credential? hle₂ hpast₂ => ?_
  split
  · exact .pure (hexisting.mono (hle₁.trans hle₂))
  next credential =>
    have hgranted : Granted agent past₂ url.1 credential := by
      refine .given (hauthorize.mono (hle₁.trans hle₂)) hbody ⟨past, [], ?_⟩
      rw [hpast₂, hpast₁, List.append_nil, List.append_assoc]
      rfl
    refine (keeps_await (by trivial)).bind fun past₃ configs hle₃ _ => ?_
    split
    · trivial
    · trivial
    · refine .pure fun entry hentry e he => ?_
      obtain rfl | hentry := Json.mem_assign hentry
      · obtain rfl := List.mem_singleton.1 he
        exact hgranted.mono hle₃
      · exact (hexisting entry hentry e he).mono (hle₁.trans (hle₂.trans hle₃))

theorem keeps_getCredentials (providers : List (Id × Provider)) :
    Keeps (Guarded agent asks) (AllGranted agent) past
      (getCredentials agent source providers : Prog O P M Credentials) := by
  rw [getCredentials]
  refine (keeps_sendFeedback _).bind fun past₁ answer _ ⟨hanswer, hrequest⟩ => ?_
  refine Keeps.ofExcept.bind fun past₂ existing hle₂ hexisting => ?_
  split
  · refine (keeps_getOauthUrls _).bind fun past₃ urls _ hurls => ?_
    refine Keeps.bind (Q := AllGranted agent) (.foldlM (by simp [AllGranted])
      fun past₄ existing hle₄ hgranted url hurl => ?_) fun past₅ credentials _ hgranted => ?_
    · exact keeps_askCredential hgranted ((hurls url hurl).mono hle₄)
    · refine (keeps_sendFeedback _).bind fun past₆ _ hle₆ _ => ?_
      exact .pure (hgranted.mono hle₆)
  · refine .pure fun entry hentry e he => ?_
    rcases existing with _ | credentials
    · cases hentry
    · rcases hresponse : answer.response with fault | response
      · rw [hresponse] at hexisting
        cases hexisting
      · rw [hresponse] at hexisting
        cases hexisting
        exact .existing (hanswer.mono hle₂) hrequest hresponse hentry he

/-! ## Resources -/

/-- The resources of each sync configuration name it, and it may be used. -/
structure Groups (agent : Agent O P) (past : History O P M) (source : Id)
    (connectionsByResource : List (Id × List Id))
    (syncMetadataByResource : List (Id × SyncMetadata M)) : Prop where
  mayUse : ∀ entry ∈ connectionsByResource, MayUse agent past source entry.1
  names : ∀ entry ∈ connectionsByResource, ∀ id ∈ entry.2, Names past source id entry.1
  metadata : ∀ e ∈ syncMetadataByResource, HasMetadata past source e.1 e.2

theorem Groups.mono {connectionsByResource : List (Id × List Id)}
    {syncMetadataByResource : List (Id × SyncMetadata M)}
    (h : Groups agent past source connectionsByResource syncMetadataByResource)
    (hle : past <+: past') :
    Groups agent past' source connectionsByResource syncMetadataByResource :=
  ⟨fun entry hentry => (h.mayUse entry hentry).mono hle,
    fun entry hentry id hid => (h.names entry hentry id hid).mono hle,
    fun e he => (h.metadata e he).mono hle⟩

/-- The resources of every source are admitted. -/
def Sound (agent : Agent O P) (past : History O P M) (filtered : Filtered) : Prop :=
  ∀ entry ∈ filtered, ∀ e ∈ entry.2, ∀ id ∈ e.2, Admitted agent past entry.1 id

theorem Sound.mono {filtered : Filtered} (h : Sound agent past filtered) (hle : past <+: past') :
    Sound agent past' filtered :=
  fun entry hentry e he id hid => (h entry hentry e he id hid).mono hle

theorem Sound.update {filtered filtered' : Filtered} (h : Sound agent past filtered)
    (h' : Sound agent past filtered') : Sound agent past (Json.update filtered filtered') :=
  fun entry hentry => (Json.mem_update hentry).elim (h entry) (h' entry)

theorem keeps_filterConnection {connectionsByResource : List (Id × List Id)}
    {syncMetadataByResource : List (Id × SyncMetadata M)} {filtered : Filtered}
    {entry : Id × List (Id × Credential)}
    (hgroups : Groups agent past source connectionsByResource syncMetadataByResource)
    (hsound : Sound agent past filtered)
    (hgranted : ∀ e ∈ entry.2, Granted agent past entry.1 e.2) :
    Keeps (Guarded agent asks) (Sound agent) past
      (filterConnection source connectionsByResource syncMetadataByResource filtered entry :
        Prog O P M Filtered) := by
  rw [filterConnection]
  split
  · exact .pure hsound
  next resourceIds hids =>
  have hids := Json.mem_of_lookup hids
  refine (keeps_await (by trivial)).bind fun past₁ configs hle₁ _ => ?_
  split
  · trivial
  next connectionId _ _ =>
  split
  · trivial
  next credential hcredential =>
  have hmetadata : ∀ e ∈ Json.update [] (resourceIds.filterMap fun id =>
      (syncMetadataByResource.lookup id).map (id, ·)), e.1 ∈ resourceIds ∧
        HasMetadata past₁ source e.1 e.2 := by
    intro e he
    have he := Json.mem_update he
    rw [or_iff_right List.not_mem_nil, List.mem_filterMap] at he
    obtain ⟨id, hid, he⟩ := he
    obtain ⟨m, hm, rfl⟩ := Option.map_eq_some_iff.1 he
    exact ⟨hid, (hgroups.metadata _ (Json.mem_of_lookup hm)).mono hle₁⟩
  have hnames : ∀ id ∈ resourceIds, Names past₁ source id entry.1 :=
    fun id hid => (hgroups.names _ hids id hid).mono hle₁
  have hmay := (hgroups.mayUse _ hids).mono hle₁
  refine (keeps_validateResources ⟨hmay, ?_, ?_⟩).bind fun past₂ valid hle₂ hvalid => ?_
  · exact (hgranted _ (Json.mem_of_lookup hcredential)).mono hle₁
  · intro m hm
    obtain ⟨e, he, rfl⟩ := List.mem_map.1 hm
    obtain ⟨hid, hm⟩ := hmetadata e he
    exact ⟨e.1, hnames e.1 hid, hm⟩
  · have hsound := hsound.mono (hle₁.trans hle₂)
    refine .pure fun entry' hentry' => ?_
    obtain rfl | hentry' := Json.mem_assign hentry'
    · intro e he id hid
      obtain rfl | he := Json.mem_assign he
      · obtain ⟨m, hm, hvalidated⟩ := hvalid id hid
        obtain ⟨hid, hm⟩ := hmetadata _ hm
        exact .inr ⟨entry.1, m, (hnames id hid).mono hle₂, hm.mono hle₂, hmay.mono hle₂,
          hvalidated⟩
      · obtain ⟨connections, hentry, he⟩ := mem_of_mem_lookup he
        exact hsound _ hentry e he id hid
    · exact hsound entry' hentry'

/-- What has been read is put together by the sync configurations that are allowed. -/
theorem groups_syncedBy {allowed ids : List Id} {resources : List (Resource M)}
    (hresources : Answered past (.getResources source ids) resources)
    (hallowed : ∀ c ∈ allowed, MayUse agent past source c) :
    Groups agent past source
      (Json.group ((syncedBy allowed resources).map fun s => (s.2.1, s.1)))
      (Json.update [] ((syncedBy allowed resources).map fun s => (s.1, s.2.2))) := by
  have hsynced : ∀ s ∈ syncedBy allowed resources, s.2.1 ∈ allowed ∧
      Names past source s.1 s.2.1 ∧ HasMetadata past source s.1 s.2.2 := by
    intro s hs
    obtain ⟨r, hr, hs⟩ := List.mem_filterMap.1 hs
    obtain ⟨⟨c, m⟩, hcm, rfl⟩ := Option.map_eq_some_iff.1 hs
    obtain ⟨hcm, hc⟩ := Option.filter_eq_some_iff.1 hcm
    have hread : Read past source r := ⟨ids, resources, hresources, hr⟩
    exact ⟨List.contains_iff_mem.1 hc, ⟨r, hread, rfl, m, hcm⟩, r, hread, rfl, c, hcm⟩
  refine ⟨fun entry hentry => ?_, fun entry hentry id hid => ?_, fun e he => ?_⟩
  · obtain ⟨hkey, -⟩ := Json.mem_group.1 hentry
    obtain ⟨_, he, hc⟩ := List.mem_map.1 hkey
    obtain ⟨s, hs, rfl⟩ := List.mem_map.1 he
    exact hallowed _ (hc ▸ (hsynced s hs).1)
  · obtain ⟨-, hvalues⟩ := Json.mem_group.1 hentry
    rw [hvalues, Json.mem_valuesOf] at hid
    obtain ⟨s, hs, heq⟩ := List.mem_map.1 hid
    obtain ⟨hc, rfl⟩ := Prod.mk.inj heq
    exact hc ▸ (hsynced s hs).2.1
  · have he := Json.mem_update he
    rw [or_iff_right List.not_mem_nil, List.mem_map] at he
    obtain ⟨s, hs, rfl⟩ := he
    exact (hsynced s hs).2.2

theorem keeps_filterConfigured {allowed : Option (List Id)} {filtered : Filtered}
    {entry : Id × List Id} (hsound : Sound agent past filtered)
    (hallowed : ∀ driver, connection agent entry.1 = .ok driver →
      ∀ c ∈ allowed.getD driver.connectionIds, MayUse agent past entry.1 c) :
    Keeps (Guarded agent asks) (Sound agent) past
      (filterConfigured agent allowed filtered entry : Prog O P M Filtered) := by
  rw [filterConfigured]
  refine Keeps.ofExcept.bind fun past₁ driver hle₁ hdriver => ?_
  refine Keeps.ofExcept.bind fun past₂ _ hle₂ _ => ?_
  refine (keeps_await (by trivial)).bind fun past₃ resources hle₃ hresources => ?_
  have hle := hle₁.trans (hle₂.trans hle₃)
  have hmayUse : ∀ c ∈ allowed.getD driver.connectionIds, MayUse agent past₃ entry.1 c :=
    fun c hc => (hallowed driver hdriver c hc).mono hle
  have hgroups := groups_syncedBy hresources hmayUse
  dsimp only
  split
  · exact .pure (hsound.mono hle)
  · refine (keeps_await (by trivial)).bind fun past₄ configs hle₄ _ => ?_
    refine (keeps_await (by trivial)).bind fun past₅ information hle₅ _ => ?_
    refine Keeps.ofExcept.bind fun past₆ providers hle₆ _ => ?_
    refine (keeps_getCredentials providers).bind fun past₇ credentials hle₇ hgranted => ?_
    have hle' := hle₄.trans (hle₅.trans (hle₆.trans hle₇))
    refine .foldlM (hsound.mono (hle.trans hle')) fun past₈ filtered hle₈ hsound e he => ?_
    exact keeps_filterConnection (hgroups.mono (hle'.trans hle₈)) hsound
      fun e' he' => (hgranted e he e' he').mono hle₈

theorem keeps_postFilterConfiguredResources {allowed : Option (List Id)}
    {resources : List (Id × List Id)} (hallowed : ∀ entry ∈ resources, ∀ driver,
      connection agent entry.1 = .ok driver →
        ∀ c ∈ allowed.getD driver.connectionIds, MayUse agent past entry.1 c) :
    Keeps (Guarded agent asks) (Sound agent) past
      (postFilterConfiguredResources agent resources allowed : Prog O P M Filtered) := by
  refine .foldlM (fun _ h => absurd h List.not_mem_nil) fun past₁ filtered hle hsound e he => ?_
  exact keeps_filterConfigured hsound fun driver hdriver c hc =>
    (hallowed e he driver hdriver c hc).mono hle

/-- The sync configurations that have been resolved may be used, where the driver has none. -/
theorem keeps_filterResolved {driver : SyncConnection O P} {resolved : List (Id × List Id)}
    (hdriver : connection agent source = .ok driver) (hybrid : driver.connectionIds = [])
    (hresolved : ∀ e ∈ resolved, Resolved past source e.1) :
    Keeps (Guarded agent asks) (Sound agent) past
      (filterResolved agent source resolved : Prog O P M Filtered) := by
  have hnil : ∀ past : History O P M, Sound agent past [] := fun _ _ h => absurd h List.not_mem_nil
  rw [filterResolved]
  split
  · exact .pure (hnil past)
  · refine .handle (keeps_postFilterConfiguredResources fun entry hentry _ _ c hc => ?_)
      fun _ _ _ => .pure (hnil _)
    obtain rfl := List.mem_singleton.1 hentry
    obtain ⟨e, he, rfl⟩ := List.mem_map.1 hc
    exact ⟨driver, hdriver, .inr ⟨hybrid, hresolved e he⟩⟩

theorem keeps_postFilterHybridResources {driver : SyncConnection O P} (resourceIds : List Id)
    (hdriver : connection agent source = .ok driver) (hhybrid : driver.connectionIds = []) :
    Keeps (Guarded agent asks) (Sound agent) past
      (postFilterHybridResources agent source resourceIds : Prog O P M Filtered) := by
  rw [postFilterHybridResources]
  refine Keeps.ofExcept.bind fun past₁ driver' _ hdriver' => ?_
  cases hdriver.symm.trans hdriver'
  refine Keeps.ofExcept.bind fun past₂ _ _ _ => ?_
  refine (keeps_await (by trivial)).bind fun past₃ resources _ hresources => ?_
  dsimp only
  refine Keeps.bind (Q := fun past resolved => ∀ e ∈ resolved, Resolved past source e.1)
    (.foldlM (by simp) fun past₄ resolved _ hresolved e _ => ?_)
    fun past₅ resolved hle₅ hresolved => ?_
  · -- An exception leaves out the resources of the sync configuration.
    refine .handle ?_ fun past₆ _ hle₆ => .pure fun e he => (hresolved e he).mono hle₆
    refine (keeps_resolveSyncConfig _ _ _ _).bind fun past₆ _ hle₆ hc => .pure fun e he => ?_
    obtain he | he := List.mem_append.1 he
    · exact (hresolved e he).mono hle₆
    · obtain rfl := List.mem_singleton.1 he
      exact hc
  · refine (keeps_filterResolved hdriver hhybrid hresolved).bind
      fun past₆ filtered hle₆ hsound => .pure fun entry hentry e he id hid => ?_
    obtain rfl := List.mem_singleton.1 hentry
    obtain rfl := List.mem_singleton.1 he
    obtain ⟨-, hid⟩ := List.mem_filter.1 hid
    rw [Bool.or_eq_true, List.contains_iff_mem, List.contains_iff_mem] at hid
    obtain hid | hid := hid
    · obtain ⟨r, hr, rfl⟩ := List.mem_map.1 hid
      obtain ⟨hr, hpublic⟩ := List.mem_filter.1 hr
      exact .inl ⟨⟨driver, hdriver, hhybrid⟩, r,
        ⟨resourceIds, resources, hresources.mono (hle₅.trans hle₆), hr⟩, rfl, hpublic⟩
    · obtain ⟨e, he, hid⟩ := List.mem_flatMap.1 hid
      obtain ⟨connections, hentry, he⟩ := mem_of_mem_lookup he
      exact hsound _ hentry e he id hid

theorem keeps_postFilterResourcesByConnection (resources : List (Id × List Id)) :
    Keeps (Guarded agent asks) (Sound agent) past
      (postFilterResourcesByConnection agent resources : Prog O P M Filtered) := by
  refine .foldlM (fun _ h => absurd h List.not_mem_nil) fun past₁ filtered _ hsound entry _ => ?_
  refine Keeps.bind (Q := Sound agent) ?_ fun past₂ sourceResources hle₂ hsound' =>
    .pure ((hsound.mono hle₂).update hsound')
  rw [postFilterSource]
  refine Keeps.ofExcept.bind fun past₂ driver _ hdriver => ?_
  split
  next hempty =>
    exact keeps_postFilterHybridResources _ hdriver (List.isEmpty_iff.1 hempty)
  · refine keeps_postFilterConfiguredResources fun entry' hentry' driver' hdriver' c hc => ?_
    obtain rfl := List.mem_singleton.1 hentry'
    exact ⟨driver', hdriver', .inl hc⟩

/-! ## Requests -/

theorem keeps_filterExpression (driver : SyncConnection O P) (filters : Filters O P) :
    Keeps (Guarded agent asks) (fun _ e => ∃ synonyms raw,
        (buildFilterExpression agent.table agent.lower synonyms source raw driver.toDriverConfig
          filters).2 = .ok e) past
      (filterExpression agent driver source filters : Prog O P M _) := by
  rw [filterExpression]
  refine (keeps_await (by trivial)).bind fun past₁ synonyms _ _ => ?_
  refine Keeps.bind (Q := fun _ _ => True) ?_ fun past₂ raw _ _ => ?_
  · rw [synonymsRaw]
    split
    · exact (keeps_await (by trivial)).conseq fun _ _ _ _ => trivial
    · exact .pure trivial
  refine (keeps_await (by trivial)).bind fun past₃ _ _ _ => ?_
  refine Keeps.ofExcept.conseq fun past₄ e _ he => ⟨synonyms, raw, ?_⟩
  rcases hbuilt : (buildFilterExpression agent.table agent.lower synonyms source raw
    driver.toDriverConfig filters).2 with message | built
  · rw [hbuilt] at he
    cases he
  · rw [hbuilt] at he
    cases he
    rfl

theorem keeps_retrieveValid (question : List Char) (filters : Filters O P) :
    Keeps (Guarded agent asks) (fun past' ids => ids ≠ [] ∧
        ∀ id ∈ ids, Admitted agent past' source id) past
      (retrieveValid agent source question filters : Prog O P M (List Id)) := by
  rw [retrieveValid]
  refine Keeps.bind (Q := fun _ _ => True) ?_ fun past₁ resources _ _ => ?_
  · rw [retrieve]
    refine Keeps.ofExcept.bind fun past₁ driver _ _ => ?_
    refine (keeps_filterExpression driver filters).bind fun past₂ e _ _ => ?_
    exact (keeps_await (by trivial)).conseq fun _ _ _ _ => trivial
  refine (keeps_postFilterResourcesByConnection _).bind fun past₂ filtered _ hsound => ?_
  split
  · trivial
  next ids _ =>
    refine .pure ⟨by assumption, fun id hid => ?_⟩
    obtain ⟨e, he, hid⟩ := List.mem_flatMap.1 hid
    obtain ⟨connections, hentry, he⟩ := mem_of_mem_lookup he
    exact hsound _ hentry e he id hid

end

variable {m : Meaning O P Field Paragraph} {table : AliasTable} {lower : List Char → List Char}
  {known : List (List Char × Synonyms)} {raw : Synonyms} {config : DriverConfig O P}
  {filters : Filters O P} {e : FilterExpression O P} {field : Field} {paragraph : Paragraph}

/-- What is built imposes what one of the expressions does that are combined, if that is joined with
    `and`. -/
theorem imposes_of_buildFilterExpression {built : Option (FilterExpression O P)}
    {R : Field → Paragraph → Prop}
    (h : (buildFilterExpression table lower known source raw config filters).2 = .ok built)
    (hx : ∀ synonyms, ∃ x ∈ expressionsToCombine table lower synonyms config filters,
      x.operator = .and ∧ ∀ field paragraph, x.Matches m field paragraph → R field paragraph) :
    ∃ e, built = some e ∧
      ∀ field paragraph, e.Matches m field paragraph → R field paragraph := by
  rw [buildFilterExpression] at h
  dsimp only at h
  obtain ⟨x, hx, hand, hR⟩ := hx (((addSynonyms known source raw
    (filters.keywordFilters.getD [])).lookup source).getD [])
  generalize expressionsToCombine table lower _ config filters = expressions at h hx
  rcases expressions with _ | ⟨y, _ | ⟨y', rest⟩⟩
  · cases hx
  · cases h
    exact ⟨y, rfl, fun field paragraph he => hR _ _ (List.mem_singleton.1 hx ▸ he)⟩
  · dsimp only at h
    rcases hcombine : combineFilterExpressions (y :: y' :: rest) .and with message | r
    · rw [hcombine] at h
      cases h
    · rw [hcombine] at h
      cases h
      refine ⟨r, rfl, fun field paragraph he => hR _ _ ?_⟩
      exact (matches_combine_and hcombine ⟨x, hx, hand⟩).1 he x hx

/-- Only what is of some of the resources matches. -/
def RestrictedTo (m : Meaning O P Field Paragraph) (built : Option (FilterExpression O P))
    (ids : Id → Prop) : Prop :=
  ∃ e, built = some e ∧
    ∀ field paragraph, e.Matches m field paragraph → ∃ id, ids id ∧ m.field field (.resource id)

/-- Resources that are asked for are imposed. -/
theorem restrictedTo_of_resourceFilters {built : Option (FilterExpression O P)} {ids : List Id}
    (h : (buildFilterExpression table lower known source raw config filters).2 = .ok built)
    (hids : filters.resourceFilters = some ids) : RestrictedTo m built (· ∈ ids) := by
  refine imposes_of_buildFilterExpression h fun synonyms => ?_
  have hoperand : .or (ids.map fun id => .leaf (.resource id)) ∈
      andOperands (O := O) table lower synonyms config filters := by
    simp [andOperands, hids]
  rcases hjoin : Formula.join Formula.and
    (andOperands (O := O) table lower synonyms config filters) with _ | x
  · rw [Formula.join_eq_none.1 hjoin] at hoperand
    cases hoperand
  · refine ⟨{ field := some x }, ?_, rfl, fun field paragraph hx => ?_⟩
    · simp [expressionsToCombine, hjoin]
    · have hholds : ∀ y ∈ Formula.join Formula.and
          (andOperands table lower synonyms config filters), y.Holds (m.field field) :=
        fun y hy => Option.some.inj (hjoin.symm.trans hy) ▸ hx
      simpa using Formula.forall_join_and.1 hholds _ hoperand

theorem restrictedTo_of_filterExpression {built : Option (FilterExpression O P)}
    (h : (buildFilterExpression table lower known source raw config filters).2 = .ok built)
    (hid : filters.filterExpression = some { field := some (.leaf (.resource id)) }) :
    RestrictedTo m built (· = id) := by
  refine imposes_of_buildFilterExpression h fun synonyms =>
    ⟨{ field := some (.leaf (.resource id)) }, ?_, rfl, fun field paragraph hx => ?_⟩
  · simp [expressionsToCombine, hid]
  · exact ⟨id, rfl, Formula.holds_leaf.1 hx⟩

/-! ## What is asked -/

section

variable {question title : List Char} {keywordFilters : List (List Char)}
  {andFilters orFilters : Option (List (List Char))} {fullResource : Bool}
  {history : History O P M} {requests : List (Id × AskRequest O P)}

/-- Whatever is found and answered, a question about what has been found for it is about resources
    that are public or validated. -/
theorem innerRag_restricted
    (h : (innerRag agent source question keywordFilters andFilters orFilters fullResource).Makes
      history (.ask requests)) (m : Meaning O P Field Paragraph) :
    ∀ r ∈ requests, RestrictedTo m r.2.filterExpression (Admitted agent history r.1) := by
  have hkeeps : Keeps (Guarded agent fun past requests => ∀ r ∈ requests,
      RestrictedTo m r.2.filterExpression (Admitted agent past r.1)) (fun _ _ => True) []
      (innerRag agent source question keywordFilters andFilters orFilters fullResource :
        Prog O P M Unit) := by
    rw [innerRag]
    refine (keeps_retrieveValid question _).bind fun past₁ resourceIds _ ⟨_, hids⟩ => ?_
    refine Keeps.ofExcept.bind fun past₂ driver hle₂ _ => ?_
    refine (keeps_filterExpression driver _).bind fun past₃ built hle₃ ⟨synonyms, raw, hbuilt⟩ => ?_
    refine (Keeps.ask fun r hr => ?_).conseq fun _ _ _ _ => trivial
    obtain rfl := List.mem_singleton.1 hr
    obtain ⟨e, he, hmatches⟩ := restrictedTo_of_resourceFilters (m := m) hbuilt rfl
    refine ⟨e, he, fun field paragraph h => ?_⟩
    obtain ⟨id, hid, hfield⟩ := hmatches field paragraph h
    exact ⟨id, (hids id hid).mono (hle₂.trans hle₃), hfield⟩
  exact hkeeps.makes h

/-- An agent for a source without sync configurations. -/
def hybridAgent : Agent Empty Bool where
  sources := [['s']]
  drivers := [(['s'], {})]
  generativeModel := []
  sessionId := ['u']
  table := someAliases
  lower word := word
  isUuid _ := true

def syncedResource (id fileId : Id) : Resource Unit where
  id := id
  origin := some { sourceId := some "sync_config_c".toList, syncMetadata := some ⟨fileId, ()⟩ }

/-- Of a public resource and two others, of which one is valid, the question is about two. -/
theorem exists_makes_hybrid : ∃ history : History Empty Bool Unit,
    (innerRag hybridAgent ['s'] [] [] none none true).Makes history (.ask [(['s'], {
      query := []
      generativeModel := []
      filterExpression :=
        some { field := some (.or [.leaf (.resource ['a']), .leaf (.resource ['b'])]) }
      ragStrategies := ragStrategies true })]) := by
  refine exists_makes_answered rfl [] ?_
  refine exists_makes_answered rfl () ?_
  refine exists_makes_answered rfl [['a'], ['b'], ['d']] ?_
  refine exists_makes_answered rfl
    [{ id := ['a'] }, syncedResource ['b'] ['f'], syncedResource ['d'] ['g']] ?_
  refine exists_makes_answered rfl [] ?_
  refine exists_makes_answered rfl ⟨200, .ok ['k']⟩ ?_
  refine exists_makes_answered rfl ⟨200, .ok Provider.googleOauth⟩ ?_
  refine exists_makes_answered rfl () ?_
  refine exists_makes_answered rfl [syncedResource ['b'] ['f'], syncedResource ['d'] ['g']] ?_
  refine exists_makes_answered rfl [(['c'], [['k']])] ?_
  refine exists_makes_answered rfl [(['k'], Provider.googleOauth)] ?_
  refine exists_makes_answered rfl
    (some ⟨some ['u'], .ok (some [(['c'], [(['k'], ['p'])])])⟩) ?_
  refine exists_makes_answered rfl [(['c'], [['k']])] ?_
  refine exists_makes_answered rfl ⟨200, .ok ⟨some [some ['f']]⟩⟩ ?_
  refine exists_makes_answered rfl [] ?_
  refine exists_makes_answered rfl () ?_
  exact ⟨_, .here⟩

theorem innerRag_restricted_hybrid : ∃ history : History Empty Bool Unit,
    RestrictedTo idMeaning
      (some { field := some (.or [.leaf (.resource ['a']), .leaf (.resource ['b'])]) })
      (Admitted hybridAgent history ['s']) := by
  obtain ⟨history, h⟩ := exists_makes_hybrid
  exact ⟨history, innerRag_restricted h idMeaning _ List.mem_cons_self⟩

/-- What is asked of a source about the resources of a title. -/
structure AskedByTitle (agent : Agent O P) (history : History O P M) (question : List Char)
    (r : Id × AskRequest O P) (resourceIds : List Id) : Prop where
  nonempty : resourceIds ≠ []
  admitted : ∀ id ∈ resourceIds, Admitted agent history r.1 id
  request : nucliadbQuery agent r.1 question (onlyResource resourceIds) = .ok r.2

theorem keeps_searchByTitle {asks : History O P M → List (Id × AskRequest O P) → Prop}
    {past : History O P M} : Keeps (Guarded agent asks) (fun past' resources =>
        ∀ e ∈ resources, ∀ id ∈ e.2, Admitted agent past' e.1 id) past
      (searchByTitle agent title : Prog O P M (List (Id × List Id))) := by
  rw [searchByTitle]
  refine Keeps.ofExcept.bind fun past₁ catalogFilter _ _ => ?_
  refine Keeps.bind (Q := fun _ _ => True) (.foldlM trivial fun past₂ resources _ _ source _ => ?_)
    fun past₂ resources _ _ => ?_
  · refine Keeps.ofExcept.bind fun past₃ driver _ _ => ?_
    exact (keeps_await (by trivial)).bind fun _ _ _ _ => .pure trivial
  · refine (keeps_postFilterResourcesByConnection resources).bind fun past₃ filtered _ hsound => ?_
    refine .pure fun e he id hid => ?_
    obtain ⟨entry, hentry, rfl⟩ := List.mem_map.1 he
    obtain ⟨hentry, -⟩ := List.mem_filter.1 hentry
    obtain ⟨connection, hconnection, hid⟩ := List.mem_flatMap.1 hid
    exact hsound entry hentry connection hconnection id hid

theorem keeps_askByTitle :
    Keeps (Guarded agent fun past requests => ∀ r ∈ requests, ∃ ids,
        AskedByTitle agent past question r ids) (fun _ _ => True) []
      (askByTitle agent title question : Prog O P M Unit) := by
  rw [askByTitle]
  refine keeps_searchByTitle.bind fun past₁ resources _ hresources => ?_
  refine Keeps.bind (Q := fun _ _ => True) ((Keeps.ask fun r hr => ?_).conseq
    fun _ _ _ _ => trivial) fun past₂ _ _ _ => ?_
  · obtain ⟨x, hx, hr⟩ := List.mem_filterMap.1 hr
    obtain ⟨⟨source, ids⟩, he, rfl⟩ := List.mem_map.1 hx
    obtain ⟨he, hne⟩ := List.mem_filter.1 he
    dsimp only at hr
    rcases hquery : nucliadbQuery agent source question (onlyResource ids) with fault | request
    · rw [hquery] at hr
      cases hr
    · rw [hquery] at hr
      cases hr
      exact ⟨ids, by simpa using hne, hresources _ he, hquery⟩
  · exact Keeps.ofExcept.bind fun _ _ _ _ => .pure trivial

/-- A request about the resources of a title is restricted to one of them, or it has no other
    filters than the driver's. -/
theorem restricted_of_nucliadbQuery {request : AskRequest O P} {resourceIds : List Id}
    (h : nucliadbQuery agent source question (onlyResource resourceIds) = .ok request) :
    (∀ id, resourceIds = [id] → id ≠ [] → RestrictedTo m request.filterExpression (· = id)) ∧
      (1 < resourceIds.length → ∃ driver, getNdbDriver agent source = .ok driver ∧
        (buildFilterExpression agent.table agent.lower [] source [] driver.toDriverConfig {}).2 =
          .ok request.filterExpression) := by
  rw [nucliadbQuery, Crash.bind_eq_ok] at h
  obtain ⟨driver, hdriver, h⟩ := h
  obtain ⟨built, hbuilt, h⟩ := Crash.bind_eq_ok.1 h
  rw [Crash.mapError_eq_ok] at hbuilt
  cases h
  refine ⟨?_, fun hlength => ⟨driver, hdriver, ?_⟩⟩
  · rintro id rfl hid
    refine restrictedTo_of_filterExpression hbuilt ?_
    simp [onlyResource, hid]
  · obtain ⟨a, b, rest, rfl⟩ : ∃ a b rest, resourceIds = a :: b :: rest := by
      rcases resourceIds with _ | ⟨a, _ | ⟨b, rest⟩⟩
      · simp at hlength
      · simp at hlength
      · exact ⟨a, b, rest, rfl⟩
    exact hbuilt

/-- The resources of a title that a question is asked about are public or validated. If it is one
    only, the request is restricted to it, and else to nothing but what the driver is. -/
theorem askByTitle_requests (h : (askByTitle agent title question).Makes history (.ask requests))
    (m : Meaning O P Field Paragraph) : ∀ r ∈ requests, ∃ resourceIds, resourceIds ≠ [] ∧
      (∀ id ∈ resourceIds, Admitted agent history r.1 id) ∧
      (∀ id, resourceIds = [id] → id ≠ [] → RestrictedTo m r.2.filterExpression (· = id)) ∧
      (1 < resourceIds.length → ∃ driver, getNdbDriver agent r.1 = .ok driver ∧
        (buildFilterExpression agent.table agent.lower [] r.1 [] driver.toDriverConfig {}).2 =
          .ok r.2.filterExpression) := by
  intro r hr
  obtain ⟨resourceIds, hasked⟩ := keeps_askByTitle.makes h r hr
  exact ⟨resourceIds, hasked.nonempty, hasked.admitted, restricted_of_nucliadbQuery hasked.request⟩

/-- The question is about everything in the source, as there are two resources of the title. -/
theorem exists_makes_two : ∃ history : History Empty Bool Unit,
    (askByTitle hybridAgent [] []).Makes history (.ask [(['s'], {
      query := []
      generativeModel := []
      filterExpression := none
      ragStrategies := [.fullResource 1] })]) := by
  refine exists_makes_answered rfl [['a'], ['b']] ?_
  refine exists_makes_answered rfl [{ id := ['a'] }, { id := ['b'] }] ?_
  exact ⟨_, .here⟩

theorem askByTitle_requests_two : ∃ history : History Empty Bool Unit, ∃ resourceIds,
    resourceIds ≠ [] ∧ ∀ id ∈ resourceIds, Admitted hybridAgent history ['s'] id := by
  obtain ⟨history, h⟩ := exists_makes_two
  obtain ⟨resourceIds, hne, hadmitted, -⟩ := askByTitle_requests h idMeaning _ List.mem_cons_self
  exact ⟨history, resourceIds, hne, hadmitted⟩

/-- What the agent runs. -/
inductive Runs (agent : Agent O P) : Prog O P M Unit → Prop
  | innerRag (source : Id) (question : List Char) (keywordFilters : List (List Char))
      (andFilters orFilters : Option (List (List Char))) (fullResource : Bool) :
      Runs agent (innerRag agent source question keywordFilters andFilters orFilters fullResource)
  | innerAskByTitle (source : Id) (question : List Char) (resourceIds : List Id) :
      Runs agent (innerAskByTitle agent source question resourceIds)
  | askByTitle (title question : List Char) : Runs agent (askByTitle agent title question)
  | searchImagesByTitle (title question : List Char) :
      Runs agent (searchImagesByTitle agent title question)

/-- Resources are sent to be validated only by the sync configuration that they name, which may be
    used, and only with a credential of the user for it. -/
theorem validations_named {p : Prog O P M Unit} (hp : Runs agent p)
    {resources : List (SyncMetadata M)} {credential : Credential}
    (h : p.Makes history (.validateResources source c resources credential)) :
    MayValidate agent history source c resources credential := by
  have hask : ∀ past requests, Guarded agent (fun _ _ => True) past
    (Call.ask requests : Call O P M) := fun _ _ => trivial
  suffices hkeeps : Keeps (Guarded agent fun _ _ => True) (fun _ _ => True) [] p from
    hkeeps.makes h
  cases hp with
  | innerRag source question =>
    rw [innerRag]
    refine (keeps_retrieveValid question _).bind fun past₁ resourceIds _ _ => ?_
    refine Keeps.ofExcept.bind fun past₂ driver _ _ => ?_
    refine (keeps_filterExpression driver _).bind fun past₃ built _ _ => ?_
    exact (Keeps.ask (hask _ _)).conseq fun _ _ _ _ => trivial
  | innerAskByTitle source question resourceIds =>
    rw [innerAskByTitle]
    refine Keeps.bind (Q := fun _ _ => True) ?_ fun past₁ resourceIds _ _ => ?_
    · rw [resourcesToAsk]
      split
      · exact (keeps_retrieveValid question _).conseq fun _ _ _ _ => trivial
      · exact .pure trivial
    · refine Keeps.ofExcept.bind fun past₂ request _ _ => ?_
      exact (Keeps.ask (hask _ _)).conseq fun _ _ _ _ => trivial
  | askByTitle title question | searchImagesByTitle title question =>
    refine keeps_askByTitle.imp (fun past call _ h => ?_) fun _ _ _ _ => trivial
    cases call <;> trivial

/-- An agent for a source with a sync configuration. -/
def configuredAgent : Agent Empty Bool :=
  { hybridAgent with drivers := [(['s'], { connectionIds := [['c']] })] }

/-- The user gives the credential when asked for it. -/
theorem exists_makes_validation : ∃ history : History Empty Bool Unit,
    (innerRag configuredAgent ['s'] [] [] none none true).Makes history
      (.validateResources ['s'] ['c'] [⟨['f'], ()⟩] ['p']) := by
  refine exists_makes_answered rfl [] ?_
  refine exists_makes_answered rfl () ?_
  refine exists_makes_answered rfl [['b']] ?_
  refine exists_makes_answered rfl [syncedResource ['b'] ['f']] ?_
  refine exists_makes_answered rfl [(['c'], [['k']])] ?_
  refine exists_makes_answered rfl [(['k'], Provider.googleOauth)] ?_
  refine exists_makes_answered rfl (some ⟨some ['u'], .ok none⟩) ?_
  refine exists_makes_answered rfl [(['c'], [['k']])] ?_
  refine exists_makes_answered rfl ⟨200, .ok ['w']⟩ ?_
  refine exists_makes_answered rfl () ?_
  refine exists_makes_answered rfl (some ['p']) ?_
  refine exists_makes_answered rfl [(['c'], [['k']])] ?_
  refine exists_makes_answered rfl (some ⟨some ['u'], .ok none⟩) ?_
  refine exists_makes_answered rfl [(['c'], [['k']])] ?_
  exact ⟨_, .here⟩

theorem validations_named_configured : ∃ history : History Empty Bool Unit,
    MayValidate configuredAgent history ['s'] ['c'] [⟨['f'], ()⟩] ['p'] := by
  obtain ⟨history, h⟩ := exists_makes_validation
  exact ⟨history, validations_named (.innerRag _ _ _ _ _ _) h⟩

end

end Hyperforge.NucliaDB.Sync
