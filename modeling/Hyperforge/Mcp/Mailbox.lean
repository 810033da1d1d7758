import Hyperforge.Mcp.CallMarkers

/-!
# The mailboxes of replies

A request that a server sends has a mailbox under its wire id, which `pending` opens and
`acknowledge` or `finish` clears. A reply is stored in an open one that is empty. What
operations do to mailboxes (`MailStep`) is no more than that, so that a reply that is stored stays
until it is acknowledged or expires (`stays_of_run`), whatever others send, and what is returned
to a sender (`Answers`) and by a poll is what there is at that time.
-/

namespace Hyperforge.Mcp

open Concurrent Redis Keyspace Transition

variable {Params : Type} (V : Server Params)

/-- What there is in the mailbox of a wire id, if it is open. -/
def mailbox (s : Coordination) (sid : Uuid) (wireId : Text) : Option Text :=
  textAt s.redis (V.replyKey sid wireId)

/-- An operation that clears a mailbox. -/
def Clears (op : Op Params) (sid : Uuid) (wireId : Text) : Prop :=
  (∃ ids, op = .acknowledge sid ids ∧ wireId ∈ ids) ∨
    ∃ requestId token ids, op = .finish sid requestId token ids ∧ wireId ∈ ids

/-- What a step of an operation does to a mailbox. -/
inductive MailStep (op : Op Params) (sid : Uuid) (wireId : Text) (s s' : Coordination) : Prop
  | kept (h : (s'.redis.find (V.replyKey sid wireId)).map Entry.value =
      (s.redis.find (V.replyKey sid wireId)).map Entry.value)
  | opened (hop : op = .pending sid wireId) (h : mailbox V s sid wireId = none)
    (h' : mailbox V s' sid wireId = some [])
  | stored {body : Text} (hop : op = .reply sid wireId body)
    (h : mailbox V s sid wireId = some []) (h' : mailbox V s' sid wireId = some body)
  | cleared (hop : Clears op sid wireId) (h' : mailbox V s' sid wireId = none)

variable {V} {op : Op Params} {s s' : Coordination} {sid sid' : Uuid} {wireId wireId' : Text}
  {i : ℕ}

variable (V op) in
/-- The contract of an operation. -/
def mailContract : Contract Coordination where
  rely s s' := Evolves s.redis s'.redis
  guar s s' := Evolves s.redis s'.redis ∧ ∀ sid wireId, MailStep V op sid wireId s s'
  refl _ := .refl _
  trans := .trans

/-! ## Names -/

theorem replyKey_inj : V.replyKey sid wireId = V.replyKey sid' wireId' ↔
    sid = sid' ∧ wireId = wireId' := by
  refine ⟨fun h => ?_, fun ⟨h, h'⟩ => by rw [h, h']⟩
  rw [Server.replyKey, Server.replyKey, List.append_assoc, List.append_assoc] at h
  obtain ⟨hname, h⟩ := List.append_inj h (by rw [length_name, length_name])
  exact ⟨name_injective V hname, List.append_cancel_left h⟩

/-- A key that is not that of a mailbox. -/
def Unmailed (V : Server Params) (k : Text) : Prop := ∀ sid wireId, k ≠ V.replyKey sid wireId

theorem unmailed_of_not_forCalls {k : Text} (h : ¬ForCalls V k) : Unmailed V k := by
  rintro sid wireId rfl
  exact h (forCalls_replyKey V sid wireId)

theorem unmailed_name (sid : Uuid) : Unmailed V (V.name sid) :=
  unmailed_of_not_forCalls (not_forCalls_name V sid)

theorem unmailed_registry : Unmailed V V.registry :=
  unmailed_of_not_forCalls (not_forCalls_registry V)

theorem unmailed_callKey (sid : Uuid) (requestId : RequestId) :
    Unmailed V (V.callKey sid requestId) :=
  fun sid' wireId => callKey_ne_replyKey sid sid' requestId wireId

/-! ## Operations -/

section Operations

/-- Commands on one mailbox. -/
theorem guar_of_mailStep {S : Keyspace Text Text}
    (hS : Changes (· = V.replyKey sid wireId) s.redis S)
    (h : MailStep V op sid wireId s { s with redis := S }) :
    (mailContract V op).guar s { s with redis := S } ∧ True := by
  refine ⟨⟨hS.evolves, fun sid' wireId' => ?_⟩, trivial⟩
  by_cases hkey : V.replyKey sid' wireId' = V.replyKey sid wireId
  · obtain ⟨rfl, rfl⟩ := replyKey_inj.1 hkey
    exact h
  · exact .kept (by rw [hS.find hkey])

variable (V op) in
theorem framed_mailboxes (i : ℕ) :
    Framed (fun _ => True) (mailContract V op) (Unmailed V) i where
  refl s := ⟨.refl _, fun _ _ => .kept rfl⟩
  evolves _ _ h := h
  changes s S _ h := ⟨⟨h.evolves, fun sid wireId =>
    .kept (by rw [h.find fun hk => hk sid wireId rfl])⟩, trivial⟩
  draws s u _ _ := ⟨⟨.refl _, fun _ _ => .kept rfl⟩, trivial⟩

theorem mailbox_of_find {e : Entry Text} (h : s.redis.find (V.replyKey sid wireId) = some e) :
    mailbox V s sid wireId = textOf e := by
  rw [mailbox, textAt, h]
  rfl

theorem mailbox_of_find_none (h : s.redis.find (V.replyKey sid wireId) = none) :
    mailbox V s sid wireId = none := by
  rw [mailbox, textAt, h]
  rfl

theorem respects_pending (hop : op = .pending sid wireId) :
    Respects (fun _ => True) (mailContract V op) (pending V sid wireId) := by
  refine .bind (respects_redis fun s added S _ h => ?_) fun added => ?_
  · refine guar_of_mailStep (within_setNx (K := (· = V.replyKey sid wireId)) _ _ rfl _ _ _ h) ?_
    cases added with
    | false =>
      rw [setNx] at h
      split_ifs at h <;> cases h
      exact .kept rfl
    | true =>
      obtain ⟨hnone, hsome⟩ := find_setNx V.ttl_pos h
      refine .opened hop (mailbox_of_find_none hnone) ?_
      rw [mailbox, textAt, hsome]
      rfl
  · split_ifs <;> exact respects_pure _

/-- What a reply makes of a mailbox. -/
theorem respects_reply {body : Text} (hop : op = .reply sid wireId body) :
    Respects (fun _ => True) (mailContract V op) (reply V sid wireId body) := by
  refine .bind ((framed_mailboxes V _ 0).change_of fun s v S _ hget hv hwrite => ?_)
    fun previous => ?_
  · refine guar_of_mailStep
      (within_write (K := (· = V.replyKey sid wireId)) rfl _ _ _ hwrite) ?_
    have hmail : mailbox V s sid wireId = v := textAt_of_get hget
    split_ifs at hv hwrite with hopen
    · rw [hopen] at hmail
      obtain ⟨e, he, -⟩ := Option.bind_eq_some_iff.1 hmail
      refine .stored hop hmail ?_
      rw [mailbox, textAt, find_setKeepTtl he hwrite]
      rfl
    · exact absurd rfl hv
  · split_ifs <;> exact respects_pure _

/-- The keys that are deleted are gone. -/
theorem find_forM_del {names : List Text} {S S' : Keyspace Text Text} {k : Text}
    (h : (names.forM (del : Text → Command Text Text Unit)) S = some ((), S')) :
    S'.find k = if k ∈ names then none else S.find k := by
  induction names generalizing S with
  | nil =>
    cases h
    rfl
  | cons l names ih =>
    obtain ⟨_, S₁, hdel, h⟩ := bind_eq_some.1 h
    rw [ih h]
    rcases eq_or_ne k l with rfl | hne
    · rw [find_del hdel, if_pos List.mem_cons_self, ite_self]
    · have hS₁ := within_del (K := (· = l)) rfl _ _ _ hdel
      rw [hS₁.find hne]
      exact if_congr (by rw [List.mem_cons, or_iff_right hne]) rfl rfl

theorem respects_acknowledging (ids : List Text) (hop : ∀ wireId ∈ ids, Clears op sid wireId) :
    Respects (fun _ => True) (mailContract V op) (acknowledge V sid ids) := by
  rw [acknowledge]
  split_ifs
  · refine respects_redis fun s _ S _ h => ?_
    have hS := within_forM (K := fun _ => True) (fun _ _ => trivial) _ _ _ h
    refine ⟨⟨hS.evolves, fun sid' wireId => ?_⟩, trivial⟩
    have hfind : S.find (V.replyKey sid' wireId) = _ := find_forM_del h
    split_ifs at hfind with hmem
    · obtain ⟨wireId', hid, hkey⟩ := List.mem_map.1 hmem
      obtain ⟨rfl, rfl⟩ := replyKey_inj.1 hkey
      exact .cleared (hop _ hid) (mailbox_of_find_none hfind)
    · exact .kept (by rw [hfind])
  · exact respects_pure _

theorem respects_polling {requestId : RequestId} {token : Text} {wireIds : List Text} :
    Respects (fun _ => True) (mailContract V op) (poll V sid requestId token wireIds) := by
  refine .bind ((framed_mailboxes V _ 0).get V unmailed_name unmailed_registry sid)
    fun session => ?_
  cases session with
  | error e => exact respects_pure _
  | ok session =>
    refine .bind (respects_redis fun s values S _ h => ?_) fun values => respects_pure _
    obtain ⟨hevolves, hvalues⟩ := values_mapM h
    exact ⟨⟨hevolves, fun _ _ => .kept (hvalues _)⟩, trivial⟩

/-- Every operation does to mailboxes what it may. -/
theorem respects_program (i : ℕ) (op : Op Params) :
    Respects (fun _ => True) (mailContract V op) (program V i op) := by
  have hframed := framed_mailboxes V op i
  cases op with
  | sessionCount => exact hframed.sessionCount V unmailed_registry
  | create params => exact hframed.create V unmailed_name unmailed_registry params
  | get sid => exact hframed.get V unmailed_name unmailed_registry sid
  | ready sid => exact hframed.ready V unmailed_name unmailed_registry sid
  | delete sid =>
    refine hframed.delete fun k hk => ?_
    rw [List.mem_singleton.1 hk]
    exact unmailed_name sid
  | start sid requestId =>
    refine .bind hframed.uuid4 fun token => .bind (hframed.add V (unmailed_callKey _ _)) ?_
    intro added
    cases added <;> exact respects_pure _
  | cancel sid requestId =>
    exact .bind (hframed.change (unmailed_callKey _ _)) fun _ => respects_pure _
  | pending sid wireId => exact respects_pending rfl
  | reply sid wireId body => exact respects_reply rfl
  | poll sid requestId token wireIds => exact respects_polling
  | acknowledge sid ids => exact respects_acknowledging ids fun _ h => .inl ⟨ids, rfl, h⟩
  | finish sid requestId token wireIds =>
    exact .bind (hframed.change (unmailed_callKey _ _)) fun _ =>
      respects_acknowledging wireIds fun _ h => .inr ⟨requestId, token, wireIds, rfl, h⟩

end Operations

/-! ## Steps -/

variable (V) in
theorem mailboxes_sound : Pool.Sound (program V) tick Initial (fun _ => True)
    (fun _ op => mailContract V op) fun _ _ _ _ => True where
  init _ _ := trivial
  environment s d s' _ h := by
    cases h
    exact ⟨trivial, fun _ _ => evolves_tick s.redis d⟩
  compatible _ _ _ _ _ _ _ h := h.1
  ensures i op := respects_program i op

variable {S S' T : Workers Params} {l : Label Uuid (Op Params) ℕ}
  {ls : List (Label Uuid (Op Params) ℕ)}

/-- What takes a reply away: it expires, or an operation clears the mailbox. -/
def Takes (S : Workers Params) (sid : Uuid) (wireId : Text) :
    Label Uuid (Op Params) ℕ → Prop
  | .environment _ => True
  | .act i _ => ∃ t, S.tasks i = some t ∧ Clears t.op sid wireId
  | .start _ _ => False

/-- A reply that is stored stays, unless it is taken away. -/
theorem stays_of_step {body : Text} (hS : (sessionStore V).Reachable S)
    (h : (sessionStore V).step S l S') (hbody : body ≠ [])
    (hmail : mailbox V S.shared sid wireId = some body) :
    mailbox V S'.shared sid wireId = some body ∨
      mailbox V S'.shared sid wireId = none ∧ Takes S sid wireId l := by
  cases Pool.step_cases h with
  | start i op hi => exact .inl hmail
  | act i c t s p hi hp =>
    have hguar := (Pool.reachable_safe (mailboxes_sound V) hS).guar hi hp
    cases hguar.2 sid wireId with
    | kept hvalue => exact .inl ((textAt_congr hvalue).trans hmail)
    | opened hop hnone =>
      rw [hmail] at hnone
      cases hnone
    | stored hop hopen =>
      rw [hmail] at hopen
      exact absurd (Option.some.inj hopen) hbody
    | cleared hop hnone => exact .inr ⟨hnone, t, hi, hop⟩
  | environment d s hs =>
    cases hs
    rcases hfind : (S.shared.redis.tick d).find (V.replyKey sid wireId) with _ | e
    · exact .inr ⟨mailbox_of_find_none hfind, trivial⟩
    · left
      rw [← hmail, mailbox_of_find ((evolves_tick _ _).find rfl hfind)]
      exact mailbox_of_find hfind

/-! ## Replies -/

/-- What the sender of a body is told of what is in a mailbox. -/
def answer (body : Text) : Option Text → Except Failure Bool
  | none => .ok false
  | some held =>
    if held = [] ∨ held = body then .ok true
    else .error (.http 409 "MCP request already has a different response")

/-- What is in the mailbox then. -/
def delivered (body : Text) (held : Option Text) : Option Text :=
  if held = some [] then some body else held

/-- What is left of a reply: the change of a mailbox, and then the answer. -/
def Replying (V : Server Params) : (op : Op Params) → Operation op.Result → Prop
  | .reply sid wireId body, p =>
    (∃ k, (∀ v, k v = .pure (answer body v)) ∧ Changing (V.replyKey sid wireId)
      (fun value => if value = some [] then some body else value) k p) ∨ ∃ r, p = .pure r
  | _, _ => True

theorem replying_program (i : ℕ) (op : Op Params) : Replying V op (program V i op) := by
  cases op with
  | reply sid wireId body =>
    refine .inl ⟨_, fun v => ?_, .turn⟩
    rcases v with _ | held
    · rfl
    · have hmem : some held ∈ [none, some [], some body] ↔ held = [] ∨ held = body := by simp
      by_cases h : held = [] ∨ held = body
      · rw [answer, if_pos h]
        exact if_neg (not_not.2 (hmem.2 h))
      · rw [answer, if_neg h]
        exact if_pos (mt hmem.1 h)
  | _ => trivial

theorem replying_step {op : Op Params} {p q : Operation op.Result} {c : Uuid}
    (hp : Replying V op p) (h : p.step s c = some (s', q)) : Replying V op q := by
  cases op with
  | reply sid wireId body =>
    rcases hp with ⟨k, hk, hp⟩ | ⟨r, rfl⟩
    · rcases hp.step h with hq | ⟨v, rfl, _⟩
      · exact .inl ⟨k, hk, hq⟩
      · exact .inr ⟨_, hk v⟩
    · cases h
  | _ => trivial

/-- What is written is what there is. -/
theorem textAt_setKeepTtl {S S' : Keyspace Text Text} {k v : Text}
    (h : setKeepTtl k v S = some ((), S')) : textAt S' k = some v := by
  cases hfind : S.find k with
  | none =>
    cases h
    rw [textAt, find_put, if_pos rfl, hfind]
    rfl
  | some e =>
    rw [textAt, find_setKeepTtl hfind h]
    rfl

/-- The last step of a reply. -/
theorem answer_of_change {body : Text} {v : Option Text} (hbody : body ≠ [])
    (hstep : MailStep V (.reply sid wireId body) sid wireId s s')
    (h : (if v = some [] then some body else v) = v ∧ s' = s ∧
        Redis.get (V.replyKey sid wireId) s.redis = some (v, s.redis) ∨
      (if v = some [] then some body else v) ≠ v ∧
        write (V.replyKey sid wireId) (if v = some [] then some body else v) s.redis =
          some ((), s'.redis)) :
    answer body v = answer body (mailbox V s sid wireId) ∧
      mailbox V s' sid wireId = delivered body (mailbox V s sid wireId) := by
  rcases h with ⟨hv, rfl, hget⟩ | ⟨hv, hwrite⟩
  · -- the value that has been read stays
    have hmail : mailbox V s' sid wireId = v := textAt_of_get hget
    rw [hmail, delivered, hv]
    exact ⟨rfl, rfl⟩
  · split_ifs at hv hwrite with hopen
    · have hmail' : mailbox V s' sid wireId = some body := textAt_setKeepTtl hwrite
      have hmail : mailbox V s sid wireId = some [] ∨ mailbox V s sid wireId = some body := by
        cases hstep with
        | kept hvalue => exact .inr ((textAt_congr hvalue).symm.trans hmail')
        | opened hop => cases hop
        | stored hop hempty => exact .inl hempty
        | cleared hop => rcases hop with ⟨_, hop, _⟩ | ⟨_, _, _, hop, _⟩ <;> cases hop
      rw [hopen, hmail']
      rcases hmail with hmail | hmail
      · rw [hmail]
        exact ⟨rfl, rfl⟩
      · rw [hmail, delivered, if_neg (by simpa using hbody)]
        exact ⟨by rw [answer, answer, if_pos (.inl rfl), if_pos (.inr rfl)], rfl⟩
    · exact absurd rfl hv

/-- A reply stores nothing but in an open mailbox that is empty. -/
theorem mailbox_of_reply {body : Text} {c : Uuid} {p : Operation (Except Failure Bool)}
    (hS : (sessionStore V).Reachable S) (h : (sessionStore V).step S (.act i c) S')
    (hi : S.tasks i = some ⟨.reply sid wireId body, p⟩)
    (hmail : mailbox V S.shared sid wireId ≠ some []) :
    mailbox V S'.shared sid wireId = mailbox V S.shared sid wireId := by
  cases Pool.step_cases h with
  | act i c t s q hj hp =>
    have hguar := (Pool.reachable_safe (mailboxes_sound V) hS).guar hj hp
    cases hi.symm.trans hj
    cases hguar.2 sid wireId with
    | kept hvalue => exact textAt_congr hvalue
    | opened hop => cases hop
    | stored _ hempty => exact absurd hempty hmail
    | cleared hop => rcases hop with ⟨_, hop, _⟩ | ⟨_, _, _, hop, _⟩ <;> cases hop

/-- A sender is told what there is when the reply returns. -/
theorem answer_of_step {body : Text} {r : Except Failure Bool}
    (hS : (sessionStore V).Reachable S) (h : (sessionStore V).step S l S') (hbody : body ≠ [])
    (hi : ¬Returned S i (.reply sid wireId body) r)
    (hi' : Returned S' i (.reply sid wireId body) r) :
    r = answer body (mailbox V S.shared sid wireId) ∧
      mailbox V S'.shared sid wireId = delivered body (mailbox V S.shared sid wireId) := by
  cases Pool.step_cases h with
  | start j op hj =>
    unfold Returned at hi'
    dsimp only at hi'
    rcases eq_or_ne i j with rfl | hne
    · rw [Function.update_self] at hi'
      obtain ⟨rfl, h⟩ := Task.mk.inj (Option.some.inj hi')
      cases h
    · rw [Function.update_of_ne hne] at hi'
      exact absurd hi' hi
  | environment d s hs => exact absurd hi' hi
  | act j c t s p hj hp =>
    have hguar := (Pool.reachable_safe (mailboxes_sound V) hS).guar hj hp
    unfold Returned at hi'
    dsimp only at hi'
    rcases eq_or_ne i j with rfl | hne
    · obtain ⟨op, q⟩ := t
      rw [Function.update_self] at hi'
      cases hi'
      have hreplying := Pool.residual (P := fun _ => Replying V)
        (fun i op => replying_program i op) (fun _ _ _ _ _ _ _ => replying_step) hS hj
      rcases hreplying with ⟨k, hk, hq⟩ | ⟨r', rfl⟩
      · rcases hq.step hp with hq | ⟨v, hv, hchange⟩
        · exact absurd rfl (hq.ne_pure r)
        · rw [hk] at hv
          cases hv
          exact answer_of_change hbody (hguar.2 sid wireId) hchange
      · cases hp
    · rw [Function.update_of_ne hne] at hi'
      exact absurd hi' hi

/-! ## Runs -/

variable (V) in
/-- A reply is taken away in a run. -/
def Taken (S : Workers Params) (ls : List (Label Uuid (Op Params) ℕ)) (T : Workers Params)
    (sid : Uuid) (wireId body : Text) : Prop :=
  ∃ ls₁ l ls₂ U U', ls = ls₁ ++ l :: ls₂ ∧ (sessionStore V).Run S ls₁ U ∧
    (sessionStore V).step U l U' ∧ (sessionStore V).Run U' ls₂ T ∧
    mailbox V U.shared sid wireId = some body ∧ mailbox V U'.shared sid wireId = none ∧
    Takes U sid wireId l

theorem Taken.append {U : Workers Params} {ls' : List (Label Uuid (Op Params) ℕ)} {body : Text}
    (h : Taken V S ls T sid wireId body) (hT : (sessionStore V).Run T ls' U) :
    Taken V S (ls ++ ls') U sid wireId body := by
  obtain ⟨ls₁, l, ls₂, W, W', rfl, hW, hst, hW', h⟩ := h
  exact ⟨ls₁, l, ls₂ ++ ls', W, W', by simp, hW, hst, hW'.append hT, h⟩

/-- A reply that is stored stays until it is taken away. -/
theorem stays_of_run {body : Text} (hS : (sessionStore V).Reachable S)
    (hT : (sessionStore V).Run S ls T) (hbody : body ≠ [])
    (hmail : mailbox V S.shared sid wireId = some body) :
    mailbox V T.shared sid wireId = some body ∨ Taken V S ls T sid wireId body := by
  induction hT with
  | refl => exact .inl hmail
  | @snoc T T' ls l hT hst ih =>
    rcases ih with ih | ih
    · rcases stays_of_step (hS.run hT) hst hbody ih with hstays | ⟨hnone, htakes⟩
      · exact .inl hstays
      · exact .inr ⟨ls, l, [], T, T', rfl, hT, hst, .refl _, ih, hnone, htakes⟩
    · exact .inr (ih.append ((System.Run.refl _).snoc hst))

/-- What returns in a run returns while the reply is there, unless it is taken away. -/
theorem returns_of_run {body : Text} {op : Op Params} {r : op.Result}
    (hS : (sessionStore V).Reachable S) (hT : (sessionStore V).Run S ls T) (hbody : body ≠ [])
    (hmail : mailbox V S.shared sid wireId = some body) (hi : ¬Returned S i op r)
    (hi' : Returned T i op r) :
    (∃ U l U', (sessionStore V).Reachable U ∧ (sessionStore V).step U l U' ∧
      mailbox V U.shared sid wireId = some body ∧ ¬Returned U i op r ∧ Returned U' i op r) ∨
      Taken V S ls T sid wireId body := by
  obtain ⟨ls₁, l, ls₂, U, U', rfl, hU, hst, hT, hnot, hret⟩ :=
    hT.exists_step (P := fun T => Returned T i op r) hi hi'
  rcases stays_of_run hS hU hbody hmail with h | h
  · exact .inl ⟨U, l, U', hS.run hU, hst, h, hnot, hret⟩
  · exact .inr (h.append (((System.Run.refl _).snoc hst).append hT))

/-- A poll returns the reply that there is when it reads. -/
theorem mem_replies_of_step {body token : Text} {requestId : RequestId} {wireIds : List Text}
    {u : MCPUpdates} (hS : (sessionStore V).Reachable S) (h : (sessionStore V).step S l S')
    (hi : ¬Returned S i (.poll sid requestId token wireIds) (.ok u))
    (hi' : Returned S' i (.poll sid requestId token wireIds) (.ok u)) :
    (wireId, body) ∈ u.replies ↔
      wireId ∈ wireIds ∧ body ≠ [] ∧ mailbox V S.shared sid wireId = some body := by
  have hu := updates_of_step hS h hi hi'
  cases hu
  dsimp only
  rw [List.map_map, ← List.map_prod_left_eq_zip, List.filterMap_map, List.mem_filterMap]
  constructor
  · rintro ⟨wireId', hmem, hsome⟩
    dsimp only [Function.comp_apply] at hsome
    split at hsome
    · cases hsome
    · cases hsome
    · next id held hne heq =>
      cases hsome
      obtain ⟨rfl, hheld⟩ := Prod.mk.inj heq
      exact ⟨hmem, hne, hheld⟩
  · rintro ⟨hmem, hbody, hmail⟩
    refine ⟨wireId, hmem, ?_⟩
    dsimp only [Function.comp_apply]
    rw [show textAt S.shared.redis (V.replyKey sid wireId) = some body from hmail]
    cases body with
    | nil => exact absurd rfl hbody
    | cons c body => rfl

/-- In whatever order workers use the mailbox of a wire id: a reply that is stored stays until it
    is acknowledged or expires; a reply that returns stores its body if the mailbox is open and
    empty, and otherwise nothing, nor does any step of it, and its sender is told that
    there is no mailbox, that there is the same reply or that there is another; so the next sender
    succeeds, while a reply is there, if and only if its body is the same; and the polls
    that return while it is there return it. -/
theorem sessionStore_mailbox (V : Server Params) (S : Workers Params)
    (h : (sessionStore V).Reachable S) (sid : Uuid) (wireId body : Text) (hbody : body ≠ []) :
    (∀ ls T, mailbox V S.shared sid wireId = some body → (sessionStore V).Run S ls T →
      mailbox V T.shared sid wireId = some body ∨ Taken V S ls T sid wireId body) ∧
    (∀ l S' i r, (sessionStore V).step S l S' → ¬Returned S i (.reply sid wireId body) r →
      Returned S' i (.reply sid wireId body) r →
      r = answer body (mailbox V S.shared sid wireId) ∧
        mailbox V S'.shared sid wireId = delivered body (mailbox V S.shared sid wireId)) ∧
    (∀ i c S' p, (sessionStore V).step S (.act i c) S' →
      S.tasks i = some ⟨.reply sid wireId body, p⟩ → mailbox V S.shared sid wireId ≠ some [] →
      mailbox V S'.shared sid wireId = mailbox V S.shared sid wireId) ∧
    (∀ ls T i body' r, body' ≠ [] → mailbox V S.shared sid wireId = some body →
      (sessionStore V).Run S ls T → ¬Returned S i (.reply sid wireId body') r →
      Returned T i (.reply sid wireId body') r →
      (r = .ok true ↔ body' = body) ∧ (r = .error (.http 409
          "MCP request already has a different response") ↔ body' ≠ body) ∨
        Taken V S ls T sid wireId body) ∧
    ∀ ls T i requestId token wireIds u, mailbox V S.shared sid wireId = some body →
      (sessionStore V).Run S ls T → ¬Returned S i (.poll sid requestId token wireIds) (.ok u) →
      Returned T i (.poll sid requestId token wireIds) (.ok u) → wireId ∈ wireIds →
      (wireId, body) ∈ u.replies ∨ Taken V S ls T sid wireId body := by
  refine ⟨fun ls T hmail hT => stays_of_run h hT hbody hmail,
    fun l S' i r hst hi hi' => answer_of_step h hst hbody hi hi', ?_, ?_, ?_⟩
  · intro i c S' p hst hi hmail
    exact mailbox_of_reply h hst hi hmail
  · intro ls T i body' r hbody' hmail hT hi hi'
    rcases returns_of_run h hT hbody hmail hi hi' with ⟨U, l, U', hU, hst, hmail', hn, hr⟩ | ht
    · obtain ⟨rfl, -⟩ := answer_of_step hU hst hbody' hn hr
      left
      rw [hmail', answer]
      by_cases hsame : body' = body
      · rw [if_pos (.inr hsame.symm)]
        exact ⟨iff_of_true rfl hsame, iff_of_false nofun (not_not.2 hsame)⟩
      · rw [if_neg (not_or.2 ⟨hbody, Ne.symm hsame⟩)]
        exact ⟨iff_of_false nofun hsame, iff_of_true rfl hsame⟩
    · exact .inr ht
  · intro ls T i requestId token wireIds u hmail hT hi hi' hmem
    rcases returns_of_run h hT hbody hmail hi hi' with ⟨U, l, U', hU, hst, hmail', hn, hr⟩ | ht
    · exact .inl ((mem_replies_of_step hU hst hn hr).2 ⟨hmem, hbody, hmail'⟩)
    · exact .inr ht

/-- A mailbox has been opened, and a reply stored. -/
def answered : Workers Unit :=
  ([.start 0 (.pending zeroId "w".toList), .act 0 zeroId,
    .start 1 (.reply zeroId "w".toList "yes".toList), .act 1 zeroId, .act 1 zeroId, .act 1 zeroId,
    .act 1 zeroId].foldlM (Pool.step (program singleSession) tick)
      ⟨emptyStore, fun _ => none⟩).get (by decide +kernel)

theorem reachable_answered : (sessionStore singleSession).Reachable answered :=
  (reachable_emptyStore singleSession).run (Pool.run_replay _ _ _)

/-- The first reply stays, and the second is told of it. -/
theorem sessionStore_mailbox_answered :
    mailbox singleSession answered.shared zeroId "w".toList = some "yes".toList ∧
    (∀ ls T, (sessionStore singleSession).Run answered ls T →
      mailbox singleSession T.shared zeroId "w".toList = some "yes".toList ∨
        Taken singleSession answered ls T zeroId "w".toList "yes".toList) ∧
    ∃ T : Workers Unit, (sessionStore singleSession).Run answered
        [.start 2 (.reply zeroId "w".toList "no".toList), .act 2 zeroId, .act 2 zeroId,
          .act 2 zeroId] T ∧
      Returned T 2 (.reply zeroId "w".toList "no".toList)
        (.error (.http 409 "MCP request already has a different response")) := by
  have hmail : mailbox singleSession answered.shared zeroId "w".toList = some "yes".toList := by
    decide +kernel
  have hmailbox := sessionStore_mailbox singleSession answered reachable_answered zeroId
    "w".toList "yes".toList (by decide)
  refine ⟨hmail, fun ls T => hmailbox.1 ls T hmail, _, Pool.run_replay _ _ (by decide +kernel), ?_⟩
  exact Task.eq_of_decide (by decide +kernel)

end Hyperforge.Mcp
