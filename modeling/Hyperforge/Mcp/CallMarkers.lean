import Hyperforge.Mcp.Frames

/-!
# The markers of calls

A call of a session has a marker, which the operation `start` writes with a token of its own.
What operations do to markers (`MarkerStep`) is: they start one where there is none, mark the
one that is there as cancelled, or remove their own. So a token that is no longer a marker
never is again (`lost_of_run`), and each poll for it reports that the call is cancelled.

A cancellation names the request only. One that is under way when a call finishes may reach
the next call for the same request.
-/

namespace Hyperforge.Mcp

open Concurrent Redis Keyspace Transition

variable {Params : Type} (V : Server Params)

/-- The text of a key. -/
def textOf (e : Entry Text) : Option Text :=
  match e.value with
  | .string v => some v
  | .set _ => none

/-- The text that a key has. -/
def textAt (S : Keyspace Text Text) (k : Text) : Option Text := (S.find k).bind textOf

/-- The marker of the call for a request. -/
def marker (s : Coordination) (sid : Uuid) (requestId : RequestId) : Option Text :=
  textAt s.redis (V.callKey sid requestId)

/-- The marker is that of the token, cancelled or not. -/
def Owns (token : Text) (v : Option Text) : Prop :=
  v = some token ∨ v = some (cancelledMarker token)

/-- What a step of an operation does to the marker of a request. -/
inductive MarkerStep (i : ℕ) (op : Op Params) (sid : Uuid) (requestId : RequestId)
    (s s' : Coordination) : Prop
  | kept (h : s'.redis.find (V.callKey sid requestId) = s.redis.find (V.callKey sid requestId))
  | renewed {sid' : Uuid} {requestId' : RequestId} {token : Text} {wireIds : List Text}
    (hop : op = .poll sid' requestId' token wireIds)
    (h : (s'.redis.find (V.callKey sid requestId)).map Entry.value =
      (s.redis.find (V.callKey sid requestId)).map Entry.value)
  | started {sid' : Uuid} {requestId' : RequestId} {t : Uuid} (hop : op = .start sid' requestId')
    (ht : s.drawn t = some i) (h : marker V s sid requestId = none)
    (h' : marker V s' sid requestId = some t.hex)
  | cancelled {sid' : Uuid} {requestId' : RequestId} {t : Uuid}
    (hop : op = .cancel sid' requestId')
    (hkey : V.callKey sid' requestId' = V.callKey sid requestId)
    (h : marker V s sid requestId = some t.hex)
    (h' : marker V s' sid requestId = some (cancelledMarker t.hex))
  | finished {sid' : Uuid} {requestId' : RequestId} {token : Text} {wireIds : List Text}
    (hop : op = .finish sid' requestId' token wireIds)
    (h : Owns token (marker V s sid requestId))
    (h' : s'.redis.find (V.callKey sid requestId) = none)

/-- A marker that is there is that of a call, cancelled or not. -/
def Marked (s : Coordination) : Prop :=
  ∀ sid requestId e, s.redis.find (V.callKey sid requestId) = some e →
    ∃ t : Uuid, (s.drawn t).isSome ∧ Owns t.hex (textOf e)

/-- What operations rely on: identifiers stay drawn. -/
structure Later (s s' : Coordination) : Prop where
  evolves : Evolves s.redis s'.redis
  drawn : ∀ u j, s.drawn u = some j → s'.drawn u = some j

variable {V} {i : ℕ} {op : Op Params} {s s' : Coordination} {sid : Uuid} {requestId : RequestId}

theorem Later.refl (t : Coordination) : Later t t := ⟨.refl _, fun _ _ h => h⟩

variable (V i op) in
/-- The contract of the `i`-th operation. -/
def markerContract : Contract Coordination where
  rely := Later
  guar s s' := Later s s' ∧ ∀ sid requestId, MarkerStep V i op sid requestId s s'
  refl := Later.refl
  trans h h' := ⟨h.evolves.trans h'.evolves, fun u j hu => h'.drawn u j (h.drawn u j hu)⟩

theorem markerContract_refl (t : Coordination) : (markerContract V i op).guar t t :=
  ⟨.refl t, fun _ _ => .kept rfl⟩

/-! ## Tokens -/

theorem cancelledMarker_injective : Function.Injective cancelledMarker := by
  intro v w h
  unfold cancelledMarker at h
  exact List.append_cancel_left h

theorem length_cancelledMarker (token : Text) :
    (cancelledMarker token).length = token.length + 10 := by
  unfold cancelledMarker
  rw [List.length_append, Nat.add_comm]
  rfl

/-- A token is not one that is cancelled. -/
theorem hex_ne_cancelledMarker (t u : Uuid) : t.hex ≠ cancelledMarker u.hex := by
  intro h
  have hlength := congrArg List.length h
  rw [length_cancelledMarker, t.length_eq, u.length_eq] at hlength
  omega

/-- At most one token owns a marker. -/
theorem Owns.unique {t u : Uuid} {v : Option Text} (ht : Owns t.hex v) (hu : Owns u.hex v) :
    t = u := by
  rcases ht with rfl | rfl <;> rcases hu with h | h
  · exact hex_injective (Option.some.inj h)
  · exact absurd (Option.some.inj h) (hex_ne_cancelledMarker t u)
  · exact absurd (Option.some.inj h).symm (hex_ne_cancelledMarker u t)
  · exact hex_injective (cancelledMarker_injective (Option.some.inj h))

theorem callKey_ne_replyKey (sid sid' : Uuid) (requestId : RequestId) (wireId : Text) :
    V.callKey sid requestId ≠ V.replyKey sid' wireId := by
  intro h
  rw [Server.callKey, Server.replyKey, List.append_assoc, List.append_assoc] at h
  obtain ⟨-, h⟩ := List.append_inj h (by rw [length_name, length_name])
  cases h

/-! ## Steps -/

theorem marker_of_find {e : Entry Text} (h : s.redis.find (V.callKey sid requestId) = some e) :
    marker V s sid requestId = textOf e := by
  rw [marker, textAt, h]
  rfl

theorem marker_of_find_none (h : s.redis.find (V.callKey sid requestId) = none) :
    marker V s sid requestId = none := by
  rw [marker, textAt, h]
  rfl

theorem find_of_marker {v : Text} (h : marker V s sid requestId = some v) :
    ∃ e, s.redis.find (V.callKey sid requestId) = some e ∧ textOf e = some v :=
  Option.bind_eq_some_iff.1 h

theorem textOf_congr {e e' : Entry Text} (h : e.value = e'.value) : textOf e = textOf e' := by
  rw [textOf, textOf, h]

theorem textAt_congr {S S' : Keyspace Text Text} {k : Text}
    (h : (S'.find k).map Entry.value = (S.find k).map Entry.value) :
    textAt S' k = textAt S k := by
  rw [textAt, textAt]
  rcases hS : S.find k with _ | e <;> rw [hS] at h
  · rw [Option.map_eq_none_iff.1 h]
  · obtain ⟨e', he', hvalue⟩ := Option.map_eq_some_iff.1 h
    rw [he']
    exact textOf_congr hvalue

theorem Marked.owns (h : Marked V s) {v : Text} (hv : marker V s sid requestId = some v) :
    ∃ t : Uuid, (s.drawn t).isSome ∧ Owns t.hex (some v) := by
  obtain ⟨e, he, hev⟩ := find_of_marker hv
  rw [← hev]
  exact h sid requestId e he

/-- The steps of operations keep markers those of calls. -/
theorem Marked.step (h : Marked V s) (hlater : Later s s')
    (hstep : ∀ sid requestId, MarkerStep V i op sid requestId s s') : Marked V s' := by
  have hdrawn (t : Uuid) (ht : (s.drawn t).isSome) : (s'.drawn t).isSome := by
    obtain ⟨j, hj⟩ := Option.isSome_iff_exists.1 ht
    rw [hlater.drawn t j hj]
    rfl
  intro sid requestId e he
  cases hstep sid requestId with
  | kept hfind =>
    rw [hfind] at he
    exact (h sid requestId e he).imp fun t ht => ⟨hdrawn t ht.1, ht.2⟩
  | renewed hop hvalue =>
    rw [he, Option.map_some] at hvalue
    obtain ⟨e', he', hvalue⟩ := Option.map_eq_some_iff.1 hvalue.symm
    rw [← textOf_congr hvalue]
    exact (h sid requestId e' he').imp fun t ht => ⟨hdrawn t ht.1, ht.2⟩
  | @started sid' requestId' t hop ht hnone hmarker =>
    rw [marker_of_find he] at hmarker
    exact ⟨t, hdrawn t (by rw [ht]; rfl), .inl hmarker⟩
  | @cancelled sid' requestId' t hop hkey hmarker hmarker' =>
    rw [marker_of_find he] at hmarker'
    obtain ⟨u, hu, howns⟩ := h.owns hmarker
    cases howns.unique (.inl rfl)
    exact ⟨t, hdrawn t hu, .inr hmarker'⟩
  | finished hop howns hnone =>
    rw [hnone] at he
    cases he

/-- A key that is not one of markers. -/
def Unmarked (V : Server Params) (k : Text) : Prop := ∀ sid requestId, k ≠ V.callKey sid requestId

/-! ## Operations -/

section Operations

/-- A command keeps the contract if it does to markers what the operation may. -/
theorem guar_of_step {S : Keyspace Text Text} (hinv : Marked V s) (hevolves : Evolves s.redis S)
    (h : ∀ sid requestId, MarkerStep V i op sid requestId s { s with redis := S }) :
    (markerContract V i op).guar s { s with redis := S } ∧ Marked V { s with redis := S } :=
  have hlater : Later s { s with redis := S } := ⟨hevolves, fun _ _ h => h⟩
  ⟨⟨hlater, h⟩, hinv.step hlater h⟩

variable (i op) in
/-- An identifier is drawn by the operation. -/
theorem guar_of_drawn {u : Uuid} (hinv : Marked V s) (hu : s.drawn u = none) :
    (markerContract V i op).guar s { s with drawn := Function.update s.drawn u (some i) } ∧
      Marked V { s with drawn := Function.update s.drawn u (some i) } := by
  have hlater : Later s { s with drawn := Function.update s.drawn u (some i) } := by
    refine ⟨.refl _, fun v j hv => ?_⟩
    dsimp only
    rw [Function.update_of_ne, hv]
    rintro rfl
    rw [hu] at hv
    cases hv
  have hstep (sid : Uuid) (requestId : RequestId) : MarkerStep V i op sid requestId s
      { s with drawn := Function.update s.drawn u (some i) } := .kept rfl
  exact ⟨⟨hlater, hstep⟩, hinv.step hlater hstep⟩

/-- The contract is about markers. -/
theorem framed_markers : Framed (Marked V) (markerContract V i op) (Unmarked V) i where
  refl := markerContract_refl
  evolves _ _ h := h.evolves
  changes _ _ hinv h := guar_of_step hinv h.evolves fun sid requestId =>
    .kept (h.find fun hk => hk sid requestId rfl)
  draws _ _ := guar_of_drawn i op

theorem unmarked_of_not_forCalls {k : Text} (h : ¬ForCalls V k) : Unmarked V k := by
  rintro sid requestId rfl
  exact h (forCalls_callKey V sid requestId)

theorem unmarked_name (sid : Uuid) : Unmarked V (V.name sid) :=
  unmarked_of_not_forCalls (not_forCalls_name V sid)

theorem unmarked_registry : Unmarked V V.registry :=
  unmarked_of_not_forCalls (not_forCalls_registry V)

theorem unmarked_replyKey (sid : Uuid) (wireId : Text) : Unmarked V (V.replyKey sid wireId) :=
  fun sid' requestId h => callKey_ne_replyKey sid' sid requestId wireId h.symm

theorem ensures_uuid4 : Ensures (Marked V) (markerContract V i op) (fun _ => True) (uuid4 i)
    fun u s => s.drawn u = some i := by
  refine ensures_act stable_trivial (fun u s t hs h => h.drawn u i hs) ?_
  intro s u _ s' hinv _ h
  split at h
  · next hu =>
    cases h
    obtain ⟨hguar, hinv'⟩ := guar_of_drawn i op hinv hu
    exact ⟨hguar, hinv', Function.update_self ..⟩
  · cases h

theorem respects_acknowledge (sid : Uuid) (ids : List Text) :
    Respects (Marked V) (markerContract V i op) (acknowledge V sid ids) := by
  rw [acknowledge]
  split_ifs
  · refine framed_markers.delete fun k hk => ?_
    obtain ⟨wireId, -, rfl⟩ := List.mem_map.1 hk
    exact unmarked_replyKey sid wireId
  · exact respects_pure _

/-- The token that `start` returns is one that it has drawn. -/
theorem ensures_start {sid : Uuid} {requestId : RequestId} (hop : op = .start sid requestId) :
    Ensures (Marked V) (markerContract V i op) (fun _ => True) (start V i sid requestId)
      fun r s => ∀ t, r = .ok t → s.drawn t = some i := by
  refine ensures_bind ensures_uuid4 fun t => ?_
  have hstable : Stable (markerContract V i op) fun s => s.drawn t = some i :=
    fun s s' hs h => h.drawn t i hs
  refine ensures_bind (Q := fun _ s => s.drawn t = some i) ?_ fun added => ?_
  · refine ensures_bind (Q := fun _ s => s.drawn t = some i)
      (ensures_redis hstable (fun _ => hstable) fun s added S hinv ht h => ?_) fun added => ?_
    · have hS : Changes (· = V.callKey sid requestId) s.redis S :=
        within_setNx (K := (· = V.callKey sid requestId)) _ _ rfl _ _ _ h
      obtain ⟨hguar, hinv'⟩ : (markerContract V i op).guar s { s with redis := S } ∧
          Marked V { s with redis := S } :=
        guar_of_step hinv hS.evolves fun sid' requestId' => by
          by_cases hkey : V.callKey sid' requestId' = V.callKey sid requestId
          · cases added with
            | false =>
              rw [setNx] at h
              split_ifs at h
              · cases h
                exact .kept rfl
              · cases h
            | true =>
              obtain ⟨hnone, hsome⟩ := find_setNx V.ttl_pos h
              rw [← hkey] at hnone hsome
              refine .started hop ht (marker_of_find_none hnone) ?_
              rw [marker, textAt, hsome]
              rfl
          · exact .kept (hS.find hkey)
      exact ⟨hguar, hinv', ht⟩
    · split_ifs <;> exact ensures_pure hstable fun _ _ hs => hs
  · cases added with
    | error e => exact ensures_pure hstable fun _ _ _ _ h => by cases h
    | ok _ =>
      refine ensures_pure hstable fun s _ hs u hu => ?_
      cases hu
      exact hs

theorem textAt_of_get {S : Keyspace Text Text} {k : Text} {v : Option Text}
    (h : Redis.get k S = some (v, S)) : textAt S k = v := by
  rw [Redis.get] at h
  rw [textAt]
  split at h
  · next hk =>
    cases h
    rw [hk]
    rfl
  · next hk =>
    cases h
    rw [hk]
    rfl
  · cases h

/-- A change of a marker, from what it is to what the operation may make of it. -/
theorem respects_change_marker {sid : Uuid} {requestId : RequestId}
    {f : Option Text → Option Text}
    (h : ∀ s v S, Marked V s → textAt s.redis (V.callKey sid requestId) = v → f v ≠ v →
      write (V.callKey sid requestId) (f v) s.redis = some ((), S) →
      ∀ sid' requestId', V.callKey sid' requestId' = V.callKey sid requestId →
        MarkerStep V i op sid' requestId' s { s with redis := S }) :
    Respects (Marked V) (markerContract V i op) (change (V.callKey sid requestId) f) :=
  framed_markers.change_of fun s v S hinv hget hv hwrite => by
    have hS : Changes (· = V.callKey sid requestId) s.redis S :=
      within_write (K := (· = V.callKey sid requestId)) rfl _ _ _ hwrite
    refine guar_of_step hinv hS.evolves fun sid' requestId' => ?_
    by_cases hkey : V.callKey sid' requestId' = V.callKey sid requestId
    · exact h s v S hinv (textAt_of_get hget) hv hwrite sid' requestId' hkey
    · exact .kept (hS.find hkey)

theorem respects_cancel {sid : Uuid} {requestId : RequestId} (hop : op = .cancel sid requestId) :
    Respects (Marked V) (markerContract V i op) (cancel V sid requestId) := by
  refine .bind (respects_change_marker ?_) fun _ => respects_pure _
  intro s v S hinv hv hf hwrite sid' requestId' hkey
  rw [← hkey] at hv hwrite
  cases v with
  | none => exact absurd rfl hf
  | some v =>
    -- the marker is a token, as it is not one that has been cancelled
    dsimp only at hf hwrite
    split_ifs at hf hwrite with hcancel
    · obtain ⟨t, -, howns⟩ := hinv.owns hv
      rcases howns with h | h <;> cases h
      · obtain ⟨e, he, -⟩ := find_of_marker hv
        refine .cancelled hop hkey.symm hv ?_
        rw [marker, textAt, find_setKeepTtl he hwrite]
        rfl
      · exact absurd (List.prefix_append _ _) hcancel.2
    · exact absurd rfl hf

theorem respects_finish {sid : Uuid} {requestId : RequestId} {token : Text} {wireIds : List Text}
    (hop : op = .finish sid requestId token wireIds) :
    Respects (Marked V) (markerContract V i op) (finish V sid requestId token wireIds) := by
  refine .bind (respects_change_marker ?_) fun _ => respects_acknowledge sid wireIds
  intro s v S hinv hv hf hwrite sid' requestId' hkey
  rw [← hkey] at hv hwrite
  split_ifs at hf hwrite with howns
  · exact .finished hop (show Owns token (textAt _ _) from hv ▸ howns) (find_del hwrite)
  · exact absurd rfl hf

/-- Reading keys leaves their values. -/
theorem values_mapM {names : List Text} {S S' : Keyspace Text Text} {values : List (Option Text)}
    (h : (names.mapM fun k => (getex k V.ttl : Command Text Text (Option Text))) S =
      some (values, S')) :
    Evolves S S' ∧ ∀ k, (S'.find k).map Entry.value = (S.find k).map Entry.value := by
  induction names generalizing S S' values with
  | nil =>
    cases h
    exact ⟨.refl _, fun _ => rfl⟩
  | cons k names ih =>
    rw [List.mapM_cons] at h
    obtain ⟨v, S₁, hv, h⟩ := bind_eq_some.1 h
    obtain ⟨vs, S₂, hvs, h⟩ := bind_eq_some.1 h
    cases h
    obtain ⟨hevolves, hvalues⟩ := ih hvs
    have hS₁ := within_getex (K := fun _ => True) V.ttl trivial _ _ _ hv
    exact ⟨hS₁.evolves.trans hevolves, fun l => (hvalues l).trans (find_getex V.ttl_pos hv l)⟩

theorem respects_poll {sid : Uuid} {requestId : RequestId} {token : Text} {wireIds : List Text}
    (hop : op = .poll sid requestId token wireIds) :
    Respects (Marked V) (markerContract V i op) (poll V sid requestId token wireIds) := by
  refine .bind (framed_markers.get V unmarked_name unmarked_registry sid) fun session => ?_
  cases session with
  | error e => exact respects_pure _
  | ok session =>
    refine .bind (respects_redis fun s values S hinv h => ?_) fun values => respects_pure _
    obtain ⟨hevolves, hvalues⟩ := values_mapM h
    exact guar_of_step hinv hevolves fun _ _ => .renewed hop (hvalues _)

/-- What is left true by an operation: `start` returns a token that it has drawn. -/
def Drew (i : ℕ) : (op : Op Params) → op.Result → Coordination → Prop
  | .start _ _, r, s => ∀ t, r = .ok t → s.drawn t = some i
  | _, _, _ => True

/-- Every operation does to markers what it may. -/
theorem ensures_program (i : ℕ) (op : Op Params) : Ensures (Marked V) (markerContract V i op)
    (fun _ => True) (program V i op) (Drew i op) := by
  cases op with
  | sessionCount => exact framed_markers.sessionCount V unmarked_registry
  | create params => exact framed_markers.create V unmarked_name unmarked_registry params
  | get sid => exact framed_markers.get V unmarked_name unmarked_registry sid
  | ready sid => exact framed_markers.ready V unmarked_name unmarked_registry sid
  | delete sid =>
    refine framed_markers.delete fun k hk => ?_
    rw [List.mem_singleton.1 hk]
    exact unmarked_name sid
  | start sid requestId => exact ensures_start rfl
  | cancel sid requestId => exact respects_cancel rfl
  | pending sid wireId => exact framed_markers.add V (unmarked_replyKey sid wireId)
  | reply sid wireId body =>
    refine Respects.bind (framed_markers.change (unmarked_replyKey sid wireId)) fun previous => ?_
    split_ifs <;> exact respects_pure _
  | poll sid requestId token wireIds => exact respects_poll rfl
  | acknowledge sid ids => exact respects_acknowledge sid ids
  | finish sid requestId token wireIds => exact respects_finish rfl

end Operations

/-! ## Runs -/

variable (V) in
theorem markers_sound : Pool.Sound (program V) tick Initial (Marked V)
    (fun i op => markerContract V i op) Drew where
  init s hs sid requestId e he := by
    rw [Keyspace.find, (hs.1 _).1] at he
    cases he
  environment s d s' hinv h := by
    cases h
    have hevolves := evolves_tick s.redis d
    exact ⟨fun sid requestId e he => hinv sid requestId e (hevolves.find rfl he),
      fun _ _ => ⟨hevolves, fun _ _ h => h⟩⟩
  compatible _ _ _ _ _ _ _ h := h.1
  ensures i op := ensures_program i op

abbrev Workers (Params : Type) := Pool Coordination Uuid (Op Params) Op.Result

variable {S S' T : Workers Params} {l : Label Uuid (Op Params) ℕ}
  {ls : List (Label Uuid (Op Params) ℕ)}

/-- What a step does to the marker of a request. -/
theorem marker_of_step (hS : (sessionStore V).Reachable S) (h : (sessionStore V).step S l S')
    (sid : Uuid) (requestId : RequestId) :
    marker V S'.shared sid requestId = marker V S.shared sid requestId ∨
      marker V S'.shared sid requestId = none ∨
      ∃ i c t r, S.tasks i = some t ∧ t.program.step S.shared c = some r ∧
        MarkerStep V i t.op sid requestId S.shared S'.shared := by
  cases Pool.step_cases h with
  | start i op hi => exact .inl rfl
  | act i c t s p hi hp =>
    have hguar := (Pool.reachable_safe (markers_sound V) hS).guar hi hp
    exact .inr (.inr ⟨i, c, t, _, hi, hp, hguar.2 sid requestId⟩)
  | environment d s hs =>
    cases hs
    rcases hfind : (S.shared.redis.tick d).find (V.callKey sid requestId) with _ | e
    · exact .inr (.inl (marker_of_find_none hfind))
    · left
      rw [marker_of_find hfind, marker_of_find ((evolves_tick _ _).find rfl hfind)]

/-- An operation that is done. -/
def Returned (S : Workers Params) (i : ℕ) (op : Op Params) (r : op.Result) : Prop :=
  S.tasks i = some ⟨op, .pure r⟩

theorem Returned.step {i : ℕ} {op : Op Params} {r : op.Result} (h : Returned S i op r)
    (hst : (sessionStore V).step S l S') : Returned S' i op r := Pool.done_of_step h hst

/-- A token that has been returned by `start`, and is no longer the marker of its request, never
    is again. -/
theorem lost_of_step {j : ℕ} {sid sid' : Uuid} {requestId requestId' : RequestId} {t : Uuid}
    (hS : (sessionStore V).Reachable S) (h : (sessionStore V).step S l S')
    (ht : Returned S j (.start sid' requestId') (.ok t))
    (hlost : marker V S.shared sid requestId ≠ some t.hex) :
    marker V S'.shared sid requestId ≠ some t.hex := by
  intro hmarker
  rcases marker_of_step hS h sid requestId with heq | hnone | ⟨i, c, t', r, hi, hp, hstep⟩
  · exact hlost (heq ▸ hmarker)
  · rw [hnone] at hmarker
    cases hmarker
  · have hsafe := Pool.reachable_safe (markers_sound V) hS
    cases hstep with
    | kept hfind => exact hlost (by rw [← hmarker, marker, marker, textAt, textAt, hfind])
    | renewed hop hvalue => exact hlost (by rw [← hmarker, marker, marker, textAt_congr hvalue])
    | started hop hdrawn hnone hsome =>
      -- the operation that has drawn the token is done
      rw [hmarker] at hsome
      cases hex_injective (Option.some.inj hsome)
      have hj : S.shared.drawn t = some j := hsafe.holds ht t rfl
      rw [hdrawn] at hj
      cases hj
      have htask := hi.symm.trans ht
      cases htask
      cases hp
    | cancelled hop hkey hsome hcancelled =>
      rw [hmarker] at hcancelled
      exact hex_ne_cancelledMarker _ _ (Option.some.inj hcancelled)
    | finished hop howns hnone =>
      rw [marker_of_find_none hnone] at hmarker
      cases hmarker

/-- A marker is cancelled by an operation `cancel` for its request that is under way. -/
theorem cancel_of_step {sid : Uuid} {requestId : RequestId} {t : Uuid}
    (hS : (sessionStore V).Reachable S) (h : (sessionStore V).step S l S')
    (hnot : marker V S.shared sid requestId ≠ some (cancelledMarker t.hex))
    (hmarker : marker V S'.shared sid requestId = some (cancelledMarker t.hex)) :
    ∃ i sid' requestId' p, S.tasks i = some ⟨.cancel sid' requestId', p⟩ ∧
      ¬Returned S i (.cancel sid' requestId') () ∧
      V.callKey sid' requestId' = V.callKey sid requestId := by
  rcases marker_of_step hS h sid requestId with heq | hnone | ⟨i, c, ⟨op, p⟩, r, hi, hp, hstep⟩
  · exact absurd (heq ▸ hmarker) hnot
  · rw [hnone] at hmarker
    cases hmarker
  · cases hstep with
    | kept hfind =>
      exact absurd (by rw [← hmarker, marker, marker, textAt, textAt, hfind]) hnot
    | renewed hop hvalue =>
      exact absurd (by rw [← hmarker, marker, marker, textAt_congr hvalue]) hnot
    | started hop hdrawn hnone hsome =>
      rw [hmarker] at hsome
      exact absurd (Option.some.inj hsome).symm (hex_ne_cancelledMarker _ _)
    | @cancelled sid' requestId' u hop hkey hsome hcancelled =>
      dsimp only at hop
      subst hop
      refine ⟨i, sid', requestId', p, hi, fun hdone => ?_, hkey⟩
      cases hi.symm.trans hdone
      cases hp
    | finished hop howns hnone =>
      rw [marker_of_find_none hnone] at hmarker
      cases hmarker

/-- The operation `finish` of another call leaves a marker as it is. -/
theorem find_of_finish {i : ℕ} {c t u : Uuid} {sid sid' : Uuid} {requestId requestId' : RequestId}
    {wireIds : List Text} {p : Operation Unit} (hS : (sessionStore V).Reachable S)
    (h : (sessionStore V).step S (.act i c) S')
    (hi : S.tasks i = some ⟨.finish sid' requestId' u.hex wireIds, p⟩)
    (ht : Owns t.hex (marker V S.shared sid requestId)) (hne : t ≠ u) :
    S'.shared.redis.find (V.callKey sid requestId) =
      S.shared.redis.find (V.callKey sid requestId) := by
  have hstep : MarkerStep V i (.finish sid' requestId' u.hex wireIds) sid requestId S.shared
      S'.shared := by
    cases Pool.step_cases h with
    | act _ _ t s q hj hp =>
      cases hi.symm.trans hj
      exact ((Pool.reachable_safe (markers_sound V) hS).guar hi hp).2 sid requestId
  cases hstep with
  | kept hfind => exact hfind
  | finished hop howns hnone =>
    cases hop
    exact absurd (ht.unique howns) hne
  | renewed hop | started hop | cancelled hop => cases hop

/-! ## Polls -/

/-- What is left of a poll: all of it, what comes after the session has been used, or nothing. -/
def Polling (V : Server Params) : (op : Op Params) → Operation op.Result → Prop
  | .poll sid requestId token wireIds, p =>
    p = poll V sid requestId token wireIds ∨
      p = (do
        let values ← read V (V.callKey sid requestId :: wireIds.map (V.replyKey sid))
        return updates token wireIds values) ∨
      ∃ r, p = .pure r
  | _, _ => True

theorem polling_program (i : ℕ) (op : Op Params) : Polling V op (program V i op) := by
  cases op with
  | poll sid requestId token wireIds => exact .inl rfl
  | _ => trivial

theorem polling_step {op : Op Params} {p q : Operation op.Result} {c : Uuid}
    (hp : Polling V op p) (h : p.step s c = some (s', q)) : Polling V op q := by
  cases op with
  | poll sid requestId token wireIds =>
    rcases hp with rfl | rfl | ⟨r, rfl⟩
    · obtain ⟨⟨value, S⟩, -, h⟩ := Option.map_eq_some_iff.1 h
      cases h
      dsimp only [Program.bind]
      rcases loaded V value with e | session
      · exact .inr (.inr ⟨_, rfl⟩)
      · exact .inr (.inl rfl)
    · obtain ⟨⟨values, S⟩, -, h⟩ := Option.map_eq_some_iff.1 h
      cases h
      exact .inr (.inr ⟨_, rfl⟩)
    · cases h
  | _ => trivial

theorem textAt_of_getex {S S' : Keyspace Text Text} {k : Text} {ttl : ℕ} {v : Option Text}
    (h : getex k ttl S = some (v, S')) : textAt S k = v := by
  rcases getex_cases h with ⟨hk, rfl, -⟩ | ⟨v, d, hk, rfl, -⟩
  · rw [textAt, hk]
    rfl
  · rw [textAt, hk]
    rfl

/-- What is read of keys is what they have. -/
theorem eq_map_of_read {names : List Text} {S S' : Keyspace Text Text}
    {values : List (Option Text)}
    (h : (names.mapM fun k => (getex k V.ttl : Command Text Text (Option Text))) S =
      some (values, S')) : values = names.map (textAt S) := by
  induction names generalizing S S' values with
  | nil =>
    cases h
    rfl
  | cons k names ih =>
    rw [List.mapM_cons] at h
    obtain ⟨v, S₁, hv, h⟩ := bind_eq_some.1 h
    obtain ⟨vs, S₂, hvs, h⟩ := bind_eq_some.1 h
    cases h
    have hrest : names.map (textAt S₁) = names.map (textAt S) :=
      List.map_congr_left fun l _ => textAt_congr (find_getex V.ttl_pos hv l)
    rw [ih hvs, hrest, List.map_cons, textAt_of_getex hv]

/-- What makes a poll for the token report that its call is cancelled. -/
def Cancelled (V : Server Params) (s : Coordination) (sid : Uuid) (requestId : RequestId)
    (token : Text) (wireIds : List Text) : Prop :=
  marker V s sid requestId ≠ some token ∨
    ∃ wireId ∈ wireIds, textAt s.redis (V.replyKey sid wireId) = none

theorem cancelled_updates {token : Text} {wireIds : List Text} {u : MCPUpdates}
    (h : updates token wireIds (marker V s sid requestId ::
      (wireIds.map (V.replyKey sid)).map (textAt s.redis)) = .ok u) :
    u.cancelled = true ↔ Cancelled V s sid requestId token wireIds := by
  cases h
  rw [Cancelled, Bool.or_eq_true, decide_eq_true_iff, List.any_eq_true]
  refine or_congr_right ⟨?_, ?_⟩
  · rintro ⟨v, hv, hnone⟩
    rw [List.map_map] at hv
    obtain ⟨wireId, hmem, rfl⟩ := List.mem_map.1 hv
    exact ⟨wireId, hmem, Option.isNone_iff_eq_none.1 hnone⟩
  · rintro ⟨wireId, hmem, hnone⟩
    rw [List.map_map]
    exact ⟨_, List.mem_map_of_mem hmem, Option.isNone_iff_eq_none.2 hnone⟩

/-- What a poll returns is what there is when it reads. -/
theorem updates_of_step {i : ℕ} {sid : Uuid} {requestId : RequestId} {token : Text}
    {wireIds : List Text} {u : MCPUpdates} (hS : (sessionStore V).Reachable S)
    (h : (sessionStore V).step S l S')
    (hi : ¬Returned S i (.poll sid requestId token wireIds) (.ok u))
    (hi' : Returned S' i (.poll sid requestId token wireIds) (.ok u)) :
    updates token wireIds (marker V S.shared sid requestId ::
      (wireIds.map (V.replyKey sid)).map (textAt S.shared.redis)) = .ok u := by
  cases Pool.step_cases h with
  | start j op hj =>
    unfold Returned at hi'
    dsimp only at hi'
    rcases eq_or_ne i j with rfl | hne
    · rw [Function.update_self] at hi'
      obtain ⟨rfl, h⟩ := Task.mk.inj (Option.some.inj hi')
      cases h
    · rw [Function.update_of_ne hne] at hi'
      exact absurd hi' hi
  | environment d s hs => exact absurd hi' hi
  | act j c t s p hj hp =>
    unfold Returned at hi'
    dsimp only at hi'
    rcases eq_or_ne i j with rfl | hne
    · obtain ⟨op, q⟩ := t
      rw [Function.update_self] at hi'
      cases hi'
      -- a poll is done when it fails to use its session or when it has read
      have hpolling := Pool.residual (P := fun _ => Polling V) (fun i op => polling_program i op)
        (fun _ _ _ _ _ _ _ => polling_step) hS hj
      rcases hpolling with rfl | rfl | ⟨r, rfl⟩
      · obtain ⟨⟨value, S₁⟩, -, hp⟩ := Option.map_eq_some_iff.1 hp
        obtain ⟨-, hp⟩ := Prod.mk.inj hp
        dsimp only [Program.bind] at hp
        rcases hvalue : loaded V value with e | session <;> rw [hvalue] at hp <;> cases hp
      · obtain ⟨r, hread, hp⟩ := Option.map_eq_some_iff.1 hp
        obtain ⟨⟨values, S₁⟩, hvalues, rfl⟩ := Option.map_eq_some_iff.1 hread
        obtain ⟨-, hp⟩ := Prod.mk.inj hp
        have hu : updates token wireIds values = .ok u := Program.pure.inj hp
        rwa [eq_map_of_read hvalues] at hu
      · cases hp
    · rw [Function.update_of_ne hne] at hi'
      exact absurd hi' hi

/-- A poll reports that its call is cancelled if and only if it is when the poll reads. -/
theorem cancelled_iff_of_step {i : ℕ} {sid : Uuid} {requestId : RequestId} {token : Text}
    {wireIds : List Text} {u : MCPUpdates} (hS : (sessionStore V).Reachable S)
    (h : (sessionStore V).step S l S')
    (hi : ¬Returned S i (.poll sid requestId token wireIds) (.ok u))
    (hi' : Returned S' i (.poll sid requestId token wireIds) (.ok u)) :
    u.cancelled = true ↔ Cancelled V S.shared sid requestId token wireIds :=
  cancelled_updates (updates_of_step hS h hi hi')

/-! ## Runs of calls -/

/-- A token that is no longer the marker of its request is not in any later state. -/
theorem lost_of_run {j : ℕ} {sid : Uuid} {requestId : RequestId} {t : Uuid}
    (hS : (sessionStore V).Reachable S) (hT : (sessionStore V).Run S ls T)
    (ht : Returned S j (.start sid requestId) (.ok t))
    (hlost : marker V S.shared sid requestId ≠ some t.hex) :
    marker V T.shared sid requestId ≠ some t.hex := by
  refine (hT.invariant (I := fun T => (sessionStore V).Reachable T ∧
    Returned T j (.start sid requestId) (.ok t) ∧ marker V T.shared sid requestId ≠ some t.hex)
    ⟨hS, ht, hlost⟩ ?_).2.2
  intro T l T' _ ⟨hT, ht, hlost⟩ hst
  exact ⟨hT.step hst, ht.step hst, lost_of_step hT hst ht hlost⟩

/-- The polls that return after the token has been lost report that the call is cancelled. -/
theorem cancelled_of_run {i j : ℕ} {sid : Uuid} {requestId : RequestId} {t : Uuid}
    {wireIds : List Text} {u : MCPUpdates} (hS : (sessionStore V).Reachable S)
    (hT : (sessionStore V).Run S ls T) (ht : Returned S j (.start sid requestId) (.ok t))
    (hlost : marker V S.shared sid requestId ≠ some t.hex)
    (hi : ¬Returned S i (.poll sid requestId t.hex wireIds) (.ok u))
    (hi' : Returned T i (.poll sid requestId t.hex wireIds) (.ok u)) : u.cancelled = true := by
  induction hT with
  | refl => exact absurd hi' hi
  | @snoc T T' ls l hT hst ih =>
    by_cases hi₁ : Returned T i (.poll sid requestId t.hex wireIds) (.ok u)
    · exact ih hi₁
    · exact (cancelled_iff_of_step (hS.run hT) hst hi₁ hi').2
        (.inl (lost_of_run hS hT ht hlost))

/-- A marker is cancelled by an operation that has not returned before. -/
theorem cancel_of_run {sid : Uuid} {requestId : RequestId} {t : Uuid}
    (hS : (sessionStore V).Reachable S) (hT : (sessionStore V).Run S ls T)
    (hnot : marker V S.shared sid requestId ≠ some (cancelledMarker t.hex))
    (hmarker : marker V T.shared sid requestId = some (cancelledMarker t.hex)) :
    ∃ i sid' requestId' p, T.tasks i = some ⟨.cancel sid' requestId', p⟩ ∧
      ¬Returned S i (.cancel sid' requestId') () ∧
      V.callKey sid' requestId' = V.callKey sid requestId := by
  induction hT with
  | refl => exact absurd hmarker hnot
  | @snoc T T' ls l hT hst ih =>
    obtain ⟨i, sid', requestId', p, hi, hdone, hkey⟩ : ∃ i sid' requestId' p,
        T.tasks i = some ⟨.cancel sid' requestId', p⟩ ∧
          ¬Returned S i (.cancel sid' requestId') () ∧
          V.callKey sid' requestId' = V.callKey sid requestId := by
      by_cases hmarker' : marker V T.shared sid requestId = some (cancelledMarker t.hex)
      · exact ih hmarker'
      · obtain ⟨i, sid', requestId', p, hi, hdone, hkey⟩ :=
          cancel_of_step (hS.run hT) hst hmarker' hmarker
        refine ⟨i, sid', requestId', p, hi, fun hS' => hdone ?_, hkey⟩
        exact hT.invariant (I := fun T => Returned T i (.cancel sid' requestId') ()) hS'
          fun _ _ _ _ h hst => h.step hst
    obtain ⟨q, hq⟩ := Pool.started_of_step hi hst
    exact ⟨i, sid', requestId', q, hq, hdone, hkey⟩

/-- A token that has not been drawn is not cancelled. -/
theorem not_cancelled_of_not_drawn {sid : Uuid} {requestId : RequestId} {t : Uuid}
    (hinv : Marked V s) (ht : s.drawn t = none) :
    marker V s sid requestId ≠ some (cancelledMarker t.hex) := by
  intro hmarker
  obtain ⟨u, hu, howns⟩ := hinv.owns hmarker
  cases howns.unique (.inr rfl)
  rw [ht] at hu
  cases hu

/-- In whatever order workers use the calls of a server: a marker is that of one token; a poll
    reports that its call is cancelled if and only if its token is not the marker or a reply that
    it waits for is missing; once the token is not the marker, all polls report it; the
    cancellations that have returned before a call draws its token do not cancel it; and the
    operation `finish` of another call leaves the marker as it is. -/
theorem sessionStore_markers (V : Server Params) (S : Workers Params)
    (h : (sessionStore V).Reachable S) (sid : Uuid) (requestId : RequestId) :
    (∀ v, marker V S.shared sid requestId = some v →
      ∃ t : Uuid, Owns t.hex (some v) ∧ ∀ u : Uuid, Owns u.hex (some v) → u = t) ∧
    (∀ l S' i token wireIds u, (sessionStore V).step S l S' →
      ¬Returned S i (.poll sid requestId token wireIds) (.ok u) →
      Returned S' i (.poll sid requestId token wireIds) (.ok u) →
      (u.cancelled = true ↔ Cancelled V S.shared sid requestId token wireIds)) ∧
    (∀ j t ls T i wireIds u, Returned S j (.start sid requestId) (.ok t) →
      marker V S.shared sid requestId ≠ some t.hex → (sessionStore V).Run S ls T →
      ¬Returned S i (.poll sid requestId t.hex wireIds) (.ok u) →
      Returned T i (.poll sid requestId t.hex wireIds) (.ok u) → u.cancelled = true) ∧
    (∀ t ls T, S.shared.drawn t = none → (sessionStore V).Run S ls T →
      (∀ i sid' requestId' p, T.tasks i = some ⟨.cancel sid' requestId', p⟩ →
        V.callKey sid' requestId' = V.callKey sid requestId →
        Returned S i (.cancel sid' requestId') ()) →
      marker V T.shared sid requestId ≠ some (cancelledMarker t.hex)) ∧
    ∀ i c S' sid' requestId' t u wireIds p, (sessionStore V).step S (.act i c) S' →
      S.tasks i = some ⟨.finish sid' requestId' (Uuid.hex u) wireIds, p⟩ → t ≠ u →
      Owns t.hex (marker V S.shared sid requestId) →
      S'.shared.redis.find (V.callKey sid requestId) =
        S.shared.redis.find (V.callKey sid requestId) := by
  have hinv := (Pool.reachable_safe (markers_sound V) h).1
  refine ⟨fun v hv => ?_, ?_, ?_, ?_, ?_⟩
  · obtain ⟨t, -, howns⟩ := hinv.owns hv
    exact ⟨t, howns, fun u hu => hu.unique howns⟩
  · exact fun l S' i token wireIds u hst hi hi' => cancelled_iff_of_step h hst hi hi'
  · exact fun j t ls T i wireIds u ht hlost hT hi hi' => cancelled_of_run h hT ht hlost hi hi'
  · intro t ls T ht hT hreturned hmarker
    obtain ⟨i, sid', requestId', p, hi, hdone, hkey⟩ :=
      cancel_of_run h hT (not_cancelled_of_not_drawn hinv ht) hmarker
    exact hdone (hreturned i sid' requestId' p hi hkey)
  · exact fun i c S' sid' requestId' t u wireIds p hst hi hne ht => find_of_finish h hst hi ht hne

def oneId : Uuid where
  hex := List.replicate 32 '1'
  length_eq := List.length_replicate
  digits c hc := by
    rw [List.eq_of_mem_replicate hc]
    decide

def twoId : Uuid where
  hex := List.replicate 32 '2'
  length_eq := List.length_replicate
  digits c hc := by
    rw [List.eq_of_mem_replicate hc]
    decide

/-- A session has been created, and a call with the first token. -/
def calling : Workers Unit :=
  ([.start 0 (.create ()), .act 0 zeroId, .act 0 zeroId, .act 0 zeroId, .act 0 zeroId,
    .act 0 zeroId, .act 0 zeroId, .start 1 (.start zeroId (.int 1)), .act 1 oneId,
    .act 1 zeroId].foldlM (Pool.step (program singleSession) tick)
      ⟨emptyStore, fun _ => none⟩).get (by decide +kernel)

theorem reachable_calling : (sessionStore singleSession).Reachable calling :=
  (reachable_emptyStore singleSession).run (Pool.run_replay _ _ _)

theorem marker_calling :
    marker singleSession calling.shared zeroId (.int 1) = some oneId.hex ∧
      ∃ t : Uuid, Owns t.hex (some oneId.hex) ∧
        ∀ u : Uuid, Owns u.hex (some oneId.hex) → u = t := by
  have hmarker : marker singleSession calling.shared zeroId (.int 1) = some oneId.hex := by
    decide +kernel
  have hmarkers := sessionStore_markers singleSession calling reachable_calling zeroId (.int 1)
  exact ⟨hmarker, hmarkers.1 _ hmarker⟩

/-- The only cancellation is for the call that has the first token, and reaches the next one;
    and a poll that misses a reply reports that the call is cancelled, a later one does not. -/
theorem cancelled_calling :
    (∃ T : Workers Unit, (sessionStore singleSession).Run calling
      [.start 2 (.cancel zeroId (.int 1)), .act 2 zeroId, .act 2 zeroId, .act 2 zeroId,
        .start 3 (.finish zeroId (.int 1) oneId.hex []), .act 3 zeroId, .act 3 zeroId,
        .act 3 zeroId, .act 3 zeroId, .start 4 (.start zeroId (.int 1)), .act 4 twoId,
        .act 4 zeroId, .act 2 zeroId, .act 2 zeroId, .act 2 zeroId, .act 2 zeroId, .act 2 zeroId,
        .start 5 (.poll zeroId (.int 1) twoId.hex []), .act 5 zeroId, .act 5 zeroId] T ∧
      marker singleSession calling.shared zeroId (.int 1) = some oneId.hex ∧
      marker singleSession T.shared zeroId (.int 1) = some (cancelledMarker twoId.hex) ∧
      Returned T 3 (.finish zeroId (.int 1) oneId.hex []) () ∧
      Returned T 4 (.start zeroId (.int 1)) (.ok twoId) ∧
      Returned T 5 (.poll zeroId (.int 1) twoId.hex []) (.ok ⟨true, []⟩)) ∧
    ∃ T : Workers Unit, (sessionStore singleSession).Run calling
      [.start 2 (.poll zeroId (.int 1) oneId.hex ["w".toList]), .act 2 zeroId, .act 2 zeroId,
        .start 3 (.poll zeroId (.int 1) oneId.hex []), .act 3 zeroId, .act 3 zeroId] T ∧
      Returned T 1 (.start zeroId (.int 1)) (.ok oneId) ∧
      Returned T 2 (.poll zeroId (.int 1) oneId.hex ["w".toList]) (.ok ⟨true, []⟩) ∧
      Returned T 3 (.poll zeroId (.int 1) oneId.hex []) (.ok ⟨false, []⟩) := by
  constructor
  · refine ⟨_, Pool.run_replay _ _ (by decide +kernel), ?_, ?_, ?_, ?_, ?_⟩
    · decide +kernel
    · decide +kernel
    · exact Task.eq_of_decide (by decide +kernel)
    · exact Task.eq_of_decide (by decide +kernel)
    · exact Task.eq_of_decide (by decide +kernel)
  · refine ⟨_, Pool.run_replay _ _ (by decide +kernel), ?_, ?_, ?_⟩
    · exact Task.eq_of_decide (by decide +kernel)
    · exact Task.eq_of_decide (by decide +kernel)
    · exact Task.eq_of_decide (by decide +kernel)

end Hyperforge.Mcp
