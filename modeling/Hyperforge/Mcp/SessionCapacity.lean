import Hyperforge.Mcp.SessionRules
import Mathlib.Data.List.Perm.Subperm
import Mathlib.Data.Set.Card

/-!
# The capacity of MCP servers

The registry of a server has the ids of all sessions that are alive, and outlives them
(`Capacity`), so that no more sessions are created than the limit admits. A session
that has expired or been deleted does not come back, as its key is only created by the
operation that has drawn its id (`Guarantees.dead`).
-/

namespace Hyperforge.Mcp

open Concurrent Redis Keyspace Transition

variable {Params : Type} (V : Server Params)

/-- The key of the session exists. -/
def Live (s : Coordination) (sid : Uuid) : Prop := (s.redis.find (V.name sid)).isSome

/-- The session has been created. -/
def Born (s : Coordination) (sid : Uuid) : Prop := 0 < s.redis.revision (V.name sid)

/-- What the registry and the sessions satisfy. -/
structure Capacity (s : Coordination) : Prop where
  registered : ∀ sid, Live V s sid → sid.hex ∈ s.redis.members V.registry ∧
    ∃ d D, s.redis.deadline (V.name sid) = some d ∧ s.redis.deadline V.registry = some D ∧
      d ≤ D ∧ d ≤ s.redis.now + 1000 * V.ttl
  members : ∀ x ∈ s.redis.members V.registry, ∃ sid : Uuid, x = sid.hex ∧ Born V s sid
  born : ∀ sid, Live V s sid → Born V s sid
  drawn : ∀ sid, Born V s sid → (s.drawn sid).isSome
  count : ∀ sids : List Uuid, sids.Nodup → (∀ sid ∈ sids, Live V s sid) → sids.length ≤ V.limit

/-- What the `i`-th operation guarantees: sessions do not come back, and it only creates the one
    whose id it has drawn. -/
structure Guarantees (i : ℕ) (s s' : Coordination) : Prop where
  evolves : Evolves s.redis s'.redis
  dead : ∀ sid, Born V s sid → ¬Live V s sid → ¬Live V s' sid
  born : ∀ sid, s.drawn sid ≠ some i → Born V s' sid → Born V s sid
  drawn : ∀ sid j, s.drawn sid = some j → s'.drawn sid = some j

/-- What it relies on: others do not create the session whose id it has drawn. -/
structure Relies (i : ℕ) (s s' : Coordination) : Prop where
  evolves : Evolves s.redis s'.redis
  dead : ∀ sid, Born V s sid → ¬Live V s sid → ¬Live V s' sid
  born : ∀ sid, s.drawn sid = some i → Born V s' sid → Born V s sid
  drawn : ∀ sid j, s.drawn sid = some j → s'.drawn sid = some j

variable {V} {i : ℕ} {s s' : Coordination} {sid : Uuid}

theorem Born.evolves (h : Born V s sid) (hs : Evolves s.redis s'.redis) : Born V s' sid :=
  h.trans_le (hs.revision _)

theorem Guarantees.refl (t : Coordination) : Guarantees V i t t :=
  ⟨.refl _, fun _ _ h => h, fun _ _ h => h, fun _ _ h => h⟩

theorem Guarantees.relies {j : ℕ} (h : Guarantees V i s s') (hij : i ≠ j) : Relies V j s s' :=
  ⟨h.evolves, h.dead, fun sid hsid => h.born sid fun hi => hij
    (Option.some.inj (hi.symm.trans hsid)), h.drawn⟩

variable (V i) in
/-- The contract of the `i`-th operation. -/
def sessionContract : Contract Coordination where
  rely := Relies V i
  guar := Guarantees V i
  refl _ := ⟨.refl _, fun _ _ h => h, fun _ _ h => h, fun _ _ h => h⟩
  trans h h' := {
    evolves := h.evolves.trans h'.evolves
    dead := fun sid hb hd => h'.dead sid (hb.evolves h.evolves) (h.dead sid hb hd)
    born := fun sid hi hb => h.born sid hi (h'.born sid (h.drawn sid i hi) hb)
    drawn := fun sid j hj => h'.drawn sid j (h.drawn sid j hj) }

/-! ## Changes that create no session -/

variable (V) in
/-- Sessions are at most lost. -/
structure Loses (s s' : Coordination) : Prop where
  evolves : Evolves s.redis s'.redis
  live : ∀ sid, Live V s' sid → Live V s sid
  born : ∀ sid, Born V s' sid → Born V s sid
  drawn : s'.drawn = s.drawn

theorem Loses.guarantees (h : Loses V s s') : Guarantees V i s s' where
  evolves := h.evolves
  dead sid _ hd := mt (h.live sid) hd
  born sid _ := h.born sid
  drawn sid j hj := by rw [h.drawn, hj]

theorem Loses.relies (h : Loses V s s') : Relies V i s s' where
  evolves := h.evolves
  dead sid _ hd := mt (h.live sid) hd
  born sid _ := h.born sid
  drawn sid j hj := by rw [h.drawn, hj]

theorem Loses.capacity (h : Loses V s s') (hinv : Capacity V s)
    (hregistered : ∀ sid, Live V s' sid → sid.hex ∈ s'.redis.members V.registry ∧
      ∃ d D, s'.redis.deadline (V.name sid) = some d ∧ s'.redis.deadline V.registry = some D ∧
        d ≤ D ∧ d ≤ s'.redis.now + 1000 * V.ttl)
    (hmembers : ∀ x ∈ s'.redis.members V.registry, x ∈ s.redis.members V.registry) :
    Capacity V s' where
  registered := hregistered
  members x hx := (hinv.members x (hmembers x hx)).imp fun _ h' => ⟨h'.1, h'.2.evolves h.evolves⟩
  born sid hsid := (hinv.born sid (h.live sid hsid)).evolves h.evolves
  drawn sid hsid := h.drawn ▸ hinv.drawn sid (h.born sid hsid)
  count sids hn hsids := hinv.count sids hn fun sid hsid => h.live sid (hsids sid hsid)

/-- The registry loses no member that is alive and expires no earlier, and sessions
    that change, which exist, expire no later than it. -/
theorem capacity_of_sessions {S : Keyspace Text Text} (hinv : Capacity V s)
    (hevolves : Evolves s.redis S) (hnow : S.now = s.redis.now)
    (hmembers : ∀ x ∈ S.members V.registry, x ∈ s.redis.members V.registry)
    (hregistered : ∀ sid, Live V s sid → sid.hex ∈ S.members V.registry)
    (hdeadline : ∀ x ∈ S.members V.registry, ∀ D, s.redis.deadline V.registry = some D →
      ∃ D', S.deadline V.registry = some D' ∧ D ≤ D')
    (hsession : ∀ sid, S.find (V.name sid) = s.redis.find (V.name sid) ∧
        S.revision (V.name sid) = s.redis.revision (V.name sid) ∨
      Live V s sid ∧ ∀ e D, S.find (V.name sid) = some e → S.deadline V.registry = some D →
        ∃ d, e.deadline = some d ∧ d ≤ D ∧ d ≤ s.redis.now + 1000 * V.ttl) :
    Guarantees V i s { s with redis := S } ∧ Capacity V { s with redis := S } := by
  have hloses : Loses V s { s with redis := S } := by
    refine ⟨hevolves, fun sid hsid => ?_, fun sid hsid => ?_, rfl⟩
    · rcases hsession sid with ⟨hfind, -⟩ | ⟨hlive, -⟩
      · rwa [Live, hfind] at hsid
      · exact hlive
    · rcases hsession sid with ⟨-, hrevision⟩ | ⟨hlive, -⟩
      · rwa [Born, hrevision] at hsid
      · exact hinv.born sid hlive
  refine ⟨hloses.guarantees, hloses.capacity hinv (fun sid hsid => ?_) hmembers⟩
  have hlive := hloses.live sid hsid
  obtain ⟨-, d, D, hd, hD, hle, hle'⟩ := hinv.registered sid hlive
  obtain ⟨D', hD', hDD'⟩ := hdeadline _ (hregistered sid hlive) D hD
  refine ⟨hregistered sid hlive, ?_⟩
  dsimp only
  rw [hD', hnow]
  rcases hsession sid with ⟨hfind, -⟩ | ⟨-, hchanged⟩
  · rw [deadline_congr hfind]
    exact ⟨d, D', hd, rfl, hle.trans hDD', hle'⟩
  · obtain ⟨e, he⟩ := Option.isSome_iff_exists.1 hsid
    obtain ⟨d', hd', hle, hle'⟩ := hchanged e D' he hD'
    refine ⟨d', D', ?_, rfl, hle, hle'⟩
    rw [Keyspace.deadline, he]
    exact hd'

/-- Keys of calls and replies are of no concern. -/
theorem capacity_forCalls {K : Text → Prop} {S : Keyspace Text Text} (hinv : Capacity V s)
    (hK : ∀ k, K k → ForCalls V k) (h : Changes K s.redis S) :
    Guarantees V i s { s with redis := S } ∧ Capacity V { s with redis := S } := by
  have hregistry : S.find V.registry = s.redis.find V.registry :=
    h.find fun hk => not_forCalls_registry V (hK _ hk)
  have hname (sid : Uuid) : ¬K (V.name sid) := fun hk => not_forCalls_name V sid (hK _ hk)
  refine capacity_of_sessions hinv h.evolves h.now ?_ ?_ ?_ fun sid =>
    .inl ⟨h.find (hname sid), h.other _ (hname sid)⟩
  · rw [members_congr hregistry]
    exact fun _ hx => hx
  · rw [members_congr hregistry]
    exact fun sid hsid => (hinv.registered sid hsid).1
  · rw [deadline_congr hregistry]
    exact fun _ _ D hD => ⟨D, hD, le_rfl⟩

/-- What has a deadline is there as long as it has not passed. -/
theorem find_tick {S : Keyspace Text Text} {k : Text} {d D : ℕ} (hD : S.deadline k = some D)
    (hd : S.now + d < D) : (S.tick d).find k = S.find k := by
  obtain ⟨e, he, heD⟩ := Option.bind_eq_some_iff.1 hD
  rw [he, find_eq_some]
  refine ⟨(find_eq_some.1 he).1, ?_⟩
  rw [Entry.alive, heD]
  exact decide_eq_true hd

/-- Time passes. -/
theorem capacity_tick (hinv : Capacity V s) (d : ℕ) :
    Capacity V { s with redis := s.redis.tick d } ∧
      Relies V i s { s with redis := s.redis.tick d } := by
  have hevolves := evolves_tick s.redis d
  have hloses : Loses V s { s with redis := s.redis.tick d } := by
    refine ⟨hevolves, fun sid hsid => ?_, fun _ h => h, rfl⟩
    obtain ⟨e, he⟩ := Option.isSome_iff_exists.1 hsid
    rw [Live, hevolves.find rfl he]
    rfl
  refine ⟨hloses.capacity hinv (fun sid hsid => ?_) fun x hx => ?_, hloses.relies⟩
  · obtain ⟨hmem, D, D', hD, hD', hle, hle'⟩ := hinv.registered sid (hloses.live sid hsid)
    -- the session is alive still, and so is the registry, whose deadline is no earlier
    have hsession : s.redis.now + d < D := by
      obtain ⟨e, he⟩ := Option.isSome_iff_exists.1 hsid
      refine alive_deadline (S := s.redis.tick d) (k := V.name sid) ?_
      rw [Keyspace.deadline, he]
      rw [Keyspace.deadline, hevolves.find rfl he] at hD
      exact hD
    have hregistry := find_tick hD' (hsession.trans_le hle)
    rw [members_congr hregistry, deadline_congr hregistry, deadline_congr (find_tick hD hsession)]
    exact ⟨hmem, D, D', hD, hD', hle, hle'.trans (Nat.add_le_add_right (Nat.le_add_right _ _) _)⟩
  · rw [Keyspace.members] at hx
    split at hx
    · next m D' hfind =>
      rwa [members_of_find (hevolves.find rfl hfind)]
    · exact absurd hx List.not_mem_nil

/-- A session is used, and the registry is to outlive it. -/
theorem capacity_use {v : Option Text} {S : Keyspace Text Text} (hinv : Capacity V s)
    (h : renew V sid s.redis = some (v, S)) :
    Guarantees V i s { s with redis := S } ∧ Capacity V { s with redis := S } := by
  obtain ⟨_, S₁, hgetex, h⟩ := bind_eq_some.1 h
  obtain ⟨⟨⟩, S₂, hexpire, h⟩ := bind_eq_some.1 h
  cases h
  have hS₁ : Changes (· = V.name sid) s.redis S₁ :=
    within_getex (K := (· = V.name sid)) V.ttl rfl _ _ _ hgetex
  have hS : Changes (· = V.registry) S₁ S :=
    within_expireGt (K := (· = V.registry)) V.ttl rfl _ _ _ hexpire
  have hregistry : S₁.find V.registry = s.redis.find V.registry :=
    hS₁.find (name_ne_registry V sid).symm
  have hmembers : S.members V.registry = s.redis.members V.registry := by
    rw [members_expireGt hexpire, members_congr hregistry]
  have hdeadline : S.deadline V.registry =
      (s.redis.deadline V.registry).map (max · (s.redis.now + 1000 * V.ttl)) := by
    rw [deadline_expireGt hexpire, deadline_congr hregistry, hS₁.now]
  refine capacity_of_sessions hinv (hS₁.evolves.trans hS.evolves) (hS.now.trans hS₁.now)
    ?_ ?_ ?_ fun sid' => ?_
  · exact fun x hx => hmembers ▸ hx
  · rw [hmembers]
    exact fun sid hsid => (hinv.registered sid hsid).1
  · intro _ _ D hD
    rw [hdeadline, hD]
    exact ⟨_, rfl, Nat.le_max_left _ _⟩
  · rw [hS.find (name_ne_registry V sid'), hS.other _ (name_ne_registry V sid')]
    by_cases heq : V.name sid' = V.name sid
    · rw [Live, heq]
      rcases getex_cases hgetex with ⟨-, -, rfl⟩ | ⟨_, _, hfind, -, rfl⟩
      · exact .inl ⟨rfl, rfl⟩
      · refine .inr ⟨by rw [hfind]; rfl, fun e D he hD =>
          ⟨s.redis.now + 1000 * V.ttl, ?_, ?_, le_rfl⟩⟩
        · rw [find_put, if_pos rfl] at he
          cases (Option.filter_eq_some_iff.1 he).1
          rfl
        · rw [hdeadline] at hD
          obtain ⟨D, -, rfl⟩ := Option.map_eq_some_iff.1 hD
          exact Nat.le_max_right _ _
    · exact .inl ⟨hS₁.find heq, hS₁.other _ heq⟩

/-- The key of a session that exists is written or deleted. -/
theorem capacity_write {v : Option Text} {S : Keyspace Text Text} (hinv : Capacity V s)
    (hlive : Live V s sid) (h : write (V.name sid) v s.redis = some ((), S)) :
    Guarantees V i s { s with redis := S } ∧ Capacity V { s with redis := S } := by
  have hS : Changes (· = V.name sid) s.redis S := by
    cases v with
    | none => exact within_del (K := (· = V.name sid)) rfl _ _ _ h
    | some v => exact within_setKeepTtl (K := (· = V.name sid)) v rfl _ _ _ h
  have hregistry : S.find V.registry = s.redis.find V.registry :=
    hS.find (name_ne_registry V sid).symm
  refine capacity_of_sessions hinv hS.evolves hS.now ?_ ?_ ?_ fun sid' => ?_
  · rw [members_congr hregistry]
    exact fun _ hx => hx
  · rw [members_congr hregistry]
    exact fun sid hsid => (hinv.registered sid hsid).1
  · rw [deadline_congr hregistry]
    exact fun _ _ D hD => ⟨D, hD, le_rfl⟩
  · by_cases heq : sid' = sid
    · subst heq
      refine .inr ⟨hlive, fun e D he hD => ?_⟩
      obtain ⟨-, d, D', hd, hD', hle, hle'⟩ := hinv.registered sid' hlive
      rw [deadline_congr hregistry, hD'] at hD
      cases hD
      refine ⟨d, ?_, hle, hle'⟩
      cases v with
      | none =>
        rw [write, del, if_pos (show (s.redis.find (V.name sid')).isSome from hlive)] at h
        cases h
        rw [find_put, if_pos rfl] at he
        cases he
      | some v =>
        cases h
        rw [find_put, if_pos rfl] at he
        cases (Option.filter_eq_some_iff.1 he).1
        exact hd
    · have hne : V.name sid' ≠ V.name sid := (name_injective V).ne heq
      exact .inl ⟨hS.find hne, hS.other _ hne⟩

/-- Ids whose sessions are gone are removed from the registry. -/
theorem capacity_srem {ids : List Text} {S : Keyspace Text Text} (hinv : Capacity V s)
    (hids : ∀ sid : Uuid, sid.hex ∈ ids → ¬Live V s sid)
    (h : srem V.registry ids s.redis = some ((), S)) :
    Guarantees V i s { s with redis := S } ∧ Capacity V { s with redis := S } := by
  have hS : Changes (· = V.registry) s.redis S :=
    within_srem (K := (· = V.registry)) ids rfl _ _ _ h
  refine capacity_of_sessions hinv hS.evolves hS.now ?_ ?_ ?_ fun sid =>
    .inl ⟨hS.find (name_ne_registry V sid), hS.other _ (name_ne_registry V sid)⟩
  · exact fun x hx => ((mem_members_srem h).1 hx).1
  · exact fun sid hsid => (mem_members_srem h).2
      ⟨(hinv.registered sid hsid).1, fun hmem => hids sid hmem hsid⟩
  · intro x hx D hD
    rw [deadline_srem h hx]
    exact ⟨D, hD, le_rfl⟩

/-! ## Creating sessions -/

variable (V) in
/-- The id of a session that has been created and is gone. -/
def Gone (x : Text) (s : Coordination) : Prop :=
  ∃ sid : Uuid, x = sid.hex ∧ Born V s sid ∧ ¬Live V s sid

theorem hex_injective : Function.Injective Uuid.hex := by
  rintro ⟨hex, _, _⟩ ⟨_, _, _⟩ ⟨rfl⟩
  rfl

theorem Gone.not_live (h : Gone V sid.hex s) : ¬Live V s sid := by
  obtain ⟨sid', hsid, -, hlive⟩ := h
  rwa [hex_injective hsid]

/-- The sessions that are alive are members of the registry that are not gone. -/
theorem length_live_le {ids gone : List Text} (hinv : Capacity V s)
    (hids : s.redis.members V.registry = ids) (hgone : ∀ x ∈ gone, Gone V x s)
    (hsub : gone.Sublist ids) {sids : List Uuid} (hn : sids.Nodup)
    (hsids : ∀ sid ∈ sids, Live V s sid) : sids.length + gone.length ≤ ids.length := by
  have hnodup : (sids.map Uuid.hex ++ gone).Nodup := by
    refine List.Nodup.append (hn.map hex_injective) ?_ ?_
    · exact hsub.nodup (hids ▸ nodup_members _ _)
    · intro x hx hxg
      obtain ⟨sid, hsid, rfl⟩ := List.mem_map.1 hx
      exact (hgone _ hxg).not_live (hsids sid hsid)
  have hsubset : sids.map Uuid.hex ++ gone ⊆ ids := by
    intro x hx
    rcases List.mem_append.1 hx with hx | hx
    · obtain ⟨sid, hsid, rfl⟩ := List.mem_map.1 hx
      exact hids ▸ (hinv.registered sid (hsids sid hsid)).1
    · exact hsub.subset hx
  have hle := (hnodup.subperm hsubset).length_le
  rwa [List.length_append, List.length_map] at hle

variable (V) in
/-- What the transaction of `create` does: the session is written, and registered. -/
structure Registered (sid : Uuid) (value : Text) (gone : List Text) (S S' : Keyspace Text Text) :
    Prop where
  now : S'.now = S.now
  evolves : Evolves S S'
  other : ∀ sid' ≠ sid, S'.find (V.name sid') = S.find (V.name sid') ∧
    S'.revision (V.name sid') = S.revision (V.name sid')
  born : 0 < S'.revision (V.name sid)
  session : S'.find (V.name sid) =
    (some ⟨.string value, some (S.now + 1000 * V.ttl)⟩ : Option (Entry Text)).filter
      (Entry.alive S.now)
  registry : ∃ m D, S'.find V.registry =
      (some ⟨.set m, some D⟩ : Option (Entry Text)).filter (Entry.alive S.now) ∧
    S.now + 1000 * V.ttl ≤ D ∧
    ∀ x, x ∈ m.1 ↔ x = sid.hex ∨ x ∈ S.members V.registry ∧ x ∉ gone

theorem register_eq_some {value : Text} {gone : List Text} {remaining : ℤ}
    {S S' : Keyspace Text Text} (h : register V sid value gone remaining S = some ((), S')) :
    Registered V sid value gone S S' := by
  rw [register] at h
  -- ids that are gone are removed
  obtain ⟨S₁, hS₁, hmembers₁, h⟩ : ∃ S₁ : Keyspace Text Text, Changes (· = V.registry) S S₁ ∧
      (∀ x, x ∈ S₁.members V.registry ↔ x ∈ S.members V.registry ∧ x ∉ gone) ∧ (do
        set (V.name sid) value V.ttl
        sadd V.registry sid.hex
        expire V.registry (max V.ttl remaining)) S₁ = some ((), S') := by
    split_ifs at h with hnil
    · obtain ⟨⟨⟩, S₁, h₁, h⟩ := bind_eq_some.1 h
      exact ⟨S₁, within_srem (K := (· = V.registry)) gone rfl _ _ _ h₁,
        fun _ => mem_members_srem h₁, h⟩
    · rw [not_not] at hnil
      exact ⟨S, .refl _ _, by simp [hnil], h⟩
  obtain ⟨⟨⟩, S₂, h₂, h⟩ := bind_eq_some.1 h
  obtain ⟨⟨⟩, S₃, h₃, h₄⟩ := bind_eq_some.1 h
  cases h₂
  have hS₂ := changes_put S₁ (V.name sid)
    (some ⟨.string value, some (S₁.now + 1000 * V.ttl)⟩)
  have hS₃ : Changes (· = V.registry) _ S₃ :=
    within_sadd (K := (· = V.registry)) _ rfl _ _ _ h₃
  have hS₄ : Changes (· = V.registry) S₃ S' :=
    within_expire (K := (· = V.registry)) _ rfl _ _ _ h₄
  have hname := name_ne_registry V
  refine ⟨?_, ((hS₁.evolves.trans hS₂.evolves).trans hS₃.evolves).trans hS₄.evolves,
    fun sid' hne => ?_, ?_, ?_, ?_⟩
  · rw [hS₄.now, hS₃.now, hS₂.now, hS₁.now]
  · have hne' : V.name sid' ≠ V.name sid := (name_injective V).ne hne
    rw [hS₄.find (hname _), hS₃.find (hname _), hS₂.find hne', hS₁.find (hname _),
      hS₄.other _ (hname _), hS₃.other _ (hname _), hS₂.other _ hne', hS₁.other _ (hname _)]
    exact ⟨rfl, rfl⟩
  · rw [hS₄.other _ (hname _), hS₃.other _ (hname _), put_revision, if_pos rfl]
    exact Nat.succ_pos _
  · rw [hS₄.find (hname _), hS₃.find (hname _), find_put, if_pos rfl, hS₁.now]
  · obtain ⟨m, d, hm, hmem⟩ := find_sadd h₃
    rw [members_congr (hS₂.find (hname sid).symm)] at hmem
    have hregistry := find_expire h₄
    rw [hm, hS₃.now, hS₂.now, hS₁.now] at hregistry
    refine ⟨m, _, hregistry, by omega, fun x => ?_⟩
    rw [hmem, hmembers₁]

/-- A session is created, if the members that are not gone are fewer than the limit. -/
theorem capacity_create {ids gone : List Text} {value : Text} {S : Keyspace Text Text}
    (hinv : Capacity V s) (hdrawn : s.drawn sid = some i) (hnew : ¬Born V s sid)
    (hids : s.redis.members V.registry = ids) (hgone : ∀ x ∈ gone, Gone V x s)
    (hsub : gone.Sublist ids) (hlimit : ids.length - gone.length < V.limit)
    (h : Registered V sid value gone s.redis S) :
    Guarantees V i s { s with redis := S } ∧ Capacity V { s with redis := S } := by
  have hlive (sid' : Uuid) (hne : sid' ≠ sid) :
      Live V { s with redis := S } sid' ↔ Live V s sid' := by
    rw [Live, Live, (h.other sid' hne).1]
  have hborn (sid' : Uuid) (hne : sid' ≠ sid) :
      Born V { s with redis := S } sid' ↔ Born V s sid' := by
    rw [Born, Born, (h.other sid' hne).2]
  obtain ⟨m, D, hregistry, hD, hmem⟩ := h.registry
  refine ⟨⟨h.evolves, fun sid' hb hd => ?_, fun sid' hd hb => ?_, fun _ _ h => h⟩,
    fun sid' hsid' => ?_, fun x hx => ?_, fun sid' hsid' => ?_, fun sid' hsid' => ?_,
    fun sids hn hsids => ?_⟩
  · have hne : sid' ≠ sid := fun heq => hnew (heq ▸ hb)
    exact mt (hlive sid' hne).1 hd
  · have hne : sid' ≠ sid := fun heq => hd (heq ▸ hdrawn)
    exact (hborn sid' hne).1 hb
  · have hsession : sid'.hex ∈ m.1 ∧ ∃ d, S.deadline (V.name sid') = some d ∧
        d ≤ s.redis.now + 1000 * V.ttl := by
      rw [hmem]
      by_cases heq : sid' = sid
      · subst heq
        obtain ⟨e, he⟩ := Option.isSome_iff_exists.1 hsid'
        refine ⟨.inl rfl, s.redis.now + 1000 * V.ttl, ?_, le_rfl⟩
        rw [Keyspace.deadline, he]
        rw [h.session] at he
        cases (Option.filter_eq_some_iff.1 he).1
        rfl
      · have hsid := (hlive sid' heq).1 hsid'
        obtain ⟨hreg, d, -, hd, -, -, hle⟩ := hinv.registered sid' hsid
        rw [deadline_congr (h.other sid' heq).1]
        exact ⟨.inr ⟨hreg, fun hx => (hgone _ hx).not_live hsid⟩, d, hd, hle⟩
    obtain ⟨hreg, d, hd, hle⟩ := hsession
    -- the registry lives longer than the session, which is alive
    have halive := alive_deadline hd
    rw [h.now] at halive
    have hfind : S.find V.registry = some ⟨.set m, some D⟩ :=
      hregistry.trans (Option.filter_some_pos
        (decide_eq_true (halive.trans_le (hle.trans hD))))
    dsimp only
    rw [members_of_find hfind, deadline_of_find hfind, h.now]
    exact ⟨hreg, d, D, hd, rfl, hle.trans hD, hle⟩
  · have hxm : x ∈ m.1 := by
      dsimp only at hx
      rw [Keyspace.members, hregistry] at hx
      split at hx
      · next heq =>
        cases (Option.filter_eq_some_iff.1 heq).1
        exact hx
      · exact absurd hx List.not_mem_nil
    rcases (hmem x).1 hxm with rfl | ⟨hx, -⟩
    · exact ⟨sid, rfl, h.born⟩
    · exact (hinv.members x hx).imp fun _ hb => ⟨hb.1, hb.2.evolves h.evolves⟩
  · by_cases heq : sid' = sid
    · exact heq ▸ h.born
    · exact (hborn sid' heq).2 (hinv.born sid' ((hlive sid' heq).1 hsid'))
  · by_cases heq : sid' = sid
    · rw [heq, hdrawn]
      rfl
    · exact hinv.drawn sid' ((hborn sid' heq).1 hsid')
  · have hle := length_live_le hinv hids hgone hsub (hn.erase sid) fun sid' hsid' => by
      obtain ⟨hne, hmem⟩ := hn.mem_erase_iff.1 hsid'
      exact (hlive sid' hne).1 (hsids sid' hmem)
    have := List.length_erase_le (a := sid) (l := sids)
    have := List.le_length_erase (a := sid) (l := sids)
    omega

/-! ## Operations -/

variable (V i) in
/-- A program of the `i`-th operation keeps to its contract. -/
def Keeps {α : Type} (p : Operation α) : Prop :=
  Ensures (Capacity V) (sessionContract V i) (fun _ => True) p fun _ _ => True

section Operations

variable {α β : Type}

theorem stable_true : Stable (sessionContract V i) fun _ => True := fun _ _ _ _ => trivial

theorem keeps_pure (a : α) : Keeps V i (.pure a) := ensures_pure stable_true fun _ _ _ => trivial

theorem Keeps.bind {p : Operation α} {f : α → Operation β} (hp : Keeps V i p)
    (hf : ∀ a, Keeps V i (f a)) : Keeps V i (p >>= f) := ensures_bind hp hf

theorem keeps_redis {c : Command Text Text β} (h : ∀ s r S, Capacity V s →
    c s.redis = some (r, S) →
      Guarantees V i s { s with redis := S } ∧ Capacity V { s with redis := S }) :
    Keeps V i (redis c) :=
  ensures_redis stable_true (fun _ => stable_true) fun s r S hinv _ hc =>
    ⟨(h s r S hinv hc).1, (h s r S hinv hc).2, trivial⟩

/-- Commands on the keys of calls and replies. -/
theorem keeps_forCalls {c : Command Text Text β} (hc : Within (ForCalls V) c) :
    Keeps V i (redis c) :=
  keeps_redis fun _ _ _ hinv h => capacity_forCalls hinv (fun _ hk => hk) (hc _ _ _ h)

theorem within_write {K : Text → Prop} {k : Text} {v : Option Text} (hk : K k) :
    Within K (write k v) := by
  cases v with
  | none => exact within_del hk
  | some v => exact within_setKeepTtl v hk

theorem keeps_change {name : Text} {f : Option Text → Option Text} (hname : ForCalls V name) :
    Keeps V i (change name f) :=
  ensures_change stable_true (fun _ => stable_true) Guarantees.refl
    (fun _ _ h => h.evolves) (fun _ _ _ _ _ _ => trivial) fun s v S hinv _ _ _ h => by
    obtain ⟨hguar, hinv'⟩ := capacity_forCalls (i := i) hinv (fun _ hk => hk)
      (within_write hname _ _ _ h)
    exact ⟨hguar, hinv', trivial⟩

theorem keeps_add {name value : Text} (hname : ForCalls V name) :
    Keeps V i (add V name value) := by
  refine .bind (keeps_forCalls (within_setNx _ _ hname)) fun added => ?_
  split_ifs <;> exact keeps_pure _

theorem within_forM {K : Text → Prop} {names : List Text} (h : ∀ k ∈ names, K k) :
    Within K (names.forM (del : Text → Command Text Text Unit)) := by
  induction names with
  | nil => exact within_pure ()
  | cons k names ih =>
    rw [List.forall_mem_cons] at h
    exact (within_del h.1).bind fun _ => ih h.2

theorem within_mapM {K : Text → Prop} {names : List Text} (h : ∀ k ∈ names, K k) (ttl : ℕ) :
    Within K (names.mapM fun k => (getex k ttl : Command Text Text (Option Text))) := by
  induction names with
  | nil => exact within_pure []
  | cons k names ih =>
    rw [List.forall_mem_cons] at h
    rw [List.mapM_cons]
    exact (within_getex _ h.1).bind fun _ => (ih h.2).bind fun _ => within_pure _

theorem keeps_get : Keeps V i (get V sid) :=
  .bind (keeps_redis fun _ _ _ hinv h => capacity_use hinv h) fun _ => keeps_pure _

theorem keeps_ready : Keeps V i (ready V sid) := by
  refine .bind keeps_get fun session => ?_
  cases session with
  | error e => exact keeps_pure _
  | ok session =>
    refine .bind ?_ fun _ => keeps_pure _
    refine ensures_change stable_true (fun _ => stable_true) Guarantees.refl
      (fun _ _ h => h.evolves) (fun _ _ _ _ _ _ => trivial) fun s v S hinv _ hget hv h => ?_
    have hlive : Live V s sid := by
      rw [Live]
      rcases hfind : s.redis.find (V.name sid) with _ | e
      · rw [Redis.get, hfind] at hget
        cases hget
        exact absurd rfl hv
      · rfl
    obtain ⟨hguar, hinv'⟩ := capacity_write (i := i) hinv hlive h
    exact ⟨hguar, hinv', trivial⟩

theorem keeps_delete : Keeps V i (delete V sid) := by
  refine keeps_redis fun s r S hinv h => ?_
  obtain ⟨⟨⟩, S', hdel, h⟩ := bind_eq_some.1 h
  cases h
  by_cases hlive : Live V s sid
  · exact capacity_write (v := none) hinv hlive hdel
  · rw [Live] at hlive
    rw [del, if_neg hlive] at hdel
    cases hdel
    exact ⟨.refl s, hinv⟩

theorem gone_stable (x : Text) : Stable (sessionContract V i) (Gone V x) :=
  fun _ _ ⟨sid, hx, hb, hd⟩ h => ⟨sid, hx, hb.evolves h.evolves, h.dead sid hb hd⟩

variable (V) in
/-- The ids of sessions that have been created. -/
def Known (ids : List Text) (s : Coordination) : Prop :=
  ∀ x ∈ ids, ∃ sid : Uuid, x = sid.hex ∧ Born V s sid

theorem known_stable (ids : List Text) : Stable (sessionContract V i) (Known V ids) :=
  fun _ _ hs h x hx => (hs x hx).imp fun _ hb => ⟨hb.1, hb.2.evolves h.evolves⟩

/-- The ids that `_expired` finds are those of sessions that are gone. -/
theorem ensures_expired (pre : Coordination → Prop) (hpre : Stable (sessionContract V i) pre)
    (ids : List Text) : Ensures (Capacity V) (sessionContract V i)
      (fun s => pre s ∧ Known V ids s) (expired V ids)
      fun gone s => pre s ∧ gone.Sublist ids ∧ ∀ x ∈ gone, Gone V x s := by
  induction ids generalizing pre with
  | nil =>
    refine ensures_pure (fun s t hs h => ⟨hpre s t hs.1 h, known_stable [] s t hs.2 h⟩) ?_
    exact fun s _ hs => ⟨hs.1, .slnil, fun x hx => absurd hx List.not_mem_nil⟩
  | cons x ids ih =>
    -- whether the session of the first id is gone
    let found (present : Bool) (s : Coordination) : Prop :=
      pre s ∧ (present = false → Gone V x s)
    have hfound (present : Bool) : Stable (sessionContract V i) (found present) :=
      fun s t hs h => ⟨hpre s t hs.1 h, fun hp => gone_stable x s t (hs.2 hp) h⟩
    refine ensures_bind (Q := fun present s => found present s ∧ Known V ids s)
      (ensures_read ?_ ?_ Guarantees.refl ?_ ?_) fun present => ?_
    · exact fun s t hs h => ⟨hpre s t hs.1 h, known_stable _ s t hs.2 h⟩
    · exact fun present s t hs h => ⟨hfound present s t hs.1 h, known_stable _ s t hs.2 h⟩
    · intro S present S' h
      cases h
      rfl
    · intro s present hinv hs h
      cases h
      refine ⟨⟨hs.1, fun hp => ?_⟩, fun y hy => hs.2 y (List.mem_cons_of_mem _ hy)⟩
      obtain ⟨sid, rfl, hb⟩ := hs.2 x List.mem_cons_self
      refine ⟨sid, rfl, hb, fun hlive => ?_⟩
      exact Bool.false_ne_true (hp.symm.trans hlive)
    · refine ensures_bind (ih (found present) (hfound present)) fun gone => ?_
      refine ensures_pure (fun s t hs h => ⟨hfound present s t hs.1 h, hs.2.1, fun y hy =>
        gone_stable y s t (hs.2.2 y hy) h⟩) fun s _ hs => ?_
      obtain ⟨⟨hs, hx⟩, hsub, hgone⟩ := hs
      cases present with
      | true => exact ⟨hs, hsub.cons x, hgone⟩
      | false => exact ⟨hs, hsub.cons_cons x, List.forall_mem_cons.2 ⟨hx rfl, hgone⟩⟩

theorem known_members (hinv : Capacity V s) : Known V (s.redis.members V.registry) s := hinv.members

theorem keeps_sessionCount : Keeps V i (sessionCount V) := by
  refine ensures_bind (Q := fun ids => Known V ids) (ensures_read stable_true
    (fun ids => known_stable ids) Guarantees.refl (fun _ _ _ h => (smembers_eq_some h).1)
    fun s ids hinv _ h => (smembers_eq_some h).2 ▸ known_members hinv) fun ids => ?_
  dsimp only
  split_ifs
  · exact ensures_pure (known_stable ids) fun _ _ _ => trivial
  refine ensures_bind ((ensures_expired (fun _ => True) stable_true ids).strengthen
    fun s hs => ⟨trivial, hs⟩) fun gone => ?_
  have hgone : Stable (sessionContract V i) fun s => True ∧ gone.Sublist ids ∧
      ∀ x ∈ gone, Gone V x s :=
    fun s t hs h => ⟨trivial, hs.2.1, fun x hx => gone_stable x s t (hs.2.2 x hx) h⟩
  split_ifs
  · refine ensures_bind (Q := fun _ _ => True) (ensures_redis hgone (fun _ => stable_true)
      fun s r S hinv hs h => ?_) fun _ => keeps_pure _
    obtain ⟨hguar, hinv'⟩ := capacity_srem (i := i) hinv
      (fun sid hsid => (hs.2.2 _ hsid).not_live) h
    exact ⟨hguar, hinv', trivial⟩
  · exact ensures_pure hgone fun _ _ _ => trivial

theorem keeps_uuid4 (i : ℕ) : Ensures (Capacity V) (sessionContract V i) (fun _ => True) (uuid4 i)
    fun u s => s.drawn u = some i ∧ ¬Born V s u := by
  have hstable (u : Uuid) : Stable (sessionContract V i) fun s => s.drawn u = some i ∧
      ¬Born V s u :=
    fun s t hs h => ⟨h.drawn u i hs.1, mt (h.born u hs.1) hs.2⟩
  refine ensures_act stable_true hstable fun s u _ s' hinv _ h => ?_
  split at h
  · next hu =>
    cases h
    have hdrawn (v : Uuid) (j : ℕ) (hv : s.drawn v = some j) :
        Function.update s.drawn u (some i) v = some j := by
      rw [Function.update_of_ne, hv]
      rintro rfl
      rw [hu] at hv
      cases hv
    refine ⟨⟨.refl _, fun _ _ h => h, fun _ _ h => h, hdrawn⟩,
      ⟨hinv.registered, hinv.members, hinv.born, fun sid hsid => ?_, hinv.count⟩,
      Function.update_self .., fun hb => ?_⟩
    · obtain ⟨j, hj⟩ := Option.isSome_iff_exists.1 (hinv.drawn sid hsid)
      dsimp only
      rw [hdrawn sid j hj]
      rfl
    · have hsome := hinv.drawn u hb
      rw [hu] at hsome
      cases hsome
  · cases h

theorem keeps_create (params : Params) : Keeps V i (create V i params) := by
  refine ensures_bind (keeps_uuid4 i) fun sid => ?_
  let new (s : Coordination) : Prop := s.drawn sid = some i ∧ ¬Born V s sid
  have hnew : Stable (sessionContract V i) new :=
    fun s t hs h => ⟨h.drawn sid i hs.1, mt (h.born sid hs.1) hs.2⟩
  refine ensures_loop (Q := fun _ _ => True) hnew (fun s _ => .refl s) ?_ fun _ => keeps_pure _
  -- the registry is watched
  let watched (w : Watch Text) (s : Coordination) : Prop :=
    new s ∧ w.key = V.registry ∧ Watched w s.redis
  have hwatched (w : Watch Text) : Stable (sessionContract V i) (watched w) :=
    fun s t hs h => ⟨hnew s t hs.1 h, hs.2.1, hs.2.2.evolves h.evolves⟩
  refine ensures_bind (Q := watched) (ensures_read hnew hwatched Guarantees.refl ?_ ?_)
    fun w => ?_
  · intro S w S' h
    cases h
    rfl
  · intro s w _ hs h
    cases h
    exact ⟨hs, rfl, s.redis, .refl _, rfl, rfl⟩
  -- its members have been read since
  let read (ids : List Text) (s : Coordination) : Prop :=
    new s ∧ w.key = V.registry ∧ ∃ S, Watched w S ∧ Evolves S s.redis ∧
      S.members V.registry = ids
  have hread (ids : List Text) : Stable (sessionContract V i) (read ids) := by
    intro s t hs h
    obtain ⟨hs, hw, S, hS, hSs, hids⟩ := hs
    exact ⟨hnew s t hs h, hw, S, hS, hSs.trans h.evolves, hids⟩
  refine ensures_bind (Q := fun ids s => read ids s ∧ Known V ids s)
    (ensures_read (hwatched w) ?_ Guarantees.refl ?_ ?_) fun ids => ?_
  · exact fun ids s t hs h => ⟨hread ids s t hs.1 h, known_stable ids s t hs.2 h⟩
  · exact fun _ _ _ h => (smembers_eq_some h).1
  · intro s ids hinv hs h
    obtain ⟨-, rfl⟩ := smembers_eq_some h
    exact ⟨⟨hs.1, hs.2.1, s.redis, hs.2.2, .refl _, rfl⟩, known_members hinv⟩
  refine ensures_bind (ensures_expired (read ids) (hread ids) ids) fun gone => ?_
  let counted (s : Coordination) : Prop :=
    read ids s ∧ gone.Sublist ids ∧ ∀ x ∈ gone, Gone V x s
  have hcounted : Stable (sessionContract V i) counted :=
    fun s t hs h => ⟨hread ids s t hs.1 h, hs.2.1, fun x hx => gone_stable x s t (hs.2.2 x hx) h⟩
  split_ifs with hlimit
  · exact ensures_pure hcounted fun _ _ _ => trivial
  refine ensures_bind (Q := fun _ => counted) (ensures_read hcounted (fun _ => hcounted)
    Guarantees.refl ?_ fun _ _ _ hs _ => hs) fun remaining => ?_
  · intro S r S' h
    cases h
    rfl
  dsimp only
  -- the members of the registry are still those that have been read
  refine ensures_bind (Q := fun executed s => executed = none → new s)
    (ensures_redis hcounted ?_ ?_) fun executed => ?_
  · exact fun executed s t hs h hnone => hnew s t (hs hnone) h
  · intro s executed S hinv hs hexec
    obtain ⟨⟨hs, hw, S₀, hS₀, hS, hids⟩, hsub, hgone⟩ := hs
    rw [exec] at hexec
    split_ifs at hexec with hunmodified
    · obtain ⟨⟨⟨⟩, S'⟩, hregister, hexec⟩ := Option.map_eq_some_iff.1 hexec
      cases hexec
      have hmembers : s.redis.members V.registry = ids := by
        rw [← hids, ← hw]
        exact members_congr (hS₀.find_eq hS hunmodified)
      obtain ⟨hguar, hinv'⟩ := capacity_create hinv hs.1 hs.2 hmembers hgone hsub
        (not_le.1 hlimit) (register_eq_some hregister)
      exact ⟨hguar, hinv', fun h => absurd h (Option.some_ne_none _)⟩
    · cases hexec
      exact ⟨.refl s, hinv, fun _ => hs⟩
  · cases executed with
    | none => exact ensures_pure (fun s t hs h _ => hnew s t (hs rfl) h) fun _ _ hs => hs rfl
    | some _ =>
      refine ensures_pure (fun _ _ _ _ h => ?_) fun _ _ _ => trivial
      exact absurd h (Option.some_ne_none _)

theorem keeps_acknowledge (ids : List Text) : Keeps V i (acknowledge V sid ids) := by
  rw [acknowledge]
  split_ifs
  · refine keeps_forCalls (within_forM fun k hk => ?_)
    obtain ⟨wireId, -, rfl⟩ := List.mem_map.1 hk
    exact forCalls_replyKey V sid wireId
  · exact keeps_pure _

theorem keeps_poll (requestId : RequestId) (token : Text) (wireIds : List Text) :
    Keeps V i (poll V sid requestId token wireIds) := by
  refine .bind keeps_get fun session => ?_
  cases session with
  | error e => exact keeps_pure _
  | ok session =>
    refine .bind (keeps_forCalls (within_mapM (fun k hk => ?_) V.ttl)) fun values => ?_
    · rcases List.mem_cons.1 hk with rfl | hk
      · exact forCalls_callKey V sid requestId
      · obtain ⟨wireId, -, rfl⟩ := List.mem_map.1 hk
        exact forCalls_replyKey V sid wireId
    · exact keeps_pure _

/-- Every operation keeps the capacity. -/
theorem keeps_program (op : Op Params) : Keeps V i (program V i op) := by
  cases op with
  | sessionCount => exact keeps_sessionCount
  | create params => exact keeps_create params
  | get sid => exact keeps_get
  | ready sid => exact keeps_ready
  | delete sid => exact keeps_delete
  | start sid requestId =>
    refine .bind ((keeps_uuid4 i).imp (fun _ h => h) fun _ _ _ _ => trivial) fun token => ?_
    refine .bind (keeps_add (forCalls_callKey V sid requestId)) fun added => ?_
    cases added <;> exact keeps_pure _
  | cancel sid requestId =>
    exact .bind (keeps_change (forCalls_callKey V sid requestId)) fun _ => keeps_pure _
  | pending sid wireId => exact keeps_add (forCalls_replyKey V sid wireId)
  | reply sid wireId body =>
    refine .bind (keeps_change (forCalls_replyKey V sid wireId)) fun previous => ?_
    split_ifs <;> exact keeps_pure _
  | poll sid requestId token wireIds => exact keeps_poll requestId token wireIds
  | acknowledge sid ids => exact keeps_acknowledge ids
  | finish sid requestId token wireIds =>
    exact .bind (keeps_change (forCalls_callKey V sid requestId)) fun _ => keeps_acknowledge wireIds

end Operations

/-! ## Runs -/

theorem capacity_initial (h : Initial s) : Capacity V s := by
  have hfind (k : Text) : s.redis.find k = none := by
    rw [Keyspace.find, (h.1 k).1]
    rfl
  have hlive (sid : Uuid) : ¬Live V s sid := by
    rw [Live, hfind]
    exact Bool.false_ne_true
  have hborn (sid : Uuid) : ¬Born V s sid := by
    rw [Born, (h.1 _).2]
    exact Nat.lt_irrefl 0
  refine ⟨fun sid hsid => absurd hsid (hlive sid), fun x hx => ?_,
    fun sid hsid => absurd hsid (hlive sid), fun sid hsid => absurd hsid (hborn sid),
    fun sids _ hsids => ?_⟩
  · rw [Keyspace.members, hfind] at hx
    exact absurd hx List.not_mem_nil
  · rw [List.eq_nil_iff_forall_not_mem.2 fun sid hsid => hlive sid (hsids sid hsid)]
    exact Nat.zero_le _

variable (V) in
theorem sessionStore_sound : Pool.Sound (program V) tick Initial (Capacity V)
    (fun i _ => sessionContract V i) fun _ _ _ _ => True where
  init _ := capacity_initial
  environment s d s' hinv h := by
    cases h
    exact ⟨(capacity_tick (i := 0) hinv d).1, fun i _ => (capacity_tick hinv d).2⟩
  compatible _ _ _ _ _ _ hij h := h.relies hij
  ensures _ op := keeps_program op

/-- A step creates no session that is gone. -/
theorem evolves_of_step {S S' : Pool Coordination Uuid (Op Params) Op.Result}
    {l : Label Uuid (Op Params) ℕ} (hS : (sessionStore V).Reachable S)
    (h : (sessionStore V).step S l S') : Evolves S.shared.redis S'.shared.redis ∧
      ∀ sid, Born V S.shared sid → ¬Live V S.shared sid → ¬Live V S'.shared sid := by
  have hsafe := Pool.reachable_safe (sessionStore_sound V) hS
  cases Pool.step_cases h with
  | start i op hi => exact ⟨.refl _, fun _ _ hd => hd⟩
  | act i c t s p hi hp => exact ⟨(hsafe.guar hi hp).evolves, (hsafe.guar hi hp).dead⟩
  | environment d s hs =>
    cases hs
    have hrely := (capacity_tick (i := 0) hsafe.1 d).2
    exact ⟨hrely.evolves, hrely.dead⟩

theorem encard_live_le (hinv : Capacity V s) : { sid | Live V s sid }.encard ≤ V.limit := by
  by_contra hlt
  rw [not_le] at hlt
  -- more sessions than the limit would be a list of them
  obtain ⟨sids, hsub, hcard⟩ := Set.exists_subset_encard_eq (Order.add_one_le_of_lt hlt)
  have hfinite : sids.Finite := Set.finite_of_encard_eq_coe (k := V.limit + 1) (by
    rw [hcard]
    rfl)
  have hle := hinv.count hfinite.toFinset.toList (Finset.nodup_toList _) fun sid hsid =>
    hsub (hfinite.mem_toFinset.1 (Finset.mem_toList.1 hsid))
  rw [Finset.length_toList] at hle
  rw [hfinite.encard_eq_coe_toFinset_card] at hcard
  have hcard : hfinite.toFinset.card = V.limit + 1 := by exact_mod_cast hcard
  omega

/-- In whatever order workers use the sessions of a server, the registry has the ids of all
    sessions that are alive, and does not expire before them; there are no more of them than the
    limit; and a session that has expired or been deleted never exists again. -/
theorem sessionStore_capacity (V : Server Params)
    (S : Pool Coordination Uuid (Op Params) Op.Result) (h : (sessionStore V).Reachable S) :
    (∀ sid, Live V S.shared sid → sid.hex ∈ S.shared.redis.members V.registry ∧
      ∃ d D, S.shared.redis.deadline (V.name sid) = some d ∧
        S.shared.redis.deadline V.registry = some D ∧ d ≤ D) ∧
    { sid | Live V S.shared sid }.encard ≤ V.limit ∧
    ∀ sid ls T ls' U, Live V S.shared sid → (sessionStore V).Run S ls T →
      ¬Live V T.shared sid → (sessionStore V).Run T ls' U → ¬Live V U.shared sid := by
  have hinv := (Pool.reachable_safe (sessionStore_sound V) h).1
  refine ⟨fun sid hsid => ?_, encard_live_le hinv, ?_⟩
  · obtain ⟨hmem, d, D, hd, hD, hle, -⟩ := hinv.registered sid hsid
    exact ⟨hmem, d, D, hd, hD, hle⟩
  · intro sid ls T ls' U hsid hT hgone hU
    have hborn : (sessionStore V).Reachable T ∧ Born V T.shared sid := by
      refine hT.invariant (I := fun T => (sessionStore V).Reachable T ∧ Born V T.shared sid)
        ⟨h, hinv.born sid hsid⟩ fun T l T' _ hT hst => ⟨hT.1.step hst, ?_⟩
      exact hT.2.evolves (evolves_of_step hT.1 hst).1
    refine (hU.invariant (I := fun U => (sessionStore V).Reachable U ∧ Born V U.shared sid ∧
      ¬Live V U.shared sid) ⟨hborn.1, hborn.2, hgone⟩ ?_).2.2
    intro U l U' _ ⟨hreachable, hb, hd⟩ hst
    obtain ⟨hevolves, hdead⟩ := evolves_of_step hreachable hst
    exact ⟨hreachable.step hst, hb.evolves hevolves, hdead sid hb hd⟩

/-- A server with room for one session. -/
def singleSession : Server Unit where
  digest := "00".toList
  requestDigest _ := "00".toList
  dump _ := "session".toList
  load _ := some ⟨(), true⟩
  ttl := 60
  ttl_pos := by decide
  limit := 1

def zeroId : Uuid where
  hex := List.replicate 32 '0'
  length_eq := List.length_replicate
  digits c hc := by
    rw [List.eq_of_mem_replicate hc]
    decide

def emptyStore : Coordination := ⟨⟨0, fun _ => none, fun _ => 0⟩, fun _ => none⟩

theorem reachable_emptyStore {Params : Type} (V : Server Params) :
    (sessionStore V).Reachable ⟨emptyStore, fun _ => none⟩ :=
  .init ⟨⟨fun _ => ⟨rfl, rfl⟩, fun _ => rfl⟩, fun _ => rfl⟩

theorem capacity_singleSession : ∃ S : Pool Coordination Uuid (Op Unit) Op.Result,
    Live singleSession S.shared zeroId ∧
      { sid | Live singleSession S.shared sid }.encard ≤ 1 := by
  -- a session is created
  obtain ⟨S, hS, hlive⟩ : ∃ S, (sessionStore singleSession).Reachable S ∧
      Live singleSession S.shared zeroId :=
    ⟨_, Pool.reachable_of_replay (reachable_emptyStore singleSession)
      [.start 0 (.create ()), .act 0 zeroId, .act 0 zeroId, .act 0 zeroId, .act 0 zeroId,
        .act 0 zeroId, .act 0 zeroId] rfl, rfl⟩
  exact ⟨S, hlive, (sessionStore_capacity singleSession S hS).2.1⟩

end Hyperforge.Mcp
