import Hyperforge.Mcp.SessionCapacity

/-!
# Operations on other keys

Where a contract is about some keys only, commands that change others keep it (`Framed`), and so
do the operations that consist of such commands: those on sessions, where the contract is not
about the names of sessions and the registry.
-/

namespace Hyperforge.Mcp

open Concurrent Redis Keyspace

/-- An operation keeps the contract when keys of `K` change, and when it draws identifiers. -/
structure Framed (inv : Coordination → Prop) (C : Contract Coordination) (K : Text → Prop)
    (i : ℕ) : Prop where
  refl : ∀ s, C.guar s s
  evolves : ∀ s t, C.rely s t → Evolves s.redis t.redis
  changes : ∀ s S, inv s → Changes K s.redis S →
    C.guar s { s with redis := S } ∧ inv { s with redis := S }
  draws : ∀ s u, inv s → s.drawn u = none →
    C.guar s { s with drawn := Function.update s.drawn u (some i) } ∧
      inv { s with drawn := Function.update s.drawn u (some i) }

/-- A program keeps the contract. -/
def Respects (inv : Coordination → Prop) (C : Contract Coordination) {α : Type}
    (p : Operation α) : Prop :=
  Ensures inv C (fun _ => True) p fun _ _ => True

section Rules

variable {inv : Coordination → Prop} {C : Contract Coordination} {K : Text → Prop} {i : ℕ}
  {α β : Type}

theorem stable_trivial : Stable C fun _ => True := fun _ _ _ _ => trivial

theorem respects_pure (a : α) : Respects inv C (.pure a) :=
  ensures_pure stable_trivial fun _ _ _ => trivial

theorem Respects.bind {p : Operation α} {f : α → Operation β} (hp : Respects inv C p)
    (hf : ∀ a, Respects inv C (f a)) : Respects inv C (p >>= f) := ensures_bind hp hf

/-- A command is as good as what it does to Redis. -/
theorem respects_redis {c : Command Text Text β} (h : ∀ s r S, inv s →
    c s.redis = some (r, S) → C.guar s { s with redis := S } ∧ inv { s with redis := S }) :
    Respects inv C (redis c) :=
  ensures_redis stable_trivial (fun _ => stable_trivial) fun s _ S hinv _ hc =>
    have hS := h s _ S hinv hc
    ⟨hS.1, hS.2, trivial⟩

namespace Framed

variable (h : Framed inv C K i)

include h

theorem repeat_ {body : Operation (Option β)} (hbody : Respects inv C body) :
    Respects inv C (.repeat_ body) :=
  ensures_loop (Q := fun _ _ => True) stable_trivial (fun s _ => h.refl s)
    (hbody.imp (fun _ h => h) fun r _ _ _ => by cases r <;> trivial) fun _ => respects_pure _

/-- Commands on other keys. -/
theorem redis {c : Command Text Text β} (hc : Within K c) : Respects inv C (Mcp.redis c) :=
  respects_redis fun s r S hinv hr => h.changes s S hinv (hc _ _ _ hr)

/-- Commands that read. -/
theorem read {c : Command Text Text β} (hread : ∀ S r S', c S = some (r, S') → S' = S) :
    Respects inv C (Mcp.redis c) := by
  refine h.redis fun S r S' hr => ?_
  cases hread S r S' hr
  exact .refl _ _

/-- `_change` is as good as the command that it ends with. -/
theorem change_of {name : Text} {f : Option Text → Option Text}
    (hf : ∀ s v S, inv s → Redis.get name s.redis = some (v, s.redis) → f v ≠ v →
      write name (f v) s.redis = some ((), S) →
      C.guar s { s with redis := S } ∧ inv { s with redis := S }) :
    Respects inv C (change name f) :=
  ensures_change stable_trivial (fun _ => stable_trivial) h.refl h.evolves
    (fun _ _ _ _ _ _ => trivial) fun s v S hinv _ hget hv hwrite =>
    have hS := hf s v S hinv hget hv hwrite
    ⟨hS.1, hS.2, trivial⟩

theorem change {name : Text} {f : Option Text → Option Text} (hname : K name) :
    Respects inv C (Mcp.change name f) :=
  h.change_of fun s _ S hinv _ _ hwrite => h.changes s S hinv (within_write hname _ _ _ hwrite)

/-- `uuid4` draws an identifier. -/
theorem uuid4 : Respects inv C (uuid4 i) := by
  refine ensures_act stable_trivial (fun _ => stable_trivial) fun s u _ s' hinv _ hs => ?_
  split at hs
  · next hu =>
    cases hs
    have hguar := h.draws s u hinv hu
    exact ⟨hguar.1, hguar.2, trivial⟩
  · cases hs

variable {Params : Type} (V : Server Params)

theorem expired (ids : List Text) : Respects inv C (expired V ids) := by
  induction ids with
  | nil => exact respects_pure _
  | cons sid ids ih =>
    refine .bind (h.read ?_) fun present => .bind ih fun rest => respects_pure _
    rintro S r S' ⟨⟩
    rfl

theorem add {name value : Text} (hname : K name) : Respects inv C (add V name value) := by
  refine .bind (h.redis (within_setNx _ _ hname)) fun added => ?_
  split_ifs <;> exact respects_pure _

theorem delete {names : List Text} (hnames : ∀ k ∈ names, K k) :
    Respects inv C (delete_ names) :=
  h.redis (within_forM hnames)

variable (hname : ∀ sid, K (V.name sid)) (hregistry : K V.registry)

include hname hregistry

theorem get (sid : Uuid) : Respects inv C (get V sid) :=
  .bind (h.redis ((within_getex _ (hname sid)).bind fun _ =>
    (within_expireGt _ hregistry).bind fun _ => within_pure _)) fun _ => respects_pure _

theorem ready (sid : Uuid) : Respects inv C (ready V sid) := by
  refine .bind (h.get V hname hregistry sid) fun session => ?_
  cases session with
  | error e => exact respects_pure _
  | ok session => exact .bind (h.change (hname sid)) fun _ => respects_pure _

omit hname in
theorem sessionCount : Respects inv C (sessionCount V) := by
  refine .bind (h.read fun _ _ _ h => (smembers_eq_some h).1) fun ids => ?_
  dsimp only
  split_ifs
  · exact respects_pure _
  · refine .bind (h.expired V ids) fun gone => ?_
    split_ifs
    · exact .bind (h.redis (within_srem _ hregistry)) fun _ => respects_pure _
    · exact respects_pure _

omit h in
theorem within_register (sid : Uuid) (value : Text) (gone : List Text) (remaining : ℤ) :
    Within K (register V sid value gone remaining) := by
  have hrest : Within K (do
      set (V.name sid) value V.ttl
      sadd V.registry sid.hex
      expire V.registry (max V.ttl remaining)) :=
    (within_set _ _ (hname sid)).bind fun _ => (within_sadd _ hregistry).bind
      fun _ => within_expire _ hregistry
  rw [register]
  split_ifs
  · exact (within_srem _ hregistry).bind fun _ => hrest
  · exact (within_pure ()).bind fun _ => hrest

theorem create (params : Params) : Respects inv C (create V i params) := by
  refine .bind h.uuid4 fun sid => h.repeat_ ?_
  refine .bind (h.read ?_) fun w => ?_
  · rintro S r S' ⟨⟩
    rfl
  refine .bind (h.read fun _ _ _ h => (smembers_eq_some h).1) fun ids => ?_
  refine .bind (h.expired V ids) fun gone => ?_
  split_ifs
  · exact respects_pure _
  refine .bind (h.read ?_) fun remaining => ?_
  · rintro S r S' ⟨⟩
    rfl
  exact .bind (h.redis (within_exec w (within_register V hname hregistry sid _ gone remaining)))
    fun _ => respects_pure _

end Framed

end Rules

end Hyperforge.Mcp
