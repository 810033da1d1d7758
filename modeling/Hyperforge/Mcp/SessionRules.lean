import Hyperforge.Mcp.Sessions

/-!
# Rules for operations on sessions

The keys of sessions, calls and replies are told apart by their names. A command is as good as
what it does to Redis (`ensures_redis`); `_change` is as good as the command that it ends
with, on a key that has what has been read (`ensures_change`).
-/

namespace Hyperforge.Mcp

open Concurrent Redis Keyspace

section Names

variable {Params : Type} (V : Server Params)

theorem length_registry : V.registry.length = V.keyPrefix.length + 9 := by
  rw [Server.registry, List.length_append]
  rfl

theorem length_name (sid : Uuid) : (V.name sid).length = V.keyPrefix.length + 33 := by
  rw [Server.name, List.length_append, List.length_append, sid.length_eq]
  rfl

theorem name_ne_registry (sid : Uuid) : V.name sid ≠ V.registry := by
  intro h
  have hlength := congrArg List.length h
  rw [length_registry, length_name] at hlength
  omega

theorem name_injective : Function.Injective V.name := by
  rintro ⟨hex, _, _⟩ ⟨hex', _, _⟩ h
  rw [Server.name, Server.name] at h
  cases List.append_cancel_left h
  rfl

/-- The name of a key that belongs to calls or replies. -/
def ForCalls (k : Text) : Prop := V.keyPrefix.length + 33 < k.length

theorem forCalls_callKey (sid : Uuid) (requestId : RequestId) :
    ForCalls V (V.callKey sid requestId) := by
  rw [ForCalls, Server.callKey, List.length_append, List.length_append, length_name]
  exact Nat.lt_add_right _ (Nat.lt_add_of_pos_right (by decide))

theorem forCalls_replyKey (sid : Uuid) (wireId : Text) : ForCalls V (V.replyKey sid wireId) := by
  rw [ForCalls, Server.replyKey, List.length_append, List.length_append, length_name]
  exact Nat.lt_add_right _ (Nat.lt_add_of_pos_right (by decide))

theorem not_forCalls_name (sid : Uuid) : ¬ForCalls V (V.name sid) := by
  rw [ForCalls, length_name]
  exact Nat.lt_irrefl _

theorem not_forCalls_registry : ¬ForCalls V V.registry := by
  rw [ForCalls, length_registry]
  omega

end Names

section Rules

variable {inv : Coordination → Prop} {C : Contract Coordination} {pre : Coordination → Prop}
  {α β : Type}

/-- A command keeps the contract if what it does to Redis does. -/
theorem ensures_redis {c : Command Text Text β} {post : β → Coordination → Prop}
    (hpre : Stable C pre) (hpost : ∀ r, Stable C (post r))
    (h : ∀ s r S, inv s → pre s → c s.redis = some (r, S) →
      C.guar s { s with redis := S } ∧ inv { s with redis := S } ∧
        post r { s with redis := S }) :
    Ensures inv C pre (redis c) post := by
  refine ensures_act hpre hpost fun s _ r s' hinv hs hr => ?_
  obtain ⟨⟨r, S⟩, hc, hr⟩ := Option.map_eq_some_iff.1 hr
  cases hr
  exact h s r S hinv hs hc

/-- A command that reads. -/
theorem ensures_read {c : Command Text Text β} {post : β → Coordination → Prop}
    (hpre : Stable C pre) (hpost : ∀ r, Stable C (post r)) (hrefl : ∀ s, C.guar s s)
    (hread : ∀ S r S', c S = some (r, S') → S' = S)
    (h : ∀ s r, inv s → pre s → c s.redis = some (r, s.redis) → post r s) :
    Ensures inv C pre (redis c) post := by
  refine ensures_redis hpre hpost fun s r S hinv hs hc => ?_
  cases hread _ _ _ hc
  exact ⟨hrefl s, hinv, h s r hinv hs hc⟩

theorem get_eq_some {S S' : Keyspace Text Text} {k : Text} {v : Option Text}
    (h : Redis.get k S = some (v, S')) : S' = S := by
  rw [Redis.get] at h
  split at h <;> cases h <;> rfl

/-- What is read of a key is what it has. -/
theorem get_congr {S S' : Keyspace Text Text} {k : Text} {v : Option Text}
    (h : Redis.get k S = some (v, S)) (hS : S'.find k = S.find k) :
    Redis.get k S' = some (v, S') := by
  rw [Redis.get] at h ⊢
  rw [hS]
  split at h <;> cases h <;> rfl

/-- `_change` does nothing or ends with one command, which changes a key that has what has
    been read. -/
theorem ensures_change {name : Text} {f : Option Text → Option Text}
    {post : Option Text → Coordination → Prop} (hpre : Stable C pre)
    (hpost : ∀ v, Stable C (post v)) (hrefl : ∀ s, C.guar s s)
    (hrely : ∀ s t, C.rely s t → Evolves s.redis t.redis)
    (hsame : ∀ s v, inv s → pre s → Redis.get name s.redis = some (v, s.redis) → f v = v →
      post v s)
    (hchange : ∀ s v S, inv s → pre s → Redis.get name s.redis = some (v, s.redis) → f v ≠ v →
      write name (f v) s.redis = some ((), S) →
      C.guar s { s with redis := S } ∧ inv { s with redis := S } ∧
        post v { s with redis := S }) :
    Ensures inv C pre (change name f) post := by
  refine ensures_loop (Q := post) hpre (fun s _ => hrefl s) ?_ fun v =>
    ensures_pure (hpost v) fun _ _ h => h
  -- the key is watched
  let watched (w : Watch Text) (s : Coordination) : Prop :=
    pre s ∧ w.key = name ∧ Watched w s.redis
  have hwatched (w : Watch Text) : Stable C (watched w) :=
    fun s t hs ht => ⟨hpre s t hs.1 ht, hs.2.1, hs.2.2.evolves (hrely s t ht)⟩
  -- the value has been read since
  let known (w : Watch Text) (v : Option Text) (s : Coordination) : Prop :=
    pre s ∧ w.key = name ∧ (f v = v → post v s) ∧ ∃ S, Watched w S ∧ Evolves S s.redis ∧
      Redis.get name S = some (v, S)
  have hknown (w : Watch Text) (v : Option Text) : Stable C (known w v) :=
    fun s t ⟨hs, hw, hv, S, hS⟩ ht => ⟨hpre s t hs ht, hw, fun h => hpost v s t (hv h) ht, S,
      hS.1, hS.2.1.trans (hrely s t ht), hS.2.2⟩
  refine ensures_bind (Q := watched) (ensures_read hpre hwatched hrefl ?_ ?_) fun w => ?_
  · intro S w S' h
    cases h
    rfl
  · intro s w _ hs h
    cases h
    exact ⟨hs, rfl, s.redis, .refl _, rfl, rfl⟩
  refine ensures_bind (Q := known w) (ensures_read (hwatched w) (hknown w) hrefl ?_ ?_)
    fun v => ?_
  · exact fun _ _ _ => get_eq_some
  · exact fun s v hinv hs h => ⟨hs.1, hs.2.1, hsame s v hinv hs.1 h, s.redis, hs.2.2, .refl _, h⟩
  dsimp only
  split_ifs with hv
  · exact ensures_pure (hknown w v) fun s _ hs => hs.2.2.1 hv
  -- a transaction that is executed finds what has been read
  refine ensures_bind (Q := fun executed s => if executed.isSome then post v s else pre s)
    (ensures_redis (hknown w v) ?_ ?_) fun executed => ?_
  · rintro (_ | _)
    · exact hpre
    · exact hpost v
  · intro s executed S hinv ⟨hs, hw, _, S₀, hS₀, hS, hget⟩ hexec
    rw [exec] at hexec
    split_ifs at hexec with hunmodified
    · obtain ⟨⟨_, S'⟩, hchanged, hexec⟩ := Option.map_eq_some_iff.1 hexec
      cases hexec
      have hfind := hS₀.find_eq hS hunmodified
      rw [hw] at hfind
      exact hchange s v _ hinv hs (get_congr hget hfind) hv hchanged
    · cases hexec
      exact ⟨hrefl s, hinv, hs⟩
  · cases executed with
    | none => exact ensures_pure hpre fun _ _ h => h
    | some _ => exact ensures_pure (hpost v) fun _ _ h => h

end Rules

/-! ## What is left of a change -/

section Changing

variable {α : Type} {name : Text} {f : Option Text → Option Text}
  {k : Option Text → Operation α} {s s' : Coordination} {c : Uuid} {p q : Operation α}

/-- The end of a turn of `_change`, when a value has been read. -/
def changeWatched (name : Text) (f : Option Text → Option Text) (w : Watch Text)
    (previous : Option Text) : Operation (Option (Option Text)) := do
  let value := f previous
  if value = previous then return some previous
  let executed ← redis (exec w (write name value))
  return executed.map fun _ => previous

/-- A turn of `_change`, once the key is watched. -/
def changeRead (name : Text) (f : Option Text → Option Text) (w : Watch Text) :
    Operation (Option (Option Text)) := do
  let previous ← redis (Redis.get name)
  changeWatched name f w previous

/-- A turn of `_change`. -/
def changeBody (name : Text) (f : Option Text → Option Text) :
    Operation (Option (Option Text)) := do
  let w ← redis (watch name)
  changeRead name f w

/-- What is left of `_change`, before what follows. -/
inductive Changing (name : Text) (f : Option Text → Option Text) (k : Option Text → Operation α) :
    Operation α → Prop
  | turn : Changing name f k (.loop (changeBody name f) k)
  | watching : Changing name f k ((changeBody name f).bind (Program.again (changeBody name f) k))
  | reading (w : Watch Text) :
      Changing name f k ((changeRead name f w).bind (Program.again (changeBody name f) k))
  | writing (w : Watch Text) (v : Option Text) (h : f v ≠ v) :
      Changing name f k ((changeWatched name f w v).bind (Program.again (changeBody name f) k))

/-- A step of `_change` is its last if it has read a value that stays or has written. -/
theorem Changing.step (h : Changing name f k p) (hp : p.step s c = some (s', q)) :
    Changing name f k q ∨ ∃ v, q = k v ∧
      (f v = v ∧ s' = s ∧ Redis.get name s.redis = some (v, s.redis) ∨
        f v ≠ v ∧ write name (f v) s.redis = some ((), s'.redis)) := by
  cases h with
  | turn =>
    cases hp
    exact .inl .watching
  | watching =>
    cases hp
    exact .inl (.reading _)
  | reading w =>
    obtain ⟨⟨v, t⟩, hget, hp⟩ := Option.map_eq_some_iff.1 hp
    obtain ⟨⟨v', S⟩, hv, hget⟩ := Option.map_eq_some_iff.1 hget
    cases hget
    cases get_eq_some hv
    cases hp
    by_cases hf : f v' = v'
    · refine .inr ⟨v', ?_, .inl ⟨hf, rfl, hv⟩⟩
      change (changeWatched name f w v').bind _ = _
      rw [changeWatched, if_pos hf]
      rfl
    · exact .inl (.writing w v' hf)
  | writing w v hf =>
    rw [changeWatched, if_neg hf] at hp
    obtain ⟨⟨executed, t⟩, hexec, hp⟩ := Option.map_eq_some_iff.1 hp
    obtain ⟨⟨executed', S⟩, hv, hexec⟩ := Option.map_eq_some_iff.1 hexec
    cases hexec
    cases hp
    rw [exec] at hv
    split_ifs at hv
    · obtain ⟨⟨_, S'⟩, hwrite, hv⟩ := Option.map_eq_some_iff.1 hv
      cases hv
      exact .inr ⟨v, rfl, .inr ⟨hf, hwrite⟩⟩
    · cases hv
      exact .inl .turn

/-- `_change` has not returned. -/
theorem Changing.ne_pure (h : Changing name f k p) (a : α) : p ≠ .pure a := by
  intro hp
  cases h with
  | turn => cases hp
  | watching => cases hp
  | reading w => cases hp
  | writing w v hf =>
    rw [changeWatched, if_neg hf] at hp
    cases hp

end Changing

end Hyperforge.Mcp
