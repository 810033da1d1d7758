import Mathlib.Data.Int.Notation
import Mathlib.Data.List.Nodup
import Mathlib.Data.Option.Basic
import Mathlib.Logic.Function.Basic
import Mathlib.Order.Lattice
import Mathlib.Order.Nat

/-!
# Redis

The keys of a Redis server, with strings or sets as their values and deadlines after which they
are gone (`Keyspace`), and the commands that read and change them, alone or together as a
transaction (`Command`). A command on a value of the wrong type fails. Time is in milliseconds.

Changing a key gives it a new revision. A transaction under `WATCH` (`exec`) is not
executed if the key that is watched has been changed, or is gone, since. So if
it is executed, what has been read of the key in between is what there is
(`Keyspace.Watched.find_eq`).
-/

namespace Redis

/-- The value of a key. -/
inductive Value (τ : Type)
  | string (s : τ)
  | set (members : { l : List τ // l.Nodup })

structure Entry (τ : Type) where
  value : Value τ
  deadline : Option ℕ

/-- The entry has not expired. -/
def Entry.alive {τ : Type} (now : ℕ) (e : Entry τ) : Bool :=
  match e.deadline with
  | none => true
  | some d => now < d

/-- The keys of a server, and how often each has been changed. -/
structure Keyspace (κ τ : Type) where
  now : ℕ
  entries : κ → Option (Entry τ)
  revision : κ → ℕ

/-- A command, or several in a transaction, with a reply. -/
abbrev Command (κ τ : Type) := StateT (Keyspace κ τ) Option

/-- What `WATCH` remembers of a key. -/
structure Watch (κ : Type) where
  key : κ
  revision : ℕ
  present : Bool

variable {κ τ β γ : Type}

namespace Keyspace

/-- The entry of a key, unless it has expired. -/
def find (S : Keyspace κ τ) (k : κ) : Option (Entry τ) := (S.entries k).filter (Entry.alive S.now)

/-- A key is changed. -/
def put [DecidableEq κ] (S : Keyspace κ τ) (k : κ) (e : Option (Entry τ)) : Keyspace κ τ where
  now := S.now
  entries := Function.update S.entries k e
  revision := Function.update S.revision k (S.revision k + 1)

/-- Time passes. -/
def tick (S : Keyspace κ τ) (d : ℕ) : Keyspace κ τ := { S with now := S.now + d }

end Keyspace

open Keyspace

variable [DecidableEq κ] [DecidableEq τ]

/-! ## Commands -/

/-- `GET` -/
def get (k : κ) : Command κ τ (Option τ) := fun S =>
  match S.find k with
  | none => some (none, S)
  | some ⟨.string s, _⟩ => some (some s, S)
  | some ⟨.set _, _⟩ => none

/-- `GETEX` with the seconds to live. -/
def getex (k : κ) (ttl : ℕ) : Command κ τ (Option τ) := fun S =>
  match S.find k with
  | none => some (none, S)
  | some ⟨.string s, _⟩ => some (some s, S.put k (some ⟨.string s, some (S.now + 1000 * ttl)⟩))
  | some ⟨.set _, _⟩ => none

/-- `SET` with the seconds to live. -/
def set (k : κ) (s : τ) (ttl : ℕ) : Command κ τ Unit := fun S =>
  some ((), S.put k (some ⟨.string s, some (S.now + 1000 * ttl)⟩))

/-- `SET` if there is no such key. -/
def setNx (k : κ) (s : τ) (ttl : ℕ) : Command κ τ Bool := fun S =>
  if (S.find k).isSome then some (false, S)
  else some (true, S.put k (some ⟨.string s, some (S.now + 1000 * ttl)⟩))

/-- `SET` that keeps the deadline. -/
def setKeepTtl (k : κ) (s : τ) : Command κ τ Unit := fun S =>
  some ((), S.put k (some ⟨.string s, (S.find k).bind Entry.deadline⟩))

/-- `DEL` -/
def del (k : κ) : Command κ τ Unit := fun S =>
  if (S.find k).isSome then some ((), S.put k none) else some ((), S)

/-- `EXISTS` -/
def exists_ (k : κ) : Command κ τ Bool := fun S => some ((S.find k).isSome, S)

/-- `SMEMBERS` -/
def smembers (k : κ) : Command κ τ (List τ) := fun S =>
  match S.find k with
  | none => some ([], S)
  | some ⟨.string _, _⟩ => none
  | some ⟨.set m, _⟩ => some (m.1, S)

/-- `SADD` -/
def sadd (k : κ) (x : τ) : Command κ τ Unit := fun S =>
  match S.find k with
  | none => some ((), S.put k (some ⟨.set ⟨[x], List.nodup_singleton x⟩, none⟩))
  | some ⟨.string _, _⟩ => none
  | some ⟨.set m, d⟩ =>
    if h : x ∈ m.1 then some ((), S)
    else some ((), S.put k (some ⟨.set ⟨x :: m.1, List.nodup_cons.2 ⟨h, m.2⟩⟩, d⟩))

/-- `SREM`: a set without members is gone. -/
def srem (k : κ) (xs : List τ) : Command κ τ Unit := fun S =>
  match S.find k with
  | none => some ((), S)
  | some ⟨.string _, _⟩ => none
  | some ⟨.set m, d⟩ =>
    let left := m.1.filter (· ∉ xs)
    if left = m.1 then some ((), S)
    else if left = [] then some ((), S.put k none)
    else some ((), S.put k (some ⟨.set ⟨left, m.2.filter _⟩, d⟩))

/-- `TTL`: the seconds to live, rounded. -/
def ttl (k : κ) : Command κ τ ℤ := fun S =>
  some (match S.find k with
    | none => -2
    | some ⟨_, none⟩ => -1
    | some ⟨_, some d⟩ => (d - S.now + 500) / 1000, S)

/-- `EXPIRE` -/
def expire (k : κ) (seconds : ℤ) : Command κ τ Unit := fun S =>
  match S.find k with
  | none => some ((), S)
  | some e => some ((), S.put k (some { e with deadline := some (S.now + 1000 * seconds).toNat }))

/-- `EXPIRE` with `GT`: only for a later deadline than there is. -/
def expireGt (k : κ) (seconds : ℕ) : Command κ τ Unit := fun S =>
  match S.find k with
  | none | some ⟨_, none⟩ => some ((), S)
  | some ⟨v, some d⟩ =>
    if d < S.now + 1000 * seconds then
      some ((), S.put k (some ⟨v, some (S.now + 1000 * seconds)⟩))
    else some ((), S)

/-- `WATCH` -/
def watch (k : κ) : Command κ τ (Watch κ) := fun S =>
  some (⟨k, S.revision k, (S.find k).isSome⟩, S)

/-- The watched key has neither been changed nor expired. -/
def Watch.Unmodified (w : Watch κ) (S : Keyspace κ τ) : Prop :=
  S.revision w.key = w.revision ∧ (w.present = true → (S.find w.key).isSome = true)

instance (w : Watch κ) (S : Keyspace κ τ) : Decidable (w.Unmodified S) := by
  unfold Watch.Unmodified
  infer_instance

/-- `MULTI`, the commands and `EXEC`, under `WATCH`. -/
def exec (w : Watch κ) (transaction : Command κ τ β) : Command κ τ (Option β) := fun S =>
  if w.Unmodified S then (transaction S).map fun r => (some r.1, r.2) else some (none, S)

/-! ## What commands change -/

section

variable {κ τ : Type}

theorem Entry.alive_of_le {e : Entry τ} {now now' : ℕ} (h : now ≤ now') (he : e.alive now' = true) :
    e.alive now = true := by
  obtain ⟨v, d⟩ := e
  cases d with
  | none => rfl
  | some d =>
    simp only [alive, decide_eq_true_eq] at he ⊢
    exact Nat.lt_of_le_of_lt h he

namespace Keyspace

theorem find_eq_some {S : Keyspace κ τ} {k : κ} {e : Entry τ} :
    S.find k = some e ↔ S.entries k = some e ∧ e.alive S.now = true := by
  rw [find, Option.filter_eq_some_iff]

/-- A later state of the keys: those whose revision is the same have not been changed. -/
structure Evolves (S S' : Keyspace κ τ) : Prop where
  now : S.now ≤ S'.now
  revision : ∀ k, S.revision k ≤ S'.revision k
  entries : ∀ k, S'.revision k = S.revision k → S'.entries k = S.entries k

/-- At once, only such keys have been changed. -/
structure Changes (K : κ → Prop) (S S' : Keyspace κ τ) : Prop where
  now : S'.now = S.now
  revision : ∀ k, S.revision k ≤ S'.revision k
  entries : ∀ k, S'.revision k = S.revision k → S'.entries k = S.entries k
  other : ∀ k, ¬K k → S'.revision k = S.revision k

variable {S S' S'' : Keyspace κ τ} {K K' : κ → Prop} {k : κ} {e : Entry τ}

theorem Evolves.refl (S : Keyspace κ τ) : Evolves S S := ⟨le_rfl, fun _ => le_rfl, fun _ _ => rfl⟩

theorem Evolves.trans (h : Evolves S S') (h' : Evolves S' S'') : Evolves S S'' where
  now := h.now.trans h'.now
  revision k := (h.revision k).trans (h'.revision k)
  entries k hk := by
    have hle := h.revision k
    have hle' := h'.revision k
    rw [h'.entries k (by omega), h.entries k (by omega)]

theorem evolves_tick (S : Keyspace κ τ) (d : ℕ) : Evolves S (S.tick d) :=
  ⟨Nat.le_add_right _ _, fun _ => le_rfl, fun _ _ => rfl⟩

theorem Evolves.find (h : Evolves S S') (hk : S'.revision k = S.revision k)
    (he : S'.find k = some e) : S.find k = some e := by
  rw [find_eq_some] at he ⊢
  exact ⟨h.entries k hk ▸ he.1, Entry.alive_of_le h.now he.2⟩

theorem Changes.evolves (h : Changes K S S') : Evolves S S' :=
  ⟨h.now.ge, h.revision, h.entries⟩

theorem Changes.refl (K : κ → Prop) (S : Keyspace κ τ) : Changes K S S :=
  ⟨rfl, fun _ => le_rfl, fun _ _ => rfl, fun _ _ => rfl⟩

theorem Changes.trans (h : Changes K S S') (h' : Changes K S' S'') : Changes K S S'' where
  now := h'.now.trans h.now
  revision k := (h.revision k).trans (h'.revision k)
  entries := (h.evolves.trans h'.evolves).entries
  other k hk := (h'.other k hk).trans (h.other k hk)

theorem Changes.mono (h : Changes K S S') (hK : ∀ k, K k → K' k) : Changes K' S S' :=
  { h with other := fun k hk => h.other k (mt (hK k) hk) }

theorem Changes.find (h : Changes K S S') (hk : ¬K k) : S'.find k = S.find k := by
  rw [Keyspace.find, Keyspace.find, h.entries k (h.other k hk), h.now]

/-- The key has been watched, in an earlier state of the keys. -/
def Watched (w : Watch κ) (S : Keyspace κ τ) : Prop :=
  ∃ S₀ : Keyspace κ τ, Evolves S₀ S ∧ S₀.revision w.key = w.revision ∧
    (S₀.find w.key).isSome = w.present

theorem Watched.evolves {w : Watch κ} (h : Watched w S) (hS : Evolves S S') : Watched w S' :=
  h.imp fun _ h => ⟨h.1.trans hS, h.2⟩

/-- What has been read of a watched key is still there if it is unmodified. -/
theorem Watched.find_eq {w : Watch κ} (h : Watched w S) (hS : Evolves S S')
    (hw : w.Unmodified S') : S'.find w.key = S.find w.key := by
  obtain ⟨S₀, h₀, hrevision, hpresent⟩ := h
  have hle := h₀.revision w.key
  have hle' := hS.revision w.key
  have hS' : S'.revision w.key = S.revision w.key := by
    have := hw.1
    omega
  rcases hfind : S'.find w.key with _ | e
  · rcases hfind' : S.find w.key with _ | e
    · rfl
    · -- the key was there when it was watched, so it would have expired
      have hsome : w.present = true := by
        rw [← hpresent, h₀.find (by have := hw.1; omega) hfind']
        rfl
      have hfound := hw.2 hsome
      rw [hfind] at hfound
      cases hfound
  · rw [hS.find hS' hfind]

variable [DecidableEq κ]

@[simp]
theorem put_now (S : Keyspace κ τ) (k : κ) (e : Option (Entry τ)) : (S.put k e).now = S.now := rfl

theorem put_entries (S : Keyspace κ τ) (k l : κ) (e : Option (Entry τ)) :
    (S.put k e).entries l = if l = k then e else S.entries l := Function.update_apply ..

theorem put_revision (S : Keyspace κ τ) (k l : κ) (e : Option (Entry τ)) :
    (S.put k e).revision l = if l = k then S.revision k + 1 else S.revision l :=
  Function.update_apply ..

theorem find_put (S : Keyspace κ τ) (k l : κ) (e : Option (Entry τ)) :
    (S.put k e).find l = if l = k then e.filter (Entry.alive S.now) else S.find l := by
  rw [find, put_entries, put_now]
  split_ifs
  · rfl
  · rfl

theorem changes_put (S : Keyspace κ τ) (k : κ) (e : Option (Entry τ)) :
    Changes (· = k) S (S.put k e) where
  now := rfl
  revision l := by
    rw [put_revision]
    split_ifs with h
    · rw [h]
      exact Nat.le_succ _
    · exact le_rfl
  entries l hl := by
    rw [put_revision] at hl
    rw [put_entries]
    split_ifs at hl ⊢ with h
    · rw [h] at hl
      exact absurd hl (Nat.succ_ne_self _)
    · rfl
  other l hl := by rw [put_revision, if_neg hl]

end Keyspace

end

section Within

variable {κ τ β γ : Type} {K : κ → Prop} {k : κ}

/-- A command changes only such keys. -/
def Within (K : κ → Prop) (c : Command κ τ β) : Prop :=
  ∀ S r S', c S = some (r, S') → Changes K S S'

theorem bind_eq_some {c : Command κ τ β} {f : β → Command κ τ γ} {S S' : Keyspace κ τ} {r : γ} :
    (c >>= f) S = some (r, S') ↔ ∃ a S₁, c S = some (a, S₁) ∧ f a S₁ = some (r, S') := by
  rw [show (c >>= f) S = (c S).bind fun p => f p.1 p.2 from rfl, Option.bind_eq_some_iff]
  exact ⟨fun ⟨⟨a, S₁⟩, h⟩ => ⟨a, S₁, h⟩, fun ⟨a, S₁, h⟩ => ⟨⟨a, S₁⟩, h⟩⟩

theorem within_pure (r : β) : Within K (pure r : Command κ τ β) := by
  intro S _ _ h
  cases h
  exact .refl K S

theorem Within.bind {c : Command κ τ β} {f : β → Command κ τ γ} (hc : Within K c)
    (hf : ∀ a, Within K (f a)) : Within K (c >>= f) := by
  intro S r S' h
  obtain ⟨a, S₁, h₁, h₂⟩ := bind_eq_some.1 h
  exact (hc _ _ _ h₁).trans (hf a _ _ _ h₂)

theorem within_exec {c : Command κ τ β} (w : Watch κ) (hc : Within K c) :
    Within K (exec w c) := by
  intro S r S' h
  rw [exec] at h
  split_ifs at h
  · obtain ⟨⟨r, S₁⟩, hr, h⟩ := Option.map_eq_some_iff.1 h
    cases h
    exact hc _ _ _ hr
  · cases h
    exact .refl K S

variable [DecidableEq κ]

theorem within_put {S S' : Keyspace κ τ} {e : Option (Entry τ)} (hk : K k) (h : S' = S.put k e) :
    Changes K S S' :=
  h ▸ (changes_put S k e).mono fun _ h => h ▸ hk

theorem within_getex (ttl : ℕ) (hk : K k) : Within K (getex k ttl : Command κ τ _) := by
  intro S r S' h
  rw [getex] at h
  split at h <;> cases h
  · exact .refl K S
  · exact within_put hk rfl

theorem within_set (s : τ) (ttl : ℕ) (hk : K k) : Within K (set k s ttl) := by
  intro S r S' h
  cases h
  exact within_put hk rfl

theorem within_setNx (s : τ) (ttl : ℕ) (hk : K k) : Within K (setNx k s ttl) := by
  intro S r S' h
  rw [setNx] at h
  split_ifs at h <;> cases h
  · exact .refl K S
  · exact within_put hk rfl

theorem within_setKeepTtl (s : τ) (hk : K k) : Within K (setKeepTtl k s) := by
  intro S r S' h
  cases h
  exact within_put hk rfl

theorem within_del (hk : K k) : Within K (del k : Command κ τ _) := by
  intro S r S' h
  rw [del] at h
  split_ifs at h <;> cases h
  · exact within_put hk rfl
  · exact .refl K S

theorem within_expire (n : ℤ) (hk : K k) : Within K (expire k n : Command κ τ _) := by
  intro S r S' h
  rw [expire] at h
  split at h <;> cases h
  · exact .refl K S
  · exact within_put hk rfl

theorem within_expireGt (n : ℕ) (hk : K k) : Within K (expireGt k n : Command κ τ _) := by
  intro S r S' h
  rw [expireGt] at h
  split at h
  · cases h
    exact .refl K S
  · cases h
    exact .refl K S
  · split_ifs at h <;> cases h
    · exact within_put hk rfl
    · exact .refl K S

theorem within_sadd [DecidableEq τ] (x : τ) (hk : K k) : Within K (sadd k x) := by
  intro S r S' h
  rw [sadd] at h
  split at h
  · cases h
    exact within_put hk rfl
  · cases h
  · split_ifs at h <;> cases h
    · exact .refl K S
    · exact within_put hk rfl

theorem within_srem [DecidableEq τ] (xs : List τ) (hk : K k) : Within K (srem k xs) := by
  intro S r S' h
  rw [srem] at h
  split at h
  · cases h
    exact .refl K S
  · cases h
  · dsimp only at h
    split_ifs at h <;> cases h
    · exact .refl K S
    · exact within_put hk rfl
    · exact within_put hk rfl

end Within

/-! ## What commands do to the key that they change -/

section

variable {κ τ : Type}

/-- The members of a set. -/
def Keyspace.members (S : Keyspace κ τ) (k : κ) : List τ :=
  match S.find k with
  | some ⟨.set m, _⟩ => m.1
  | _ => []

/-- When a key expires. -/
def Keyspace.deadline (S : Keyspace κ τ) (k : κ) : Option ℕ := (S.find k).bind Entry.deadline

variable {S S' : Keyspace κ τ} {k : κ} {r : Unit}

theorem members_of_find {m : { l : List τ // l.Nodup }} {d : Option ℕ}
    (h : S.find k = some ⟨.set m, d⟩) : S.members k = m.1 := by
  rw [Keyspace.members, h]

theorem deadline_of_find {v : Value τ} {d : Option ℕ} (h : S.find k = some ⟨v, d⟩) :
    S.deadline k = d := by
  rw [Keyspace.deadline, h]
  rfl

theorem members_congr (h : S'.find k = S.find k) : S'.members k = S.members k := by
  rw [Keyspace.members, Keyspace.members, h]

theorem deadline_congr (h : S'.find k = S.find k) : S'.deadline k = S.deadline k := by
  rw [Keyspace.deadline, Keyspace.deadline, h]

theorem nodup_members (S : Keyspace κ τ) (k : κ) : (S.members k).Nodup := by
  rw [Keyspace.members]
  split
  · next m _ _ => exact m.2
  · exact List.nodup_nil

theorem alive_deadline {d : ℕ} (h : S.deadline k = some d) : S.now < d := by
  obtain ⟨e, he, hd⟩ := Option.bind_eq_some_iff.1 h
  have := (find_eq_some.1 he).2
  rw [Entry.alive, hd] at this
  exact of_decide_eq_true this

theorem smembers_eq_some {ids : List τ} (h : smembers k S = some (ids, S')) :
    S' = S ∧ ids = S.members k := by
  rw [smembers] at h
  split at h
  · next hk =>
    cases h
    exact ⟨rfl, by rw [Keyspace.members, hk]⟩
  · cases h
  · next hk =>
    cases h
    exact ⟨rfl, (members_of_find hk).symm⟩

variable [DecidableEq κ]

theorem getex_cases {ttl : ℕ} {v : Option τ} (h : getex k ttl S = some (v, S')) :
    S.find k = none ∧ v = none ∧ S' = S ∨ ∃ s d, S.find k = some ⟨.string s, d⟩ ∧ v = some s ∧
      S' = S.put k (some ⟨.string s, some (S.now + 1000 * ttl)⟩) := by
  rw [getex] at h
  split at h
  · next hk =>
    cases h
    exact .inl ⟨hk, rfl, rfl⟩
  · next s d hk =>
    cases h
    exact .inr ⟨s, d, hk, rfl, rfl⟩
  · cases h

theorem find_expire {n : ℤ} (h : expire k n S = some (r, S')) :
    S'.find k = ((S.find k).map fun e =>
      { e with deadline := some (S.now + 1000 * n).toNat }).filter (Entry.alive S.now) := by
  rw [expire] at h
  split at h
  · next hk =>
    cases h
    rw [hk]
    rfl
  · next e hk =>
    cases h
    rw [find_put, if_pos rfl, hk]
    rfl

theorem find_expireGt {n : ℕ} (h : expireGt k n S = some (r, S')) :
    S'.find k = (S.find k).map fun e =>
      { e with deadline := e.deadline.map (max · (S.now + 1000 * n)) } := by
  rw [expireGt] at h
  split at h
  · next hk =>
    cases h
    rw [hk]
    rfl
  · next v hk =>
    cases h
    rw [hk]
    rfl
  · next v d hk =>
    have halive := alive_deadline (deadline_of_find hk)
    split_ifs at h with hlt <;> cases h
    · rw [find_put, if_pos rfl, hk, Option.map_some, Option.map_some, max_eq_right hlt.le]
      exact Option.filter_some_pos (decide_eq_true (halive.trans hlt))
    · rw [hk, Option.map_some, Option.map_some, max_eq_left (not_lt.1 hlt)]

theorem find_setKeepTtl {s : τ} {e : Entry τ} (hk : S.find k = some e)
    (h : setKeepTtl k s S = some (r, S')) : S'.find k = some ⟨.string s, e.deadline⟩ := by
  cases h
  rw [find_put, if_pos rfl, hk]
  exact Option.filter_some_pos (find_eq_some.1 hk).2

theorem find_del (h : del k S = some (r, S')) : S'.find k = none := by
  rw [del] at h
  split_ifs at h with hk <;> cases h
  · rw [find_put, if_pos rfl]
    rfl
  · exact Option.not_isSome_iff_eq_none.1 hk

theorem find_setNx {s : τ} {ttl : ℕ} (httl : 0 < ttl) (h : setNx k s ttl S = some (true, S')) :
    S.find k = none ∧ S'.find k = some ⟨.string s, some (S.now + 1000 * ttl)⟩ := by
  rw [setNx] at h
  split_ifs at h with hk <;> cases h
  refine ⟨Option.not_isSome_iff_eq_none.1 hk, ?_⟩
  rw [find_put, if_pos rfl]
  exact Option.filter_some_pos (decide_eq_true (by omega))

/-- A key is read, and lives longer. -/
theorem find_getex {ttl : ℕ} {v : Option τ} (httl : 0 < ttl) (h : getex k ttl S = some (v, S'))
    (l : κ) : (S'.find l).map Entry.value = (S.find l).map Entry.value := by
  rcases getex_cases h with ⟨-, -, rfl⟩ | ⟨s, d, hk, -, rfl⟩
  · rfl
  · rw [find_put]
    split_ifs with hl
    · have halive : Entry.alive S.now ⟨.string s, some (S.now + 1000 * ttl)⟩ = true :=
        decide_eq_true (by omega)
      rw [hl, hk, Option.filter_some_pos halive]
      rfl
    · rfl

theorem members_expireGt {n : ℕ} (h : expireGt k n S = some (r, S')) :
    S'.members k = S.members k := by
  rw [Keyspace.members, Keyspace.members, find_expireGt h]
  rcases S.find k with _ | ⟨_ | _, _⟩ <;> rfl

theorem deadline_expireGt {n : ℕ} (h : expireGt k n S = some (r, S')) :
    S'.deadline k = (S.deadline k).map (max · (S.now + 1000 * n)) := by
  rw [Keyspace.deadline, Keyspace.deadline, find_expireGt h]
  rcases S.find k with _ | e <;> rfl

variable [DecidableEq τ]

theorem find_sadd {x : τ} (h : sadd k x S = some (r, S')) : ∃ m d,
    S'.find k = some ⟨.set m, d⟩ ∧ ∀ y, y ∈ m.1 ↔ y = x ∨ y ∈ S.members k := by
  rw [sadd] at h
  split at h
  · next hk =>
    cases h
    refine ⟨_, _, by rw [find_put, if_pos rfl]; rfl, fun y => ?_⟩
    rw [Keyspace.members, hk]
    simp
  · cases h
  · next m d hk =>
    rw [members_of_find hk]
    split_ifs at h with hx <;> cases h
    · refine ⟨m, d, hk, fun y => ⟨.inr, ?_⟩⟩
      rintro (rfl | hy)
      · exact hx
      · exact hy
    · refine ⟨⟨x :: m.1, List.nodup_cons.2 ⟨hx, m.2⟩⟩, d, ?_, fun y => List.mem_cons⟩
      rw [find_put, if_pos rfl]
      exact Option.filter_some_pos (find_eq_some.1 hk).2

theorem members_srem {xs : List τ} (h : srem k xs S = some (r, S')) :
    S'.members k = (S.members k).filter (· ∉ xs) := by
  rw [srem] at h
  split at h
  · next hk =>
    cases h
    rw [Keyspace.members, hk]
    rfl
  · cases h
  · next m d hk =>
    rw [members_of_find hk]
    dsimp only at h
    split_ifs at h with hsame hnil <;> cases h
    · rw [hsame, members_of_find hk]
    · rw [hnil, Keyspace.members, find_put, if_pos rfl]
      rfl
    · refine members_of_find (m := ⟨m.1.filter (· ∉ xs), m.2.filter _⟩) (d := d) ?_
      rw [find_put, if_pos rfl]
      exact Option.filter_some_pos (find_eq_some.1 hk).2

theorem mem_members_srem {xs : List τ} (h : srem k xs S = some (r, S')) {x : τ} :
    x ∈ S'.members k ↔ x ∈ S.members k ∧ x ∉ xs := by
  rw [members_srem h, List.mem_filter, decide_eq_true_eq]

/-- A set that has members left expires when it would have. -/
theorem deadline_srem {xs : List τ} (h : srem k xs S = some (r, S')) {x : τ}
    (hx : x ∈ S'.members k) : S'.deadline k = S.deadline k := by
  have hmembers := members_srem h
  rw [srem] at h
  split at h
  · cases h
    rfl
  · cases h
  · next m d hk =>
    rw [members_of_find hk] at hmembers
    dsimp only at h
    split_ifs at h with hsame hnil <;> cases h
    · rfl
    · rw [hmembers, hnil] at hx
      exact absurd hx List.not_mem_nil
    · rw [deadline_of_find hk]
      refine deadline_of_find (v := .set ⟨m.1.filter (· ∉ xs), m.2.filter _⟩) ?_
      rw [find_put, if_pos rfl]
      exact Option.filter_some_pos (find_eq_some.1 hk).2

end

end Redis
