import Hyperforge.Procedural.Rounds

/-!
# The artifacts of a run, at every moment

Whatever stops a run, the output directory is consistent (`Consistent`): every
file is complete, and `retained.json`, if it is there, names a graph that is
there too, with the fingerprint it should have, and which is the initial graph or
the candidate of an accepted round whose record is there, with the same score.

Between two operations (`Evolves`), nothing published is changed but the
pointer, which moves to the next accepted round: every round in between has been
rejected.
-/

namespace Hyperforge.Evolution

open Crash

variable {J S R P : Type} (env : Env J S R P)

/-- A record is there, of a round with this status. -/
def Recorded (v : Files J S) (roundId : ℕ) (status : RoundStatus) : Prop :=
  ∃ record, v (.round roundId) = some (some (.record record)) ∧ record.round = roundId ∧
    record.status = status

/-- The graph a pointer names: the initial one, or an accepted candidate with its score. -/
def Named (initialGraph : GraphData) (v : Files J S) (p : Pointer S) : Prop :=
  ∃ g, v (.graph p.fingerprint) = some (some (.graph g)) ∧ env.sha256 g.canonical = p.fingerprint ∧
    (p.round = 0 ∧ g = initialGraph.canonical ∨
      ∃ record candidate, v (.round p.round) = some (some (.record record)) ∧
        record.round = p.round ∧ record.status = .accepted ∧
        record.validation.score = p.validationScore ∧ record.candidate = some candidate ∧
        candidate.canonical = g)

structure Consistent (initialGraph : GraphData) (v : Files J S) : Prop where
  complete : ∀ n, v n ≠ some none
  named : ∀ c, v .retained = some c → ∃ p, c = some (.pointer p) ∧ Named env initialGraph v p

/-- Nothing published is changed, the pointer apart. -/
def Kept (v v' : Files J S) : Prop := ∀ n, n ≠ .retained → ∀ c, v n = some c → v' n = some c

/-- The pointer `p'` comes next after `p`: it gives the initial graph its score,
    or names the next accepted candidate. -/
def Succeeds (v' : Files J S) (p p' : Pointer S) : Prop :=
  (p.round = 0 ∧ p'.round = 0 ∧ p.validationScore = none ∧ p'.fingerprint = p.fingerprint) ∨
    (p.round < p'.round ∧ Recorded v' p'.round .accepted ∧
      ∀ r, p.round < r → r < p'.round → Recorded v' r .rejected)

/-- What an operation may change. -/
structure Evolves (initialGraph : GraphData) (v v' : Files J S) : Prop where
  kept : Kept v v'
  pointer : v' .retained = v .retained ∨ ∃ p', v' .retained = some (some (.pointer p')) ∧
    (v .retained = none ∧ p' = ⟨env.sha256 initialGraph.canonical, none, 0⟩ ∨
      ∃ p, v .retained = some (some (.pointer p)) ∧ Succeeds v' p p')

variable {env} {cfg : Config J} {ig : GraphData} {v v' : Files J S} {k : ℕ}

/-! ## Files that are kept -/

theorem Kept.refl (v : Files J S) : Kept v v := fun _ _ _ h => h

theorem Kept.trans {v'' : Files J S} (h : Kept v v') (h' : Kept v' v'') : Kept v v'' :=
  fun n hn c hc => h' n hn c (h n hn c hc)

theorem Recorded.kept {status : RoundStatus} (h : Recorded v k status) (hv : Kept v v') :
    Recorded v' k status := by
  obtain ⟨record, hr, h⟩ := h
  exact ⟨record, hv _ (by simp) _ hr, h⟩

theorem Named.kept {p : Pointer S} (h : Named env ig v p) (hv : Kept v v') :
    Named env ig v' p := by
  obtain ⟨g, hg, hfp, h⟩ := h
  refine ⟨g, hv _ (by simp) _ hg, hfp, h.imp_right ?_⟩
  rintro ⟨record, candidate, hr, h⟩
  exact ⟨record, candidate, hv _ (by simp) _ hr, h⟩

theorem kept_publish {n : Name} {doc : Document J S} (h : v n = none ∨ v n = some (some doc)) :
    Kept v (publish v n doc) := by
  intro m _ c hc
  by_cases hm : m = n
  · subst hm
    rcases h with h | h
    · rw [h] at hc
      cases hc
    · rw [← hc, h]
      exact Function.update_self ..
  · rw [Evolution.publish, Function.update_of_ne hm, hc]

theorem kept_point {p : Pointer S} : Kept v (publish v .retained (.pointer p)) :=
  fun _ hn c hc => by rw [publish, Function.update_of_ne hn, hc]

theorem complete_publish {n : Name} {doc : Document J S} (h : ∀ n, v n ≠ some none) :
    ∀ m, publish v n doc m ≠ some none := by
  intro m
  by_cases hm : m = n
  · subst hm
    rw [publish, Function.update_self]
    simp
  · rw [publish, Function.update_of_ne hm]
    exact h m

/-! ## Steps -/

/-- Between two steps. -/
def Sound (env : Env J S R P) (ig : GraphData) (s t : State J S) : Prop :=
  Consistent env ig t.files ∧ Evolves env ig s.files t.files

/-- Documents are published, and the pointer stays. -/
structure Adds (v v' : Files J S) : Prop where
  kept : Kept v v'
  retained : v' .retained = v .retained

variable {events : List (Event J S)} {s t : State J S}

/-- Publishing anything but a pointer. -/
theorem Step.sound_publish {n : Name} {doc : Document J S} (h : Step s (.publish n doc) t)
    (hn : n ≠ .retained) (hs : Consistent env ig s.files) :
    Sound env ig s t ∧ Adds s.files t.files ∧ t.files n = some (some doc) := by
  cases h with
  | publish h =>
    rename_i v l
    have hadds : Adds v (Evolution.publish v n doc) :=
      ⟨kept_publish h, Function.update_of_ne hn.symm _ _⟩
    refine ⟨⟨⟨complete_publish hs.complete, fun c hc => ?_⟩, hadds.kept, .inl hadds.retained⟩,
      hadds, Function.update_self ..⟩
    obtain ⟨p, rfl, hp⟩ := hs.named c (hadds.retained.symm.trans hc)
    exact ⟨p, rfl, hp.kept hadds.kept⟩

theorem Step.sound_log {f : Log J S → Log J S} (h : Step s (.log f) t)
    (hs : Consistent env ig s.files) : Sound env ig s t ∧ t.files = s.files := by
  cases h
  exact ⟨⟨hs, Kept.refl _, .inl rfl⟩, rfl⟩

/-- Moving the pointer. -/
theorem Step.sound_point {p' : Pointer S} (h : Step s (.point p') t)
    (hs : Consistent env ig s.files) (hp' : Named env ig s.files p')
    (hnext : s.files .retained = none ∧ p' = ⟨env.sha256 ig.canonical, none, 0⟩ ∨
      ∃ p, s.files .retained = some (some (.pointer p)) ∧ Succeeds s.files p p') :
    Sound env ig s t ∧ Kept s.files t.files ∧ t.files .retained = some (some (.pointer p')) := by
  cases h with
  | point =>
    rename_i v l
    have hk : Kept v (Evolution.publish v .retained (.pointer p')) := kept_point
    have hr : Evolution.publish v .retained (.pointer p') .retained = some (some (.pointer p')) :=
      Function.update_self ..
    refine ⟨⟨⟨complete_publish hs.complete, fun c hc => ?_⟩, hk, .inr ⟨p', hr, ?_⟩⟩, hk, hr⟩
    · obtain rfl := Option.some.inj (hr.symm.trans hc)
      exact ⟨p', rfl, hp'.kept hk⟩
    · refine hnext.imp_right ?_
      rintro ⟨p, hp, h | ⟨hlt, hacc, hrej⟩⟩
      · exact ⟨p, hp, .inl h⟩
      · exact ⟨p, hp, .inr ⟨hlt, hacc.kept hk, fun r h₁ h₂ => (hrej r h₁ h₂).kept hk⟩⟩

/-! ## Rounds -/

/-- Before round `k`: the rounds since the one the pointer names have been rejected. -/
structure Ready (env : Env J S R P) (ig : GraphData) (k : ℕ) (v : Files J S) : Prop where
  consistent : Consistent env ig v
  pointer : ∃ p, v .retained = some (some (.pointer p)) ∧ p.round < k ∧
    ∀ r, p.round < r → r < k → Recorded v r .rejected

theorem Ready.adds (h : Ready env ig k v) (hc : Consistent env ig v') (hv : Adds v v') :
    Ready env ig k v' := by
  obtain ⟨_, p, hp, hlt, hrej⟩ := h
  exact ⟨hc, p, hv.retained ▸ hp, hlt, fun r h₁ h₂ => (hrej r h₁ h₂).kept hv.kept⟩

/-- The round has been rejected. -/
theorem Ready.next (h : Ready env ig k v) (hr : Recorded v k .rejected) :
    Ready env ig (k + 1) v := by
  obtain ⟨hc, p, hp, hlt, hrej⟩ := h
  refine ⟨hc, p, hp, hlt.trans (Nat.lt_succ_self k), fun r h₁ h₂ => ?_⟩
  rcases Nat.lt_succ_iff_lt_or_eq.1 h₂ with h₂ | rfl
  · exact hrej r h₁ h₂
  · exact hr

theorem leads_rejectEvents {record : Record J S} (h : Ready env ig k s.files)
    (hround : record.round = k) (hstatus : record.status = .rejected) :
    (journal events).Leads (Sound env ig) (fun t => Ready env ig (k + 1) t.files) s
      (rejectEvents k record) := by
  intro s₁ h₁
  obtain ⟨hs₁, ha₁, hr₁⟩ := Step.sound_publish h₁ (by simp) h.consistent
  refine ⟨hs₁, fun s₂ h₂ => ?_⟩
  obtain ⟨hs₂, ha₂, _⟩ := Step.sound_publish h₂ (by simp) hs₁.1
  have hrec : Recorded s₁.files k .rejected := ⟨record, hr₁, hround, hstatus⟩
  exact ⟨hs₂, ((h.adds hs₁.1 ha₁).next hrec).adds hs₂.1 ha₂⟩

theorem leads_acceptEvents {record : Record J S} {candidate : ProceduralGraph} {score : S}
    (h : Ready env ig k s.files)
    (hg : s.files (.graph (env.fingerprint candidate)) =
      some (some (.graph candidate.data.canonical)))
    (hround : record.round = k) (hstatus : record.status = .accepted)
    (hscore : record.validation.score = some score)
    (hcandidate : record.candidate = some candidate.data) :
    (journal events).Leads (Sound env ig) (fun t => Ready env ig (k + 1) t.files) s
      (acceptEvents env k record candidate score) := by
  intro s₁ h₁
  obtain ⟨hs₁, ha₁, hr₁⟩ := Step.sound_publish h₁ (by simp) h.consistent
  obtain ⟨_, p, hp, hlt, hrej⟩ := h.adds hs₁.1 ha₁
  refine ⟨hs₁, fun s₂ h₂ => ?_⟩
  have hnamed : Named env ig s₁.files ⟨env.fingerprint candidate, some score, k⟩ := by
    refine ⟨candidate.data.canonical, ha₁.kept _ (by simp) _ hg, ?_, .inr ⟨record,
      candidate.data, hr₁, hround, hstatus, hscore, hcandidate, rfl⟩⟩
    rw [GraphData.canonical_canonical]
    rfl
  obtain ⟨hs₂, hk₂, hr₂⟩ := Step.sound_point h₂ hs₁.1 hnamed (.inr ⟨p, hp, .inr ⟨hlt,
    ⟨record, hr₁, hround, hstatus⟩, hrej⟩⟩)
  refine ⟨hs₂, hs₂.1, _, hr₂, Nat.lt_succ_self k, fun r h₁ h₂ => ?_⟩
  exact absurd h₂ (Nat.not_lt.2 (Nat.succ_le_of_lt h₁))

variable [LE S] [DecidableLE S]

theorem leads_concludeEvents {st : LoopState J S} {p : Proposing J S}
    (h : Ready env ig k s.files) :
    (journal events).Leads (Sound env ig) (fun t => Ready env ig (k + 1) t.files) s
      (concludeEvents env cfg st k p) := by
  rw [concludeEvents]
  cases p.outcome with
  | error pe => exact leads_rejectEvents h rfl rfl
  | ok candidate =>
    intro s₁ h₁
    obtain ⟨hs₁, ha₁, hg₁⟩ := Step.sound_publish h₁ (by simp) h.consistent
    refine ⟨hs₁, fun s₂ h₂ => ?_⟩
    obtain ⟨hs₂, hf₂⟩ := Step.sound_log h₂ hs₁.1
    have hready : Ready env ig k s₂.files := hf₂ ▸ h.adds hs₁.1 ha₁
    refine ⟨hs₂, ?_⟩
    rw [settleEvents]
    cases hv : (validation env cfg k candidate).score with
    | error e => exact leads_rejectEvents hready rfl (by simp [validatedRecord, hv])
    | ok score =>
      dsimp only
      split_ifs with hle
      · exact leads_acceptEvents hready (hf₂ ▸ hg₁) rfl (by simp [validatedRecord, hv, hle])
          (by simp [validatedRecord, hv]) rfl
      · exact leads_rejectEvents hready rfl (by simp [validatedRecord, hv, hle])

theorem leads_roundEvents {b : Boundary J S} (h : Ready env ig k s.files) :
    (journal events).Leads (Sound env ig) (fun t => Ready env ig (k + 1) t.files) s
      (roundEvents env cfg k b) := by
  intro s₁ h₁
  obtain ⟨hs₁, hf₁⟩ := Step.sound_log h₁ h.consistent
  refine ⟨hs₁, fun s₂ h₂ => ?_⟩
  obtain ⟨hs₂, hf₂⟩ := Step.sound_log h₂ hs₁.1
  have h : Ready env ig k s₂.files := by rwa [hf₂, hf₁]
  refine ⟨hs₂, (leads_concludeEvents h).append fun s₃ h₃ s₄ h₄ => ?_⟩
  obtain ⟨hs₄, hf₄⟩ := Step.sound_log h₄ h₃.consistent
  exact ⟨hs₄, show Ready env ig (k + 1) s₄.files by rwa [hf₄]⟩

/-! ## The whole run -/

/-- The initial graph is retained, without a score. -/
structure Initial (env : Env J S R P) (ig : GraphData) (graph : ProceduralGraph) (v : Files J S) :
    Prop where
  consistent : Consistent env ig v
  published : v (.graph (env.fingerprint graph)) = some (some (.graph graph.data.canonical))
  retained : v .retained = some (some (.pointer ⟨env.fingerprint graph, none, 0⟩))

omit [LE S] [DecidableLE S] in
/-- Naming the initial graph. -/
theorem named_initial {graph : ProceduralGraph} (hg : graph.data = ig)
    (h : v (.graph (env.fingerprint graph)) = some (some (.graph graph.data.canonical)))
    (score : Option S) : Named env ig v ⟨env.fingerprint graph, score, 0⟩ := by
  subst hg
  refine ⟨_, h, ?_, .inl ⟨rfl, rfl⟩⟩
  rw [GraphData.canonical_canonical]
  rfl

omit [LE S] [DecidableLE S] in
theorem consistent_empty : Consistent env ig (fun _ => none : Files J S) :=
  ⟨by simp, fun c hc => by cases hc⟩

omit [LE S] [DecidableLE S] in
theorem leads_prepareEvents {graph : ProceduralGraph} {m : Manifest J} (hg : graph.data = ig) :
    (journal events).Leads (Sound env ig) (fun t => Initial env ig graph t.files)
      (journal events).start (prepareEvents env graph m) := by
  intro s₁ h₁
  obtain ⟨hs₁, ha₁, _⟩ := Step.sound_publish h₁ (by simp) consistent_empty
  refine ⟨hs₁, fun s₂ h₂ => ?_⟩
  obtain ⟨hs₂, ha₂, hg₂⟩ := Step.sound_publish h₂ (by simp) hs₁.1
  refine ⟨hs₂, fun s₃ h₃ => ?_⟩
  have hnone : s₂.files .retained = none := ha₂.retained.trans ha₁.retained
  obtain ⟨hs₃, hk₃, hr₃⟩ := Step.sound_point h₃ hs₂.1 (named_initial hg hg₂ none)
    (.inl ⟨hnone, by subst hg; rfl⟩)
  exact ⟨hs₃, hs₃.1, hk₃ _ (by simp) _ hg₂, hr₃⟩

omit [LE S] [DecidableLE S] in
theorem leads_failedEvents {graph : ProceduralGraph} {v' : Evaluation J S} {e : Exc}
    (h : Consistent env ig s.files) :
    (journal events).Leads (Sound env ig) (fun _ => True) s (failedEvents env graph v' e) := by
  intro s₁ h₁
  obtain ⟨hs₁, hf₁⟩ := Step.sound_log h₁ h
  refine ⟨hs₁, fun s₂ h₂ => ⟨(Step.sound_publish h₂ (by simp) hs₁.1).1, trivial⟩⟩

omit [LE S] [DecidableLE S] in
theorem leads_baselineEvents {graph : ProceduralGraph} {v' : Evaluation J S} {score : S}
    (hg : graph.data = ig) (h : Initial env ig graph s.files) :
    (journal events).Leads (Sound env ig) (fun t => Ready env ig 1 t.files) s
      (baselineEvents env graph v' score) := by
  intro s₁ h₁
  obtain ⟨hs₁, hf₁⟩ := Step.sound_log h₁ h.consistent
  refine ⟨hs₁, fun s₂ h₂ => ?_⟩
  obtain ⟨hs₂, ha₂, _⟩ := Step.sound_publish h₂ (by simp) hs₁.1
  have hr₂ := ha₂.retained.trans ((congrFun hf₁ _).trans h.retained)
  have hg₂ := ha₂.kept _ (by simp) _ ((congrFun hf₁ _).trans h.published)
  refine ⟨hs₂, fun s₃ h₃ => ?_⟩
  obtain ⟨hs₃, _, hr₃⟩ := Step.sound_point h₃ hs₂.1 (named_initial hg hg₂ (some score))
    (.inr ⟨_, hr₂, .inl ⟨rfl, rfl, rfl, rfl⟩⟩)
  refine ⟨hs₃, fun s₄ h₄ => ?_⟩
  obtain ⟨hs₄, hf₄⟩ := Step.sound_log h₄ hs₃.1
  refine ⟨hs₄, hs₄.1, _, (congrFun hf₄ _).trans hr₃, Nat.one_pos, fun r h₁ h₂ => ?_⟩
  exact absurd h₁ (by dsimp only; omega)

theorem along_sound : (journal (evolveEvents env cfg ig)).Along (Sound env ig)
    (journal (evolveEvents env cfg ig)).start (evolveEvents env cfg ig) := by
  set J' := journal (evolveEvents env cfg ig)
  rw [evolveEvents]
  cases hp : prepare env cfg ig with
  | error e => trivial
  | ok o =>
    obtain ⟨graph, m⟩ := o
    have hg : graph.data = ig := (of_prepare hp).1
    cases hv : (baseline env cfg graph).score with
    | error e =>
      dsimp only
      rw [hv]
      exact ((leads_prepareEvents hg).append fun _ h => leads_failedEvents h.consistent).along
    | ok score =>
      dsimp only
      rw [hv]
      exact ((leads_prepareEvents hg).append fun _ h => (leads_baselineEvents hg h).append
        fun _ h => Journal.leads_loop (I := fun k _ (s : State J S) => Ready env ig k s.files)
          (fun _ _ _ h => leads_roundEvents h) _ 1 _ h).along

/-- Whatever an operation does, the directory evolves as it should. -/
theorem evolves_of_follows {w w' : World J S}
    (h : (journal (evolveEvents env cfg ig)).Follows w w') :
    Evolves env ig w.1.view w'.1.view := by
  obtain ⟨pre, s, hs, hw, hw' | ⟨e, t, ht, hst, hw'⟩⟩ := h
  · rw [hw.shows.view, hw'.shows.view]
    exact ⟨Kept.refl _, .inl rfl⟩
  · rw [hw.shows.view, hw'.shows.view]
    exact (along_sound.step ht.1 hs.2 hst).2

/-- The artifacts of a run after any of its operations, whatever fails: the
    directory is consistent, the pointer moves from an accepted round to the
    next, and what has been published, the pointer apart, never changes. -/
theorem evolve_artifacts (env : Env J S R P) (cfg : Config J) (initialGraph : GraphData)
    (outputExists : Bool) (fault : ℕ → Option Exc) :
    let run := start fault :: (evolve env cfg initialGraph outputExists).trace (start fault)
    (∀ w ∈ run, Consistent env initialGraph w.1.view) ∧
      run.IsChain (fun w w' => Evolves env initialGraph w.1.view w'.1.view) ∧
      run.Pairwise fun w w' => Kept w.1.view w'.1.view := by
  have hrun : (journal (evolveEvents env cfg initialGraph)).Performs _
    (evolve env cfg initialGraph outputExists) _ _ := performs_evolve
  have hchain := (hrun.isChain (at_start fault)).imp fun _ _ h => evolves_of_follows h
  refine ⟨fun w hw => ?_, hchain, ?_⟩
  · have hI (pre : List (Event J S)) (s : State J S)
        (hs : (journal (evolveEvents env cfg initialGraph)).Reached pre s) :
        Consistent env initialGraph s.files :=
      (along_sound.mono fun _ _ h => h.1).reached consistent_empty hs
    rcases List.mem_cons.1 hw with rfl | hw
    · exact (at_start fault).shows.view ▸ consistent_empty
    · obtain ⟨s, hs, hsw⟩ := hrun.of_mem_trace (at_start fault) hI w hw
      rwa [hsw.shows.view]
  · have : IsTrans (World J S) fun w w' => Kept w.1.view w'.1.view :=
      ⟨fun _ _ _ h h' => h.trans h'⟩
    exact List.isChain_iff_pairwise.1 (hchain.imp fun _ _ h => h.kept)

end Hyperforge.Evolution
