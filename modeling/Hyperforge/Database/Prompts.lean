import Hyperforge.Database.AgentManager

/-!
# Prompts of an agent

`get_prompts` selects from the table of prompts, but its condition is on the table of agents: if
the agent is there, what is returned are the prompts of all agents of all accounts
(`getPrompts_eq`). These are the prompts of the agent only where no other agent has any, and they
change with those of the others (`getPrompts_spec`).
-/

namespace Hyperforge.Database

variable {J A E : Type} {t t' : Tables J A E} {owner : Owner}

/-- The prompts that are stored for an agent. -/
def ownPrompts (owner : Owner) (t : Tables J A E) : List PromptConfig :=
  (Query.select t.prompts (·.owner = owner)).map PromptRow.config

/-- The tables have the same rows of an agent, and the same prompts for it. -/
structure SameFor (owner : Owner) (t t' : Tables J A E) : Prop where
  configs : Query.select t'.configs (·.owner = owner) = Query.select t.configs (·.owner = owner)
  prompts : Query.select t'.prompts (·.owner = owner) = Query.select t.prompts (·.owner = owner)

/-- The prompts of all accounts are returned, if the agent is there. -/
theorem getPrompts_eq (h : t.Valid) (owner : Owner) :
    run (getPrompts owner) t = (.ok (if owner ∈ t.configs.map ConfigRow.owner then
      t.prompts.map PromptRow.config else []), t) := by
  have hselect := Query.selectFrom_of_unique t.prompts h.configs owner
  rw [run, getPrompts, fetch]
  simp only [Bool.false_eq_true, if_false, World.send, hselect]
  split_ifs <;> rfl

/-- An agent is still there where the tables have the same rows of it. -/
theorem SameFor.mem_configs (h : SameFor owner t t') :
    owner ∈ t'.configs.map ConfigRow.owner ↔ owner ∈ t.configs.map ConfigRow.owner := by
  have hmem (t : Tables J A E) : owner ∈ t.configs.map ConfigRow.owner ↔
      ∃ c, c ∈ Query.select t.configs (·.owner = owner) := by
    simp [Query.select, List.mem_map]
  rw [hmem, hmem, h.configs]

/-- Another agent can be given a prompt. -/
theorem exists_otherPrompt (h : t.Valid) (owner : Owner) :
    ∃ t' p, t'.Valid ∧ SameFor owner t t' ∧ t'.prompts = t.prompts ++ [p] := by
  let other : Owner := ⟨owner.account ++ "'", owner.agentId⟩
  have hother : other ≠ owner := fun heq => by
    have hlength := congrArg (fun o => o.account.length) heq
    simp [other] at hlength
  have hconfig : ∃ t₁, t₁.Valid ∧ SameFor owner t t₁ ∧ t₁.prompts = t.prompts ∧
      other ∈ t₁.configs.map ConfigRow.owner := by
    by_cases hmem : other ∈ t.configs.map ConfigRow.owner
    · exact ⟨t, h, ⟨rfl, rfl⟩, rfl, hmem⟩
    · -- the other agent is added first
      have hexec : Statement.exec t (.insertConfig other [] ⟨none⟩) =
          some { t with configs := t.configs ++ [⟨other, [], ⟨none⟩⟩] } := by
        rw [Statement.exec, if_neg hmem]
      refine ⟨_, h.exec hexec, ⟨?_, rfl⟩, rfl, ?_⟩
      · simp [Query.select, List.filter_append, hother]
      · simp
  obtain ⟨t₁, hvalid, hsame, hprompts, hmem⟩ := hconfig
  have hexec : Statement.exec t₁ (.insertPrompt other ⟨"", "", "", none, none, none, none⟩) =
      some { t₁ with
        prompts := t₁.prompts ++ [⟨t₁.nextId, other, "", "", "", none, none, none⟩]
        nextId := t₁.nextId + 1 } := by
    rw [Statement.exec, if_pos hmem]
  refine ⟨_, _, hvalid.exec hexec, ⟨hsame.configs, ?_⟩, by rw [← hprompts]⟩
  rw [← hsame.prompts]
  simp [Query.select, List.filter_append, hother]

/-- What is returned are the prompts of the agent if and only if it is not there, or all prompts
    that there are belong to it; it does not depend on the others' if and only if the agent is
    not there. -/
theorem getPrompts_spec (h : t.Valid) (owner : Owner) :
    ((run (getPrompts owner) t).1 = .ok (ownPrompts owner t) ↔
      (owner ∈ t.configs.map ConfigRow.owner → ∀ p ∈ t.prompts, p.owner = owner)) ∧
    ((∀ t', t'.Valid → SameFor owner t t' →
        (run (getPrompts owner) t').1 = (run (getPrompts owner) t).1) ↔
      owner ∉ t.configs.map ConfigRow.owner) := by
  rw [getPrompts_eq h]
  refine ⟨⟨fun heq howner => ?_, fun hown => ?_⟩, fun hall howner => ?_,
    fun howner t' h' hsame => ?_⟩
  · rw [if_pos howner, ownPrompts, Except.ok.injEq] at heq
    -- as many prompts as there are in all
    have hlength := congrArg List.length heq
    rw [List.length_map, List.length_map, Query.select] at hlength
    exact fun p hp => of_decide_eq_true (List.length_filter_eq_length_iff.1 hlength.symm p hp)
  · rw [ownPrompts, Query.select]
    split_ifs with howner
    · rw [List.filter_eq_self.2 fun p hp => decide_eq_true (hown howner p hp)]
    · rw [List.filter_eq_nil_iff.2 fun p hp => ?_, List.map_nil]
      rintro heq
      exact howner (of_decide_eq_true heq ▸ h.promptOwner p hp)
  · obtain ⟨t', p, h', hsame, hprompts⟩ := exists_otherPrompt h owner
    have heq := hall t' h' hsame
    rw [getPrompts_eq h', if_pos howner, if_pos (hsame.mem_configs.2 howner), hprompts,
      Except.ok.injEq] at heq
    have hlength := congrArg List.length heq
    simp at hlength
  · rw [getPrompts_eq h', if_neg howner, if_neg fun howner' => howner (hsame.mem_configs.1 howner')]

/-- Two accounts, of which the second has a prompt or not. -/
def twoAccounts (prompts : List PromptRow) : Tables Unit Unit Unit where
  configs := [⟨⟨"a", "agent"⟩, [], ⟨none⟩⟩, ⟨⟨"b", "agent"⟩, [], ⟨none⟩⟩]
  workflows := []
  agents _ := []
  drivers := []
  prompts := prompts
  nextId := 1

def secret : PromptRow := ⟨0, ⟨"b", "agent"⟩, "secret", "", "The secret of b.", none, none, none⟩

theorem valid_twoAccounts {prompts : List PromptRow} (h : prompts ⊆ [secret]) :
    (twoAccounts prompts).Valid := by
  have howners : ([⟨"a", "agent"⟩, ⟨"b", "agent"⟩] : List Owner).Nodup := by decide
  refine ⟨howners, List.nodup_nil, List.nodup_nil, fun _ h => absurd h List.not_mem_nil,
    fun _ _ h => absurd h List.not_mem_nil, fun _ h => absurd h List.not_mem_nil, fun p hp => ?_,
    fun _ _ h => absurd h List.not_mem_nil, fun _ h => absurd h List.not_mem_nil⟩
  rw [List.mem_singleton.1 (h hp)]
  exact List.mem_cons_of_mem _ List.mem_cons_self

theorem getPrompts_spec_empty :
    ((run (getPrompts ⟨"a", "agent"⟩) (twoAccounts [])).1 =
        .ok (ownPrompts ⟨"a", "agent"⟩ (twoAccounts [])) ↔
      ((⟨"a", "agent"⟩ : Owner) ∈ (twoAccounts []).configs.map ConfigRow.owner →
        ∀ p ∈ (twoAccounts []).prompts, p.owner = ⟨"a", "agent"⟩)) ∧
    ((∀ t', t'.Valid → SameFor ⟨"a", "agent"⟩ (twoAccounts []) t' →
        (run (getPrompts ⟨"a", "agent"⟩) t').1 =
          (run (getPrompts ⟨"a", "agent"⟩) (twoAccounts [])).1) ↔
      (⟨"a", "agent"⟩ : Owner) ∉ (twoAccounts []).configs.map ConfigRow.owner) :=
  getPrompts_spec (valid_twoAccounts (List.nil_subset _)) _

/-- An account is given the prompt of another, until that removes it. -/
theorem foreign_prompt :
    (twoAccounts [secret]).Valid ∧ (twoAccounts []).Valid ∧
    SameFor ⟨"a", "agent"⟩ (twoAccounts [secret]) (twoAccounts []) ∧
    ownPrompts ⟨"a", "agent"⟩ (twoAccounts [secret]) = [] ∧
    (run (getPrompts ⟨"a", "agent"⟩) (twoAccounts [secret])).1 = .ok [secret.config] ∧
    (run (getPrompts ⟨"a", "agent"⟩) (twoAccounts [])).1 = .ok [] :=
  ⟨valid_twoAccounts (List.Subset.refl _), valid_twoAccounts (List.nil_subset _),
    ⟨rfl, by decide⟩, by decide, by decide +kernel, by decide +kernel⟩

end Hyperforge.Database
