import Hyperforge.HarnessSdk.Load

/-!
# Repaired conversations

What is loaded of a conversation is left of its blocks, each a message and the outputs after it
(`completeBlock`), and passes the check if each block does (`BlockValid`).

* `restores_iff`: the messages that are loaded pass the check, and the messages of the system and
  the user and the exchanges of the log that are complete are among them, if and only if the log is
  `Repairable`.
-/

namespace Hyperforge.HarnessSdk

open Json hiding Tree

variable {F : Type}

/-! ## Blocks -/

/-- What is left of a message and the outputs after it. -/
def completeBlock (b : HarnessMessage F × List (HarnessMessage F)) : List (HarnessMessage F) :=
  if b.1.Calls then if Completes b.1 b.2 then b.1 :: b.2 else [] else b.1 :: b.2

theorem not_calls_of_tool {m : HarnessMessage F} (h : m.role = .tool) : ¬m.Calls := by
  rintro ⟨hrole, -⟩
  cases hrole.symm.trans h

theorem completeToolHistory_append {lead : List (HarnessMessage F)} (hlead : ∀ m ∈ lead, isTool m)
    (messages : List (HarnessMessage F)) :
    completeToolHistory (lead ++ messages) = lead ++ completeToolHistory messages := by
  induction lead with
  | nil => rfl
  | cons m lead ih =>
    rw [List.forall_mem_cons] at hlead
    rw [List.cons_append, completeToolHistory, if_neg (not_calls_of_tool (isTool_iff.1 hlead.1)),
      ih hlead.2, List.cons_append]

theorem completeToolHistory_join {blocks : List (HarnessMessage F × List (HarnessMessage F))}
    (h : Runs.Separated isTool blocks) :
    completeToolHistory (Runs.join blocks) = blocks.flatMap completeBlock := by
  induction blocks with
  | nil =>
    rw [Runs.join_nil, completeToolHistory]
    rfl
  | cons b blocks ih =>
    obtain ⟨⟨-, hrun⟩, hblocks⟩ := Runs.separated_cons.1 h
    rw [Runs.join_cons, completeToolHistory, Runs.takeWhile_join hrun hblocks,
      Runs.dropWhile_join hrun hblocks, List.flatMap_cons, completeBlock, ih hblocks]
    dsimp only
    split_ifs
    · rfl
    · rfl
    · rw [completeToolHistory_append hrun, ih hblocks]
      rfl

/-! ### The check of blocks -/

section Check

variable (φ : FloatFormat F)

/-- What is checked of a message and the outputs after it. -/
def BlockValid (b : HarnessMessage F × List (HarnessMessage F)) : Prop :=
  (¬b.1.Calls → b.2 = []) ∧
    (b.1.Calls → Completes b.1 b.2 → (toolIds b.2).Nodup ∧ some [] ∉ toolIds b.2)

@[simp] theorem sentMessage_role (m : HarnessMessage F) : (sentMessage φ m).role = m.role := by
  rw [sentMessage]
  split <;> simp [*]

theorem sentMessage_toolCallId {m : HarnessMessage F} (h : m.role = .tool) :
    (sentMessage φ m).toolCallId = m.toolCallId := by
  rw [sentMessage, h]

theorem mem_callIds_sentMessage {m : HarnessMessage F} (h : m.role = .assistant) {id : Str} :
    id ∈ (sentMessage φ m).callIds ↔ some id ∈ m.expected ∧ id ≠ [] := by
  rw [sentMessage, h, SentMessage.callIds, HarnessMessage.expected, HarnessMessage.callIds]
  simp [Option.filter_eq_some_iff, ← and_assoc]

/-- Each of the outputs is for a call that is pending, and the others stay pending. -/
theorem validateFrom_outputs {outputs : List (HarnessMessage F)} (h : ∀ m ∈ outputs, isTool m)
    (index : ℕ) (pending : Finset Str) (rest : List SentMessage) :
    validateFrom index pending (outputs.map (sentMessage φ) ++ rest) = .ok () ↔
      (toolIds outputs).Nodup ∧ (∀ id ∈ toolIds outputs, ∃ t ∈ pending, id = some t) ∧
        validateFrom (index + outputs.length)
          (pending.filter fun t => some t ∉ toolIds outputs) rest = .ok () := by
  induction outputs generalizing index pending with
  | nil => simp [toolIds]
  | cons m outputs ih =>
    rw [List.forall_mem_cons] at h
    have hrole := isTool_iff.1 h.1
    rw [List.map_cons, List.cons_append, validateFrom, sentMessage_role, hrole]
    dsimp only
    rw [sentMessage_toolCallId φ hrole]
    cases hid : m.toolCallId with
    | none =>
      refine iff_of_false (by simp) fun hand => ?_
      obtain ⟨t, -, ht⟩ := hand.2.1 none (by simp [toolIds, hid])
      cases ht
    | some u =>
      dsimp only
      have hids : toolIds (m :: outputs) = some u :: toolIds outputs := by
        rw [toolIds, List.map_cons, hid, ← toolIds]
      have hfilter : ((pending.erase u).filter fun t => some t ∉ toolIds outputs) =
          pending.filter fun t => some t ∉ toolIds (m :: outputs) := by
        ext t
        simp [hids]
        tauto
      split_ifs with hu
      · rw [ih h.2, hfilter, hids, List.nodup_cons, List.forall_mem_cons, List.length_cons,
          Nat.add_right_comm, Nat.add_assoc]
        constructor
        · rintro ⟨hnodup, hpending, hrest⟩
          refine ⟨⟨fun hmem => ?_, hnodup⟩, ⟨⟨u, hu, rfl⟩, fun id hid => ?_⟩, hrest⟩
          · obtain ⟨t, ht, heq⟩ := hpending _ hmem
            cases heq
            exact Finset.notMem_erase u pending ht
          · obtain ⟨t, ht, rfl⟩ := hpending id hid
            exact ⟨t, Finset.mem_of_mem_erase ht, rfl⟩
        · rintro ⟨⟨hnot, hnodup⟩, ⟨-, hpending⟩, hrest⟩
          refine ⟨hnodup, fun id hmem => ?_, hrest⟩
          obtain ⟨t, ht, rfl⟩ := hpending id hmem
          refine ⟨t, Finset.mem_erase.2 ⟨?_, ht⟩, rfl⟩
          rintro rfl
          exact hnot hmem
      · refine iff_of_false (by simp) fun hand => ?_
        obtain ⟨t, ht, heq⟩ := hand.2.1 (some u) (by rw [hids]; exact List.mem_cons_self)
        cases heq
        exact hu ht

/-- Nothing may be pending before a message that is not an output, or at the end. -/
theorem validateFrom_pending {rest : List SentMessage} (h : ∀ m ∈ rest.head?, m.role ≠ .tool)
    (index : ℕ) (pending : Finset Str) :
    validateFrom index pending rest = .ok () ↔
      pending = ∅ ∧ validateFrom index ∅ rest = .ok () := by
  obtain rfl | hpending := Finset.eq_empty_or_nonempty pending
  · simp
  · refine iff_of_false (fun hok => ?_) fun hand => hpending.ne_empty hand.1
    cases rest with
    | nil => simp [validateFrom, hpending] at hok
    | cons m rest =>
      rw [validateFrom] at hok
      have hrole := h m rfl
      cases hm : m.role with
      | tool => exact hrole hm
      | system => simp [hm, hpending] at hok
      | user => simp [hm, hpending] at hok
      | assistant => simp [hm, hpending] at hok

end Check

section Blocks

variable (φ : FloatFormat F) {blocks : List (HarnessMessage F × List (HarnessMessage F))}

theorem head_completeBlocks (h : Runs.Separated isTool blocks) :
    ∀ m ∈ ((blocks.flatMap completeBlock).map (sentMessage φ)).head?, m.role ≠ .tool := by
  induction blocks with
  | nil => simp
  | cons b blocks ih =>
    obtain ⟨⟨hhead, -⟩, hblocks⟩ := Runs.separated_cons.1 h
    rw [List.flatMap_cons, completeBlock]
    split_ifs
    · simpa using isTool_eq_false_iff.1 hhead
    · exact ih hblocks
    · simpa using isTool_eq_false_iff.1 hhead

/-- A message that is not an output, with nothing pending. -/
theorem validateFrom_cons {m : HarnessMessage F} (h : m.role ≠ .tool) (index : ℕ)
    (rest : List SentMessage) :
    validateFrom index ∅ (sentMessage φ m :: rest) =
      validateFrom (index + 1) (if m.Calls then (sentMessage φ m).callIds else ∅) rest := by
  rw [validateFrom, sentMessage_role]
  cases hm : m.role with
  | tool => exact absurd hm h
  | system => simp [HarnessMessage.Calls, hm]
  | user => simp [HarnessMessage.Calls, hm]
  | assistant =>
    dsimp only
    rw [if_neg Finset.not_nonempty_empty]
    split_ifs with hcalls
    · rfl
    · have hnil : m.toolCalls = [] := by
        by_contra hne
        exact hcalls ⟨hm, by simpa using hne⟩
      have hids : (sentMessage φ m).callIds = ∅ := by
        rw [sentMessage, hm, SentMessage.callIds, hnil]
        rfl
      rw [hids]

theorem validateFrom_blocks (h : Runs.Separated isTool blocks) (index : ℕ) :
    validateFrom index ∅ ((blocks.flatMap completeBlock).map (sentMessage φ)) = .ok () ↔
      ∀ b ∈ blocks, BlockValid b := by
  induction blocks generalizing index with
  | nil => simp [validateFrom]
  | cons b blocks ih =>
    obtain ⟨⟨hhead, hrun⟩, hblocks⟩ := Runs.separated_cons.1 h
    have hrole := isTool_eq_false_iff.1 hhead
    rw [List.forall_mem_cons, List.flatMap_cons, completeBlock, BlockValid]
    split_ifs with hcalls hcompletes
    · -- the outputs are checked against the calls
      rw [List.map_append, List.map_cons, List.cons_append, validateFrom_cons φ hrole,
        if_pos hcalls, validateFrom_outputs φ hrun,
        validateFrom_pending (head_completeBlocks φ hblocks), ih hblocks]
      have hmem (t : Str) : t ∈ (sentMessage φ b.1).callIds ↔ some t ∈ toolIds b.2 ∧ t ≠ [] := by
        rw [mem_callIds_sentMessage φ hcalls.1, hcompletes.2, List.mem_toFinset]
      have hnone : none ∉ toolIds b.2 := by
        rw [← List.mem_toFinset, ← hcompletes.2, HarnessMessage.expected]
        simp
      constructor
      · rintro ⟨hnodup, hpending, -, hrest⟩
        refine ⟨⟨absurd hcalls, fun _ _ => ⟨hnodup, fun hempty => ?_⟩⟩, hrest⟩
        obtain ⟨t, ht, heq⟩ := hpending _ hempty
        exact ((hmem t).1 ht).2 (Option.some.inj heq).symm
      · rintro ⟨⟨-, hvalid⟩, hrest⟩
        obtain ⟨hnodup, hempty⟩ := hvalid hcalls hcompletes
        refine ⟨hnodup, fun id hid => ?_, ?_, hrest⟩
        · cases id with
          | none => exact absurd hid hnone
          | some t => exact ⟨t, (hmem t).2 ⟨hid, fun ht => hempty (ht ▸ hid)⟩, rfl⟩
        · refine Finset.filter_eq_empty_iff.2 fun t ht hnot => ?_
          exact hnot ((hmem t).1 ht).1
    · rw [List.nil_append, ih hblocks]
      exact (and_iff_right ⟨absurd hcalls, fun _ hc => absurd hc hcompletes⟩).symm
    · rw [List.map_append, List.map_cons, List.cons_append, validateFrom_cons φ hrole,
        if_neg hcalls, validateFrom_outputs φ hrun,
        validateFrom_pending (head_completeBlocks φ hblocks), ih hblocks]
      constructor
      · rintro ⟨-, hpending, -, hrest⟩
        refine ⟨⟨fun _ => ?_, fun hc => absurd hc hcalls⟩, hrest⟩
        refine List.eq_nil_iff_forall_not_mem.2 fun m hm => ?_
        obtain ⟨t, ht, -⟩ := hpending _ (List.mem_map_of_mem hm)
        exact Finset.notMem_empty t ht
      · rintro ⟨⟨hnil, -⟩, hrest⟩
        rw [hnil hcalls]
        exact ⟨List.nodup_nil, List.forall_mem_nil _, Finset.filter_empty _, hrest⟩

/-- What is loaded passes if no output comes first and the blocks do. -/
theorem validate_completeToolHistory {lead : List (HarnessMessage F)}
    (hlead : ∀ m ∈ lead, isTool m) (h : Runs.Separated isTool blocks) :
    validateToolHistory ((completeToolHistory (lead ++ Runs.join blocks)).map (sentMessage φ)) =
        .ok () ↔
      lead = [] ∧ ∀ b ∈ blocks, BlockValid b := by
  rw [completeToolHistory_append hlead, completeToolHistory_join h, List.map_append,
    validateToolHistory, validateFrom_outputs φ hlead,
    validateFrom_pending (head_completeBlocks φ h), validateFrom_blocks φ h]
  constructor
  · rintro ⟨-, hpending, -, hvalid⟩
    refine ⟨List.eq_nil_iff_forall_not_mem.2 fun m hm => ?_, hvalid⟩
    obtain ⟨t, ht, -⟩ := hpending _ (List.mem_map_of_mem hm)
    exact Finset.notMem_empty t ht
  · rintro ⟨rfl, hvalid⟩
    exact ⟨List.nodup_nil, List.forall_mem_nil _, Finset.filter_empty _, hvalid⟩

end Blocks

/-! ## The runs of the log and the blocks -/

section Correspondence

variable {before after : List (Entry F)} {s : Entry F × List (Entry F)}
  {run : List (HarnessMessage F)}

theorem following_eq (h : after.takeWhile (fun x => isTool x.message) = s.2) :
    following before s.1 after = s.2.filter fun o => ¬Waits (before ++ [s.1]) o := by
  rw [following, h]

theorem Places.mem_toolIds (h : Places before s run)
    (hafter : after.takeWhile (fun x => isTool x.message) = s.2) (id : Option Str) :
    id ∈ toolIds run ↔ id ∈ answers before s.1 after := by
  obtain ⟨outputs, -, -, hmem, rfl⟩ := h
  rw [← following_eq hafter, answers, Finset.mem_union, List.mem_toFinset, Finset.mem_image,
    toolIds, List.map_append, List.mem_append, ← toolIds, ← toolIds, hmem]
  simp only [eq_comm]

theorem Places.completes_iff (h : Places before s run)
    (hafter : after.takeWhile (fun x => isTool x.message) = s.2) :
    Completes s.1.message run ↔ Answered before s.1 after := by
  have hset : (toolIds run).toFinset = answers before s.1 after := by
    ext id
    rw [List.mem_toFinset, h.mem_toolIds hafter]
  rw [Completes, Answered, hset]

theorem Places.eq_nil_iff (h : Places before s run)
    (hafter : after.takeWhile (fun x => isTool x.message) = s.2) :
    run = [] ↔ awaited before s.1 = ∅ ∧ following before s.1 after = [] := by
  obtain ⟨outputs, -, -, hmem, rfl⟩ := h
  rw [← following_eq hafter, List.append_eq_nil_iff, messagesOf, List.map_eq_nil_iff]
  refine and_congr_left fun _ => ?_
  constructor
  · rintro rfl
    refine Finset.eq_empty_of_forall_notMem fun t ht => ?_
    exact List.not_mem_nil ((hmem (some t)).2 ⟨t, ht, rfl⟩)
  · intro hempty
    refine List.eq_nil_iff_forall_not_mem.2 fun m hm => ?_
    obtain ⟨t, ht, -⟩ := (hmem m.toolCallId).1 (List.mem_map_of_mem hm)
    rw [hempty] at ht
    exact Finset.notMem_empty t ht

theorem Places.nodup_iff (h : Places before s run)
    (hafter : after.takeWhile (fun x => isTool x.message) = s.2) :
    (toolIds run).Nodup ↔ (toolIds (messagesOf (following before s.1 after))).Nodup ∧
      ∀ id ∈ awaited before s.1, some id ∉ toolIds (messagesOf (following before s.1 after)) := by
  obtain ⟨outputs, -, hnodup, hmem, rfl⟩ := h
  rw [← following_eq hafter, toolIds, List.map_append, ← toolIds, ← toolIds, List.nodup_append]
  constructor
  · rintro ⟨-, hfollowing, hdisjoint⟩
    exact ⟨hfollowing, fun id hid hf => hdisjoint _ ((hmem _).2 ⟨id, hid, rfl⟩) _ hf rfl⟩
  · rintro ⟨hfollowing, hdisjoint⟩
    refine ⟨hnodup, hfollowing, fun id hid id' hid' heq => ?_⟩
    obtain ⟨t, ht, rfl⟩ := (hmem id).1 hid
    exact hdisjoint t ht (heq ▸ hid')

/-- The conditions on the outputs after a message. -/
def HeadValid (before : List (Entry F)) (e : Entry F) (after : List (Entry F)) : Prop :=
  (¬e.message.Calls → awaited before e = ∅ ∧ following before e after = []) ∧
    (e.message.Calls → Answered before e after →
      (toolIds (messagesOf (following before e after))).Nodup ∧
      (∀ id ∈ awaited before e, some id ∉ toolIds (messagesOf (following before e after))) ∧
      some [] ∉ answers before e after)

theorem Places.valid_iff (h : Places before s run)
    (hafter : after.takeWhile (fun x => isTool x.message) = s.2) :
    BlockValid (s.1.message, run) ↔ HeadValid before s.1 after := by
  rw [BlockValid, HeadValid, h.eq_nil_iff hafter, h.completes_iff hafter, h.nodup_iff hafter,
    h.mem_toolIds hafter, and_assoc]

end Correspondence

theorem takeWhile_followers {s : Entry F × List (Entry F)}
    {segments : List (Entry F × List (Entry F))}
    (h : Runs.Separated (fun e => isTool e.message) (s :: segments)) :
    (s.2 ++ Runs.join segments).takeWhile (fun x => isTool x.message) = s.2 :=
  Runs.takeWhile_join (Runs.separated_cons.1 h).1.2 (Runs.separated_cons.1 h).2

/-- The block of a run of the log. -/
theorem Placed.split {before : List (Entry F)} {segments : List (Entry F × List (Entry F))}
    {blocks : List (HarnessMessage F × List (HarnessMessage F))}
    (h : Placed before segments blocks) {segments₁ segments₂ : List (Entry F × List (Entry F))}
    {s : Entry F × List (Entry F)} (heq : segments = segments₁ ++ s :: segments₂) :
    ∃ blocks₁ run blocks₂, blocks = blocks₁ ++ (s.1.message, run) :: blocks₂ ∧
      blocks₁.map Prod.fst = segments₁.map (·.1.message) ∧
      blocks₂.map Prod.fst = segments₂.map (·.1.message) ∧
      Places (before ++ Runs.join segments₁) s run := by
  induction h generalizing segments₁ with
  | nil => simp at heq
  | @cons before s' run segments blocks places rest ih =>
    cases segments₁ with
    | nil =>
      cases heq
      exact ⟨[], run, blocks, rfl, rfl, rest.heads, by simpa using places⟩
    | cons s₁ segments₁ =>
      cases heq
      obtain ⟨blocks₁, run', blocks₂, rfl, hheads₁, hheads₂, hplaces⟩ := ih rfl
      refine ⟨(s'.1.message, run) :: blocks₁, run', blocks₂, rfl, ?_, hheads₂, ?_⟩
      · rw [List.map_cons, List.map_cons, hheads₁]
      · rwa [Runs.join_cons, ← List.cons_append, ← List.append_assoc]

/-- What holds of the blocks holds of the runs of the log. -/
theorem Placed.forall_iff {before : List (Entry F)} {segments : List (Entry F × List (Entry F))}
    {blocks : List (HarnessMessage F × List (HarnessMessage F))}
    (h : Placed before segments blocks)
    (hsegments : Runs.Separated (fun e => isTool e.message) segments) :
    (∀ b ∈ blocks, BlockValid b) ↔ ∀ segments₁ s segments₂, segments = segments₁ ++ s :: segments₂ →
      HeadValid (before ++ Runs.join segments₁) s.1 (s.2 ++ Runs.join segments₂) := by
  constructor
  · rintro hvalid segments₁ s segments₂ rfl
    obtain ⟨blocks₁, run, blocks₂, rfl, -, -, hplaces⟩ := h.split rfl
    have hafter := takeWhile_followers (Runs.separated_append.1 hsegments).2
    exact (hplaces.valid_iff hafter).1 (hvalid _ (List.mem_append_right _ List.mem_cons_self))
  · intro hvalid
    induction h with
    | nil => exact List.forall_mem_nil _
    | @cons before s run segments blocks places rest ih =>
      refine List.forall_mem_cons.2 ⟨?_, ?_⟩
      · have hhead := hvalid [] s segments rfl
        rw [Runs.join_nil, List.append_nil] at hhead
        exact (places.valid_iff (takeWhile_followers hsegments)).2 hhead
      · refine ih (Runs.separated_cons.1 hsegments).2 fun segments₁ s' segments₂ heq => ?_
        have hlater := hvalid (s :: segments₁) s' segments₂ (by rw [heq, List.cons_append])
        rwa [Runs.join_cons, ← List.cons_append, ← List.append_assoc] at hlater

/-! ## What is kept -/

section Kept

variable {before : List (Entry F)} {s : Entry F × List (Entry F)}
  {segments : List (Entry F × List (Entry F))} {run : List (HarnessMessage F)}
  {blocks : List (HarnessMessage F × List (HarnessMessage F))}

theorem exchange_eq_some {m : HarnessMessage F} {after outputs : List (HarnessMessage F)} :
    exchange m after = some outputs ↔ (m.Calls ∧ none ∉ m.callIds ∧
      (∀ o ∈ outputs, o.role = .tool) ∧ m.expected = (toolIds outputs).toFinset) ∧
      after.take m.expected.card = outputs := by
  rw [exchange, Option.ite_none_right_eq_some, Option.some_inj]
  constructor
  · rintro ⟨hand, rfl⟩
    exact ⟨hand, rfl⟩
  · rintro ⟨hand, rfl⟩
    exact ⟨hand, rfl⟩

theorem keptHead_of_tool {m : HarnessMessage F} (h : m.role = .tool)
    (after : List (HarnessMessage F)) : keptHead m after = [] := by
  rw [keptHead, h]
  dsimp only
  have hnone : exchange m after = none := by
    rw [exchange, if_neg fun hand => not_calls_of_tool h hand.1]
  rw [hnone]

theorem kept_of_tools {outputs : List (HarnessMessage F)} (h : ∀ m ∈ outputs, isTool m)
    (rest : List (HarnessMessage F)) : kept (outputs ++ rest) = kept rest := by
  induction outputs with
  | nil => rfl
  | cons m outputs ih =>
    rw [List.forall_mem_cons] at h
    rw [List.cons_append, kept, keptHead_of_tool (isTool_iff.1 h.1), List.nil_append, ih h.2]

theorem mem_kept_append {m : HarnessMessage F} {ms : List (HarnessMessage F)} (h : m ∈ kept ms)
    (earlier : List (HarnessMessage F)) : m ∈ kept (earlier ++ ms) := by
  induction earlier with
  | nil => exact h
  | cons m' earlier ih => exact List.mem_append_right _ ih

/-- The outputs of an exchange stand after its message. -/
theorem Places.exchange_sublist (h : Places before s run)
    (hsegments : Runs.Separated (fun e => isTool e.message) (s :: segments))
    {outputs : List (HarnessMessage F)}
    (hexchange : exchange s.1.message (messagesOf (s.2 ++ Runs.join segments)) = some outputs) :
    outputs.Sublist run := by
  obtain ⟨⟨-, -, htool, hexpected⟩, htake⟩ := exchange_eq_some.1 hexchange
  obtain ⟨outputs', -, -, -, rfl⟩ := h
  rw [messagesOf, ← List.map_take] at htake
  have hall : ∀ e ∈ (s.2 ++ Runs.join segments).take s.1.message.expected.card,
      isTool e.message = true := fun e he =>
    isTool_iff.2 (htool e.message (htake ▸ List.mem_map_of_mem he))
  rw [Runs.take_join (Runs.separated_cons.1 hsegments).2 hall] at htake
  subst htake
  refine List.Sublist.trans (List.Sublist.map _ ?_) (List.sublist_append_right _ _)
  -- none of them waits, as its call has been made
  have hself : ((s.2.take s.1.message.expected.card).filter
      fun o => decide ¬Waits (before ++ [s.1]) o) = s.2.take s.1.message.expected.card := by
    refine List.filter_eq_self.2 fun o ho => decide_eq_true ?_
    rintro ⟨-, -, hnot⟩
    refine hnot ?_
    rw [messagesOf_append, messagesOf_singleton, called_append, called_singleton]
    have hid : o.message.toolCallId ∈ s.1.message.expected := by
      rw [hexpected, List.mem_toFinset]
      exact List.mem_map_of_mem (List.mem_map_of_mem ho)
    rw [HarnessMessage.expected, List.mem_toFinset] at hid
    exact .inr (List.mem_of_mem_filter hid)
  rw [← hself]
  exact (List.take_sublist _ _).filter _

/-- What is to be kept of a run of the log is left of its block. -/
theorem Places.kept_sublist (h : Places before s run)
    (hsegments : Runs.Separated (fun e => isTool e.message) (s :: segments))
    (hanswered : (exchange s.1.message (messagesOf (s.2 ++ Runs.join segments))).isSome →
      Answered before s.1 (s.2 ++ Runs.join segments)) :
    (keptHead s.1.message (messagesOf (s.2 ++ Runs.join segments))).Sublist
      (completeBlock (s.1.message, run)) := by
  have hafter := takeWhile_followers hsegments
  rw [keptHead]
  split
  case h_1 hrole =>
    rw [completeBlock, if_neg fun hcalls => by cases hrole.symm.trans hcalls.1]
    exact (List.nil_sublist run).cons_cons _
  case h_2 hrole =>
    rw [completeBlock, if_neg fun hcalls => by cases hrole.symm.trans hcalls.1]
    exact (List.nil_sublist run).cons_cons _
  case h_3 =>
    split
    case h_1 outputs hexchange =>
      have hcompletes := (h.completes_iff hafter).2 (hanswered (by rw [hexchange]; rfl))
      rw [completeBlock, if_pos (exchange_eq_some.1 hexchange).1.1, if_pos hcompletes]
      exact (h.exchange_sublist hsegments hexchange).cons_cons _
    case h_2 => exact List.nil_sublist _

theorem Placed.kept_sublist (h : Placed before segments blocks)
    (hsegments : Runs.Separated (fun e => isTool e.message) segments)
    (hanswered : ∀ segments₁ s segments₂, segments = segments₁ ++ s :: segments₂ →
      (exchange s.1.message (messagesOf (s.2 ++ Runs.join segments₂))).isSome →
      Answered (before ++ Runs.join segments₁) s.1 (s.2 ++ Runs.join segments₂)) :
    (kept (messagesOf (Runs.join segments))).Sublist (blocks.flatMap completeBlock) := by
  induction h with
  | nil => exact List.Sublist.refl _
  | @cons before s run segments blocks places rest ih =>
    have hrest := (Runs.separated_cons.1 hsegments).2
    have hhead := hanswered [] s segments rfl
    rw [Runs.join_nil, List.append_nil] at hhead
    have hkept := ih hrest fun segments₁ s' segments₂ heq hsome => by
      have hlater := hanswered (s :: segments₁) s' segments₂ (by rw [heq, List.cons_append]) hsome
      rwa [Runs.join_cons, ← List.cons_append, ← List.append_assoc] at hlater
    have hkeptRest : kept (messagesOf (s.2 ++ Runs.join segments)) =
        kept (messagesOf (Runs.join segments)) := by
      rw [messagesOf_append]
      refine kept_of_tools (fun m hm => ?_) _
      obtain ⟨o, ho, rfl⟩ := List.mem_map.1 hm
      exact (Runs.separated_cons.1 hsegments).1.2 o ho
    rw [Runs.join_cons, List.flatMap_cons]
    change (keptHead s.1.message (messagesOf (s.2 ++ Runs.join segments)) ++
      kept (messagesOf (s.2 ++ Runs.join segments))).Sublist _
    rw [hkeptRest]
    exact (places.kept_sublist hsegments hhead).append hkept

/-- An exchange that is left has been answered: its message is not another one of the log. -/
theorem Placed.answered_of_kept {lead : List (Entry F)} (h : Placed lead segments blocks)
    (hsegments : Runs.Separated (fun e => isTool e.message) segments)
    (hblocks : Runs.Separated isTool blocks)
    (hobject : ((lead ++ Runs.join segments).map (·.message.object)).Nodup)
    (hkept : (kept (messagesOf (lead ++ Runs.join segments))).Sublist
      (blocks.flatMap completeBlock))
    {segments₁ segments₂ : List (Entry F × List (Entry F))}
    (heq : segments = segments₁ ++ s :: segments₂)
    (hsome : (exchange s.1.message (messagesOf (s.2 ++ Runs.join segments₂))).isSome) :
    Answered (lead ++ Runs.join segments₁) s.1 (s.2 ++ Runs.join segments₂) := by
  subst heq
  obtain ⟨outputs, hexchange⟩ := Option.isSome_iff_exists.1 hsome
  have hcalls := (exchange_eq_some.1 hexchange).1.1
  obtain ⟨blocks₁, run, blocks₂, rfl, hheads₁, hheads₂, hplaces⟩ := h.split rfl
  have hlog : lead ++ Runs.join (segments₁ ++ s :: segments₂) =
      (lead ++ Runs.join segments₁) ++ s.1 :: (s.2 ++ Runs.join segments₂) := by
    rw [Runs.join_append, Runs.join_cons, List.append_assoc]
  rw [hlog] at hobject hkept
  -- the message is one of those to be kept
  have hmem : s.1.message ∈ (blocks₁ ++ (s.1.message, run) :: blocks₂).flatMap completeBlock := by
    refine hkept.subset ?_
    rw [messagesOf_append]
    refine mem_kept_append (List.mem_append_left _ ?_) _
    change s.1.message ∈ keptHead s.1.message (messagesOf (s.2 ++ Runs.join segments₂))
    rw [keptHead, hcalls.1, hexchange]
    exact List.mem_cons_self
  obtain ⟨b, hb, hmb⟩ := List.mem_flatMap.1 hmem
  -- and so the head of a block
  have hhead : s.1.message = b.1 ∧ Completes b.1 b.2 := by
    have hrun := (hblocks b hb).2
    have hnot : s.1.message ∉ b.2 := fun hin =>
      not_calls_of_tool (isTool_iff.1 (hrun _ hin)) hcalls
    rw [completeBlock] at hmb
    split_ifs at hmb with hb₁ hb₂
    · exact ⟨(List.mem_cons.1 hmb).resolve_right hnot, hb₂⟩
    · cases hmb
    · have hmessage := (List.mem_cons.1 hmb).resolve_right hnot
      exact absurd (hmessage ▸ hcalls) hb₁
  have hafter := takeWhile_followers (Runs.separated_append.1 hsegments).2
  -- which is its own, as no other message of the log is the same object
  rw [List.map_append, List.map_cons, List.nodup_middle, List.nodup_cons, ← List.map_append]
    at hobject
  have hother {segments' : List (Entry F × List (Entry F))}
      {blocks' : List (HarnessMessage F × List (HarnessMessage F))}
      (hheads : blocks'.map Prod.fst = segments'.map (·.1.message))
      (hsub : ∀ e ∈ Runs.join segments', e ∈ (lead ++ Runs.join segments₁) ++
        (s.2 ++ Runs.join segments₂)) : b ∉ blocks' := by
    intro hmem'
    have hin : b.1 ∈ segments'.map (·.1.message) := hheads ▸ List.mem_map_of_mem hmem'
    obtain ⟨s', hs', heq⟩ := List.mem_map.1 hin
    refine hobject.1 (List.mem_map.2 ⟨s'.1, hsub s'.1 ?_, ?_⟩)
    · exact List.mem_flatMap.2 ⟨s', hs', List.mem_cons_self⟩
    · rw [heq, ← hhead.1]
  obtain hb | hb := List.mem_append.1 hb
  · exact absurd hb (hother hheads₁ fun e he =>
      List.mem_append_left _ (List.mem_append_right _ he))
  obtain rfl | hb := List.mem_cons.1 hb
  · exact (hplaces.completes_iff hafter).1 hhead.2
  · exact absurd hb (hother hheads₂ fun e he =>
      List.mem_append_right _ (List.mem_append_right _ he))

end Kept

/-! ## The condition on the runs of the log -/

theorem repairable_join {lead : List (Entry F)} {segments : List (Entry F × List (Entry F))}
    (hlead : ∀ e ∈ lead, isTool e.message)
    (hsegments : Runs.Separated (fun e => isTool e.message) segments) :
    Repairable (lead ++ Runs.join segments) ↔
      (∀ e ∈ lead, e.added) ∧
      (∀ segments₁ s segments₂, segments = segments₁ ++ s :: segments₂ →
        HeadValid (lead ++ Runs.join segments₁) s.1 (s.2 ++ Runs.join segments₂)) ∧
      ∀ segments₁ s segments₂, segments = segments₁ ++ s :: segments₂ →
        (exchange s.1.message (messagesOf (s.2 ++ Runs.join segments₂))).isSome →
        Answered (lead ++ Runs.join segments₁) s.1 (s.2 ++ Runs.join segments₂) := by
  have hheads := Runs.forall_heads_iff hlead hsegments (P := HeadValid)
  have hexchanges := Runs.forall_heads_iff hlead hsegments (P := fun before e after =>
    (exchange e.message (messagesOf after)).isSome → Answered before e after)
  rw [← hheads, ← hexchanges]
  have hcalls (e : Entry F) (h : e.message.Calls) : isTool e.message = false :=
    isTool_eq_false_iff.2 fun htool => not_calls_of_tool htool h
  constructor
  · intro h
    refine ⟨?_, fun before e after heq he => ⟨?_, ?_⟩, fun before e after heq _ hsome => ?_⟩
    · have hleading := h.leading
      rwa [Runs.takeWhile_join hlead hsegments] at hleading
    · exact h.alone before e after heq (isTool_eq_false_iff.1 he)
    · exact h.answered before e after heq
    · obtain ⟨outputs, hexchange⟩ := Option.isSome_iff_exists.1 hsome
      exact h.exchanged before e after heq (exchange_eq_some.1 hexchange).1.1 hsome
  · rintro ⟨hleading, hvalid, hanswered⟩
    refine ⟨?_, fun before e after heq he => ?_, fun before e after heq he => ?_,
      fun before e after heq he => ?_⟩
    · rwa [Runs.takeWhile_join hlead hsegments]
    · exact (hvalid before e after heq (isTool_eq_false_iff.2 he)).1
    · exact (hvalid before e after heq (hcalls e he)).2 he
    · exact hanswered before e after heq (hcalls e he)

/-- The messages that are loaded pass the check, and those to be kept are among them, if and only
    if the log is repairable. -/
theorem restores_iff (φ : FloatFormat F) (events : List (HarnessEvent F))
    (htool : ∀ e ∈ written events, e.message.role = .tool → e.message.toolCalls = [])
    (hobject : ((written events).map (·.message.object)).Nodup) :
    Restores φ events ↔ Repairable (written events) := by
  have hbase := pairwise_written events
  obtain ⟨lead, segments, hlead, hsegments, hlog⟩ :=
    Runs.exists_join (fun e => isTool e.message) (written events)
  rw [hlog] at htool hobject hbase
  obtain ⟨blocks, hplaced, hblocks, hmessages⟩ := replay_join hlead hsegments htool hbase
  have hleft : ∀ m ∈ messagesOf (lead.filter fun e => !e.added), isTool m := by
    intro m hm
    obtain ⟨e, he, rfl⟩ := List.mem_map.1 hm
    exact hlead e (List.mem_of_mem_filter he)
  have hnil : messagesOf (lead.filter fun e => !e.added) = [] ↔ ∀ e ∈ lead, e.added := by
    rw [messagesOf, List.map_eq_nil_iff, List.filter_eq_nil_iff]
    simp
  rw [Restores, load, replay_eq, hlog, hmessages, validate_completeToolHistory φ hleft hblocks,
    hnil, repairable_join hlead hsegments, and_assoc]
  refine and_congr_right fun hleading => ?_
  rw [hnil.2 hleading, List.nil_append, completeToolHistory_join hblocks,
    hplaced.forall_iff hsegments]
  refine and_congr_right fun _ => ?_
  constructor
  · rintro hkept segments₁ s segments₂ heq hsome
    exact hplaced.answered_of_kept hsegments hblocks hobject hkept heq hsome
  · intro hanswered
    rw [messagesOf_append, kept_of_tools fun m hm => ?_]
    · exact hplaced.kept_sublist hsegments hanswered
    · obtain ⟨e, he, rfl⟩ := List.mem_map.1 hm
      exact hlead e he

/-! ## Logs -/

def logMessage (object : ℕ) (role : MessageRole) (calls : List Str) (toolCallId : Option Str) :
    HarnessMessage ℤ where
  object := object
  role := role
  content := letter 'm'
  toolCalls := calls.map fun id => ⟨some id, letter 'f', []⟩
  toolCallId := toolCallId

def added (messages : List (HarnessMessage ℤ)) : List (HarnessEvent ℤ) :=
  messages.map fun m => ⟨none, .messageAdded m⟩

/-- An output that comes before its call. -/
def early : List (HarnessEvent ℤ) :=
  added [logMessage 0 .tool [] (some (letter 'c')), logMessage 1 .assistant [letter 'c'] none]

theorem restores_early : Restores zeroFloats early ↔ Repairable (written early) :=
  restores_iff zeroFloats early (by decide) (by decide)

/-- An output that comes after its call, with a message of the user in between. -/
def interrupted : List (HarnessMessage ℤ) :=
  [logMessage 0 .assistant [letter 'c'] none, logMessage 1 .user [] none,
    logMessage 2 .tool [] (some (letter 'c'))]

/-- It is left after the message of the user. -/
theorem not_restores_interrupted : ¬Restores zeroFloats (added interrupted) := by
  rintro ⟨hvalid, -⟩
  have hmessages : (replay (added interrupted)).messages =
      [] ++ Runs.join [(logMessage 0 .assistant [letter 'c'] none, []),
        (logMessage 1 .user [] none, [logMessage 2 .tool [] (some (letter 'c'))])] := rfl
  rw [load, hmessages, validate_completeToolHistory zeroFloats (List.forall_mem_nil _)] at hvalid
  · have hblock := hvalid.2 _ (List.mem_cons_of_mem _ List.mem_cons_self)
    cases hblock.1 fun hcalls => by cases hcalls.1
  · simp [Runs.Separated, isTool, logMessage]

end Hyperforge.HarnessSdk
