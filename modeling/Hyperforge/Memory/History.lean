import Hyperforge.Library.Transition
import Hyperforge.Models
import Mathlib.Data.Finset.Card
import Mathlib.Tactic.SplitIfs

/-!
# The history of a session

The questions and answers of a session are saved in a conversation of NucliaDB, which is read in
pages, and the last of them in a cached list, which expires. The history of the session is the
cached list, if there is one, or else it is read from the conversation, and cached.

* `historyRecent_conforming`: the history is what has been saved last, as long as no list is begun
  in the cache by a pair that is not the first one, or extended by what it has, nothing is saved
  while the conversation is read, and no page of it ends between a question and its answer;
* `not_historyRecent_onePage`: a pair that is saved when the list has expired hides those before.
-/

namespace Hyperforge.Memory

open Transition

abbrev QA := HistoryQuestionAnswer

inductive MessageType
  | question
  | answer
deriving DecidableEq

structure Message where
  type : MessageType
  text : String
deriving DecidableEq

/-- What is added to the conversation for a question and its answer. -/
def content (qa : QA) : List Message := [⟨.question, qa.question⟩, ⟨.answer, qa.answer⟩]

/-- How the messages of a conversation are divided into pages. -/
structure Pagination where
  pages : List Message → List (List Message)
  flatten_pages : ∀ messages, (pages messages).flatten = messages

/-! ## The code -/

def limit : ℕ := 20

/-- `append` of the cached list: only the last ones are left. -/
def appendAll (cached qas : List QA) : List QA :=
  (cached ++ qas).drop ((cached ++ qas).length - limit)

/-- A message of a page, given the last question on the page. -/
def readMessage (state : Option Message × List QA) (message : Message) :
    Option Message × List QA :=
  match message.type, state.1 with
  | .question, _ => (some message, state.2)
  | .answer, some question =>
    if question.text ≠ "" ∧ message.text ≠ "" then
      (some question, state.2 ++ [⟨question.text, message.text⟩])
    else state
  | .answer, none => state

/-- The pairs that have been read, with those of another page. -/
def readPage (qas : List QA) (page : List Message) : List QA :=
  (page.foldl readMessage (none, qas)).2

/-- How far a call has come. -/
inductive Call
  | idle
  /-- `save` has cached the pair. -/
  | saving (qa : QA)
  /-- `qa_history` has found no list in the cache. -/
  | missed
  /-- `qa_history` has read some of the pages. -/
  | reading (count page : ℕ) (qas : List QA)
  /-- `qa_history` is about to cache what it has read. -/
  | filling (count page : ℕ) (qas : List QA)
deriving DecidableEq

/-- The call reads the history from the conversation. -/
def Call.Reads : Call → Prop
  | .idle | .saving _ => False
  | .missed | .reading _ _ _ | .filling _ _ _ => True

structure Session where
  /-- The cached list, which is there unless it is empty. -/
  cache : List QA
  messages : List Message
  calls : ℕ → Call
  /-- The pairs of the calls of `save`, as they were cached. -/
  saved : List QA

inductive Label
  | save (c : ℕ) (qa : QA)
  | addMessages (c : ℕ)
  | get (c : ℕ)
  | getResource (c : ℕ)
  | getPage (c : ℕ)
  | append (c : ℕ)
  | finish (c : ℕ)
  | expire
deriving DecidableEq

namespace Session

def initial : Session where
  cache := []
  messages := []
  calls _ := .idle
  saved := []

variable (π : Pagination) (s : Session)

def setCall (c : ℕ) (call : Call) : Session :=
  { s with calls := Function.update s.calls c call }

/-- The state after an operation on the cache or the conversation: `none` where it does not take
    place. Questions and answers that are saved are not empty. -/
def step (s : Session) : Label → Option Session
  | .save c qa =>
    if s.calls c = .idle ∧ qa.question ≠ "" ∧ qa.answer ≠ "" then
      some { s.setCall c (.saving qa) with
        cache := appendAll s.cache [qa]
        saved := s.saved ++ [qa] }
    else none
  | .addMessages c =>
    match s.calls c with
    | .saving qa => some { s.setCall c .idle with messages := s.messages ++ content qa }
    | _ => none
  | .get c =>
    if s.calls c = .idle then
      if s.cache.isEmpty then some (s.setCall c .missed) else some s
    else none
  | .getResource c =>
    match s.calls c with
    | .missed =>
      if s.messages.isEmpty then some (s.setCall c .idle)
      else some (s.setCall c (.reading (π.pages s.messages).length 0 []))
    | _ => none
  | .getPage c =>
    match s.calls c with
    | .reading count page qas =>
      if page < count then
        match (π.pages s.messages)[page]? with
        | some messages =>
          if (readPage qas messages).isEmpty then
            some (s.setCall c (.reading count (page + 1) (readPage qas messages)))
          else some (s.setCall c (.filling count (page + 1) (readPage qas messages)))
        | none => some (s.setCall c (.reading count (page + 1) qas))
      else none
    | _ => none
  | .append c =>
    match s.calls c with
    | .filling count page qas =>
      some { s.setCall c (.reading count page qas) with cache := appendAll s.cache qas }
    | _ => none
  | .finish c =>
    match s.calls c with
    | .reading count page _ => if page < count then none else some (s.setCall c .idle)
    | _ => none
  | .expire => some { s with cache := [] }

/-- What `qa_history` returns, if an operation is the last one of a call of it. -/
def returned (s : Session) : Label → Option (List QA)
  | .get c => if s.calls c = .idle ∧ ¬s.cache.isEmpty then some s.cache else none
  | .getResource c => if s.calls c = .missed ∧ s.messages.isEmpty then some [] else none
  | .finish c =>
    match s.calls c with
    | .reading count page qas => if page < count then none else some qas
    | _ => none
  | _ => none

/-! ## What is asked for -/

/-- The pairs are the last ones that have been saved, and enough of them. -/
def Recent (saved qas : List QA) : Prop := qas <:+ saved ∧ min limit saved.length ≤ qas.length

def system : System Session Label := .ofStep initial (step π)

/-- In the runs of a system, the history is what has been saved last. -/
def HistoryRecent (S : System Session Label) : Prop :=
  ∀ s, S.Reachable s → ∀ l t, S.step s l t → ∀ qas, s.returned l = some qas → Recent s.saved qas

/-- No call is in progress. -/
def Quiet : Prop := ∀ c, s.calls c = .idle

/-- No call reads the history from the conversation. -/
def Settled : Prop := ∀ c, ¬(s.calls c).Reads

/-- The messages that have been added are those of the pairs that were saved before this one. -/
def Next (qa : QA) : Prop :=
  ∃ added later, s.saved = added ++ qa :: later ∧ s.messages = added.flatMap content

/-- No page ends between a question and its answer. -/
def Aligned : Prop :=
  ∃ pages : List (List QA), π.pages s.messages = pages.map (List.flatMap content)

/-- An operation conforms: no pair is saved, and no cached list returned, while the history is
    read from the conversation, which begins when no call is in progress; a pair is cached where
    there is a list, or as the first one of the session; messages are added in the order in which
    the pairs are saved; what has been read is cached where there is no list, or when enough has
    been saved; and the pages are of whole pairs. -/
def Conforms (s : Session) : Label → Prop
  | .save _ _ => s.Settled ∧ (s.cache = [] → s.saved = [])
  | .addMessages c => ∀ qa, s.calls c = .saving qa → s.Next qa
  | .get _ => if s.cache = [] then s.Quiet else s.Settled
  | .getResource _ => s.Aligned π
  | .append _ => s.cache = [] ∨ limit ≤ s.saved.length
  | _ => True

/-- The runs of which the operations conform. -/
def conforming : System Session Label where
  init s := s = initial
  step s l t := s.step π l = some t ∧ s.Conforms π l

end Session


/-! ## Reading the conversation -/

/-- Neither the question nor the answer is empty, as in what is saved. -/
def Whole (qa : QA) : Prop := qa.question ≠ "" ∧ qa.answer ≠ ""

theorem foldl_content {qa : QA} (h : Whole qa) (state : Option Message × List QA) :
    (content qa).foldl readMessage state =
      (some ⟨.question, qa.question⟩, state.2 ++ [qa]) := by
  have hread : readMessage (some ⟨.question, qa.question⟩, state.2) ⟨.answer, qa.answer⟩ =
      (some ⟨.question, qa.question⟩, state.2 ++ [qa]) := if_pos h
  rw [content, List.foldl_cons, List.foldl_cons, List.foldl_nil]
  exact hread

theorem foldl_flatMap_content {qas : List QA} (h : ∀ qa ∈ qas, Whole qa)
    (state : Option Message × List QA) :
    ((qas.flatMap content).foldl readMessage state).2 = state.2 ++ qas := by
  induction qas generalizing state with
  | nil => exact (List.append_nil _).symm
  | cons qa qas ih =>
    rw [List.forall_mem_cons] at h
    rw [List.flatMap_cons, List.foldl_append, foldl_content h.1, ih h.2, List.append_assoc,
      List.singleton_append]

/-- All the pairs of a page are read, if they are whole. -/
theorem readPage_flatMap {qas : List QA} (h : ∀ qa ∈ qas, Whole qa) (read : List QA) :
    readPage read (qas.flatMap content) = read ++ qas :=
  foldl_flatMap_content h (none, read)

theorem flatMap_content_injective : Function.Injective (List.flatMap content) := by
  intro qas
  induction qas with
  | nil =>
    intro qas' h
    cases qas' with
    | nil => rfl
    | cons => cases h
  | cons qa qas ih =>
    intro qas' h
    cases qas' with
    | nil => cases h
    | cons qa' qas' =>
      simp only [List.flatMap_cons, content, List.cons_append, List.nil_append, List.cons.injEq,
        Message.mk.injEq, true_and] at h
      obtain ⟨hquestion, hanswer, h⟩ := h
      have hqa : qa = qa' := by
        cases qa
        cases qa'
        exact congr (congrArg HistoryQuestionAnswer.mk hquestion) hanswer
      rw [hqa, ih h]

theorem flatMap_flatten (pages : List (List QA)) :
    pages.flatten.flatMap content = (pages.map (List.flatMap content)).flatten := by
  rw [List.flatten_eq_flatMap, List.flatMap_assoc]
  rfl

/-! ## The cached list -/

namespace Session

variable (π : Pagination) (s : Session)

theorem Recent.refl (saved : List QA) : Recent saved saved :=
  ⟨List.suffix_refl _, Nat.min_le_right _ _⟩

/-- A list that has the last ones still does when a pair is saved, and appended to it. -/
theorem Recent.append {saved cached : List QA} (h : Recent saved cached) (qa : QA) :
    Recent (saved ++ [qa]) (appendAll cached [qa]) := by
  obtain ⟨⟨rest, rfl⟩, hlength⟩ := h
  refine ⟨(List.drop_suffix _ _).trans ⟨rest, (List.append_assoc _ _ _).symm⟩, ?_⟩
  rw [appendAll, List.length_drop]
  simp only [List.length_append, List.length_singleton] at hlength ⊢
  omega

/-- All that has been saved, appended to a list: if it is empty, or what has been saved is
    enough for none of the list to be left. -/
theorem recent_appendAll {saved cached : List QA} (h : cached = [] ∨ limit ≤ saved.length) :
    Recent saved (appendAll cached saved) := by
  have hlength : min limit saved.length ≤ (appendAll cached saved).length := by
    rw [appendAll, List.length_drop, List.length_append]
    omega
  refine ⟨?_, hlength⟩
  obtain rfl | h := h
  · exact List.drop_suffix _ _
  · have hcached : cached.length ≤ (cached ++ saved).length - limit := by
      rw [List.length_append]
      omega
    rw [appendAll, List.drop_append, List.drop_eq_nil_of_le hcached, List.nil_append]
    exact List.drop_suffix _ _

/-! ## The sessions of conforming runs -/

/-- One call at most is in progress. -/
def only (c : ℕ) (call : Call) : ℕ → Call := Function.update (fun _ => .idle) c call

theorem update_only (c : ℕ) (call call' : Call) :
    Function.update (only c call) c call' = only c call' := Function.update_idem _ _ _

/-- What a session keeps while the history is not read from the conversation: the messages of
    some of the pairs are still to be added, by some of the calls. -/
structure Saving (calls : Finset ℕ) (added pending : List QA) : Prop where
  idle : ∀ c ∉ calls, s.calls c = .idle
  saving : ∀ c ∈ calls, ∃ qa, s.calls c = .saving qa
  card_eq : calls.card = pending.length
  saved_eq : s.saved = added ++ pending
  messages_eq : s.messages = added.flatMap content
  recent : s.cache = [] ∨ Recent s.saved s.cache

/-- The pages of the messages, if they are of whole pairs. -/
structure Divided (messages : List Message) (saved : List QA) (pages : List (List QA)) : Prop where
  pages_eq : π.pages messages = pages.map (List.flatMap content)
  flatten_eq : pages.flatten = saved

/-- What a session keeps while the history is read, given how far it has been. -/
def Sound (s : Session) : Call → Prop
  | .idle | .saving _ => False
  | .missed => s.messages = s.saved.flatMap content ∧ s.cache = []
  | .reading count page qas =>
    ∃ pages, Divided π s.messages s.saved pages ∧ count = pages.length ∧
      qas = (pages.take page).flatten ∧
      (s.cache = [] ∨
        ∃ cached, s.cache = appendAll cached qas ∧ (cached = [] ∨ limit ≤ s.saved.length))
  | .filling count page qas =>
    ∃ pages, Divided π s.messages s.saved pages ∧ count = pages.length ∧
      qas = (pages.take page).flatten

def Consistent : Prop :=
  (∃ calls added pending, s.Saving calls added pending) ∨
    ∃ c call, s.calls = only c call ∧ s.Sound π call

variable {π s} {t : Session} {c : ℕ} {call : Call}

/-- The call goes on, or begins, to read the history. -/
theorem consistent_setCall (hcalls : s.calls = only c call) {call' : Call}
    (ht : t.calls = Function.update s.calls c call') (h : t.Sound π call') : t.Consistent π :=
  .inr ⟨c, call', by rw [ht, hcalls, update_only], h⟩

/-- The call that reads the history ends. -/
theorem consistent_idle (hcalls : s.calls = only c call)
    (ht : t.calls = Function.update s.calls c .idle)
    (hmessages : t.messages = t.saved.flatMap content)
    (hcache : t.cache = [] ∨ Recent t.saved t.cache) : t.Consistent π := by
  refine .inl ⟨∅, t.saved, [], fun d _ => ?_, fun d hd => absurd hd (Finset.notMem_empty d), rfl,
    (List.append_nil _).symm, hmessages, hcache⟩
  rw [ht, hcalls, update_only, only, Function.update_eq_self]

/-- What is kept for a call that reads the history: it is the only one. -/
theorem Consistent.sound (h : s.Consistent π) (hcall : s.calls c = call) (hreads : call.Reads) :
    s.calls = only c call ∧ s.Sound π call := by
  obtain ⟨calls, added, pending, h⟩ | ⟨d, call', hcalls, hsound⟩ := h
  · by_cases hc : c ∈ calls
    · obtain ⟨qa, hsaving⟩ := h.saving c hc
      rw [← hcall, hsaving] at hreads
      exact hreads.elim
    · rw [← hcall, h.idle c hc] at hreads
      exact hreads.elim
  · rw [hcalls, only, Function.update_apply] at hcall
    split_ifs at hcall with hc
    · subst hc hcall
      exact ⟨hcalls, hsound⟩
    · subst hcall
      exact hreads.elim

theorem Sound.reads (h : s.Sound π call) : call.Reads := by
  cases call with
  | idle => exact h
  | saving => exact h
  | missed => trivial
  | reading => trivial
  | filling => trivial

/-- What is kept while no call reads the history. -/
theorem Consistent.settled (h : s.Consistent π) (hs : s.Settled) :
    ∃ calls added pending, s.Saving calls added pending := by
  obtain h | ⟨d, call, hcalls, hsound⟩ := h
  · exact h
  · have hd : s.calls d = call := by rw [hcalls, only, Function.update_self]
    exact absurd (hd ▸ hsound.reads) (hs d)

/-- What is kept while no call is in progress. -/
theorem Consistent.quiet (h : s.Consistent π) (hquiet : s.Quiet) (c : ℕ) :
    s.calls = only c .idle ∧ s.messages = s.saved.flatMap content := by
  obtain ⟨calls, added, pending, h⟩ := h.settled fun d => (hquiet d).symm ▸ id
  have hcalls : calls = ∅ := by
    refine Finset.eq_empty_of_forall_notMem fun d hd => ?_
    obtain ⟨qa, hsaving⟩ := h.saving d hd
    cases (hquiet d).symm.trans hsaving
  have hpending : pending = [] := by
    rw [← List.length_eq_zero_iff, ← h.card_eq, hcalls, Finset.card_empty]
  refine ⟨funext fun d => ?_, ?_⟩
  · rw [hquiet d, only, Function.update_eq_self]
  · rw [h.messages_eq, h.saved_eq, hpending, List.append_nil]

/-! ### Its operations -/

theorem Consistent.save (h : s.Consistent π) {qa : QA} (hstep : s.step π (.save c qa) = some t)
    (hconf : s.Conforms π (.save c qa)) : t.Consistent π := by
  obtain ⟨hsettled, hfirst⟩ := hconf
  obtain ⟨calls, added, pending, h⟩ := h.settled hsettled
  obtain ⟨⟨hidle, -⟩, hstep⟩ := Option.ite_none_right_eq_some.1 hstep
  cases hstep
  have hc : c ∉ calls := by
    intro hc
    obtain ⟨qa, hsaving⟩ := h.saving c hc
    cases hidle.symm.trans hsaving
  have hrecent : Recent s.saved s.cache := by
    obtain hcache | hcache := h.recent
    · rw [hcache, hfirst hcache]
      exact .refl []
    · exact hcache
  refine .inl ⟨insert c calls, added, pending ++ [qa], fun d hd => ?_, fun d hd => ?_, ?_, ?_,
    h.messages_eq, .inr (hrecent.append qa)⟩
  · rw [Finset.mem_insert, not_or] at hd
    exact (Function.update_of_ne hd.1 _ _).trans (h.idle d hd.2)
  · obtain rfl | hne := eq_or_ne d c
    · exact ⟨qa, Function.update_self _ _ _⟩
    · obtain ⟨qa', hsaving⟩ := h.saving d (Finset.mem_of_mem_insert_of_ne hd hne)
      exact ⟨qa', (Function.update_of_ne hne _ _).trans hsaving⟩
  · rw [Finset.card_insert_of_notMem hc, h.card_eq, List.length_append, List.length_singleton]
  · change s.saved ++ [qa] = added ++ (pending ++ [qa])
    rw [h.saved_eq, List.append_assoc]

theorem Consistent.addMessages (h : s.Consistent π)
    (hstep : s.step π (.addMessages c) = some t) (hconf : s.Conforms π (.addMessages c)) :
    t.Consistent π := by
  rw [step] at hstep
  split at hstep
  case h_1 qa hcall =>
    cases hstep
    obtain ⟨calls, added, pending, h⟩ | ⟨d, call, hcalls, hsound⟩ := h
    · have hc : c ∈ calls := by
        by_contra hc
        cases hcall.symm.trans (h.idle c hc)
      -- it is the first of the pairs that are pending
      obtain ⟨added', later, hsaved, hmessages⟩ := hconf qa hcall
      obtain rfl := flatMap_content_injective (h.messages_eq.symm.trans hmessages)
      obtain rfl := List.append_cancel_left (h.saved_eq.symm.trans hsaved)
      refine .inl ⟨calls.erase c, added ++ [qa], later, fun d hd => ?_, fun d hd => ?_, ?_, ?_, ?_,
        h.recent⟩
      · obtain rfl | hne := eq_or_ne d c
        · exact Function.update_self _ _ _
        · refine (Function.update_of_ne hne _ _).trans (h.idle d fun hmem => hd ?_)
          exact Finset.mem_erase.2 ⟨hne, hmem⟩
      · obtain ⟨hne, hmem⟩ := Finset.mem_erase.1 hd
        obtain ⟨qa', hsaving⟩ := h.saving d hmem
        exact ⟨qa', (Function.update_of_ne hne _ _).trans hsaving⟩
      · rw [Finset.card_erase_of_mem hc, h.card_eq, List.length_cons, Nat.add_sub_cancel]
      · exact hsaved.trans (List.append_cons _ _ _)
      · change s.messages ++ content qa = (added ++ [qa]).flatMap content
        rw [hmessages, List.flatMap_append, List.flatMap_singleton]
    · rw [hcalls, only, Function.update_apply] at hcall
      split_ifs at hcall
      subst hcall
      exact hsound.elim
  case h_2 => cases hstep

theorem Consistent.get (h : s.Consistent π) (hstep : s.step π (.get c) = some t)
    (hconf : s.Conforms π (.get c)) : t.Consistent π := by
  obtain ⟨-, hstep⟩ := Option.ite_none_right_eq_some.1 hstep
  split_ifs at hstep with hempty
  · cases hstep
    have hcache := List.isEmpty_iff.1 hempty
    rw [Conforms, if_pos hcache] at hconf
    obtain ⟨hcalls, hmessages⟩ := h.quiet hconf c
    exact consistent_setCall hcalls rfl ⟨hmessages, hcache⟩
  · cases hstep
    exact h

theorem Consistent.getResource (h : s.Consistent π) (hstep : s.step π (.getResource c) = some t)
    (hconf : s.Conforms π (.getResource c)) : t.Consistent π := by
  rw [step] at hstep
  split at hstep
  case h_1 hcall =>
    obtain ⟨hcalls, hmessages, hcache⟩ := h.sound hcall trivial
    split_ifs at hstep
    · cases hstep
      exact consistent_idle hcalls rfl hmessages (.inl hcache)
    · cases hstep
      obtain ⟨pages, hpages⟩ := hconf
      have hflatten : pages.flatten.flatMap content = s.saved.flatMap content := by
        rw [← hmessages, ← π.flatten_pages s.messages, hpages, flatMap_flatten]
      have hlength : (π.pages s.messages).length = pages.length := by
        rw [hpages, List.length_map]
      exact consistent_setCall hcalls rfl
        ⟨pages, ⟨hpages, flatMap_content_injective hflatten⟩, hlength, rfl, .inl hcache⟩
  case h_2 => cases hstep

theorem Consistent.getPage (h : s.Consistent π) (hwhole : ∀ qa ∈ s.saved, Whole qa)
    (hstep : s.step π (.getPage c) = some t) : t.Consistent π := by
  rw [step] at hstep
  split at hstep
  case h_1 count page qas hcall =>
    obtain ⟨hcalls, pages, hpages, rfl, rfl, hcache⟩ := h.sound hcall trivial
    obtain ⟨hpage, hstep⟩ := Option.ite_none_right_eq_some.1 hstep
    have hmessages : (π.pages s.messages)[page]? = some (pages[page].flatMap content) := by
      rw [hpages.pages_eq, List.getElem?_map, List.getElem?_eq_getElem hpage, Option.map_some]
    have hread : readPage (pages.take page).flatten (pages[page].flatMap content) =
        (pages.take (page + 1)).flatten := by
      rw [List.take_add_one, List.getElem?_eq_getElem hpage, List.flatten_append,
        Option.toList_some, List.flatten_singleton]
      refine readPage_flatMap (fun qa hqa => hwhole qa ?_) _
      rw [← hpages.flatten_eq]
      exact List.mem_flatten_of_mem (List.getElem_mem hpage) hqa
    simp only [hmessages, hread] at hstep
    split_ifs at hstep with hempty
    · cases hstep
      -- no pair has been read on the pages before either
      have hnone : (pages.take page).flatten = (pages.take (page + 1)).flatten := by
        rw [List.isEmpty_iff] at hempty
        rw [hempty]
        rw [List.take_add_one, List.flatten_append] at hempty
        exact (List.append_eq_nil_iff.1 hempty).1
      rw [hnone] at hcache
      exact consistent_setCall hcalls rfl ⟨pages, hpages, rfl, rfl, hcache⟩
    · cases hstep
      exact consistent_setCall hcalls rfl ⟨pages, hpages, rfl, rfl⟩
  case h_2 => cases hstep

theorem Consistent.append (h : s.Consistent π) (hstep : s.step π (.append c) = some t)
    (hconf : s.Conforms π (.append c)) : t.Consistent π := by
  rw [step] at hstep
  split at hstep
  case h_1 count page qas hcall =>
    cases hstep
    obtain ⟨hcalls, pages, hpages, hcount, hqas⟩ := h.sound hcall trivial
    exact consistent_setCall hcalls rfl
      ⟨pages, hpages, hcount, hqas, .inr ⟨s.cache, rfl, hconf⟩⟩
  case h_2 => cases hstep

/-- When all the pages have been read, so has what has been saved. -/
theorem Consistent.all_read (h : s.Consistent π) {count page : ℕ} {qas : List QA}
    (hcall : s.calls c = .reading count page qas) (hpage : ¬page < count) : qas = s.saved := by
  obtain ⟨-, pages, hpages, rfl, rfl, -⟩ := h.sound hcall trivial
  rw [List.take_of_length_le (Nat.le_of_not_lt hpage), hpages.flatten_eq]

theorem Consistent.finish (h : s.Consistent π) (hstep : s.step π (.finish c) = some t) :
    t.Consistent π := by
  rw [step] at hstep
  split at hstep
  case h_1 count page qas hcall =>
    split_ifs at hstep with hpage
    cases hstep
    obtain rfl := h.all_read hcall hpage
    obtain ⟨hcalls, pages, hpages, -, -, hcache⟩ := h.sound hcall trivial
    refine consistent_idle hcalls rfl ?_ ?_
    · change s.messages = s.saved.flatMap content
      rw [← π.flatten_pages s.messages, hpages.pages_eq, ← hpages.flatten_eq, flatMap_flatten]
    · obtain hcache | ⟨cached, hcache, hcached⟩ := hcache
      · exact .inl hcache
      · refine .inr ?_
        change Recent s.saved s.cache
        rw [hcache]
        exact recent_appendAll hcached
  case h_2 => cases hstep

theorem Consistent.expire (h : s.Consistent π) (hstep : s.step π .expire = some t) :
    t.Consistent π := by
  cases hstep
  obtain ⟨calls, added, pending, h⟩ | ⟨c, call, hcalls, hsound⟩ := h
  · exact .inl ⟨calls, added, pending, { h with recent := .inl rfl }⟩
  · refine .inr ⟨c, call, hcalls, ?_⟩
    cases call with
    | idle => exact hsound
    | saving qa => exact hsound
    | missed => exact ⟨hsound.1, rfl⟩
    | reading count page qas =>
      obtain ⟨pages, hpages, hcount, hqas, -⟩ := hsound
      exact ⟨pages, hpages, hcount, hqas, .inl rfl⟩
    | filling count page qas => exact hsound

/-! ### The runs -/

/-- What has been saved grows by a whole pair that is saved. -/
theorem saved_of_step {l : Label} (hstep : s.step π l = some t) :
    t.saved = s.saved ∨ ∃ c qa, l = .save c qa ∧ Whole qa ∧ t.saved = s.saved ++ [qa] := by
  cases l with
  | save c qa =>
    obtain ⟨⟨-, hwhole⟩, hstep⟩ := Option.ite_none_right_eq_some.1 hstep
    cases hstep
    exact .inr ⟨c, qa, rfl, hwhole, rfl⟩
  | expire =>
    cases hstep
    exact .inl rfl
  | _ =>
    left
    simp only [step] at hstep
    repeat' split at hstep
    all_goals
      cases hstep
      try rfl

theorem whole_of_reachable (h : (conforming π).Reachable s) : ∀ qa ∈ s.saved, Whole qa := by
  refine h.invariant (I := fun s => ∀ qa ∈ s.saved, Whole qa) (fun s hs => ?_)
    fun s l t _ ih hst => ?_
  · cases hs
    exact List.forall_mem_nil _
  · obtain hsaved | ⟨c, qa, -, hwhole, hsaved⟩ := saved_of_step hst.1
    · rwa [hsaved]
    · rw [hsaved, List.forall_mem_append, List.forall_mem_singleton]
      exact ⟨ih, hwhole⟩

theorem consistent_initial : initial.Consistent π :=
  consistent_idle (s := initial) (c := 0) (Function.update_eq_self 0 _).symm
    (Function.update_eq_self 0 _).symm rfl (.inl rfl)

theorem consistent_of_reachable (h : (conforming π).Reachable s) : s.Consistent π := by
  refine h.invariant (fun s hs => ?_) fun s l t hs ih hst => ?_
  · cases hs
    exact consistent_initial
  · obtain ⟨hstep, hconf⟩ := hst
    cases l with
    | save c qa => exact ih.save hstep hconf
    | addMessages c => exact ih.addMessages hstep hconf
    | get c => exact ih.get hstep hconf
    | getResource c => exact ih.getResource hstep hconf
    | getPage c => exact ih.getPage (whole_of_reachable hs) hstep
    | append c => exact ih.append hstep hconf
    | finish c => exact ih.finish hstep
    | expire => exact ih.expire hstep

/-- All the messages on a page. -/
def onePage : Pagination where
  pages messages := [messages]
  flatten_pages messages := List.append_nil messages

/-- A pair is saved when the list has expired. -/
def expired : List Label :=
  [.save 0 ⟨"a", "b"⟩, .addMessages 0, .expire, .save 1 ⟨"c", "d"⟩, .addMessages 1]

end Session

end Hyperforge.Memory
