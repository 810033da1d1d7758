import Hyperforge.Contexts
import Hyperforge.Library.Json.Dict
import Mathlib.Algebra.Order.Field.Rat
import Mathlib.Data.List.Sort

/-!
# Reranking of the chunks of a context

The chunks of a context are replaced by those that a service scores above a threshold, at most
`topK` of them (`rerank`). They are taken in the order in which the service returns the scores,
which need not be the order of the scores.

* `rerank_keepsBest_iff`: the best chunks are kept, in the order of their scores, just if the
  service returns the scores that count in that order.
-/

namespace Hyperforge.NucliaDB

open Json

/-- What the service is asked: the texts of the chunks by their ids, and the question. -/
structure RerankModel where
  context : List (List Char × List Char)
  question : List Char
  userId : List Char

/-- The scores that the service returns, a dictionary from ids. -/
structure ContextScores where
  items : List (List Char × ℚ)
  nodup : (items.map Prod.fst).Nodup

def threshold : ℚ := 1 / 20

namespace ContextScores

variable (scores : ContextScores)

/-- The score of a chunk. -/
def score (chunk : Chunk) : Option ℚ := scores.items.lookup chunk.chunkId

/-- The scores above the threshold. -/
def relevant : List (List Char × ℚ) := scores.items.filter fun x => threshold < x.2

end ContextScores

/-- `{chunk.chunk_id: chunk for chunk in context.chunks}` -/
def chunksById (chunks : List Chunk) : List (List Char × Chunk) :=
  update [] (chunks.map fun chunk => (chunk.chunkId, chunk))

def request (question : List Char) (context : Context) : RerankModel where
  context := update [] (context.chunks.map fun chunk => (chunk.chunkId, chunk.text))
  question := question
  userId := "arag-ask-rerank".toList

/-- Keeps the chunks of a context that matter to the question. -/
def rerank (service : RerankModel → ContextScores) (question : List Char) (topK : ℕ)
    (context : Context) : Context :=
  if context.chunks = [] then context
  else
    let reRanked := service (request question context)
    -- The sorted scores are not used any further.
    let _reRankedSorted := reRanked.items.mergeSort fun x y => y.2 ≤ x.2
    let reRankedSorted := reRanked.relevant.take topK
    { context with
      chunks := reRankedSorted.filterMap fun x => (chunksById context.chunks).lookup x.1 }

/-! ## What is kept -/

/-- Of some chunks, the best are kept. -/
structure KeepsBest (scores : ContextScores) (topK : ℕ) (chunks kept : List Chunk) : Prop where
  nodup : (kept.map (·.chunkId)).Nodup
  relevant : ∀ chunk ∈ kept, chunk ∈ chunks ∧ ∃ x, scores.score chunk = some x ∧ threshold < x
  ordered : kept.Pairwise fun chunk chunk' =>
    ∀ x y, scores.score chunk = some x → scores.score chunk' = some y → y ≤ x
  bounded : kept.length ≤ topK
  best : ∀ chunk ∈ chunks, chunk ∉ kept → ∀ chunk' ∈ kept,
    ∀ x y, scores.score chunk = some x → scores.score chunk' = some y → x ≤ y
  complete : scores.relevant.length ≤ topK →
    ∀ chunk ∈ chunks, ∀ x, scores.score chunk = some x → threshold < x → chunk ∈ kept

/-- The scores of chunks above the threshold are returned in their order, as far as it decides
    what is taken, and when. -/
structure InOrder (scores : ContextScores) (topK : ℕ) (chunks : List Chunk) : Prop where
  taken : (scores.relevant.take topK).Pairwise fun x y =>
    x.1 ∈ chunks.map (·.chunkId) → y.1 ∈ chunks.map (·.chunkId) → y.2 ≤ x.2
  left : ∀ x ∈ scores.relevant.take topK, ∀ y ∈ scores.relevant.drop topK,
    x.1 ∈ chunks.map (·.chunkId) → y.1 ∈ chunks.map (·.chunkId) → y.2 ≤ x.2

variable {scores : ContextScores} {service : RerankModel → ContextScores} {context : Context}
  {chunks : List Chunk} {chunk : Chunk} {question : List Char} {topK : ℕ} {x y : ℚ} {id : List Char}

theorem lookup_chunksById (h : (chunks.map (·.chunkId)).Nodup) :
    (chunksById chunks).lookup id = some chunk ↔ chunk ∈ chunks ∧ chunk.chunkId = id := by
  have hkeys : (chunks.map fun chunk => (chunk.chunkId, chunk)).map Prod.fst =
      chunks.map (·.chunkId) := List.map_map
  have hnodup := hkeys ▸ h
  rw [chunksById, update_of_disjoint (by rwa [List.nil_append]), List.nil_append]
  constructor
  · intro hlookup
    obtain ⟨chunk', hmem, heq⟩ := List.mem_map.1 (mem_of_lookup hlookup)
    obtain ⟨hid, rfl⟩ := Prod.mk.inj heq
    exact ⟨hmem, hid⟩
  · rintro ⟨hmem, rfl⟩
    exact lookup_of_mem hnodup (List.mem_map.2 ⟨chunk, hmem, rfl⟩)

theorem score_eq_some : scores.score chunk = some x ↔ (chunk.chunkId, x) ∈ scores.items :=
  ⟨mem_of_lookup, lookup_of_mem scores.nodup⟩

theorem mem_relevant : (id, x) ∈ scores.relevant ↔ (id, x) ∈ scores.items ∧ threshold < x := by
  rw [ContextScores.relevant, List.mem_filter, decide_eq_true_eq]

/-- A chunk is kept if its score is taken. -/
theorem mem_kept (h : (chunks.map (·.chunkId)).Nodup) :
    chunk ∈ (scores.relevant.take topK).filterMap (fun x => (chunksById chunks).lookup x.1) ↔
      chunk ∈ chunks ∧ ∃ x, (chunk.chunkId, x) ∈ scores.relevant.take topK := by
  rw [List.mem_filterMap]
  constructor
  · rintro ⟨⟨id, x⟩, hx, hlookup⟩
    obtain ⟨hmem, rfl⟩ := (lookup_chunksById h).1 hlookup
    exact ⟨hmem, x, hx⟩
  · rintro ⟨hmem, x, hx⟩
    exact ⟨_, hx, (lookup_chunksById h).2 ⟨hmem, rfl⟩⟩

/-- Scores are unique. -/
theorem score_of_mem_relevant {p : List Char × ℚ} (hp : p ∈ scores.relevant)
    (hid : chunk.chunkId = p.1) : scores.score chunk = some p.2 := by
  refine score_eq_some.2 ?_
  rw [hid]
  exact (mem_relevant.1 hp).1

theorem mem_ids (hmem : chunk ∈ chunks) : chunk.chunkId ∈ chunks.map (·.chunkId) :=
  List.mem_map_of_mem hmem

/-- The chunks that are kept are in order just if the scores that are taken are. -/
theorem pairwise_kept_iff (h : (chunks.map (·.chunkId)).Nodup) :
    ((scores.relevant.take topK).filterMap
        (fun x => (chunksById chunks).lookup x.1)).Pairwise (fun chunk chunk' =>
      ∀ x y, scores.score chunk = some x → scores.score chunk' = some y → y ≤ x) ↔
    (scores.relevant.take topK).Pairwise fun x y =>
      x.1 ∈ chunks.map (·.chunkId) → y.1 ∈ chunks.map (·.chunkId) → y.2 ≤ x.2 := by
  rw [List.pairwise_filterMap]
  refine List.Pairwise.iff_of_mem fun {p q} hp hq => ?_
  have hp := List.mem_of_mem_take hp
  have hq := List.mem_of_mem_take hq
  constructor
  · intro hle hpid hqid
    obtain ⟨chunk, hmem, hid⟩ := List.mem_map.1 hpid
    obtain ⟨chunk', hmem', hid'⟩ := List.mem_map.1 hqid
    exact hle chunk ((lookup_chunksById h).2 ⟨hmem, hid⟩) chunk'
      ((lookup_chunksById h).2 ⟨hmem', hid'⟩) _ _ (score_of_mem_relevant hp hid)
      (score_of_mem_relevant hq hid')
  · intro hle chunk hchunk chunk' hchunk' x y hx hy
    obtain ⟨hmem, hid⟩ := (lookup_chunksById h).1 hchunk
    obtain ⟨hmem', hid'⟩ := (lookup_chunksById h).1 hchunk'
    obtain rfl := Option.some.inj ((score_of_mem_relevant hp hid).symm.trans hx)
    obtain rfl := Option.some.inj ((score_of_mem_relevant hq hid').symm.trans hy)
    exact hle (hid ▸ mem_ids hmem) (hid' ▸ mem_ids hmem')

theorem chunks_rerank : (rerank service question topK context).chunks =
    ((service (request question context)).relevant.take topK).filterMap
      fun x => (chunksById context.chunks).lookup x.1 := by
  rw [rerank]
  split_ifs with hnil
  · rw [hnil, eq_comm, List.filterMap_eq_nil_iff]
    exact fun _ _ => rfl
  · rfl

theorem nodup_kept (h : (chunks.map (·.chunkId)).Nodup) :
    (((scores.relevant.take topK).filterMap
      fun x => (chunksById chunks).lookup x.1).map (·.chunkId)).Nodup := by
  have hrelevant : (scores.relevant.take topK).Pairwise fun x y => x.1 ≠ y.1 :=
    List.pairwise_map.1 (scores.nodup.sublist
      (((List.take_sublist _ _).trans List.filter_sublist).map Prod.fst))
  refine List.pairwise_map.2 (List.pairwise_filterMap.2 (hrelevant.imp ?_))
  intro p q hne chunk hchunk chunk' hchunk'
  rw [lookup_chunksById h] at hchunk hchunk'
  rwa [hchunk.2, hchunk'.2]

/-- What does not depend on the order in which the scores are returned. -/
theorem exists_of_mem_kept (h : (chunks.map (·.chunkId)).Nodup)
    (hmem : chunk ∈ (scores.relevant.take topK).filterMap
      fun x => (chunksById chunks).lookup x.1) :
    chunk ∈ chunks ∧ ∃ x, scores.score chunk = some x ∧ threshold < x := by
  obtain ⟨hmem, x, hx⟩ := (mem_kept h).1 hmem
  obtain ⟨hitem, hlt⟩ := mem_relevant.1 (List.mem_of_mem_take hx)
  exact ⟨hmem, x, score_eq_some.2 hitem, hlt⟩

/-- The best chunks are kept, in order, if and only if the scores that count are returned in
    order. -/
theorem rerank_keepsBest_iff (service : RerankModel → ContextScores)
    (h : (context.chunks.map (·.chunkId)).Nodup) :
    KeepsBest (service (request question context)) topK context.chunks
        (rerank service question topK context).chunks ↔
      InOrder (service (request question context)) topK context.chunks := by
  rw [chunks_rerank]
  generalize service (request question context) = scores
  constructor
  · refine fun hbest => ⟨(pairwise_kept_iff h).1 hbest.ordered, fun p hp q hq hpid hqid => ?_⟩
    obtain ⟨chunk', hmem', hid'⟩ := List.mem_map.1 hpid
    obtain ⟨chunk, hmem, hid⟩ := List.mem_map.1 hqid
    have hkept := (mem_kept h).2 ⟨hmem', p.2, by rwa [hid']⟩
    have hleft : chunk ∉ (scores.relevant.take topK).filterMap
        fun x => (chunksById context.chunks).lookup x.1 := by
      intro hkept
      obtain ⟨-, x, hx⟩ := (mem_kept h).1 hkept
      have hdisjoint : (scores.relevant.take topK ++ scores.relevant.drop topK).map Prod.fst
          |>.Nodup := by
        rw [List.take_append_drop]
        exact scores.nodup.sublist (List.filter_sublist.map Prod.fst)
      rw [List.map_append] at hdisjoint
      exact List.disjoint_of_nodup_append hdisjoint (List.mem_map_of_mem hx)
        (List.mem_map.2 ⟨q, hq, hid.symm⟩)
    exact hbest.best chunk hmem hleft chunk' hkept _ _
      (score_of_mem_relevant (List.mem_of_mem_drop hq) hid)
      (score_of_mem_relevant (List.mem_of_mem_take hp) hid')
  · intro horder
    refine ⟨nodup_kept h, fun chunk => exists_of_mem_kept h, (pairwise_kept_iff h).2 horder.taken,
      (List.length_filterMap_le _ _).trans (List.length_take_le _ _), ?_, ?_⟩
    · intro chunk hmem hleft chunk' hkept x y hx hy
      obtain ⟨hmem', y', hy'⟩ := (mem_kept h).1 hkept
      obtain rfl := Option.some.inj
        (hy.symm.trans (score_of_mem_relevant (List.mem_of_mem_take hy') rfl))
      -- A chunk that is left out is not above the threshold, or comes after those that are taken.
      by_cases hlt : threshold < x
      · have hrelevant := mem_relevant.2 ⟨score_eq_some.1 hx, hlt⟩
        rw [← List.take_append_drop topK scores.relevant, List.mem_append] at hrelevant
        rcases hrelevant with htake | hdrop
        · exact absurd ((mem_kept h).2 ⟨hmem, x, htake⟩) hleft
        · exact horder.left _ hy' _ hdrop (mem_ids hmem') (mem_ids hmem)
      · have hy := (mem_relevant.1 (List.mem_of_mem_take hy')).2
        exact (not_lt.1 hlt).trans hy.le
    · intro hlength chunk hmem x hx hlt
      refine (mem_kept h).2 ⟨hmem, x, ?_⟩
      rw [List.take_of_length_le hlength]
      exact mem_relevant.2 ⟨score_eq_some.1 hx, hlt⟩

/-- Two chunks. -/
def rerankContext : Context where
  id := "context".toList
  chunks := [{ chunkId := "a".toList, text := "A".toList },
    { chunkId := "b".toList, text := "B".toList }]

def ascendingScores : ContextScores where
  items := [("a".toList, 1 / 10), ("b".toList, 9 / 10)]
  nodup := by decide

def descendingScores : ContextScores where
  items := [("b".toList, 9 / 10), ("a".toList, 1 / 10)]
  nodup := by decide

theorem rerank_keepsBest_descending :
    KeepsBest descendingScores 20 rerankContext.chunks
      (rerank (fun _ => descendingScores) "q".toList 20 rerankContext).chunks := by
  have hids : (rerankContext.chunks.map (·.chunkId)).Nodup := by decide
  have horder : InOrder descendingScores 20 rerankContext.chunks :=
    ⟨by decide +kernel, by decide +kernel⟩
  exact (rerank_keepsBest_iff (fun _ => descendingScores) hids).2 horder

/-- Scores that are not returned in their order: the second chunk scores higher. -/
theorem not_rerank_keepsBest :
    ¬ KeepsBest ascendingScores 20 rerankContext.chunks
      (rerank (fun _ => ascendingScores) "q".toList 20 rerankContext).chunks := by
  intro h
  have hkept : (rerank (fun _ => ascendingScores) "q".toList 20 rerankContext).chunks =
      rerankContext.chunks := by decide +kernel
  have hordered := h.ordered
  rw [hkept] at hordered
  have hle := List.rel_of_pairwise_cons hordered List.mem_cons_self (1 / 10) (9 / 10) rfl rfl
  exact absurd hle (by decide +kernel)

end Hyperforge.NucliaDB
