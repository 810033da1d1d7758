import Hyperforge.Procedural.Evolution

/-!
# Specifications of the artifact store

What each operation of the store does to the files of the output directory,
whatever guarantee `R` is to be kept: a write publishes its document under a
free name and changes nothing else; a graph is published under its fingerprint,
unless it is there already; the pointer to the retained graph is replaced. The
log is not changed.
-/

namespace Hyperforge.Evolution

open Crash

variable {J S R P : Type} {env : Env J S R P}
  {G : World J S → World J S → Prop} {v : Name → Option (Option (Document J S))} {l : Log J S}
  {n : Name} {doc : Document J S}

/-- The files are as `v` tells, and the log is `l`. -/
structure At (v : Name → Option (Option (Document J S))) (l : Log J S) (w : World J S) : Prop where
  shows : Disk.ShowsView v w.1
  log : w.2 = l

/-- The files once `doc` is published under `n`. -/
abbrev publish (v : Name → Option (Option (Document J S))) (n : Name) (doc : Document J S) :
    Name → Option (Option (Document J S)) :=
  Function.update v n (some (some doc))

/-- The guarantee holds of the operations from the files `v` to the files `v'`. -/
def Allows (G : World J S → World J S → Prop) (v v' : Name → Option (Option (Document J S)))
    (l : Log J S) : Prop :=
  ∀ w w', At v l w → At v' l w' → G w w'

/-- No file is there at the start. -/
theorem at_start (fault : ℕ → Option Exc) :
    At (fun _ => none) {} (start fault : World J S) := ⟨Disk.showsView_empty fault, rfl⟩

theorem Allows.still (h : Allows G v v l) :
    Disk.Still (fun d d' => G (d, l) (d', l)) v := fun d d' hd hd' =>
  h (d, l) (d', l) ⟨hd, rfl⟩ ⟨hd', rfl⟩

/-- An operation on the disk does not change the log. -/
theorem onFst_spec {α : Type} {p : Prog (Disk Name (Document J S) Exc) Exc α}
    {Q : α → Disk Name (Document J S) Exc → Prop} {E : Exc → Disk Name (Document J S) Exc → Prop}
    (h : Triple (fun d d' => G (d, l) (d', l)) (Disk.ShowsView v) p Q E) :
    Triple G (At v l) (Prog.onFst p) (fun a w => Q a w.1 ∧ w.2 = l)
      (fun e w => E e w.1 ∧ w.2 = l) := by
  refine Triple.onFst fun t => ?_
  by_cases ht : t = l
  · subst ht
    exact h.conseq (fun _ hd => hd.shows) (fun _ _ hq => ⟨hq, rfl⟩) (fun _ _ he => ⟨he, rfl⟩)
  · exact fun d hd => absurd hd.log ht

theorem idle_spec (hG : Allows G v v l) :
    Triple G (At v l) (Prog.onFst Disk.idle : Program J S Unit) (fun _ => At v l)
      (fun _ _ => True) :=
  (onFst_spec (Disk.idle_spec' hG.still)).conseq (fun _ h => h) (fun _ _ h => ⟨h.1, h.2⟩)
    (fun _ _ _ => trivial)

/-- Claiming the output directory publishes nothing. -/
theorem init_spec {outputExists : Bool} (hG : Allows G v v l) :
    Triple G (At v l) (ArtifactStore.init outputExists) (fun _ => At v l) (fun _ _ => True) := by
  rw [ArtifactStore.init]
  split_ifs
  · exact Triple.raise fun _ _ => trivial
  · exact .bind (idle_spec hG) fun _ => .bind (idle_spec hG) fun _ =>
      .bind (idle_spec hG) fun _ => idle_spec hG

theorem log_spec {f : Log J S → Log J S} (hG : ∀ w, At v l w → G w (w.1, f l)) :
    Triple G (At v l) (log f) (fun _ => At v (f l)) (fun _ _ => True) := by
  refine Triple.op (fun w hw => ?_) (fun w _ hw _ => ⟨hw.shows, ?_⟩) (fun _ _ _ _ => trivial)
  · rw [hw.log]
    exact hG w hw
  · rw [hw.log]

/-- A write needs a free name, and publishes the document under it. -/
theorem write_spec (hG : Allows G v v l)
    (hnew : v n = none → Allows G v (publish v n doc) l ∧
      Allows G (publish v n doc) (publish v n doc) l) :
    Triple G (At v l) (ArtifactStore.write env n doc)
      (fun _ w => v n = none ∧ At (publish v n doc) l w) (fun _ _ => True) := by
  refine Triple.bind (Triple.read (fun _ _ h _ => h) (fun _ _ _ _ => trivial)) fun _ => ?_
  refine (onFst_spec (Disk.publish_spec hG.still (fun hn => (hnew hn).2.still) ?_)).conseq
    (fun _ h => h) (fun _ w h => ⟨h.1.1, h.1.2, h.2⟩) (fun _ _ _ => trivial)
  exact fun hn d d' hd hd' => (hnew hn).1 (d, l) (d', l) ⟨hd, rfl⟩ ⟨hd', rfl⟩

/-- The files once a graph is published, unless it was there already. -/
def publishGraph (env : Env J S R P) (v : Name → Option (Option (Document J S)))
    (g : ProceduralGraph) : Name → Option (Option (Document J S)) :=
  publish v (.graph (env.fingerprint g)) (.graph g.data.canonical)

/-- A graph is published under its fingerprint, or is there already. -/
theorem graph_spec {g : ProceduralGraph} (hG : Allows G v v l)
    (hnew : v (.graph (env.fingerprint g)) = none → Allows G v (publishGraph env v g) l ∧
      Allows G (publishGraph env v g) (publishGraph env v g) l) :
    Triple G (At v l) (ArtifactStore.graph env g)
      (fun _ w => (v (.graph (env.fingerprint g)) = none ∨
        v (.graph (env.fingerprint g)) = some (some (.graph g.data.canonical))) ∧
        At (publishGraph env v g) l w) (fun _ _ => True) := by
  refine Triple.bind (Q := fun o w => o = v (.graph (env.fingerprint g)) ∧ At v l w)
    ((onFst_spec (Disk.look_spec hG.still)).conseq (fun _ h => h)
      (fun _ _ h => ⟨h.1.1, h.1.2, h.2⟩) (fun _ _ _ => trivial)) fun o => ?_
  refine Triple.and_pre fun ho => ?_
  have hraise : ∀ e, Triple G (At v l) (Prog.raise e : Program J S Unit)
      (fun _ w => (v (.graph (env.fingerprint g)) = none ∨
        v (.graph (env.fingerprint g)) = some (some (.graph g.data.canonical))) ∧
        At (publishGraph env v g) l w) (fun _ _ => True) :=
    fun e => Triple.raise fun _ _ => trivial
  split
  · exact (write_spec hG hnew).conseq (fun _ h => h) (fun _ _ h => ⟨.inl h.1, h.2⟩)
      (fun _ _ h => h)
  · rename_i data
    split_ifs with hd
    · exact hraise _
    · push Not at hd
      refine Triple.pure fun w hw => ⟨.inr (by rw [← ho, hd]), ?_⟩
      rwa [publishGraph, publish, ← hd, ho, Function.update_eq_self]
  · exact hraise _

/-- The pointer to the retained graph is replaced. -/
theorem retain_spec {g : ProceduralGraph} {score : Option S} {roundId : ℕ}
    (hG : Allows G v v l)
    (hnew : Allows G v (publish v .retained (.pointer ⟨env.fingerprint g, score, roundId⟩)) l)
    (hnew' : Allows G (publish v .retained (.pointer ⟨env.fingerprint g, score, roundId⟩))
      (publish v .retained (.pointer ⟨env.fingerprint g, score, roundId⟩)) l) :
    Triple G (At v l) (ArtifactStore.retain env g score roundId)
      (fun _ => At (publish v .retained (.pointer ⟨env.fingerprint g, score, roundId⟩)) l)
      (fun _ _ => True) := by
  refine (onFst_spec (Disk.overwrite_spec hG.still hnew'.still ?_)).conseq
    (fun _ h => h) (fun _ w h => ⟨h.1, h.2⟩) (fun _ _ _ => trivial)
  exact fun d d' hd hd' => hnew (d, l) (d', l) ⟨hd, rfl⟩ ⟨hd', rfl⟩

theorem exceptionOnly_spec {α : Type} {r : Except Exc α} :
    Triple G (At v l) (exceptionOnly r) (fun o w => o = r ∧ At v l w) (fun _ _ => True) := by
  refine Triple.read (fun w o hw h => ⟨?_, hw⟩) (fun _ _ _ _ => trivial)
  cases r with
  | ok a =>
    cases h
    rfl
  | error e =>
    dsimp only at h
    split at h
    · cases h
      rfl
    · cases h

end Hyperforge.Evolution
