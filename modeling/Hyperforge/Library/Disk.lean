import Hyperforge.Library.Crash
import Mathlib.Logic.Function.Basic

/-!
# A disk with atomic publication

A directory of named files with temporary files beside them. A name is an entry
pointing to an inode; several entries may point to the same one (`link`). An
inode holds an incomplete content (`none`) until it has been written *and
synchronised*, and a complete one from then on. Any operation may fail, as told
by `fault`, leaving its work undone.

Two programs publish a complete content under a name, so that no crash can
expose an incomplete one:

* `publish` writes a temporary file and links it, which fails if the name is
  already taken: what has been published is never changed;
* `overwrite` writes a temporary file and renames it over the name.

Their specifications (`publish_spec`, `overwrite_spec`) are about the `view` of
the disk, i.e., what is found under each name: one operation of each publishes
the content, and the others leave the view unchanged.
-/

namespace Crash

variable {N C ε : Type} [DecidableEq N]

/-- A directory of files named by `N`, with contents in `C`. -/
structure Disk (N C ε : Type) where
  /-- The inode of a named file. -/
  entry : N → Option ℕ
  /-- The temporary files, named by their inode. -/
  temporary : ℕ → Bool
  /-- The content of an inode, once complete. -/
  content : ℕ → Option C
  /-- The next inode. -/
  next : ℕ
  /-- The failure of the next operations, if any. -/
  fault : ℕ → Option ε

namespace Disk

/-- The empty directory. -/
def empty (fault : ℕ → Option ε) : Disk N C ε :=
  ⟨fun _ => none, fun _ => false, fun _ => none, 0, fault⟩

/-- What is found under each name: no file, or its content, possibly incomplete. -/
def view (d : Disk N C ε) (n : N) : Option (Option C) := (d.entry n).map d.content

/-- The entries point to allocated inodes. -/
def Allocated (d : Disk N C ε) : Prop := ∀ n i, d.entry n = some i → i < d.next

/-- The disk once its next fault is known. -/
def consume (d : Disk N C ε) : Disk N C ε := { d with fault := fun k => d.fault (k + 1) }

/-- An operation, which fails with the next fault if there is one. -/
def attempt {α : Type} (f : Disk N C ε → Disk N C ε × Except ε α) : Prog (Disk N C ε) ε α :=
  .op fun d => match d.fault 0 with
    | some e => (d.consume, .error e)
    | none => f d.consume

/-- An operation that changes no file: flushing a buffer, changing a mode. -/
def idle : Prog (Disk N C ε) ε Unit := attempt fun d => (d, .ok ())

/-- Looking up what is found under a name. -/
def look (n : N) : Prog (Disk N C ε) ε (Option (Option C)) := attempt fun d => (d, .ok (d.view n))

/-- Creating a temporary file. -/
def createTemporary : Prog (Disk N C ε) ε ℕ := attempt fun d =>
  ({ d with
      temporary := Function.update d.temporary d.next true
      content := Function.update d.content d.next none
      next := d.next + 1 }, .ok d.next)

/-- Synchronising what has been written in a temporary file: it is complete. -/
def fsync (i : ℕ) (c : C) : Prog (Disk N C ε) ε Unit := attempt fun d =>
  ({ d with content := Function.update d.content i (some c) }, .ok ())

/-- Linking a temporary file under a name, which must be free. -/
def link (taken : ε) (i : ℕ) (n : N) : Prog (Disk N C ε) ε Unit := attempt fun d =>
  match d.entry n with
  | some _ => (d, .error taken)
  | none => ({ d with entry := Function.update d.entry n (some i) }, .ok ())

/-- Renaming a temporary file over a name. -/
def replace (i : ℕ) (n : N) : Prog (Disk N C ε) ε Unit := attempt fun d =>
  ({ d with
      entry := Function.update d.entry n (some i)
      temporary := Function.update d.temporary i false }, .ok ())

/-- Removing a temporary file, if it is still there. -/
def unlink (i : ℕ) : Prog (Disk N C ε) ε Unit := attempt fun d =>
  ({ d with temporary := Function.update d.temporary i false }, .ok ())

/-- Publishing `c` under a free name. -/
def publish (taken : ε) (n : N) (c : C) : Prog (Disk N C ε) ε Unit := do
  let i ← createTemporary
  Prog.always
    (do
      idle -- write
      idle -- flush
      fsync i c
      idle -- chmod
      link taken i n)
    (unlink i)

/-- Publishing `c` under a name, in place of what was there. -/
def overwrite (n : N) (c : C) : Prog (Disk N C ε) ε Unit := do
  let i ← createTemporary
  Prog.handle
    (do
      idle -- write
      idle -- flush
      fsync i c)
    (fun e => do
      unlink i
      Prog.raise e)
  Prog.always (replace i n) (unlink i)

/-! ## Views -/

variable {d : Disk N C ε} {v : N → Option (Option C)} {n : N} {c : C} {i : ℕ}

/-- `d` shows `v`, and its inode `i`, unnamed, is `o`. -/
structure Shows (v : N → Option (Option C)) (i : ℕ) (o : Option C) (d : Disk N C ε) : Prop where
  allocated : d.Allocated
  view : d.view = v
  lt : i < d.next
  unnamed : ∀ n, d.entry n ≠ some i
  content : d.content i = o

/-- `d` shows `v`. -/
structure ShowsView (v : N → Option (Option C)) (d : Disk N C ε) : Prop where
  allocated : d.Allocated
  view : d.view = v

omit [DecidableEq N] in
theorem Shows.showsView {o : Option C} (h : Shows v i o d) : ShowsView v d :=
  ⟨h.allocated, h.view⟩

omit [DecidableEq N] in
theorem ShowsView.consume (h : ShowsView v d) : ShowsView v d.consume := ⟨h.allocated, h.view⟩

omit [DecidableEq N] in
theorem Shows.consume {o : Option C} (h : Shows v i o d) : Shows v i o d.consume :=
  ⟨h.allocated, h.view, h.lt, h.unnamed, h.content⟩

omit [DecidableEq N] in
theorem showsView_empty (fault : ℕ → Option ε) :
    ShowsView (fun _ => none) (empty fault : Disk N C ε) :=
  ⟨fun _ _ h => by simp [empty] at h, rfl⟩

section Steps

variable {α : Type} {R : Disk N C ε → Disk N C ε → Prop} {P : Disk N C ε → Prop}
  {Q : α → Disk N C ε → Prop} {E : ε → Disk N C ε → Prop}
  {f : Disk N C ε → Disk N C ε × Except ε α}

omit [DecidableEq N] in
/-- An operation does its work, or fails and leaves it undone. -/
theorem attempt_spec (hfail : ∀ d e, P d → R d d.consume ∧ E e d.consume)
    (hrun : ∀ d, P d → R d (f d.consume).1 ∧
      match (f d.consume).2 with
      | .ok a => Q a (f d.consume).1
      | .error e => E e (f d.consume).1) :
    Triple R P (attempt f) Q E := by
  refine Triple.op (fun d hd => ?_) (fun d a hd ha => ?_) (fun d e hd he => ?_)
  · cases hf : d.fault 0 with
    | some e => exact (hfail d e hd).1
    | none => exact (hrun d hd).1
  · cases hf : d.fault 0 with
    | some e => rw [hf] at ha; cases ha
    | none =>
      simp only [hf] at ha
      have := (hrun d hd).2
      rwa [ha] at this
  · cases hf : d.fault 0 with
    | some e' => exact (hfail d e hd).2
    | none =>
      simp only [hf] at he
      have := (hrun d hd).2
      rwa [he] at this

end Steps

variable {R : Disk N C ε → Disk N C ε → Prop} {taken : ε}

/-- The guarantee `R` holds of the operations that leave the view `v` unchanged. -/
def Still (R : Disk N C ε → Disk N C ε → Prop) (v : N → Option (Option C)) : Prop :=
  ∀ d d', ShowsView v d → ShowsView v d' → R d d'

omit [DecidableEq N] in
theorem createTemporary_spec (hR : Still R v) :
    Triple R (ShowsView v) createTemporary (fun i => Shows v i none) (fun _ => ShowsView v) := by
  refine attempt_spec (fun d _ hd => ⟨hR _ _ hd hd.consume, hd.consume⟩) (fun d hd => ?_)
  have hview : ∀ n, (d.entry n).map (Function.update d.content d.next none) = d.view n := by
    intro n
    cases hn : d.entry n with
    | none => simp [view, hn]
    | some i =>
      have hi : i ≠ d.next := (hd.allocated n i hn).ne
      simp [view, hn, Function.update_of_ne hi]
  have h : Shows v d.next none { d.consume with
      temporary := Function.update d.temporary d.next true
      content := Function.update d.content d.next none
      next := d.next + 1 } := by
    refine ⟨fun n i hn => ?_, ?_, Nat.lt_succ_self _, fun n hn => ?_, Function.update_self ..⟩
    · exact (hd.allocated n i hn).trans (Nat.lt_succ_self _)
    · rw [← hd.view]
      exact funext hview
    · exact lt_irrefl _ (hd.allocated n _ hn)
  exact ⟨hR d _ hd h.showsView, h⟩

omit [DecidableEq N] in
theorem idle_spec (hR : Still R v) {o : Option C} :
    Triple R (Shows v i o) idle (fun _ => Shows v i o) (fun _ => Shows v i o) :=
  attempt_spec (fun _ _ hd => ⟨hR _ _ hd.showsView hd.consume.showsView, hd.consume⟩)
    (fun _ hd => ⟨hR _ _ hd.showsView hd.consume.showsView, hd.consume⟩)

omit [DecidableEq N] in
/-- An operation that changes no file, with the view unchanged. -/
theorem idle_spec' (hR : Still R v) :
    Triple R (ShowsView v) idle (fun _ => ShowsView v) (fun _ => ShowsView v) :=
  attempt_spec (fun _ _ hd => ⟨hR _ _ hd hd.consume, hd.consume⟩)
    (fun _ hd => ⟨hR _ _ hd hd.consume, hd.consume⟩)

omit [DecidableEq N] in
theorem look_spec (hR : Still R v) :
    Triple R (ShowsView v) (look n) (fun o d => o = v n ∧ ShowsView v d)
      (fun _ => ShowsView v) :=
  attempt_spec (fun _ _ hd => ⟨hR _ _ hd hd.consume, hd.consume⟩)
    (fun _ hd => ⟨hR _ _ hd hd.consume, congrFun hd.consume.view n, hd.consume⟩)

omit [DecidableEq N] in
theorem fsync_spec (hR : Still R v) {o : Option C} :
    Triple R (Shows v i o) (fsync i c) (fun _ => Shows v i (some c)) (fun _ => ShowsView v) := by
  refine attempt_spec (fun d _ hd => ⟨hR _ _ hd.showsView hd.consume.showsView,
    hd.consume.showsView⟩) (fun d hd => ?_)
  have h : Shows v i (some c) { d.consume with
      content := Function.update d.content i (some c) } := by
    refine ⟨hd.allocated, ?_, hd.lt, hd.unnamed, Function.update_self ..⟩
    rw [← hd.view]
    funext n
    cases hn : d.entry n with
    | none => simp [view, consume, hn]
    | some j =>
      have hj : j ≠ i := fun h => hd.unnamed n (h ▸ hn)
      simp [view, consume, hn, Function.update_of_ne hj]
  exact ⟨hR d _ hd.showsView h.showsView, h⟩

omit [DecidableEq N] in
theorem unlink_spec (hR : Still R v) :
    Triple R (ShowsView v) (unlink i) (fun _ => ShowsView v) (fun _ => ShowsView v) := by
  refine attempt_spec (fun d _ hd => ⟨hR _ _ hd hd.consume, hd.consume⟩) (fun d hd => ?_)
  have h : ShowsView v { d.consume with
      temporary := Function.update d.temporary i false } := ⟨hd.allocated, hd.view⟩
  exact ⟨hR d _ hd h, h⟩

/-- Naming the complete inode `i`. -/
theorem Shows.named {d' : Disk N C ε} (hd : Shows v i (some c) d)
    (he : d'.entry = Function.update d.entry n (some i)) (hc : d'.content = d.content)
    (hn : d'.next = d.next) : ShowsView (Function.update v n (some (some c))) d' := by
  refine ⟨fun m j hm => ?_, funext fun m => ?_⟩
  · rw [he] at hm
    rw [hn]
    by_cases hmn : m = n
    · rw [hmn, Function.update_self] at hm
      cases hm
      exact hd.lt
    · rw [Function.update_of_ne hmn] at hm
      exact hd.allocated m j hm
  · by_cases hmn : m = n
    · subst hmn
      simp [Disk.view, he, hc, hd.content]
    · rw [Function.update_of_ne hmn, Disk.view, he, Function.update_of_ne hmn, hc, ← hd.view]
      rfl

theorem link_spec (hR : Still R v)
    (hnew : v n = none → ∀ d d', ShowsView v d →
      ShowsView (Function.update v n (some (some c))) d' → R d d') :
    Triple R (Shows v i (some c)) (link taken i n)
      (fun _ d => v n = none ∧ ShowsView (Function.update v n (some (some c))) d)
      (fun _ => ShowsView v) := by
  refine attempt_spec (fun d _ hd => ⟨hR _ _ hd.showsView hd.consume.showsView,
    hd.consume.showsView⟩) (fun d hd => ?_)
  cases hn : d.consume.entry n with
  | some j => exact ⟨hR _ _ hd.showsView hd.consume.showsView, hd.consume.showsView⟩
  | none =>
    have hv : v n = none := by
      rw [← hd.consume.view, Disk.view, hn]
      rfl
    have h : ShowsView (Function.update v n (some (some c))) { d.consume with
        entry := Function.update d.entry n (some i) } := hd.named rfl rfl rfl
    exact ⟨hnew hv d _ hd.showsView h, hv, h⟩

theorem replace_spec (hR : Still R v)
    (hnew : ∀ d d', ShowsView v d →
      ShowsView (Function.update v n (some (some c))) d' → R d d') :
    Triple R (Shows v i (some c)) (replace i n)
      (fun _ => ShowsView (Function.update v n (some (some c)))) (fun _ => ShowsView v) := by
  refine attempt_spec (fun d _ hd => ⟨hR _ _ hd.showsView hd.consume.showsView,
    hd.consume.showsView⟩) (fun d hd => ?_)
  have h : ShowsView (Function.update v n (some (some c))) { d.consume with
      entry := Function.update d.entry n (some i)
      temporary := Function.update d.temporary i false } := hd.named rfl rfl rfl
  exact ⟨hnew d _ hd.showsView h, h⟩

/-! ## Publication -/

/-- Publishing changes the view in one operation, if the name is free. -/
theorem publish_spec (hR : Still R v)
    (hR' : v n = none → Still R (Function.update v n (some (some c))))
    (hnew : v n = none → ∀ d d', ShowsView v d →
      ShowsView (Function.update v n (some (some c))) d' → R d d') :
    Triple R (ShowsView v) (publish taken n c)
      (fun _ d => v n = none ∧ ShowsView (Function.update v n (some (some c))) d)
      (fun _ d => ShowsView v d ∨
        v n = none ∧ ShowsView (Function.update v n (some (some c))) d) := by
  refine Triple.bind ((createTemporary_spec hR).conseq (fun _ h => h) (fun _ _ h => h)
    (fun _ _ h => .inl h)) fun i => ?_
  have hbody : Triple R (Shows v i none)
      (do idle; idle; fsync i c; idle; link taken i n : Prog (Disk N C ε) ε Unit)
      (fun _ d => v n = none ∧ ShowsView (Function.update v n (some (some c))) d)
      (fun _ => ShowsView v) := by
    have hidle : ∀ o, Triple R (Shows v i o) (idle : Prog (Disk N C ε) ε Unit)
        (fun _ => Shows v i o) (fun _ => ShowsView v) := fun o =>
      (idle_spec hR).conseq (fun _ h => h) (fun _ _ h => h) (fun _ _ h => h.showsView)
    exact .bind (hidle _) fun _ => .bind (hidle _) fun _ => .bind (fsync_spec hR) fun _ =>
      .bind (hidle _) fun _ => link_spec hR hnew
  refine Triple.always hbody (fun _ => ?_) (fun _ => ?_)
  · refine Triple.of_forall fun d₀ ⟨hn, hd₀⟩ => ?_
    exact (unlink_spec (hR' hn)).conseq (fun d hd => hd ▸ hd₀) (fun _ _ h => ⟨hn, h⟩)
      (fun _ _ h => .inr ⟨hn, h⟩)
  · exact (unlink_spec hR).conseq (fun _ h => h) (fun _ _ h => .inl h) (fun _ _ h => .inl h)

/-- Overwriting changes the view in one operation. -/
theorem overwrite_spec (hR : Still R v) (hR' : Still R (Function.update v n (some (some c))))
    (hnew : ∀ d d', ShowsView v d →
      ShowsView (Function.update v n (some (some c))) d' → R d d') :
    Triple R (ShowsView v) (overwrite n c)
      (fun _ => ShowsView (Function.update v n (some (some c))))
      (fun _ d => ShowsView v d ∨ ShowsView (Function.update v n (some (some c))) d) := by
  refine Triple.bind ((createTemporary_spec hR).conseq (fun _ h => h) (fun _ _ h => h)
    (fun _ _ h => .inl h)) fun i => ?_
  have hwrite : Triple R (Shows v i none)
      (Prog.handle (do idle; idle; fsync i c) (fun e => do unlink i; Prog.raise e) :
        Prog (Disk N C ε) ε Unit)
      (fun _ => Shows v i (some c)) (fun _ => ShowsView v) := by
    have hidle : ∀ o, Triple R (Shows v i o) (idle : Prog (Disk N C ε) ε Unit)
        (fun _ => Shows v i o) (fun _ => ShowsView v) := fun o =>
      (idle_spec hR).conseq (fun _ h => h) (fun _ _ h => h) (fun _ _ h => h.showsView)
    refine Triple.handle (.bind (hidle _) fun _ => .bind (hidle _) fun _ => fsync_spec hR)
      fun e => .bind (unlink_spec hR) fun _ => .raise fun _ h => h
  refine Triple.bind (hwrite.conseq (fun _ h => h) (fun _ _ h => h) (fun _ _ h => .inl h))
    fun _ => Triple.always (replace_spec hR hnew) (fun _ => ?_) (fun _ => ?_)
  · exact (unlink_spec hR').conseq (fun _ h => h) (fun _ _ h => h) (fun _ _ h => .inr h)
  · exact (unlink_spec hR).conseq (fun _ h => h) (fun _ _ h => .inl h) (fun _ _ h => .inl h)

/-! ## Failures -/

/-- None of the next operations fails with `e`. -/
def Spared (e : ε) (d : Disk N C ε) : Prop := ∀ k, d.fault k ≠ some e

/-- An exception of a program whose operations do not fail with `e` is not `e`. -/
def Spares {α : Type} (e : ε) (p : Prog (Disk N C ε) ε α) : Prop :=
  Triple (fun _ _ => True) (Spared e) p (fun _ => Spared e) (fun e' d => e' ≠ e ∧ Spared e d)

section Spares

variable {α : Type} {e : ε}

omit [DecidableEq N] in
theorem Spared.consume (h : Spared e d) : Spared e d.consume := fun k => h (k + 1)

omit [DecidableEq N] in
theorem attempt_spares {f : Disk N C ε → Disk N C ε × Except ε α}
    (hfault : ∀ d, (f d).1.fault = d.fault) (herror : ∀ d, (f d).2 ≠ .error e) :
    Spares e (attempt f) := by
  refine Triple.op (fun _ _ => trivial) (fun d a hd ha => ?_) (fun d e' hd he' => ?_)
  · rcases hd0 : d.fault 0 with _ | e0
    · intro k
      rw [hfault]
      exact hd.consume k
    · exact hd.consume
  · rcases hd0 : d.fault 0 with _ | e0
    · rw [hd0] at he'
      refine ⟨fun h => herror _ (h ▸ he'), fun k => ?_⟩
      rw [hfault]
      exact hd.consume k
    · rw [hd0] at he'
      cases he'
      exact ⟨fun h => hd 0 (h ▸ hd0), hd.consume⟩

omit [DecidableEq N] in
theorem Spares.bind {α β : Type} {p : Prog (Disk N C ε) ε α} {f : α → Prog (Disk N C ε) ε β}
    (hp : Spares e p) (hf : ∀ a, Spares e (f a)) : Spares e (p >>= f) := Triple.bind hp hf

omit [DecidableEq N] in
theorem idle_spares : Spares e (idle : Prog (Disk N C ε) ε Unit) :=
  attempt_spares (fun _ => rfl) fun _ h => by cases h

omit [DecidableEq N] in
theorem look_spares : Spares e (look n : Prog (Disk N C ε) ε _) :=
  attempt_spares (fun _ => rfl) fun _ h => by cases h

omit [DecidableEq N] in
theorem createTemporary_spares : Spares e (createTemporary : Prog (Disk N C ε) ε ℕ) :=
  attempt_spares (fun _ => rfl) fun _ h => by cases h

omit [DecidableEq N] in
theorem fsync_spares : Spares e (fsync i c : Prog (Disk N C ε) ε Unit) :=
  attempt_spares (fun _ => rfl) fun _ h => by cases h

omit [DecidableEq N] in
theorem unlink_spares : Spares e (unlink i : Prog (Disk N C ε) ε Unit) :=
  attempt_spares (fun _ => rfl) fun _ h => by cases h

theorem replace_spares : Spares e (replace i n : Prog (Disk N C ε) ε Unit) :=
  attempt_spares (fun _ => rfl) fun _ h => by cases h

theorem link_spares (htaken : taken ≠ e) :
    Spares e (link taken i n : Prog (Disk N C ε) ε Unit) := by
  refine attempt_spares (fun d => ?_) (fun d h => ?_)
  · rcases d.entry n <;> rfl
  · rcases hn : d.entry n with _ | j
    · rw [hn] at h
      cases h
    · rw [hn] at h
      exact htaken (Except.error.inj h)

theorem publish_spares (htaken : taken ≠ e) :
    Spares e (publish taken n c : Prog (Disk N C ε) ε Unit) := by
  refine createTemporary_spares.bind fun i => Triple.always
    (idle_spares.bind fun _ => idle_spares.bind fun _ => fsync_spares.bind fun _ =>
      idle_spares.bind fun _ => link_spares htaken) (fun _ => unlink_spares) fun e' => ?_
  exact Triple.and_pre fun he' => unlink_spares.conseq (fun _ h => h) (fun _ _ h => ⟨he', h⟩)
    fun _ _ h => h

theorem overwrite_spares : Spares e (overwrite n c : Prog (Disk N C ε) ε Unit) := by
  have hwrite (i : ℕ) : Spares e (Prog.handle (do idle; idle; fsync i c)
      (fun e' => do unlink i; Prog.raise e') : Prog (Disk N C ε) ε Unit) :=
    Triple.handle (idle_spares.bind fun _ => idle_spares.bind fun _ => fsync_spares) fun e' =>
      Triple.and_pre fun he' => Triple.bind unlink_spares fun _ =>
        Triple.raise fun _ h => ⟨he', h⟩
  refine createTemporary_spares.bind fun i => (hwrite i).bind fun _ =>
    Triple.always replace_spares (fun _ => unlink_spares) fun e' => ?_
  exact Triple.and_pre fun he' => unlink_spares.conseq (fun _ h => h) (fun _ _ h => ⟨he', h⟩)
    fun _ _ h => h

end Spares

end Disk

end Crash
