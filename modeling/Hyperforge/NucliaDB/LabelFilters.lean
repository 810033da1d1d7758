import Hyperforge.Library.Json.Groups
import Hyperforge.NucliaDB.FilterExpressions
import Mathlib.Data.Fintype.EquivFin

/-!
# Labels as filters

The labels that an agent is asked for become filters on the resources of a knowledge box
(`askAgentFilters`): of each label set, a resource has to carry one of the labels.

* `askAgentFilters_constrain_iff`: they do so if the first label is well formed, no label set has an
  empty name, and no more than one is given twice. A label that is not well formed counts as the one
  before it.
-/

namespace Hyperforge.NucliaDB

open Json

/-! ## The filters -/

/-- `label.split("/", 1)`, if there are two parts: a label set, and a label. -/
def splitLabel (label : List Char) : Option (List Char × List Char) := List.splitOnce ['/'] label

/-- Adds a label to those of its set. One that cannot be split is taken for the label before it, if
    there is one. -/
def addLabel (s : Option (List Char × List Char) × List (List Char × List (List Char)))
    (label : List Char) :
    Except String (Option (List Char × List Char) × List (List Char × List (List Char))) :=
  match (splitLabel label).or s.1 with
  | none => .error "cannot access local variable 'labelset' where it is not associated with a value"
  | some (labelset, labelValue) =>
    .ok (some (labelset, labelValue), appendTo labelset labelValue s.2)

/-- `/l/<labelset>/<label>` -/
def labelFilter (labelset labelValue : List Char) : List Char :=
  filterText ['l'] (labelset ++ '/' :: labelValue)

/-- A label set with one label becomes one of the and-filters, and one with more of them the
    or-filters. -/
def addFilters (filters : List (List Char) × List (List Char))
    (entry : List Char × List (List Char)) : List (List Char) × List (List Char) :=
  match entry.2 with
  | [labelValue] => (filters.1 ++ [labelFilter entry.1 labelValue], filters.2)
  | labelValues => (filters.1, labelValues.map (labelFilter entry.1))

/-- The and-filters and the or-filters for some labels. -/
def askAgentFilters (labels : List (List Char)) :
    Except String (List (List Char) × List (List Char)) :=
  (labels.foldlM addLabel (none, [])).map fun s => s.2.foldl addFilters ([], [])

/-! ## What they mean -/

/-- A resource carries labels, each of a label set. -/
abbrev Labels := List (List Char × List Char)

def labelMeaning : Meaning Empty Empty Labels Unit where
  field labels x :=
    match x with
    | .label labelset (some label) => (labelset, label) ∈ labels
    | .label labelset none => ∃ label, (labelset, label) ∈ labels
    | _ => False
  paragraph _ y := y.elim

/-- What is asked for with and-filters and or-filters. -/
def withFilters (filters : List (List Char) × List (List Char)) : Filters Empty Empty where
  andFilters := some filters.1
  orFilters := some filters.2

/-- A resource is admitted by and-filters and or-filters, as a filter expression is built from
    them. -/
def Admits (table : AliasTable) (filters : List (List Char) × List (List Char))
    (resource : Labels) : Prop :=
  match (buildFilterExpression table id [] [] [] {} (withFilters filters)).2 with
  | .error _ => False
  | .ok none => True
  | .ok (some e) => e.Matches labelMeaning resource ()

/-- The labels that are well formed, with their sets. -/
def named (labels : List (List Char)) : Labels := labels.filterMap splitLabel

/-- Of every label set that is named, the resource carries a label that is listed. -/
def Carries (labels : List (List Char)) (resource : Labels) : Prop :=
  ∀ p ∈ named labels, ∃ q ∈ named labels, q.1 = p.1 ∧ q ∈ resource

/-- The filters for some labels admit the resources that carry one of each set. -/
def Constrains (table : AliasTable) (labels : List (List Char)) : Prop :=
  ∃ filters, askAgentFilters labels = .ok filters ∧
    ∀ resource, Admits table filters resource ↔ Carries labels resource

/-- The label sets as they are listed, one more time with each label that is not well formed. -/
def listedSets (last : Option (List Char)) : List (List Char) → List (List Char)
  | [] => []
  | label :: labels =>
    match splitLabel label with
    | some (labelset, _) => labelset :: listedSets (some labelset) labels
    | none => last.toList ++ listedSets last labels

/-- The labels begin with one that is well formed, no label set has an empty name, and at most one
    is listed more than once. -/
structure Listed (labels : List (List Char)) : Prop where
  first : ∀ label ∈ labels.head?, (splitLabel label).isSome
  nonempty : ∀ label ∈ labels, label.head? ≠ some '/'
  once : ∀ s s', 2 ≤ (listedSets none labels).count s → 2 ≤ (listedSets none labels).count s' →
    s = s'

/-! ## Labels by their sets -/

/-- The labels as they are read. -/
def readings (last : Option (List Char × List Char)) : List (List Char) → Labels
  | [] => []
  | label :: labels =>
    let p := (splitLabel label).or last
    p.toList ++ readings p labels

variable {table : AliasTable} {labels : List (List Char)} {last : Option (List Char × List Char)}
  {p q : List Char × List Char} {s v : List Char} {resource : Labels}
  {groups : List (List Char × List (List Char))}

theorem map_readings :
    (readings last labels).map Prod.fst = listedSets (last.map Prod.fst) labels := by
  induction labels generalizing last with
  | nil => rfl
  | cons label labels ih =>
    rw [readings, listedSets]
    rcases splitLabel label with _ | p
    · rw [List.map_append, Option.none_or, ih]
      cases last <;> rfl
    · rw [List.map_append, Option.some_or, ih]
      rfl

/-- What is read begins with the label before, or is named. -/
theorem mem_readings (h : p ∈ readings last labels) : p ∈ last ∨ p ∈ named labels := by
  induction labels generalizing last with
  | nil => cases h
  | cons label labels ih =>
    rw [readings, List.mem_append, Option.mem_toList] at h
    rw [named, List.filterMap_cons]
    rcases hsplit : splitLabel label with _ | q
    · rw [hsplit, Option.none_or] at h
      exact h.elim .inl ih
    · rw [hsplit, Option.some_or] at h
      refine .inr (List.mem_cons.2 ?_)
      rcases h with h | h
      · exact .inl (Option.some.inj h).symm
      · exact (ih h).imp_left fun h => (Option.some.inj h).symm

theorem mem_readings_of_named (h : p ∈ named labels) : p ∈ readings last labels := by
  induction labels generalizing last with
  | nil => cases h
  | cons label labels ih =>
    rw [named, List.filterMap_cons] at h
    rw [readings, List.mem_append, Option.mem_toList]
    rcases hsplit : splitLabel label with _ | q
    · rw [hsplit] at h
      exact .inr (ih h)
    · rw [hsplit] at h
      rw [Option.some_or]
      rcases List.mem_cons.1 h with rfl | h
      · exact .inl rfl
      · exact .inr (ih h)

theorem mem_readings_iff : p ∈ readings none labels ↔ p ∈ named labels :=
  ⟨fun h => (mem_readings h).resolve_left (Option.not_mem_none p), mem_readings_of_named⟩

/-- From a label that is well formed on, labels are read and grouped. -/
theorem foldlM_addLabel (h : last.isSome ∨ ∀ label ∈ labels.head?, (splitLabel label).isSome) :
    ∃ current, labels.foldlM addLabel (last, groups) =
      .ok (current, (readings last labels).foldl (fun d e => appendTo e.1 e.2 d) groups) := by
  induction labels generalizing last groups with
  | nil => exact ⟨last, rfl⟩
  | cons label labels ih =>
    obtain ⟨q, hq⟩ : ∃ q, (splitLabel label).or last = some q := by
      rw [← Option.isSome_iff_exists, Option.isSome_or, Bool.or_eq_true]
      exact h.symm.imp_left fun h => h label rfl
    obtain ⟨current, hfold⟩ := @ih (some q) (appendTo q.1 q.2 groups) (.inl rfl)
    refine ⟨current, ?_⟩
    rw [List.foldlM_cons, addLabel]
    dsimp only
    rw [hq, readings, hq]
    exact hfold

theorem foldlM_addLabel_error {label : List Char} (h : splitLabel label = none) :
    ∃ e, (label :: labels).foldlM addLabel (none, groups) = .error e := by
  rw [List.foldlM_cons, addLabel]
  dsimp only
  rw [h]
  exact ⟨_, rfl⟩

/-! ## Filters by label sets -/

variable {filters : List (List Char) × List (List Char)} {f : List Char}

/-- The and-filters are those of the groups with one label. -/
theorem mem_foldl_addFilters : f ∈ (groups.foldl addFilters filters).1 ↔
    f ∈ filters.1 ∨ ∃ g ∈ groups, ∃ v, g.2 = [v] ∧ f = labelFilter g.1 v := by
  induction groups generalizing filters with
  | nil => simp
  | cons g groups ih =>
    rw [List.foldl_cons, ih]
    simp only [List.mem_cons, exists_eq_or_imp]
    rw [addFilters]
    split
    next v hg =>
      rw [List.mem_append, List.mem_singleton, or_assoc]
      simp [hg]
    next hg =>
      refine or_congr_right (or_iff_right ?_).symm
      rintro ⟨v, hv, -⟩
      exact hg v hv

/-- The or-filters are those of one of the other groups. -/
theorem foldl_addFilters_snd :
    (groups.foldl addFilters filters).2 = filters.2 ∧ (∀ g ∈ groups, ∃ v, g.2 = [v]) ∨
      ∃ g ∈ groups, (¬ ∃ v, g.2 = [v]) ∧
        (groups.foldl addFilters filters).2 = g.2.map (labelFilter g.1) := by
  induction groups generalizing filters with
  | nil => exact .inl ⟨rfl, fun g hg => absurd hg List.not_mem_nil⟩
  | cons g groups ih =>
    rw [List.foldl_cons]
    rcases @ih (addFilters filters g) with ⟨heq, hall⟩ | ⟨g', hg', hmany, heq⟩
    · by_cases hone : ∃ v, g.2 = [v]
      · obtain ⟨v, hv⟩ := hone
        refine .inl ⟨?_, List.forall_mem_cons.2 ⟨⟨v, hv⟩, hall⟩⟩
        rw [heq, addFilters, hv]
      · refine .inr ⟨g, List.mem_cons_self, hone, ?_⟩
        rw [heq, addFilters]
        split
        next v hg => exact absurd ⟨v, hg⟩ hone
        next => rfl
    · exact .inr ⟨g', List.mem_cons_of_mem _ hg', hmany, heq⟩

/-- What a filter asks for: a label set and possibly a label. -/
def asked (s v : List Char) : List Char × Option (List Char) := splitValue (lstrip (s ++ '/' :: v))

theorem toField_labelFilter (h : (Kind.label.name, ['l']) ∈ table.entries) :
    toFieldFilterExpression (O := Empty) table (labelFilter s v) =
      some (.label (asked s v).1 (asked s v).2) :=
  toFieldFilterExpression_eq h (List.mem_cons_of_mem _ List.mem_cons_self)

/-- All filters are made for labels. -/
def MadeFor (filters : List (List Char) × List (List Char)) : Prop :=
  ∀ f ∈ filters.1 ++ filters.2, ∃ s v, f = labelFilter s v

theorem admits_iff (h : (Kind.label.name, ['l']) ∈ table.entries) (hmade : MadeFor filters) :
    Admits table filters resource ↔
      (∀ f ∈ filters.1, ∀ x ∈ toFieldFilterExpression table f, labelMeaning.field resource x) ∧
      (filters.2 = [] ∨ ∃ f ∈ filters.2, ∃ x ∈ toFieldFilterExpression table f,
        labelMeaning.field resource x) := by
  have hparse : Parseable table {} (withFilters filters) := by
    intro f hf
    obtain ⟨s, v, rfl⟩ := hmade f hf
    rw [toField_labelFilter h]
    rfl
  have himposed : (∀ x ∈ andOperands table id (synonymsOf [] [] []) {} (withFilters filters),
      x.Holds (labelMeaning.field resource)) ↔ ImposedOnField table id (synonymsOf [] [] []) {}
        (withFilters filters) (labelMeaning.field resource) := forall_andOperands hparse
  rw [← Formula.forall_join_and] at himposed
  have hands : ImposedOnField table id (synonymsOf [] [] []) {} (withFilters filters)
      (labelMeaning.field resource) ↔
      (∀ f ∈ filters.1, ∀ x ∈ toFieldFilterExpression table f, labelMeaning.field resource x) ∧
      (filters.2 = [] ∨ ∃ f ∈ filters.2, ∃ x ∈ toFieldFilterExpression table f,
        labelMeaning.field resource x) := by
    refine ⟨fun himposed => ⟨himposed.andFilters, himposed.orFilters⟩, fun himposed => ?_⟩
    refine ⟨.inl rfl, fun ids hids => ?_, fun f hf => absurd hf List.not_mem_nil, himposed.1,
      himposed.2⟩
    cases hids
  rw [Admits, buildFilterExpression]
  dsimp only
  rw [expressionsToCombine_addSynonyms, expressionsToCombine, ← hands, ← himposed]
  rcases Formula.join .and
    (andOperands table id (synonymsOf [] [] []) {} (withFilters filters)) with _ | x
  · exact iff_of_true trivial fun x hx => absurd hx (Option.not_mem_none x)
  · exact ⟨fun hx y hy => Option.some.inj hy ▸ hx, fun hall => hall x rfl⟩

theorem splitLabel_eq_some {label : List Char} :
    splitLabel label = some (s, v) ↔ label = s ++ '/' :: v ∧ '/' ∉ s := by
  have hne : ['/'] ≠ [] := List.cons_ne_nil _ _
  rw [splitLabel, List.splitOnce_eq_some hne]
  refine and_congr_right fun _ => not_congr ?_
  rw [List.dropLast_singleton, List.append_nil, List.singleton_infix_iff]

theorem head_lstrip {text : List Char} : (lstrip text).head? ≠ some '/' := by
  intro h
  have hhead := List.head?_dropWhile_not (fun c => decide (c = '/')) text
  rw [← lstrip, h] at hhead
  simp at hhead

theorem asked_eq (hne : s ≠ []) (hs : '/' ∉ s) : asked s v = (s, some v) := by
  have hstrip : lstrip (s ++ '/' :: v) = s ++ '/' :: v := by
    refine lstrip_of_head ?_
    obtain ⟨c, s, rfl⟩ := List.exists_cons_of_ne_nil hne
    intro hc
    exact hs (List.mem_cons.2 (.inl (Option.some.inj hc).symm))
  have hsplit : List.splitOnce ['/'] (s ++ '/' :: v) = some (s, v) :=
    splitLabel_eq_some.2 ⟨rfl, hs⟩
  rw [asked, hstrip, splitValue, hsplit]

/-- No filter asks for a label of the set with an empty name. -/
theorem asked_ne {w : List Char} : asked s v ≠ ([], some w) := by
  intro h
  rw [asked, splitValue] at h
  rcases hsplit : List.splitOnce ['/'] (lstrip (s ++ '/' :: v)) with _ | ⟨a, b⟩
  · rw [hsplit] at h
    cases (Prod.mk.inj h).2
  · rw [hsplit] at h
    obtain ⟨rfl, -⟩ := Prod.mk.inj h
    obtain ⟨heq, -⟩ := splitLabel_eq_some.1 hsplit
    exact head_lstrip (by rw [heq]; rfl)

theorem mem_named : (s, v) ∈ named labels ↔ s ++ '/' :: v ∈ labels ∧ '/' ∉ s := by
  rw [named, List.mem_filterMap]
  constructor
  · rintro ⟨label, hlabel, hsplit⟩
    obtain ⟨rfl, hs⟩ := splitLabel_eq_some.1 hsplit
    exact ⟨hlabel, hs⟩
  · rintro ⟨hlabel, hs⟩
    exact ⟨_, hlabel, splitLabel_eq_some.2 ⟨rfl, hs⟩⟩

/-! ## What is read of some labels -/

/-- The labels by their sets. -/
abbrev groupsOf (labels : List (List Char)) : List (List Char × List (List Char)) :=
  group (readings none labels)

theorem askAgentFilters_eq (h : ∀ label ∈ labels.head?, (splitLabel label).isSome) :
    askAgentFilters labels = .ok ((groupsOf labels).foldl addFilters ([], [])) := by
  obtain ⟨current, hfold⟩ := @foldlM_addLabel labels none [] (.inr h)
  rw [askAgentFilters, hfold]
  rfl

/-- A label that is not well formed cannot be the first. -/
theorem first_of_askAgentFilters (h : askAgentFilters labels = .ok filters) :
    ∀ label ∈ labels.head?, (splitLabel label).isSome := by
  rcases labels with _ | ⟨label, labels⟩
  · rintro _ ⟨⟩
  · rintro _ ⟨⟩
    rcases hsplit : splitLabel label with _ | p
    · obtain ⟨e, herror⟩ := @foldlM_addLabel_error labels [] label hsplit
      rw [askAgentFilters, herror] at h
      cases h
    · rfl

theorem mem_groupsOf {g : List Char × List (List Char)} : g ∈ groupsOf labels ↔
    g.1 ∈ (readings none labels).map Prod.fst ∧ g.2 = valuesOf g.1 (readings none labels) :=
  mem_group

theorem exists_mem_of_mem_groupsOf {g : List Char × List (List Char)} (hg : g ∈ groupsOf labels) :
    ∃ v, v ∈ g.2 := by
  obtain ⟨hkey, hvalues⟩ := mem_groupsOf.1 hg
  obtain ⟨⟨s, v⟩, hmem, heq⟩ := List.mem_map.1 hkey
  exact ⟨v, by rw [hvalues, mem_valuesOf, ← heq]; exact hmem⟩

theorem mem_named_of_mem_groupsOf {g : List Char × List (List Char)} (hg : g ∈ groupsOf labels)
    (hv : v ∈ g.2) : (g.1, v) ∈ named labels := by
  rw [(mem_groupsOf.1 hg).2, mem_valuesOf] at hv
  exact mem_readings_iff.1 hv

/-- Of the sets with more than one label, each is listed more than once. -/
theorem many_iff {g : List Char × List (List Char)} (hg : g ∈ groupsOf labels) :
    (¬ ∃ v, g.2 = [v]) ↔ 2 ≤ (listedSets none labels).count g.1 := by
  have hcount := length_valuesOf g.1 (readings none labels)
  rw [map_readings, ← (mem_groupsOf.1 hg).2] at hcount
  have hpos := List.length_pos_of_mem (exists_mem_of_mem_groupsOf hg).choose_spec
  rw [← List.length_eq_one_iff, Option.map_none] at *
  omega

/-- The resources that carry the labels are those that carry one of each group. -/
theorem carries_iff : Carries labels resource ↔
    ∀ g ∈ groupsOf labels, ∃ v ∈ g.2, (g.1, v) ∈ resource := by
  constructor
  · intro h g hg
    obtain ⟨v, hv⟩ := exists_mem_of_mem_groupsOf hg
    obtain ⟨⟨s, w⟩, hw, heq, hmem⟩ := h _ (mem_named_of_mem_groupsOf hg hv)
    obtain rfl : s = g.1 := heq
    refine ⟨w, ?_, hmem⟩
    rw [(mem_groupsOf.1 hg).2, mem_valuesOf]
    exact mem_readings_iff.2 hw
  · rintro h ⟨s, v⟩ hp
    have hread := mem_readings_iff.2 hp
    obtain ⟨w, hw, hmem⟩ := h (s, valuesOf s (readings none labels))
      (mem_groupsOf.2 ⟨List.mem_map_of_mem hread, rfl⟩)
    exact ⟨(s, w), mem_readings_iff.1 (mem_valuesOf.1 hw), rfl, hmem⟩

/-- A group that is known by its key. -/
theorem eq_of_mem_groupsOf {g g' : List Char × List (List Char)} (hg : g ∈ groupsOf labels)
    (hg' : g' ∈ groupsOf labels) (heq : g.1 = g'.1) : g = g' := by
  refine Prod.ext heq ?_
  rw [(mem_groupsOf.1 hg).2, (mem_groupsOf.1 hg').2, heq]

theorem madeFor_groups : MadeFor (groups.foldl addFilters ([], [])) := by
  intro f hf
  rcases List.mem_append.1 hf with hf | hf
  · rcases mem_foldl_addFilters.1 hf with hf | ⟨g, -, v, -, rfl⟩
    · cases hf
    · exact ⟨g.1, v, rfl⟩
  · rcases @foldl_addFilters_snd groups ([], []) with ⟨heq, -⟩ | ⟨g, -, -, heq⟩
    · rw [heq] at hf
      cases hf
    · rw [heq] at hf
      obtain ⟨v, -, rfl⟩ := List.mem_map.1 hf
      exact ⟨g.1, v, rfl⟩

/-! ## Which groups constrain -/

/-- A filter is that of a label, if its set has a name. -/
theorem holds_labelFilter (h : (Kind.label.name, ['l']) ∈ table.entries) (hne : s ≠ [])
    (hs : '/' ∉ s) : (∀ x ∈ toFieldFilterExpression (O := Empty) table (labelFilter s v),
      labelMeaning.field resource x) ↔ (s, v) ∈ resource := by
  rw [toField_labelFilter h, asked_eq hne hs]
  exact ⟨fun hall => hall _ rfl, fun hmem x hx => Option.some.inj hx ▸ hmem⟩

theorem exists_holds_labelFilter (h : (Kind.label.name, ['l']) ∈ table.entries) (hne : s ≠ [])
    (hs : '/' ∉ s) : (∃ x ∈ toFieldFilterExpression (O := Empty) table (labelFilter s v),
      labelMeaning.field resource x) ↔ (s, v) ∈ resource := by
  rw [toField_labelFilter h, asked_eq hne hs]
  refine ⟨fun ⟨x, hx, hmem⟩ => ?_, fun hmem => ⟨_, rfl, hmem⟩⟩
  obtain rfl := Option.some.inj hx
  exact hmem

/-- The groups with one label constrain what is admitted, and so does one of the others, if there
    are any. -/
theorem exists_admits_iff (h : (Kind.label.name, ['l']) ∈ table.entries)
    (hne : ∀ label ∈ labels, label.head? ≠ some '/') :
    ∃ chosen : Option (List Char × List (List Char)),
      (∀ g ∈ chosen, g ∈ groupsOf labels ∧ ¬ ∃ v, g.2 = [v]) ∧
      (chosen = none → ∀ g ∈ groupsOf labels, ∃ v, g.2 = [v]) ∧
      ∀ resource, Admits table ((groupsOf labels).foldl addFilters ([], [])) resource ↔
        ∀ g ∈ groupsOf labels, (∃ v, g.2 = [v]) ∨ g ∈ chosen → ∃ v ∈ g.2, (g.1, v) ∈ resource := by
  have hset : ∀ g ∈ groupsOf labels, g.1 ≠ [] ∧ '/' ∉ g.1 := by
    intro g hg
    obtain ⟨v, hv⟩ := exists_mem_of_mem_groupsOf hg
    obtain ⟨hlabel, hslash⟩ := mem_named.1 (mem_named_of_mem_groupsOf hg hv)
    refine ⟨fun hnil => hne _ hlabel ?_, hslash⟩
    rw [hnil]
    rfl
  have hands : ∀ resource : Labels,
      (∀ f ∈ ((groupsOf labels).foldl addFilters ([], [])).1,
        ∀ x ∈ toFieldFilterExpression table f, labelMeaning.field resource x) ↔
      ∀ g ∈ groupsOf labels, (∃ v, g.2 = [v]) → ∃ v ∈ g.2, (g.1, v) ∈ resource := by
    intro resource
    constructor
    · rintro hall g hg ⟨v, hv⟩
      refine ⟨v, hv ▸ List.mem_singleton_self v, ?_⟩
      exact (holds_labelFilter h (hset g hg).1 (hset g hg).2).1
        (hall _ (mem_foldl_addFilters.2 (.inr ⟨g, hg, v, hv, rfl⟩)))
    · intro hall f hf
      rcases mem_foldl_addFilters.1 hf with hf | ⟨g, hg, v, hv, rfl⟩
      · cases hf
      · refine (holds_labelFilter h (hset g hg).1 (hset g hg).2).2 ?_
        obtain ⟨w, hw, hmem⟩ := hall g hg ⟨v, hv⟩
        rw [hv, List.mem_singleton] at hw
        exact hw ▸ hmem
  rcases @foldl_addFilters_snd (groupsOf labels) ([], []) with ⟨heq, hone⟩ | ⟨g, hg, hmany, heq⟩
  · refine ⟨none, fun g hg => absurd hg (Option.not_mem_none g), fun _ => hone, fun resource => ?_⟩
    rw [admits_iff h madeFor_groups, hands]
    exact ⟨fun hall g hg _ => hall.1 g hg (hone g hg),
      fun hall => ⟨fun g hg hv => hall g hg (.inl hv), .inl heq⟩⟩
  · refine ⟨some g, ?_, fun hnone => absurd hnone (Option.some_ne_none g), fun resource => ?_⟩
    · rintro _ ⟨⟩
      exact ⟨hg, hmany⟩
    · obtain ⟨v, hv⟩ := exists_mem_of_mem_groupsOf hg
      have hfilters : ((groupsOf labels).foldl addFilters ([], [])).2 ≠ [] := by
        rw [heq]
        exact List.ne_nil_of_mem (List.mem_map_of_mem hv)
      rw [admits_iff h madeFor_groups, hands, or_iff_right hfilters, heq]
      simp only [List.mem_map, exists_exists_and_eq_and]
      constructor
      · rintro ⟨hall, w, hw, hmem⟩ g' hg' (hone | hchosen)
        · exact hall g' hg' hone
        · obtain rfl := Option.some.inj hchosen
          exact ⟨w, hw, (exists_holds_labelFilter h (hset g hg).1 (hset g hg).2).1 hmem⟩
      · intro hall
        refine ⟨fun g' hg' hone => hall g' hg' (.inl hone), ?_⟩
        obtain ⟨w, hw, hmem⟩ := hall g hg (.inr rfl)
        exact ⟨w, hw, (exists_holds_labelFilter h (hset g hg).1 (hset g hg).2).2 hmem⟩

/-- A resource that carries all labels but those of a set. -/
def without (s : List Char) (labels : List (List Char)) : Labels :=
  (named labels).filter fun p => p.1 ≠ s

theorem mem_without : p ∈ without s labels ↔ p ∈ named labels ∧ p.1 ≠ s := by
  rw [without, List.mem_filter, decide_eq_true_iff]

/-- A group that is not chosen does not constrain. -/
theorem chosen_of_constrains (h : (Kind.label.name, ['l']) ∈ table.entries)
    (hne : ∀ label ∈ labels, label.head? ≠ some '/')
    (hconstrains : ∀ resource,
      Admits table ((groupsOf labels).foldl addFilters ([], [])) resource ↔
        Carries labels resource) :
    ∃ chosen : Option (List Char × List (List Char)),
      ∀ g ∈ groupsOf labels, (¬ ∃ v, g.2 = [v]) → g ∈ chosen := by
  obtain ⟨chosen, -, -, hadmits⟩ := exists_admits_iff h hne
  refine ⟨chosen, fun g hg hmany => ?_⟩
  by_contra hchosen
  have hcarries : Carries labels (without g.1 labels) := by
    refine (hconstrains _).1 ((hadmits _).2 fun g' hg' hkept => ?_)
    obtain ⟨v, hv⟩ := exists_mem_of_mem_groupsOf hg'
    refine ⟨v, hv, mem_without.2 ⟨mem_named_of_mem_groupsOf hg' hv, fun heq => ?_⟩⟩
    obtain rfl := eq_of_mem_groupsOf hg' hg heq
    exact hkept.elim hmany hchosen
  obtain ⟨v, -, hv⟩ := carries_iff.1 hcarries g hg
  exact (mem_without.1 hv).2 rfl

/-- A resource that every filter admits, but that carries no label of the set with an empty name. -/
def asAsked (fresh : List Char) (labels : List (List Char)) : Labels :=
  (named labels).map fun p => ((asked p.1 p.2).1, (asked p.1 p.2).2.getD fresh)

theorem mem_asAsked {fresh : List Char} (hp : p ∈ named labels) :
    labelMeaning.field (asAsked fresh labels) (.label (asked p.1 p.2).1 (asked p.1 p.2).2) := by
  have hmem : ((asked p.1 p.2).1, (asked p.1 p.2).2.getD fresh) ∈ asAsked fresh labels :=
    List.mem_map_of_mem hp
  rcases hasked : (asked p.1 p.2).2 with _ | w
  · exact ⟨_, hmem⟩
  · rw [hasked] at hmem
    exact hmem

/-- A label of the set with an empty name is not asked for as such. -/
theorem nonempty_of_constrains (h : (Kind.label.name, ['l']) ∈ table.entries)
    (hconstrains : ∀ resource,
      Admits table ((groupsOf labels).foldl addFilters ([], [])) resource ↔
        Carries labels resource) :
    ∀ label ∈ labels, label.head? ≠ some '/' := by
  intro label hlabel hhead
  obtain ⟨v, rfl⟩ : ∃ v, label = [] ++ '/' :: v := by
    rcases label with _ | ⟨c, v⟩
    · cases hhead
    · obtain rfl := Option.some.inj hhead
      exact ⟨v, rfl⟩
  have hnamed : ([], v) ∈ named labels := mem_named.2 ⟨hlabel, List.not_mem_nil⟩
  obtain ⟨fresh, hfresh⟩ := Infinite.exists_notMem_finset (labels.map List.tail).toFinset
  rw [List.mem_toFinset] at hfresh
  have hholds : ∀ g ∈ groupsOf labels, ∀ w ∈ g.2,
      ∀ x ∈ toFieldFilterExpression (O := Empty) table (labelFilter g.1 w),
        labelMeaning.field (asAsked fresh labels) x := by
    intro g hg w hw x hx
    rw [toField_labelFilter h] at hx
    obtain rfl := Option.some.inj hx
    exact mem_asAsked (mem_named_of_mem_groupsOf hg hw)
  have hadmits : Admits table ((groupsOf labels).foldl addFilters ([], []))
      (asAsked fresh labels) := by
    refine (admits_iff h madeFor_groups).2 ⟨fun f hf => ?_, ?_⟩
    · rcases mem_foldl_addFilters.1 hf with hf | ⟨g, hg, w, hw, rfl⟩
      · cases hf
      · exact hholds g hg w (hw ▸ List.mem_singleton_self w)
    · rcases @foldl_addFilters_snd (groupsOf labels) ([], []) with ⟨heq, -⟩ | ⟨g, hg, -, heq⟩
      · exact .inl heq
      · obtain ⟨w, hw⟩ := exists_mem_of_mem_groupsOf hg
        refine .inr ⟨labelFilter g.1 w, heq ▸ List.mem_map_of_mem hw, _, toField_labelFilter h, ?_⟩
        exact hholds g hg w hw _ (toField_labelFilter h)
  obtain ⟨⟨s, w⟩, hq, hs, hmem⟩ := (hconstrains _).1 hadmits _ hnamed
  obtain rfl : s = [] := hs
  obtain ⟨⟨a, b⟩, -, heq⟩ := List.mem_map.1 hmem
  obtain ⟨hset, hlabel⟩ := Prod.mk.inj heq
  rcases hasked : (asked a b).2 with _ | u
  · rw [hasked] at hlabel
    obtain rfl : fresh = w := hlabel
    exact hfresh (List.mem_map.2 ⟨_, (mem_named.1 hq).1, rfl⟩)
  · exact asked_ne (Prod.ext hset hasked)

theorem two_le_count_iff : 2 ≤ (listedSets none labels).count s ↔
    ∃ g ∈ groupsOf labels, g.1 = s ∧ ¬ ∃ v, g.2 = [v] := by
  constructor
  · intro hcount
    have hmem : s ∈ (readings none labels).map Prod.fst := by
      rw [map_readings]
      exact List.count_pos_iff.1 (Nat.lt_of_lt_of_le Nat.two_pos hcount)
    have hg : (s, valuesOf s (readings none labels)) ∈ groupsOf labels :=
      mem_groupsOf.2 ⟨hmem, rfl⟩
    exact ⟨_, hg, rfl, (many_iff hg).2 hcount⟩
  · rintro ⟨g, hg, rfl, hmany⟩
    exact (many_iff hg).1 hmany

/-- The filters for some labels admit what carries a label of each set, if and only if the first
    label is well formed, no label set has an empty name, and at most one is listed more than
    once. -/
theorem askAgentFilters_constrain_iff (h : (Kind.label.name, ['l']) ∈ table.entries) :
    Constrains table labels ↔ Listed labels := by
  constructor
  · rintro ⟨filters, hask, hconstrains⟩
    have hfirst := first_of_askAgentFilters hask
    rw [askAgentFilters_eq hfirst] at hask
    obtain rfl := Except.ok.inj hask
    have hne := nonempty_of_constrains h hconstrains
    refine ⟨hfirst, hne, fun s s' hs hs' => ?_⟩
    obtain ⟨chosen, hchosen⟩ := chosen_of_constrains h hne hconstrains
    obtain ⟨g, hg, rfl, hmany⟩ := two_le_count_iff.1 hs
    obtain ⟨g', hg', rfl, hmany'⟩ := two_le_count_iff.1 hs'
    have hin : chosen = some g := hchosen g hg hmany
    have hin' : chosen = some g' := hchosen g' hg' hmany'
    rw [Option.some.inj (hin.symm.trans hin')]
  · intro hlisted
    refine ⟨_, askAgentFilters_eq hlisted.first, fun resource => ?_⟩
    obtain ⟨chosen, hchosen, hnone, hadmits⟩ := exists_admits_iff h hlisted.nonempty
    rw [hadmits, carries_iff]
    refine forall₂_congr fun g hg => ?_
    have hkept : (∃ v, g.2 = [v]) ∨ g ∈ chosen := by
      by_cases hone : ∃ v, g.2 = [v]
      · exact .inl hone
      · -- Only one set is listed more than once, and thus chosen.
        rcases hcases : chosen with _ | g'
        · exact .inl (hnone hcases g hg)
        · obtain ⟨hg', hmany'⟩ := hchosen g' hcases
          have heq := hlisted.once g.1 g'.1 (two_le_count_iff.2 ⟨g, hg, rfl, hone⟩)
            (two_le_count_iff.2 ⟨g', hg', rfl, hmany'⟩)
          exact .inr (congrArg some (eq_of_mem_groupsOf hg' hg heq.symm))
    exact ⟨fun hall => hall hkept, fun hex _ => hex⟩

/-- A label set with two labels, one of another set, and a label that is not well formed. -/
def topicsAndKinds : List (List Char) :=
  ["topics/news".toList, "sports".toList, "topics/sports".toList, "kinds/article".toList]

theorem listed_topicsAndKinds : Listed topicsAndKinds where
  first := by
    rintro label ⟨⟩
    rfl
  nonempty label hlabel := by
    simp only [topicsAndKinds, List.mem_cons, List.not_mem_nil, or_false] at hlabel
    rcases hlabel with rfl | rfl | rfl | rfl <;> decide
  once s s' hs hs' := by
    have hsets : listedSets none topicsAndKinds =
        ["topics".toList, "topics".toList, "topics".toList, "kinds".toList] := by decide +kernel
    have hall : ∀ t, 2 ≤ (listedSets none topicsAndKinds).count t → t = "topics".toList := by
      intro t ht
      rw [hsets] at ht
      by_contra hne
      rw [List.count_cons_of_ne (Ne.symm hne), List.count_cons_of_ne (Ne.symm hne),
        List.count_cons_of_ne (Ne.symm hne)] at ht
      exact absurd (ht.trans List.count_le_length) (by decide)
    rw [hall s hs, hall s' hs']

theorem topicsAndKinds_constrain : Constrains someAliases topicsAndKinds :=
  (askAgentFilters_constrain_iff (by decide +kernel)).2 listed_topicsAndKinds

/-- Two labels of one set, and two of another. -/
def topicsAndTwoKinds : List (List Char) :=
  ["topics/news".toList, "topics/sports".toList, "kinds/article".toList, "kinds/review".toList]

/-- Only the filters of the last set are kept: a resource is admitted that has no label of the
    first. -/
theorem not_topicsAndTwoKinds_constrain : ¬ Constrains someAliases topicsAndTwoKinds := by
  rintro ⟨filters, hask, hconstrains⟩
  have hfilters : askAgentFilters topicsAndTwoKinds =
      .ok ([], ["/l/kinds/article".toList, "/l/kinds/review".toList]) := by
    decide +kernel
  rw [hfilters] at hask
  obtain rfl := Except.ok.inj hask
  have hmeans : Admits someAliases ([], ["/l/kinds/article".toList, "/l/kinds/review".toList])
      [("kinds".toList, "article".toList)] := by
    refine (admits_iff (by decide +kernel) ?_).2 ⟨fun f hf => absurd hf List.not_mem_nil, ?_⟩
    · intro f hf
      simp only [List.nil_append, List.mem_cons, List.not_mem_nil, or_false] at hf
      rcases hf with rfl | rfl
      · exact ⟨"kinds".toList, "article".toList, rfl⟩
      · exact ⟨"kinds".toList, "review".toList, rfl⟩
    · refine .inr ⟨_, List.mem_cons_self, .label "kinds".toList (some "article".toList), ?_, ?_⟩
      · exact toField_labelFilter (s := "kinds".toList) (v := "article".toList) (by decide +kernel)
      · exact List.mem_singleton_self _
  obtain ⟨q, -, hset, hq⟩ := (hconstrains _).1 hmeans ("topics".toList, "news".toList)
    (by decide +kernel)
  rw [List.mem_singleton.1 hq] at hset
  exact absurd hset (by decide)

end Hyperforge.NucliaDB
