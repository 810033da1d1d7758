import Hyperforge.Library.Json.Dict
import Hyperforge.NucliaDB.LegacyFilters
import Mathlib.Tactic.Tauto

/-!
# The filter expression of a query

The filters that are asked for, in several groups, and those of a driver become one filter
expression (`buildFilterExpression`).

* `buildFilterExpression_conjoins_iff`: it matches what each of them does, but where two expressions
  have parts that are joined with `or`: these are merged part by part.
-/

namespace Hyperforge.NucliaDB

open Json

variable {O P Field Paragraph : Type}

/-! ## Building the expression -/

/-- For words in lower case, words that mean the same. -/
abbrev Synonyms := List (List Char × List (List Char))

/-- The filters of the configuration of a driver. -/
structure DriverConfig (O P : Type) where
  filters : Option (List (List Char)) := none
  filterExpression : Option (FilterExpression O P) := none

/-- The filters that are asked for. -/
structure Filters (O P : Type) where
  keywordFilters : Option (List (List Char)) := none
  andFilters : Option (List (List Char)) := none
  orFilters : Option (List (List Char)) := none
  resourceFilters : Option (List (List Char)) := none
  filterExpression : Option (FilterExpression O P) := none

/-- The synonyms of the sources that are known, after those of a source have been asked for. -/
def addSynonyms (synonyms : List (List Char × Synonyms)) (source : List Char)
    (synonymsRaw : Synonyms) (keywordFilters : List (List Char)) : List (List Char × Synonyms) :=
  if !keywordFilters.isEmpty && (synonyms.lookup source).isNone then
    assign source synonymsRaw synonyms
  else synonyms

/-- The synonyms of a source, if they are known, and else as they are asked for. -/
def synonymsOf (synonyms : List (List Char × Synonyms)) (source : List Char)
    (synonymsRaw : Synonyms) : Synonyms := (synonyms.lookup source).getD synonymsRaw

/-- The keywords, each followed by its synonyms. -/
def withSynonyms (lower : List Char → List Char) (synonyms : Synonyms)
    (keywordFilters : List (List Char)) : List (List Char) :=
  keywordFilters.flatMap fun keyword => keyword :: ((synonyms.lookup (lower keyword)).getD [])

/-- Converts the legacy filters that can be converted. -/
def toFieldFilterExpressions (table : AliasTable) (legacyFilters : List (List Char)) :
    List (Formula (NdbFilter O)) :=
  (legacyFilters.filterMap (toFieldFilterExpression table)).map .leaf

section Build

variable (table : AliasTable) (lower : List Char → List Char) (synonyms : Synonyms)
  (config : DriverConfig O P) (filters : Filters O P)

/-- What every field has to match. -/
def andOperands : List (Formula (NdbFilter O)) :=
  (Formula.join .or ((withSynonyms lower synonyms (filters.keywordFilters.getD [])).map
    fun word => .leaf (.keyword word))).toList ++
  (filters.resourceFilters.map fun ids => .or (ids.map fun id => .leaf (.resource id))).toList ++
  (Formula.join .and (toFieldFilterExpressions table (config.filters.getD []))).toList ++
  (Formula.join .and (toFieldFilterExpressions table (filters.andFilters.getD []))).toList ++
  (Formula.join .or (toFieldFilterExpressions table (filters.orFilters.getD []))).toList

def expressionsToCombine : List (FilterExpression O P) :=
  (Formula.join .and (andOperands table lower synonyms config filters)).toList.map
    (fun x => { field := some x }) ++
  filters.filterExpression.toList ++ config.filterExpression.toList

end Build

/-- Applies all the filters to create a single expression. It comes with the synonyms that are known
    from now on. -/
def buildFilterExpression (table : AliasTable) (lower : List Char → List Char)
    (synonyms : List (List Char × Synonyms)) (source : List Char) (synonymsRaw : Synonyms)
    (config : DriverConfig O P) (filters : Filters O P) :
    List (List Char × Synonyms) × Except String (Option (FilterExpression O P)) :=
  let synonyms := addSynonyms synonyms source synonymsRaw (filters.keywordFilters.getD [])
  (synonyms,
    match expressionsToCombine table lower ((synonyms.lookup source).getD []) config filters with
    | [] => .ok none
    | [e] => .ok (some e)
    | expressions => (combineFilterExpressions expressions .and).map some)

/-! ## What is asked for -/

section Imposed

variable (table : AliasTable) (lower : List Char → List Char) (synonyms : Synonyms)
  (config : DriverConfig O P) (filters : Filters O P)

/-- There is no filter on fields. -/
structure NoOperands : Prop where
  keywordFilters : filters.keywordFilters.getD [] = []
  resourceFilters : filters.resourceFilters = none
  driverFilters : config.filters.getD [] = []
  andFilters : filters.andFilters.getD [] = []
  orFilters : filters.orFilters.getD [] = []

structure NothingToImpose : Prop extends NoOperands config filters where
  filterExpression : filters.filterExpression = none
  driverExpression : config.filterExpression = none

/-- The legacy filters can be converted. -/
def Parseable : Prop :=
  ∀ f ∈ config.filters.getD [] ++ filters.andFilters.getD [] ++ filters.orFilters.getD [],
    (toFieldFilterExpression (O := O) table f).isSome

/-- A field matches what it has to. -/
structure ImposedOnField (matches_ : NdbFilter O → Prop) : Prop where
  keywordFilters : filters.keywordFilters.getD [] = [] ∨
    ∃ keyword ∈ filters.keywordFilters.getD [],
      ∃ word ∈ keyword :: ((synonyms.lookup (lower keyword)).getD []), matches_ (.keyword word)
  resourceFilters : ∀ ids ∈ filters.resourceFilters, ∃ id ∈ ids, matches_ (.resource id)
  driverFilters : ∀ f ∈ config.filters.getD [], ∀ x ∈ toFieldFilterExpression table f, matches_ x
  andFilters : ∀ f ∈ filters.andFilters.getD [], ∀ x ∈ toFieldFilterExpression table f, matches_ x
  orFilters : filters.orFilters.getD [] = [] ∨
    ∃ f ∈ filters.orFilters.getD [], ∃ x ∈ toFieldFilterExpression table f, matches_ x

variable (m : Meaning O P Field Paragraph)

/-- A field and a paragraph match everything that is asked for. -/
structure Imposed (field : Field) (paragraph : Paragraph) : Prop extends
    ImposedOnField table lower synonyms config filters (m.field field) where
  filterExpression : ∀ e ∈ filters.filterExpression, e.Matches m field paragraph
  driverExpression : ∀ e ∈ config.filterExpression, e.Matches m field paragraph

/-- If there is an expression, it matches what matches everything that is asked for, and if there is
    none, nothing is asked for. -/
def Conjoins : Except String (Option (FilterExpression O P)) → Prop
  | .error _ => True
  | .ok none => NothingToImpose config filters
  | .ok (some e) => ∀ field paragraph, e.Matches m field paragraph ↔
    Imposed table lower synonyms config filters m field paragraph

end Imposed

namespace FilterExpression

variable (m : Meaning O P Field Paragraph) (e e' : FilterExpression O P) (field : Field)
  (paragraph : Paragraph)

def FieldHolds : Prop := ∃ x ∈ e.field, x.Holds (m.field field)

def FieldFails : Prop := ∃ x ∈ e.field, ¬ x.Holds (m.field field)

def ParagraphHolds : Prop := ∃ y ∈ e.paragraph, y.Holds (m.paragraph paragraph)

def ParagraphFails : Prop := ∃ y ∈ e.paragraph, ¬ y.Holds (m.paragraph paragraph)

/-- One expression is matched in its field, and the other in its paragraph only; or one is not
    matched, as it has no part of the kind in which the other is matched. -/
def Crosses : Prop :=
  e.FieldHolds m field ∧ e.ParagraphFails m paragraph ∧ e'.FieldFails m field ∧
      e'.ParagraphHolds m paragraph ∨
    e.FieldHolds m field ∧ e'.field = none ∧ e'.ParagraphFails m paragraph ∨
    e.ParagraphHolds m paragraph ∧ e'.paragraph = none ∧ e'.FieldFails m field

end FilterExpression

/-- Where there are two expressions only, both joined with `or`, they do not cross. -/
def Uncrossed (m : Meaning O P Field Paragraph) (config : DriverConfig O P)
    (filters : Filters O P) : Prop :=
  NoOperands config filters → ∀ e ∈ filters.filterExpression, ∀ e' ∈ config.filterExpression,
    e.operator = .or → e'.operator = .or →
      ∀ field paragraph, ¬ e.Crosses m e' field paragraph ∧ ¬ e'.Crosses m e field paragraph

variable {table : AliasTable} {lower : List Char → List Char} {synonyms : Synonyms}
  {config : DriverConfig O P} {filters : Filters O P} {m : Meaning O P Field Paragraph}
  {field : Field} {paragraph : Paragraph} {matches_ : NdbFilter O → Prop}
  {e e' : FilterExpression O P} {xs : List (List Char)}

theorem forall_toFieldFilterExpressions :
    (∀ x ∈ toFieldFilterExpressions (O := O) table xs, x.Holds matches_) ↔
      ∀ f ∈ xs, ∀ x ∈ toFieldFilterExpression table f, matches_ x := by
  rw [toFieldFilterExpressions, List.forall_mem_map]
  simp only [Formula.holds_leaf]
  exact forall_mem_filterMap

theorem exists_toFieldFilterExpressions :
    (∃ x ∈ toFieldFilterExpressions (O := O) table xs, x.Holds matches_) ↔
      ∃ f ∈ xs, ∃ x ∈ toFieldFilterExpression table f, matches_ x := by
  simp only [toFieldFilterExpressions, List.mem_map, List.mem_filterMap, exists_exists_and_eq_and,
    Formula.holds_leaf, Option.mem_def]
  tauto

theorem toFieldFilterExpressions_eq_nil
    (h : ∀ f ∈ xs, (toFieldFilterExpression (O := O) table f).isSome) :
    toFieldFilterExpressions (O := O) table xs = [] ↔ xs = [] := by
  rw [toFieldFilterExpressions, List.map_eq_nil_iff, List.filterMap_eq_nil_iff]
  refine ⟨fun hnone => List.eq_nil_iff_forall_not_mem.2 fun f hf => ?_, ?_⟩
  · have hsome := h f hf
    rw [hnone f hf] at hsome
    cases hsome
  · rintro rfl f hf
    cases hf

theorem withSynonyms_eq_nil : withSynonyms lower synonyms xs = [] ↔ xs = [] := by
  rw [withSynonyms, List.flatMap_eq_nil_iff]
  refine ⟨fun h => List.eq_nil_iff_forall_not_mem.2 fun keyword hkeyword => ?_, ?_⟩
  · exact absurd (h keyword hkeyword) (List.cons_ne_nil _ _)
  · rintro rfl keyword hkeyword
    cases hkeyword

theorem holds_resources {resources : Option (List (List Char))} :
    (∀ x ∈ resources.map fun ids => Formula.or (ids.map fun id => .leaf (.resource id)),
      x.Holds matches_) ↔ ∀ ids ∈ resources, ∃ id ∈ ids, matches_ (.resource id) := by
  rcases resources with _ | ids <;> simp

theorem forall_mem_toList {α : Type} {o : Option α} {Q : α → Prop} :
    (∀ x ∈ o.toList, Q x) ↔ ∀ x ∈ o, Q x := by
  cases o <;> simp

/-- What every field has to match is what is imposed on it. -/
theorem forall_andOperands (h : Parseable table config filters) :
    (∀ x ∈ andOperands table lower synonyms config filters, x.Holds matches_) ↔
      ImposedOnField table lower synonyms config filters matches_ := by
  rw [Parseable, List.forall_mem_append] at h
  simp only [andOperands, List.forall_mem_append, forall_mem_toList]
  rw [Formula.forall_join_or, holds_resources, Formula.forall_join_and,
    forall_toFieldFilterExpressions, Formula.forall_join_and, forall_toFieldFilterExpressions,
    Formula.forall_join_or, exists_toFieldFilterExpressions, toFieldFilterExpressions_eq_nil h.2,
    List.map_eq_nil_iff, withSynonyms_eq_nil]
  have hkeywords : (∃ x ∈ (withSynonyms lower synonyms (filters.keywordFilters.getD [])).map
      fun word => Formula.leaf (NdbFilter.keyword word), x.Holds matches_) ↔
      ∃ keyword ∈ filters.keywordFilters.getD [],
        ∃ word ∈ keyword :: ((synonyms.lookup (lower keyword)).getD []),
          matches_ (.keyword word) := by
    simp only [withSynonyms, List.mem_map, List.mem_flatMap, exists_exists_and_eq_and,
      Formula.holds_leaf]
    tauto
  rw [hkeywords]
  constructor
  · rintro ⟨⟨⟨⟨hkeyword, hresource⟩, hdriver⟩, hand⟩, hor⟩
    exact ⟨hkeyword, hresource, hdriver, hand, hor⟩
  · intro h
    exact ⟨⟨⟨⟨h.keywordFilters, h.resourceFilters⟩, h.driverFilters⟩, h.andFilters⟩,
      h.orFilters⟩

theorem toList_append_eq {α : Type} {o o' : Option α} {x x' : α} {rest : List α}
    (h : o.toList ++ o'.toList = x :: x' :: rest) : o = some x ∧ o' = some x' ∧ rest = [] := by
  cases o <;> cases o' <;> simp_all

theorem toList_eq_nil {α : Type} {o : Option α} : o.toList = [] ↔ o = none := by
  cases o <;> simp

variable (lower synonyms) in
theorem andOperands_eq_nil (h : Parseable table config filters) :
    andOperands table lower synonyms config filters = [] ↔ NoOperands config filters := by
  rw [Parseable, List.forall_mem_append, List.forall_mem_append] at h
  simp only [andOperands, List.append_eq_nil_iff, toList_eq_nil, Formula.join_eq_none,
    List.map_eq_nil_iff, withSynonyms_eq_nil, Option.map_eq_none_iff,
    toFieldFilterExpressions_eq_nil h.1.1, toFieldFilterExpressions_eq_nil h.1.2,
    toFieldFilterExpressions_eq_nil h.2]
  constructor
  · rintro ⟨⟨⟨⟨hkeyword, hresource⟩, hdriver⟩, hand⟩, hor⟩
    exact ⟨hkeyword, hresource, hdriver, hand, hor⟩
  · intro h
    exact ⟨⟨⟨⟨h.keywordFilters, h.resourceFilters⟩, h.driverFilters⟩, h.andFilters⟩,
      h.orFilters⟩

/-- Everything is imposed by the expressions that are combined. -/
theorem forall_expressionsToCombine (h : Parseable table config filters) :
    (∀ e ∈ expressionsToCombine table lower synonyms config filters,
      e.Matches m field paragraph) ↔
      Imposed table lower synonyms config filters m field paragraph := by
  simp only [expressionsToCombine, List.forall_mem_append, List.forall_mem_map, forall_mem_toList]
  have hfields : (∀ x ∈ Formula.join .and (andOperands table lower synonyms config filters),
      FilterExpression.Matches m { field := some x } field paragraph) ↔
      ImposedOnField table lower synonyms config filters (m.field field) :=
    Formula.forall_join_and.trans (forall_andOperands h)
  rw [hfields]
  exact ⟨fun ⟨⟨hfield, hexpression⟩, hdriver⟩ => ⟨hfield, hexpression, hdriver⟩,
    fun h => ⟨⟨h.toImposedOnField, h.filterExpression⟩, h.driverExpression⟩⟩

variable (lower synonyms) in
theorem expressionsToCombine_eq_nil (h : Parseable table config filters) :
    expressionsToCombine table lower synonyms config filters = [] ↔
      NothingToImpose config filters := by
  simp only [expressionsToCombine, List.append_eq_nil_iff, toList_eq_nil, Formula.join_eq_none,
    List.map_eq_nil_iff, andOperands_eq_nil lower synonyms h]
  exact ⟨fun ⟨⟨hnone, hexpression⟩, hdriver⟩ => ⟨hnone, hexpression, hdriver⟩,
    fun h => ⟨⟨h.toNoOperands, h.filterExpression⟩, h.driverExpression⟩⟩

/-- Two expressions that are joined with `or`, merged part by part. -/
theorem matches_combine_or (he : e.operator = .or) (he' : e'.operator = .or) :
    ∃ r, combineFilterExpressions [e, e'] .and = .ok r ∧ ∀ field paragraph,
      (r.Matches m field paragraph ↔ e.Matches m field paragraph ∧ e'.Matches m field paragraph) ↔
        ¬ e.Crosses m e' field paragraph ∧ ¬ e'.Crosses m e field paragraph := by
  obtain ⟨x, y, operator⟩ := e
  obtain ⟨x', y', operator'⟩ := e'
  obtain rfl : operator = .or := he
  obtain rfl : operator' = .or := he'
  refine ⟨_, rfl, fun field paragraph => ?_⟩
  rcases x with _ | x <;> rcases x' with _ | x' <;> rcases y with _ | y <;>
    rcases y' with _ | y' <;>
    simp [FilterExpression.Matches, FilterExpression.Crosses, FilterExpression.FieldHolds,
      FilterExpression.FieldFails, FilterExpression.ParagraphHolds, FilterExpression.ParagraphFails,
      Formula.join, Operator.klass] <;> tauto

theorem expressionsToCombine_of_noOperands (h : Parseable table config filters)
    (hnone : NoOperands config filters) :
    expressionsToCombine table lower synonyms config filters =
      filters.filterExpression.toList ++ config.filterExpression.toList := by
  rw [expressionsToCombine, (andOperands_eq_nil lower synonyms h).2 hnone]
  rfl

variable (lower synonyms) in
/-- The filters on fields become an expression that joins its parts with `and`. -/
theorem noOperands_of_forall_or (h : Parseable table config filters)
    (hor : ∀ e ∈ expressionsToCombine table lower synonyms config filters, e.operator = .or) :
    NoOperands config filters := by
  have hjoin : Formula.join .and (andOperands table lower synonyms config filters) = none := by
    refine Option.eq_none_iff_forall_ne_some.2 fun x hx => ?_
    have hoperator := hor { field := some x } (by simp [expressionsToCombine, hx])
    cases hoperator
  exact (andOperands_eq_nil lower synonyms h).1 (Formula.join_eq_none.1 hjoin)

/-- The synonyms that are not known yet are asked for. -/
theorem lookup_addSynonyms {known : List (List Char × Synonyms)} {source : List Char}
    {synonymsRaw : Synonyms} (hne : xs ≠ []) :
    ((addSynonyms known source synonymsRaw xs).lookup source).getD [] =
      synonymsOf known source synonymsRaw := by
  rw [addSynonyms, synonymsOf]
  rcases hknown : known.lookup source with _ | found
  · rw [if_pos (by simp [hne]), lookup_assign, if_pos rfl]
    rfl
  · rw [if_neg (by simp), hknown]
    rfl

theorem expressionsToCombine_addSynonyms {known : List (List Char × Synonyms)} {source : List Char}
    {synonymsRaw : Synonyms} :
    expressionsToCombine table lower
        (((addSynonyms known source synonymsRaw (filters.keywordFilters.getD [])).lookup
          source).getD []) config filters =
      expressionsToCombine table lower (synonymsOf known source synonymsRaw) config filters := by
  by_cases hne : filters.keywordFilters.getD [] = []
  · rw [expressionsToCombine, andOperands, hne]
    rw [expressionsToCombine, andOperands, hne]
    rfl
  · rw [lookup_addSynonyms hne]

/-- The expression matches what everything that is asked for does, if and only if there are not just
    two expressions joined with `or` that cross. -/
theorem buildFilterExpression_conjoins_iff {known : List (List Char × Synonyms)}
    {source : List Char} {synonymsRaw : Synonyms} (h : Parseable table config filters) :
    Conjoins table lower (synonymsOf known source synonymsRaw) config filters m
        (buildFilterExpression table lower known source synonymsRaw config filters).2 ↔
      Uncrossed m config filters := by
  rw [buildFilterExpression]
  dsimp only
  rw [expressionsToCombine_addSynonyms]
  generalize synonymsOf known source synonymsRaw = synonyms
  have hnil := expressionsToCombine_eq_nil lower synonyms h
  have hor := noOperands_of_forall_or lower synonyms h
  have himposed : ∀ field paragraph,
      (∀ e ∈ expressionsToCombine table lower synonyms config filters,
        e.Matches m field paragraph) ↔
        Imposed table lower synonyms config filters m field paragraph :=
    fun _ _ => forall_expressionsToCombine h
  have htwo : NoOperands config filters → ∀ e ∈ filters.filterExpression,
      ∀ e' ∈ config.filterExpression,
        expressionsToCombine table lower synonyms config filters = [e, e'] := by
    intro hnone e he e' he'
    rw [expressionsToCombine_of_noOperands h hnone, Option.mem_def.1 he, Option.mem_def.1 he']
    rfl
  rcases hexpressions : expressionsToCombine table lower synonyms config filters with
    _ | ⟨e, _ | ⟨e', rest⟩⟩
  · refine iff_of_true (hnil.1 hexpressions) fun hnone e he e' he' => ?_
    exact absurd (hexpressions.symm.trans (htwo hnone e he e' he')) (List.cons_ne_nil _ _).symm
  · refine iff_of_true (fun field paragraph => ?_) fun hnone e he e' he' => ?_
    · rw [← himposed, hexpressions, List.forall_mem_singleton]
    · have heq := hexpressions.symm.trans (htwo hnone e he e' he')
      exact absurd (List.cons.inj heq).2 (List.cons_ne_nil _ _).symm
  rw [hexpressions] at hor himposed htwo
  by_cases hand : ∃ x ∈ e :: e' :: rest, x.operator = .and
  · refine iff_of_true ?_ fun hnone x hx x' hx' hop hop' => ?_
    · dsimp only
      rcases hcombine : combineFilterExpressions (e :: e' :: rest) .and with error | r
      · trivial
      · intro field paragraph
        rw [← himposed]
        exact matches_combine_and hcombine hand
    · obtain ⟨y, hy, hyop⟩ := hand
      rw [htwo hnone x hx x' hx', List.mem_cons, List.mem_singleton] at hy
      rcases hy with rfl | rfl
      · exact absurd (hop.symm.trans hyop) Operator.noConfusion
      · exact absurd (hop'.symm.trans hyop) Operator.noConfusion
  · -- Only the two given expressions are there, both joined with `or`.
    have hall : ∀ x ∈ e :: e' :: rest, x.operator = .or := by
      intro x hx
      rcases hop : x.operator
      · exact absurd ⟨x, hx, hop⟩ hand
      · rfl
    have hnone := hor hall
    rw [expressionsToCombine_of_noOperands h hnone] at hexpressions
    obtain ⟨hx, hx', rfl⟩ := toList_append_eq hexpressions
    rw [List.forall_mem_cons, List.forall_mem_singleton] at hall
    obtain ⟨r, hcombine, hcross⟩ := matches_combine_or (m := m) hall.1 hall.2
    have hconjoins : Conjoins table lower synonyms config filters m (.ok (some r)) ↔
        ∀ field paragraph, ¬ e.Crosses m e' field paragraph ∧ ¬ e'.Crosses m e field paragraph := by
      refine forall₂_congr fun field paragraph => ?_
      rw [← hcross, ← himposed, List.forall_mem_cons, List.forall_mem_singleton]
    dsimp only
    rw [hcombine]
    refine hconjoins.trans ⟨fun huncrossed _ x hmem x' hmem' _ _ => ?_,
      fun huncrossed => huncrossed hnone e hx e' hx' hall.1 hall.2⟩
    obtain rfl := Option.some.inj (hx.symm.trans hmem)
    obtain rfl := Option.some.inj (hx'.symm.trans hmem')
    exact huncrossed

/-- Resources have ids, and paragraphs are of one of two kinds. -/
def idMeaning : Meaning Empty Bool (List Char) Bool where
  field id x := x = .resource id
  paragraph kind y := kind = y

def labelled : Filters Empty Bool where
  andFilters := some ["/l/topics/news".toList]

theorem buildFilterExpression_conjoins_labelled :
    Conjoins someAliases id (synonymsOf [] [] []) {} labelled idMeaning
      (buildFilterExpression someAliases id [] [] [] {} labelled).2 := by
  refine (buildFilterExpression_conjoins_iff ?_).2 fun _ e he => ?_
  · rintro f hf
    obtain rfl := List.mem_singleton.1 hf
    decide +kernel
  · cases he

/-- The paragraphs of a resource, and those of a kind. -/
def ofResourceOrKind (id : List Char) (kind : Bool) : FilterExpression Empty Bool where
  field := some (.leaf (.resource id))
  paragraph := some (.leaf kind)
  operator := .or

def resourcesOrKinds : Filters Empty Bool where
  filterExpression := some (ofResourceOrKind ['a'] false)

def configResourcesOrKinds : DriverConfig Empty Bool where
  filterExpression := some (ofResourceOrKind ['b'] true)

/-- A paragraph of the second kind in the first resource matches both expressions, but not what they
    are merged to. -/
theorem not_conjoins_ofResourceOrKind :
    ¬ Conjoins someAliases id (synonymsOf [] [] []) configResourcesOrKinds resourcesOrKinds
      idMeaning (buildFilterExpression someAliases id [] [] [] configResourcesOrKinds
        resourcesOrKinds).2 := by
  intro h
  obtain ⟨r, hcombine, hcross⟩ := matches_combine_or (m := idMeaning)
    (show (ofResourceOrKind ['a'] false).operator = .or from rfl)
    (show (ofResourceOrKind ['b'] true).operator = .or from rfl)
  have hbuild : (buildFilterExpression someAliases id [] [] [] configResourcesOrKinds
      resourcesOrKinds).2 = (combineFilterExpressions [ofResourceOrKind ['a'] false,
        ofResourceOrKind ['b'] true] .and).map some := rfl
  rw [hbuild, hcombine] at h
  have hfirst : (ofResourceOrKind ['a'] false).Matches idMeaning ['a'] true :=
    .inl (Formula.holds_leaf.2 rfl)
  have hsecond : (ofResourceOrKind ['b'] true).Matches idMeaning ['a'] true :=
    .inr (Formula.holds_leaf.2 rfl)
  have himposed : Imposed someAliases id (synonymsOf [] [] []) configResourcesOrKinds
      resourcesOrKinds idMeaning ['a'] true := by
    refine ⟨⟨.inl rfl, ?_, fun f hf => absurd hf List.not_mem_nil,
      fun f hf => absurd hf List.not_mem_nil, .inl rfl⟩, ?_, ?_⟩
    · rintro ids ⟨⟩
    · rintro e ⟨⟩
      exact hfirst
    · rintro e ⟨⟩
      exact hsecond
  have hmatches := (h ['a'] true).2 himposed
  refine ((hcross ['a'] true).1 (iff_of_true hmatches ⟨hfirst, hsecond⟩)).1 (.inl ?_)
  refine ⟨⟨_, rfl, Formula.holds_leaf.2 rfl⟩, ⟨_, rfl, fun hkind => ?_⟩,
    ⟨_, rfl, fun hresource => ?_⟩, ⟨_, rfl, Formula.holds_leaf.2 rfl⟩⟩
  · exact absurd (Formula.holds_leaf.1 hkind) Bool.false_ne_true.symm
  · have hid := NdbFilter.resource.inj (Formula.holds_leaf.1 hresource)
    exact absurd hid (by decide)

end Hyperforge.NucliaDB
