import DerivedQuery.Proofs.Clauses

/-!
# The name of a query is read back

The name that is written for a query is cut word by word into the words it was written with.

* `Projection.words`, `Projection.bare`: a projection without its path;
* `passes_projection`, `passes_scope`, `passes_body`: the parts of a name up to its order;
* **`parse_canonical_of_renderable`**: the name of a query stands for it.
-/

namespace DerivedQuery

section Passes

variable {settings : Settings} {b : Bool} {m m' : Mode} {d : Draft} {r : Text}

/-! ## The projection -/

/-- What may follow the words between the action and the conditions of the query. -/
structure Query.Follows (q : Query) (r : Text) : Prop where
  subsumes : Subsumes q.afterScope r
  atBoundary : DerivedQuery.atBoundary r = true
  segment : segmentContinues Mode.projected.accepts r = false

/-- The keyword of a projection, with its limit. -/
def Projection.words (rr : Projection) : Text :=
  match rr.kind with
  | .first =>
    "First".toList ++ Nat.toDigits 10 (rr.count.getD 1) ++
      if rr.distinct then "Distinct".toList else []
  | kind => kind.keyword?.getD []

theorem Projection.canonical_eq (rr : Projection) :
    rr.canonical = rr.words ++ (rr.property.map Path.canonical).getD [] := rfl

/-- What a draft holds of a projection before its path. -/
def Projection.bare (rr : Projection) : Option Projection :=
  if rr.kind = .property then none else some { rr with property := none }

theorem passes_distinct (ha : m.accepts .distinct = true) (hr : atBoundary r = true) :
    Passes settings b m d ("Distinct".toList ++ r) .distinct
      { d with
        projection := some (match d.projection with
          | some rr => rr.withDistinct
          | none => .distinctRecords) } r :=
  passes_keyword (Keyword.mem_table .distinct rfl) (if_pos ha) hr nofun nofun fun _ => rfl

theorem passes_aggregate {kind : ProjectionKind} (hk : kind.isAggregate = true)
    (ha : m.accepts .aggregate = true) (hr : atBoundary r = true) :
    Passes settings b m d (kind.title.toList ++ r) .aggregate
      { d with projection := some { kind := kind } } r :=
  passes_keyword (Keyword.mem_table (.aggregate kind) (if_pos hk)) (if_pos ha) hr nofun nofun
    fun _ => rfl

/-- The words of a projection lead to where its path may begin. -/
theorem passes_words {a : Action} (ha : a.isBulk = false) {rr : Projection}
    (hw : rr.Worded settings) (hr : atBoundary r = true) :
    Passes settings b (.afterAction a) { action := some a } (rr.words ++ r)
      (a.scopeMode (some rr)) { action := some a, projection := rr.bare } r := by
  have hmode : (Mode.afterAction a).accepts .first = true ∧
      (Mode.afterAction a).accepts .distinct = true ∧
        (Mode.afterAction a).accepts .aggregate = true := by
    revert ha
    cases a <;> decide
  obtain ⟨kind, count, dist, property⟩ := rr
  cases kind with
  | first =>
    obtain ⟨n, rfl, hn, hz⟩ := hw
    cases dist with
    | false =>
      have hlimit : Passes settings b (.afterAction a) { action := some a }
          ("First".toList ++ Nat.toDigits 10 n ++ r) .limited
          { action := some a, projection := some (.first n) } r :=
        passes_limit hmode.1 hn hz (takeWhile_isDigit_of_atBoundary hr)
      have htext : ("First".toList ++ Nat.toDigits 10 n ++ []) ++ r =
          "First".toList ++ Nat.toDigits 10 n ++ r := by rw [List.append_nil]
      exact htext ▸ hlimit
    | true =>
      have hlimit : Passes settings b (.afterAction a) { action := some a }
          ("First".toList ++ Nat.toDigits 10 n ++ ("Distinct".toList ++ r)) .limited
          { action := some a, projection := some (.first n) } ("Distinct".toList ++ r) :=
        passes_limit hmode.1 hn hz rfl
      have hdist : Passes settings b .limited
          { action := some a, projection := some (.first n) } ("Distinct".toList ++ r) .distinct
          { action := some a, projection := some (Projection.first n).withDistinct } r :=
        passes_distinct rfl hr
      rw [Projection.words, List.append_assoc]
      exact hlimit.trans hdist
  | distinct =>
    obtain ⟨rfl, rfl⟩ := hw
    exact passes_distinct hmode.2.1 hr
  | max | min | sum | avg =>
    obtain ⟨rfl, rfl⟩ := hw
    exact passes_aggregate rfl hmode.2.2 hr
  | property => exact Passes.refl

theorem closeProjection_bare {a : Action} {rr : Projection} {p : Path}
    (hp : rr.property = some p) (hw : rr.Worded settings) :
    ({ action := some a, projection := rr.bare, segments := p.segments } : Draft).closeProjection =
      { action := some a, projection := some rr } := by
  unfold Draft.closeProjection
  rw [Path.ofSegments?_eq_some_iff.mpr rfl]
  obtain ⟨kind, count, dist, property⟩ := rr
  obtain rfl : property = some p := hp
  cases kind with
  | property =>
    obtain ⟨rfl, rfl⟩ := hw
    rfl
  | distinct | first | max | min | sum | avg => rfl

theorem closeProjection_empty (a : Action) (pr : Option Projection) :
    ({ action := some a, projection := pr } : Draft).closeProjection =
      { action := some a, projection := pr } := rfl

theorem Action.scopeMode_mem {a : Action} (ha : a.isBulk = false) (rr : Projection) :
    a.scopeMode (some rr) ∈ [Mode.narrow, .wide, .limited, .distinct, .aggregate] := by
  have hn : Mode.afterAction a = .narrow ∨ Mode.afterAction a = .wide := by
    revert ha
    cases a <;> decide
  obtain ⟨kind, count, dist, property⟩ := rr
  rcases hn with hn | hn <;> cases kind <;> cases dist <;> simp [scopeMode, hn]

theorem Action.scopeMode_path {a : Action} (ha : a.isBulk = false) (rr : Projection) :
    (a.scopeMode (some rr)).accepts .property = true ∧
      (a.scopeMode (some rr)).pathMode? = some .projected := by
  have key : ∀ m ∈ [Mode.narrow, .wide, .limited, .distinct, .aggregate],
      m.accepts .property = true ∧ m.pathMode? = some .projected := by decide
  exact key _ (scopeMode_mem ha rr)

theorem Action.scopeMode_end (a : Action) {rr : Projection}
    (h : rr.kind = .first ∨ rr.kind = .distinct) :
    (a.scopeMode (some rr)).accepts .criteria = true ∧
      (a.scopeMode (some rr)).accepts .ordering = true ∧
        (a.scopeMode (some rr)).accepts .finish = true := by
  obtain ⟨kind, count, dist, property⟩ := rr
  rcases h with rfl | rfl <;> cases dist <;> exact ⟨rfl, rfl, rfl⟩

/-- The path of a projection is found again in front of what follows it. -/
theorem Projection.Fits.clear {q : Query} {rr : Projection} {p : Path}
    (h : rr.Fits settings q.action q.afterScope) (hp : rr.property = some p) (hr : q.Follows r) :
    Clear settings (q.action.scopeMode (some rr)) (p.canonical ++ r) := by
  obtain ⟨hfits, -, hclear⟩ := h.path p hp
  have hne : p.canonical ≠ [] := fun he => by
    have := hfits.atBoundary ['a']
    rw [he] at this
    cases this
  refine hclear.mono hr.subsumes hne hr.atBoundary fun hn hk => ?_
  have hby : q.afterScope = "By".toList := by
    unfold Query.afterScope at hn ⊢
    split_ifs at hn ⊢ <;> first | exact absurd rfl hn | rfl
  rw [hby] at hk
  exact absurd hk (by decide +kernel)

theorem passes_projection {q : Query} {rr : Projection} (ha : q.action.isBulk = false)
    (h : rr.Fits settings q.action q.afterScope) (hr : q.Follows r) :
    ∃ m' d', Passes settings b (.afterAction q.action) { action := some q.action }
        (rr.canonical ++ r) m' d' r ∧
      d'.clause = .projection ∧ d'.closeProjection = { action := some q.action, projection := rr } ∧
      m'.accepts .criteria = true ∧ m'.accepts .ordering = true ∧ m'.accepts .finish = true := by
  obtain ⟨hprop, hpath⟩ := Action.scopeMode_path ha rr
  rw [Projection.canonical_eq, List.append_assoc]
  cases hp : rr.property with
  | none =>
    have hkind : rr.kind = .first ∨ rr.kind = .distinct := by
      simpa [Projection.NamesPath, hp] using h.namesPath
    have hbare : rr.bare = some rr := by
      obtain ⟨kind, count, dist, property⟩ := rr
      obtain rfl : property = none := hp
      rcases hkind with rfl | rfl <;> rfl
    have hwords := passes_words (b := b) ha h.worded hr.atBoundary
    rw [hbare] at hwords
    exact ⟨_, _, hwords, rfl, closeProjection_empty _ _, q.action.scopeMode_end hkind⟩
  | some p =>
    obtain ⟨hfits, hlast, -⟩ := h.path p hp
    have hwords := passes_words (b := b) (r := p.canonical ++ r) ha h.worded (hfits.atBoundary r)
    have hpass := passes_path (b := b) (d := { action := some q.action, projection := rr.bare })
      hprop hpath (h.clear hp hr) hfits (fun s hs => (hlast s hs).mono hr.subsumes) hr.segment rfl
    exact ⟨_, _, hwords.trans hpass, rfl, closeProjection_bare hp h.worded, by decide⟩

theorem Mode.accepts_all {a : Action} (h : a.isBulk = true ∨ a.acceptsAll = true) :
    (Mode.afterAction a).accepts .all = true := by
  revert h
  cases a <;> decide

theorem Mode.accepts_end {a : Action} (h : ¬ (a.isBulk = true ∨ a.acceptsAll = true)) :
    (Mode.afterAction a).accepts .ordering = true ∧
      (Mode.afterAction a).accepts .finish = true := by
  revert h
  cases a <;> decide

/-- **The words between the action and the conditions** are cut as they were written. -/
theorem passes_scope {q : Query} (h : q.Renderable settings) (hr : q.Follows r) :
    ∃ m' d', Passes settings b (.afterAction q.action) { action := some q.action }
        (q.canonicalScope ++ r) m' d' r ∧
      d'.clause = .projection ∧
      d'.closeProjection = { action := some q.action, projection := q.projection } ∧
      (q.criteria ≠ [] → m'.accepts .criteria = true) ∧
      (q.criteria = [] → m'.accepts .ordering = true ∧ m'.accepts .finish = true) := by
  cases hp : q.projection with
  | some rr =>
    have ha : q.action.isBulk = false := by
      by_contra hb
      simp [(h.bulk (by simpa [Query.isBulk] using hb)).1] at hp
    obtain ⟨m', d', hpass, hcl, hclose, hc, ho, hf⟩ :=
      passes_projection (b := b) ha (h.projection rr hp) hr
    refine ⟨m', d', ?_, hcl, hclose, fun _ => hc, fun _ => ⟨ho, hf⟩⟩
    rwa [Query.canonicalScope, hp]
  | none =>
    rw [Query.canonicalScope, hp]
    dsimp only
    split
    · next hall =>
      have ha := Mode.accepts_all hall.2
      refine ⟨.everything, _, passes_keyword (Keyword.mem_table .all rfl) (if_pos ha)
        hr.atBoundary nofun nofun fun _ => rfl, rfl, rfl, fun hc => absurd hall.1 hc,
        fun _ => by decide⟩
    · next hall =>
      refine ⟨_, _, Passes.refl, rfl, rfl, fun _ => by cases q.action <;> rfl, fun hc => ?_⟩
      exact Mode.accepts_end fun h => hall ⟨hc, h⟩

/-! ## Whole names -/

/-- The words behind the conditions. -/
def Query.orderText (q : Query) : Text :=
  if q.ordering = [] then [] else "OrderBy".toList ++ q.ordering.flatMap OrderItem.canonical

/-- The words behind the projection. -/
def Query.criteriaText (q : Query) : Text :=
  if q.criteria = [] then [] else "By".toList ++ q.criteria.flatMap CriteriaItem.canonical

theorem Query.canonical_eq (q : Query) :
    q.canonical = q.action.keyword ++ (q.canonicalScope ++ (q.criteriaText ++ q.orderText)) := by
  simp only [Query.canonical, Query.criteriaText, Query.orderText, List.append_assoc]

theorem stops_orderText {q : Query} (h : q.Renderable settings)
    (hm : m = .projected ∨ m = .criterion) : Stops m q.orderText := by
  unfold Query.orderText
  split
  · exact stops_nil m
  · refine stops_keyword (Keyword.mem_table .ordering rfl) ?_ (by decide +kernel)
      (atBoundary_ordering h.ordering) nofun
    rcases hm with rfl | rfl <;> rfl

theorem criteriaText_cons {q : Query} {i : CriteriaItem} {is : List CriteriaItem}
    (hq : q.criteria = i :: is) (h : q.Renderable settings) (t : Text) :
    q.criteriaText ++ t = "By".toList ++
      (i.condition.canonical ++ (is.flatMap CriteriaItem.canonical ++ t)) := by
  have hi : i.connective = none := by
    have := h.joined
    rw [hq] at this
    exact this.1
  rw [Query.criteriaText, hq, if_neg (List.cons_ne_nil i is), List.flatMap_cons,
    CriteriaItem.canonical, hi, List.append_assoc, List.append_assoc]
  rfl

theorem follows_criteriaText {q : Query} (h : q.Renderable settings) :
    q.Follows (q.criteriaText ++ q.orderText) := by
  cases hq : q.criteria with
  | nil =>
    have hstop := stops_orderText (m := .projected) h (.inl rfl)
    have htext : q.criteriaText = [] := if_pos hq
    have hscope : q.afterScope = [] := if_pos hq
    rw [htext, List.nil_append]
    exact ⟨hscope ▸ hstop.detached.subsumes rfl, hstop.detached.1, hstop.segment⟩
  | cons i is =>
    have hscope : q.afterScope = "By".toList := if_neg (by simp [hq])
    have hb := (h.criteria i (by simp [hq])).atBoundary_condition
      (is.flatMap CriteriaItem.canonical ++ q.orderText)
    rw [criteriaText_cons hq h]
    refine ⟨hscope ▸ subsumes_criteria _, rfl, ?_⟩
    exact segmentContinues_keyword (Keyword.mem_table .criteria rfl) rfl hb nofun

/-- A clause that is complete can be closed, and then has become part of the query. -/
structure Complete (q : Query) (m : Mode) (d : Draft) (criteria : List CriteriaItem) : Prop where
  close : ∃ clause, ∀ n, d.close n = .ok
    { clause, action := some q.action, projection := q.projection, criteria := criteria }
  ordering : m.accepts .ordering = true
  finish : m.accepts .finish = true

/-- **The words between the action and the order** are cut as they were written. -/
theorem passes_body {q : Query} (h : q.Renderable settings) :
    ∃ m' d', Passes settings b (.afterAction q.action) { action := some q.action }
        (q.canonicalScope ++ (q.criteriaText ++ q.orderText)) m' d' q.orderText ∧
      Complete q m' d' q.criteria := by
  obtain ⟨m', d', hpass, hcl, hclose, hc, hend⟩ :=
    passes_scope (b := b) h (follows_criteriaText h)
  cases hq : q.criteria with
  | nil =>
    obtain ⟨ho, hf⟩ := hend hq
    have htext : q.criteriaText = [] := if_pos hq
    rw [htext, List.nil_append] at hpass
    rw [htext, List.nil_append]
    exact ⟨m', d', hpass, ⟨_, fun n => by rw [Draft.close, hcl, hclose]⟩, ho, hf⟩
  | cons i is =>
    have hjoined := h.joined
    rw [hq] at hjoined
    have hstart : Passes settings b m' d' (q.criteriaText ++ q.orderText) .criterionStart
        { clause := .criteria, action := some q.action, projection := q.projection }
        (i.condition.canonical ++ (is.flatMap CriteriaItem.canonical ++ q.orderText)) := by
      have hb := (h.criteria i (by simp [hq])).atBoundary_condition
        (is.flatMap CriteriaItem.canonical ++ q.orderText)
      rw [criteriaText_cons hq h]
      refine passes_keyword (Keyword.mem_table .criteria rfl) (if_pos (hc (by simp [hq]))) hb
        (by simp) (by simp) fun n => ?_
      have hclosed : d'.close n = .ok { action := some q.action, projection := q.projection } := by
        rw [Draft.close, hcl, hclose]
      exact congrArg (Except.map _) hclosed
    have hrests : Draft.Rests
        { clause := .criteria, action := some q.action, projection := q.projection } :=
      ⟨rfl, rfl, rfl, rfl, rfl⟩
    obtain ⟨m'', d'', hpass', hcl', ho, hf, hclose'⟩ := passes_criteria is i hrests hjoined.2
      (fun j hj => h.criteria j (hq ▸ hj)) (stops_orderText h (.inr rfl))
    rw [hjoined.1] at hpass'
    refine ⟨m'', d'', hpass.trans (hstart.trans hpass'), ⟨.criteria, fun n => ?_⟩, ho, hf⟩
    rw [Draft.close_of_criteria hcl', hclose']
    rfl

theorem reads_finish {q : Query} {prev : Option Char} {clause : Clause}
    (hf : m.accepts .finish = true) (hd : ∀ n, d.close n = .ok
      { clause, action := some q.action, projection := q.projection, criteria := q.criteria
        ordering := q.ordering }) :
    ∃ c' d', Reads settings ⟨m, b, prev, []⟩ d c' d' ∧ c'.mode = .done ∧
      ∀ n, d'.finish n = .ok q := by
  have hlex : Lexeme settings m b prev ⟨.finish, []⟩ [] := .finish hf
  exact ⟨_, _, hlex.reads (if_pos hf) rfl hd, rfl, fun _ => rfl⟩

/-- **The end of a name**, with or without an order. -/
theorem exists_reads_end {q : Query} {prev : Option Char} (h : q.Renderable settings)
    (hd : Complete q m d q.criteria) (hp : prev ≠ some separator) :
    ∃ c' d', Reads settings ⟨m, q.isBulk, prev, q.orderText⟩ d c' d' ∧ c'.mode = .done ∧
      ∀ n, d'.finish n = .ok q := by
  obtain ⟨clause, hclose⟩ := hd.close
  by_cases hq : q.ordering = []
  · have htext : q.orderText = [] := if_pos hq
    rw [htext]
    exact reads_finish hd.finish (by rwa [hq])
  · have hb : q.isBulk = false := by
      by_contra hb
      exact hq (h.bulk (by simpa using hb)).2
    have htext : q.orderText = "OrderBy".toList ++ q.ordering.flatMap OrderItem.canonical :=
      if_neg hq
    have hstart : Passes settings q.isBulk m d q.orderText .orderStart
        { clause := .ordering, action := some q.action, projection := q.projection
          criteria := q.criteria } (q.ordering.flatMap OrderItem.canonical) := by
      rw [htext]
      exact passes_keyword (Keyword.mem_table .ordering rfl) (if_pos hd.ordering)
        (atBoundary_ordering h.ordering) nofun (fun _ => hb)
        fun n => congrArg (Except.map _) (hclose n)
    have hitems : Passes settings q.isBulk .orderStart
        { clause := .ordering, action := some q.action, projection := q.projection
          criteria := q.criteria } (q.ordering.flatMap OrderItem.canonical)
        (if q.ordering = [] then .orderStart else .directed)
        { clause := .ordering, action := some q.action, projection := q.projection
          criteria := q.criteria, ordering := q.ordering } [] :=
      passes_ordering q.ordering (.inl rfl) rfl h.ordering
    rw [if_neg hq] at hitems
    obtain ⟨prev', hp', hreads⟩ := hstart.trans hitems prev hp
    obtain ⟨c', d', hend, hdone, hfin⟩ : ∃ c' d', Reads settings ⟨.directed, q.isBulk, prev', []⟩
        { clause := .ordering, action := some q.action, projection := q.projection
          criteria := q.criteria, ordering := q.ordering } c' d' ∧ c'.mode = .done ∧
        ∀ n, d'.finish n = .ok q := reads_finish rfl fun _ => rfl
    exact ⟨c', d', hreads.trans hend, hdone, hfin⟩

theorem atBoundary_scope {q : Query} (h : q.Renderable settings) (hr : atBoundary r = true) :
    atBoundary (q.canonicalScope ++ r) = true := by
  rw [Query.canonicalScope]
  cases hp : q.projection with
  | none =>
    dsimp only
    split
    · rfl
    · exact hr
  | some rr =>
    obtain ⟨-, hnames, hpath⟩ := h.projection rr hp
    obtain ⟨kind, count, dist, property⟩ := rr
    cases kind with
    | property =>
      obtain ⟨p, rfl⟩ : ∃ p, property = some p := by
        simpa [Projection.NamesPath, Option.ne_none_iff_exists'] using hnames
      exact (hpath p rfl).1.atBoundary r
    | first => rfl
    | distinct =>
      dsimp only
      rw [Projection.canonical_eq, List.append_assoc]
      exact Keyword.atBoundary_append (Keyword.mem_table .distinct rfl) _
    | max | min | sum | avg =>
      have haggregate (k : ProjectionKind) (hk : k.isAggregate = true) (t : Text) :
          atBoundary (k.title.toList ++ t) = true :=
        Keyword.atBoundary_append (Keyword.mem_table (.aggregate k) (if_pos hk)) t
      dsimp only
      rw [Projection.canonical_eq, List.append_assoc]
      exact haggregate _ rfl _

/-- **The name of a query** stands for it. -/
theorem parse_canonical_of_renderable {q : Query} (h : q.Renderable settings) :
    parse settings q.canonical = .ok q := by
  obtain ⟨m, d, hpass, hd⟩ := passes_body (b := q.isBulk) h
  have hb := atBoundary_scope h (follows_criteriaText h).atBoundary
  have hlex : Lexeme settings .initial false none ⟨.action q.action, q.action.keyword⟩
      (q.canonicalScope ++ (q.criteriaText ++ q.orderText)) := .leading hb
  have hnext : Mode.initial.next? (.action q.action) = some (.afterAction q.action) := rfl
  have hcut := hlex.cut hnext
  have hp := hlex.previous_ne_separator nofun nofun nofun
  obtain ⟨prev, hp', hbody⟩ := hpass _ hp
  obtain ⟨c', d', hend, hdone, hfin⟩ := exists_reads_end h hd hp'
  rw [parse_eq_ok_iff, Query.canonical_eq]
  have hadd : Draft.Adds {} ⟨.action q.action, q.action.keyword⟩ { action := some q.action } :=
    fun _ => rfl
  exact ⟨c', d', .step hcut hadd (hbody.trans hend), hdone, hfin⟩

end Passes

end DerivedQuery
