import DerivedQuery.Proofs.Passing

/-!
# Conditions and order items are passed

The conditions and the order of a query are cut as they are written, and become part of the draft.

* `Condition.modifiers`, `Condition.endMode`: what stands behind the path of a condition, and where
  it leads;
* **`passes_criteria`**: conditions, each but the first one behind its connective;
* **`passes_ordering`**: order items.
-/

namespace DerivedQuery

section Passes

variable {settings : Settings} {b : Bool} {m m' : Mode} {d : Draft} {r : Text}

/-! ## Conditions -/

theorem Detached.not_leads_equal (h : Detached r) : ¬ Leads "Equal".toList r :=
  h.2 _ (by decide +kernel)

theorem passes_operator (o : Operator) (ha : m.accepts .operator = true) (hr : Detached r) :
    Passes settings b m d (o.keyword ++ r) .compared { d with operator := some o } r :=
  passes_keyword (k := .ofOperator o) (Keyword.mem_table (.operator o) rfl) (if_pos ha) hr.1
    (fun _ => hr.not_leads_equal) nofun fun _ => rfl

/-- The words between the path of a condition and the next condition. -/
def Condition.modifiers (c : Condition) : Text :=
  (if c.negated then "Not".toList else []) ++ ((if c.ignoreCase then "IgnoreCase".toList else []) ++
    if c.negated ∨ c.operator ≠ .equal then c.operator.keyword else [])

theorem Condition.canonical_eq (c : Condition) :
    c.canonical = c.property.canonical ++ c.modifiers := by
  simp only [Condition.canonical, Condition.modifiers, List.append_assoc]

theorem Path.Fits.atBoundary_condition {c : Condition} (h : c.property.Fits .criterion) (t : Text) :
    DerivedQuery.atBoundary (c.canonical ++ t) = true := by
  rw [Condition.canonical_eq, List.append_assoc]
  exact h.atBoundary _

/-- The mode after a condition. -/
def Condition.endMode (c : Condition) : Mode :=
  if c.negated ∨ c.operator ≠ .equal then .compared
  else if c.ignoreCase then .caseless else .criterion

/-- The draft that has read a condition and not closed it. -/
def Draft.reading (d : Draft) (c : Condition) : Draft :=
  { d with
    segments := c.property.segments
    negated := c.negated
    ignoreCase := c.ignoreCase
    operator := if c.negated ∨ c.operator ≠ .equal then some c.operator else none }

theorem passes_negation (hn : m.next? .negation = some m') (hr : atBoundary r = true) :
    Passes settings b m d ("Not".toList ++ r) m' { d with negated := true } r :=
  passes_keyword (Keyword.mem_table .negation rfl) hn hr nofun nofun fun _ => rfl

theorem passes_ignoreCase (hn : m.next? .ignoreCase = some m') (hr : atBoundary r = true) :
    Passes settings b m d ("IgnoreCase".toList ++ r) m' { d with ignoreCase := true } r :=
  passes_keyword (Keyword.mem_table .ignoreCase rfl) hn hr nofun nofun fun _ => rfl

/-- The draft has closed what it has read before. -/
structure Draft.Rests (d : Draft) : Prop where
  segments : d.segments = []
  connective : d.connective = none
  negated : d.negated = false
  ignoreCase : d.ignoreCase = false
  operator : d.operator = none

theorem stops_modifiers (c : Condition) (hr : Stops .criterion r) :
    Stops .criterion (c.modifiers ++ r) := by
  have hop : c.negated = false → Stops .criterion
      ((if c.negated ∨ c.operator ≠ .equal then c.operator.keyword else []) ++ r) := by
    intro hn
    by_cases ho : c.operator = .equal
    · rwa [if_neg (by simp [hn, ho])]
    · rw [if_pos (.inr ho)]
      have hi : ∀ o : Operator, o ≠ .equal → o.keyword ∉ innerWords := by
        intro o; cases o <;> decide +kernel
      exact stops_keyword (k := .ofOperator c.operator) (Keyword.mem_table (.operator _) rfl) rfl
        (hi _ ho) hr.detached.1 fun _ => hr.detached.not_leads_equal
  rw [Condition.modifiers, List.append_assoc, List.append_assoc]
  generalize htail : (if c.negated ∨ c.operator ≠ .equal then c.operator.keyword else []) ++ r =
    tail at hop ⊢
  have htail' : atBoundary tail = true := by
    rw [← htail]
    split
    · exact Keyword.atBoundary_append (Keyword.mem_table (.operator _) rfl) r
    · exact hr.detached.1
  have hcase : c.negated = false →
      Stops .criterion ((if c.ignoreCase then "IgnoreCase".toList else []) ++ tail) := by
    intro hn
    split
    · exact stops_keyword (Keyword.mem_table .ignoreCase rfl) rfl (by decide +kernel) htail' nofun
    · exact hop hn
  cases hn : c.negated with
  | false => exact hcase hn
  | true =>
    rw [if_pos rfl]
    refine stops_keyword (Keyword.mem_table .negation rfl) rfl (by decide +kernel) ?_ nofun
    split
    · exact Keyword.atBoundary_append (Keyword.mem_table .ignoreCase rfl) tail
    · exact htail'

theorem passes_modifiers (c : Condition) (hd : d.negated = false ∧ d.ignoreCase = false ∧
    d.operator = none) (hr : Detached r) :
    Passes settings b .criterion d (c.modifiers ++ r) c.endMode { d with
      negated := c.negated
      ignoreCase := c.ignoreCase
      operator := if c.negated ∨ c.operator ≠ .equal then some c.operator else none } r := by
  obtain ⟨cl, a, pr, sg, cn, n, i, o, cr, or⟩ := d
  obtain ⟨rfl, rfl, rfl⟩ := hd
  obtain ⟨p, o, n, i⟩ := c
  rw [Condition.modifiers, List.append_assoc, List.append_assoc]
  dsimp only [Condition.endMode]
  generalize htail : (if n = true ∨ o ≠ .equal then o.keyword else []) ++ r = tail
  have htail' : atBoundary tail = true := by
    rw [← htail]
    split
    · exact Keyword.atBoundary_append (Keyword.mem_table (.operator _) rfl) r
    · exact hr.1
  have hop : ∀ {m : Mode} {d : Draft}, m.accepts .operator = true → d.operator = none →
      Passes settings b m d tail (if n = true ∨ o ≠ .equal then .compared else m)
        { d with operator := if n = true ∨ o ≠ .equal then some o else none } r := by
    intro m d ha hd
    rw [← htail]
    split
    · exact passes_operator _ ha hr
    · rw [← hd]
      exact Passes.refl
  have hcase : ∀ {m m' : Mode} {d : Draft}, m.accepts .operator = true →
      m'.accepts .operator = true → m.next? .ignoreCase = some m' → d.operator = none →
        d.ignoreCase = false → Passes settings b m d
          ((if i = true then "IgnoreCase".toList else []) ++ tail)
          (if n = true ∨ o ≠ .equal then .compared else if i = true then m' else m)
          { d with
            ignoreCase := i
            operator := if n = true ∨ o ≠ .equal then some o else none } r := by
    intro m m' d ha ha' hn ho hi
    cases i with
    | true => exact (passes_ignoreCase hn htail').trans (hop ha' ho)
    | false =>
      have h := hop ha ho
      rw [hi] at h
      exact h
  cases n with
  | false => exact hcase rfl rfl rfl rfl rfl
  | true =>
    have hnot : Mode.criterion.next? .negation = some .negated := rfl
    have hcaseless : Mode.negated.next? .ignoreCase = some .negatedCaseless := rfl
    refine (passes_negation hnot ?_).trans (hcase rfl rfl hcaseless rfl rfl)
    split
    · exact Keyword.atBoundary_append (Keyword.mem_table .ignoreCase rfl) tail
    · exact htail'

/-- **A condition** is cut as it was written. -/
theorem passes_condition {c : Condition} (hc : c.property.Fits .criterion) (hd : d.segments = [])
    (hd' : d.negated = false ∧ d.ignoreCase = false ∧ d.operator = none)
    (hr : Stops .criterion r) :
    Passes settings b .criterionStart d (c.canonical ++ r) c.endMode (d.reading c) r := by
  have hstop := stops_modifiers c hr
  rw [Condition.canonical_eq, List.append_assoc]
  have hpath : Passes settings b .criterionStart d (c.property.canonical ++ (c.modifiers ++ r))
      .criterion { d with segments := c.property.segments } (c.modifiers ++ r) :=
    passes_path rfl rfl (clear_of_mode (.inl rfl) _) hc (hc.last hstop) hstop.segment hd
  exact hpath.trans (passes_modifiers c hd' hr.detached)

theorem Condition.accepts_endMode (c : Condition) : c.endMode.accepts .connective = true ∧
    c.endMode.accepts .ordering = true ∧ c.endMode.accepts .finish = true := by
  unfold endMode
  split
  · decide
  · split <;> decide

theorem closeCondition_reading (d : Draft) (c : Condition) (n : Nat) :
    (d.reading c).closeCondition n = .ok { d with
      segments := [], operator := none, negated := false, ignoreCase := false, connective := none
      criteria := d.criteria ++ [⟨d.connective, c⟩] } := by
  rw [Draft.closeCondition_eq_ok (p := c.property) rfl]
  obtain ⟨p, o, neg, i⟩ := c
  simp only [Draft.reading, Draft.condition]
  congr 4
  split
  · rfl
  · next h => simp_all [Operator.default]

theorem passes_connective (k : Connective) (i : CriteriaItem) (hd : d.Rests)
    (hr : atBoundary r = true) :
    Passes settings b i.condition.endMode
      (({ d with connective := i.connective } : Draft).reading i.condition) (k.keyword ++ r)
      .criterionStart { d with criteria := d.criteria ++ [i], connective := some k } r := by
  refine passes_keyword (k := .ofConnective k) (Keyword.mem_table (.connective k) rfl)
    (if_pos i.condition.accepts_endMode.1) hr nofun nofun fun n => ?_
  refine (congrArg (Except.map _) (closeCondition_reading _ _ n)).trans ?_
  simp [Except.map, hd.segments, hd.negated, hd.ignoreCase, hd.operator]

theorem stops_connective (k : Connective) (hr : atBoundary r = true) :
    Stops .criterion (k.keyword ++ r) :=
  stops_keyword (k := .ofConnective k) (Keyword.mem_table (.connective k) rfl) rfl
    (by cases k <;> decide +kernel) hr nofun

/-- **Conditions**, each but the first one behind its connective. -/
theorem passes_criteria (is : List CriteriaItem) (i : CriteriaItem) (hd : d.Rests)
    (hi : ∀ j ∈ is, j.connective ≠ none)
    (hfits : ∀ j ∈ i :: is, j.condition.property.Fits .criterion) (hr : Stops .criterion r) :
    ∃ m' d', Passes settings b .criterionStart { d with connective := i.connective }
        (i.condition.canonical ++ (is.flatMap CriteriaItem.canonical ++ r)) m' d' r ∧
      d'.clause = d.clause ∧ m'.accepts .ordering = true ∧ m'.accepts .finish = true ∧
      ∀ n, d'.closeCondition n = .ok { d with criteria := d.criteria ++ i :: is } := by
  induction is generalizing i d with
  | nil =>
    obtain ⟨-, ho, hf⟩ := i.condition.accepts_endMode
    refine ⟨_, _, passes_condition (hfits i (by simp)) hd.segments
      ⟨hd.negated, hd.ignoreCase, hd.operator⟩ hr, rfl, ho, hf, fun n => ?_⟩
    rw [closeCondition_reading]
    simp [hd.segments, hd.negated, hd.ignoreCase, hd.operator, hd.connective]
  | cons j js ih =>
    obtain ⟨k, hk⟩ := Option.ne_none_iff_exists'.mp (hi j (by simp))
    have htext : (j :: js).flatMap CriteriaItem.canonical ++ r =
        k.keyword ++ (j.condition.canonical ++ (js.flatMap CriteriaItem.canonical ++ r)) := by
      rw [List.flatMap_cons, CriteriaItem.canonical, hk]
      simp
    have hb : DerivedQuery.atBoundary
        (j.condition.canonical ++ (js.flatMap CriteriaItem.canonical ++ r)) = true :=
      (hfits j (by simp)).atBoundary_condition _
    have hcond : Passes settings b .criterionStart { d with connective := i.connective }
        (i.condition.canonical ++ (k.keyword ++ _)) i.condition.endMode
        (({ d with connective := i.connective } : Draft).reading i.condition) (k.keyword ++ _) :=
      passes_condition (hfits i (by simp)) hd.segments
        ⟨hd.negated, hd.ignoreCase, hd.operator⟩ (stops_connective k hb)
    have hconn : Passes settings b i.condition.endMode _ (k.keyword ++ _) .criterionStart
        { d with criteria := d.criteria ++ [i], connective := some k } _ :=
      passes_connective k i hd hb
    obtain ⟨m', d', hpass, hcl, ho, hf, hclose⟩ :=
      ih (d := { d with criteria := d.criteria ++ [i] }) j ⟨hd.1, hd.2, hd.3, hd.4, hd.5⟩
        (fun j' hj' => hi j' (by simp [hj'])) fun j' hj' => hfits j' (by simp [hj'])
    rw [hk] at hpass
    rw [htext]
    refine ⟨m', d', hcond.trans (hconn.trans hpass), hcl, ho, hf, fun n => ?_⟩
    rw [hclose]
    simp

/-! ## The order -/

theorem atBoundary_ordering {is : List OrderItem} (h : ∀ i ∈ is, i.property.Fits .ordered) :
    atBoundary (is.flatMap OrderItem.canonical) = true := by
  cases is with
  | nil => rfl
  | cons i is =>
    rw [List.flatMap_cons, OrderItem.canonical, List.append_assoc]
    exact (h i (by simp)).atBoundary _

theorem passes_orderItem (i : OrderItem) (hm : m = .orderStart ∨ m = .directed)
    (hd : d.segments = []) (hi : i.property.Fits .ordered) (hr : atBoundary r = true) :
    Passes settings b m d (i.canonical ++ r) .directed
      { d with ordering := d.ordering ++ [i] } r := by
  have hstop : Stops .ordered (i.direction.keyword ++ r) :=
    stops_keyword (k := .ofDirection i.direction) (Keyword.mem_table (.direction _) rfl) rfl
      (by cases i.direction <;> decide +kernel) hr nofun
  have hpath : Passes settings b m d (i.property.canonical ++ (i.direction.keyword ++ r)) .ordered
      { d with segments := i.property.segments } (i.direction.keyword ++ r) := by
    refine passes_path ?_ ?_ (clear_of_mode (.inr (hm.imp_right .inl)) _) hi (hi.last hstop)
      hstop.segment hd
    · rcases hm with rfl | rfl <;> rfl
    · rcases hm with rfl | rfl <;> rfl
  have hdir : Passes settings b .ordered { d with segments := i.property.segments }
      (i.direction.keyword ++ r) .directed { d with ordering := d.ordering ++ [i] } r := by
    refine passes_keyword (k := .ofDirection i.direction)
      (Keyword.mem_table (.direction _) rfl) rfl hr nofun
      nofun fun n => ?_
    refine (Draft.closeOrderItem_eq_ok (p := i.property) rfl i.direction n).trans ?_
    simp [hd]
  rw [OrderItem.canonical, List.append_assoc]
  exact hpath.trans hdir

/-- **Order items**, up to the end of the name. -/
theorem passes_ordering (is : List OrderItem) (hm : m = .orderStart ∨ m = .directed)
    (hd : d.segments = []) (hi : ∀ i ∈ is, i.property.Fits .ordered) :
    Passes settings b m d (is.flatMap OrderItem.canonical) (if is = [] then m else .directed)
      { d with ordering := d.ordering ++ is } [] := by
  induction is generalizing m d with
  | nil => simpa using Passes.refl
  | cons i is ih =>
    have his : ∀ j ∈ is, j.property.Fits .ordered := fun j hj => hi j (by simp [hj])
    have hitem : Passes settings b m d (i.canonical ++ is.flatMap OrderItem.canonical) .directed
        { d with ordering := d.ordering ++ [i] } (is.flatMap OrderItem.canonical) :=
      passes_orderItem i hm hd (hi i (by simp)) (atBoundary_ordering his)
    have hrest := ih (d := { d with ordering := d.ordering ++ [i] }) (.inr rfl) hd his
    rw [List.flatMap_cons, if_neg (List.cons_ne_nil i is)]
    refine hitem.trans ?_
    simpa using hrest

end Passes

end DerivedQuery
