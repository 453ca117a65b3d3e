import DerivedQuery.Proofs.Assembly
import DerivedQuery.Proofs.Calls

/-!
# What the tokens of a clause say

A draft takes tokens one by one and has one set of slots for all conditions. What it comes to can
be read off the tokens clause by clause: a modifier belongs to the condition it stands in.

* `projectionOf`, `conditionOf?`, `criteriaOf?`, `orderingOf?`: what the tokens of a clause say;
* `queryOf?`: what all tokens say;
* `Draft.pendingProjection`, `Draft.pendingCriteria?`, `Draft.pendingItems?`: the slots together
  with the tokens of the clause that are still to come; adding one of them changes nothing;
* `Draft.completed_of_ordering`, `Draft.completed_of_criteria`, `Draft.completed_of_projection`: the
  clauses of a draft, by induction on the tokens;
* **`exists_queryOf?_of_admitted`**: a draft takes all tokens that the modes admit, and its query is
  what they say;
* **`parse_eq_ok_iff_queryOf?`**: the query of a name is what its tokens say.
-/

namespace DerivedQuery

/-! ## What tokens say -/

namespace Kind

def action? : Kind → Option Action
  | action a => some a
  | _ => none

def operator? : Kind → Option Operator
  | operator o => some o
  | _ => none

def direction? : Kind → Option Direction
  | direction r => some r
  | _ => none

/-- The number of a limit. -/
def count? : Kind → Option Nat
  | first n => some n
  | _ => none

/-- The shape of a result that is more than a property. -/
def shape? : Kind → Option ProjectionKind
  | first _ => some .first
  | distinct => some .distinct
  | aggregate k => some k
  | _ => none

/-- The connective of the condition that is opened, which the first condition has not. -/
def opening? : Kind → Option (Option Connective)
  | criteria => some none
  | connective k => some (some k)
  | _ => none

/-- Whether a condition ends. -/
def endsCondition : Kind → Bool
  | connective _ | ordering | finish => true
  | _ => false

/-- Whether the projection goes on. -/
def isInScope : Kind → Bool
  | all | first _ | distinct | aggregate _ | pathStart | pathPart | separator => true
  | _ => false

/-- Whether a condition goes on. -/
def isInCondition : Kind → Bool
  | pathStart | pathPart | separator | negation | ignoreCase | operator _ => true
  | _ => false

/-- Whether a path goes on. -/
def isInPath : Kind → Bool
  | pathPart | separator => true
  | _ => false

end Kind

/-- The segments among the tokens, with their first letters in lower case. -/
def segmentsOf (ts : List Token) : List Text :=
  (ts.filter fun t => t.kind.category = .property).map fun t => uncapitalize t.text

/-- The projection, from the tokens between the action and the end of its scope. -/
def projectionOf (scope : List Token) : Option Projection :=
  match scope.findSome? fun t => t.kind.shape?, Path.ofSegments? (segmentsOf scope) with
  | none, property => property.map .ofProperty
  | some kind, property => some
    { kind, property
      count := scope.findSome? fun t => t.kind.count?
      distinct := scope.any fun t => t.kind = .distinct }

/-- A condition, from the tokens between its opening and its end. -/
def conditionOf? (ts : List Token) : Option Condition :=
  (Path.ofSegments? (segmentsOf ts)).map fun property =>
    { property
      operator := (ts.findSome? fun t => t.kind.operator?).getD .default
      negated := ts.any fun t => t.kind = .negation
      ignoreCase := ts.any fun t => t.kind = .ignoreCase }

/-- The conditions, one for every `By` and every connective, from the tokens up to the next end. -/
def criteriaOf? : List Token → Option (List CriteriaItem)
  | [] => some []
  | t :: ts =>
    match t.kind.opening? with
    | none => criteriaOf? ts
    | some connective => do
      let condition ← conditionOf? (ts.takeWhile fun t => !t.kind.endsCondition)
      let items ← criteriaOf? ts
      return ⟨connective, condition⟩ :: items

/-- The order items, one for every start of a path, with the direction that stands behind it. -/
def orderItemsOf? : List Token → Option (List OrderItem)
  | [] => some []
  | t :: ts =>
    if t.kind = .pathStart then do
      let property ← Path.ofSegments? (segmentsOf (t :: ts.takeWhile fun t => t.kind.isInPath))
      let behind := (ts.dropWhile fun t => t.kind.isInPath).head?
      let items ← orderItemsOf? ts
      return ⟨property, (behind.bind fun t => t.kind.direction?).getD .default⟩ :: items
    else orderItemsOf? ts

/-- The order, from the tokens behind `OrderBy`. -/
def orderingOf? (ts : List Token) : Option (List OrderItem) :=
  orderItemsOf? (ts.dropWhile fun t => t.kind ≠ .ordering)

/-- The tokens between the action and the end of its scope. -/
def scopeOf (ts : List Token) : List Token :=
  (ts.dropWhile fun t => t.kind.action? = none).tail.takeWhile fun t => !t.kind.endsScope

/-- The query that the tokens spell, each clause read off its own tokens. -/
def queryOf? (ts : List Token) : Option Query := do
  let action ← ts.findSome? fun t => t.kind.action?
  let criteria ← criteriaOf? ts
  let ordering ← orderingOf? ts
  return { action, projection := projectionOf (scopeOf ts), criteria, ordering }

/-! ## Rows of tokens -/

/-- The mode after the tokens, `none` when one of them may not follow. -/
def Mode.after? (m : Mode) (ts : List Token) : Option Mode :=
  ts.foldlM (fun m t => m.next? t.kind) m

section Rows

variable {m m' : Mode} {d d' : Draft} {t : Token} {ts : List Token}

theorem Mode.after?_cons :
    m.after? (t :: ts) = some m' ↔ ∃ m₁, m.next? t.kind = some m₁ ∧ m₁.after? ts = some m' := by
  rw [after?, List.foldlM_cons]
  exact Option.bind_eq_some_iff

theorem Mode.eq_nil_of_after?_done (h : Mode.done.after? ts = some m') : ts = [] := by
  cases ts with
  | nil => rfl
  | cons t ts =>
    obtain ⟨m₁, hn, -⟩ := after?_cons.mp h
    cases hk : t.kind <;> rw [hk] at hn <;> cases hn

theorem bind_eq_ok_iff {ε α β : Type} {x : Except ε α} {f : α → Except ε β} {b : β} :
    x.bind f = .ok b ↔ ∃ a, x = .ok a ∧ f a = .ok b := by
  cases x with
  | error e => simp [Except.bind]
  | ok a => simp [Except.bind]

theorem Draft.foldlM_add_cons : (t :: ts).foldlM Draft.add d = .ok d' ↔
    ∃ d₁, d.add t = .ok d₁ ∧ ts.foldlM Draft.add d₁ = .ok d' := by
  rw [List.foldlM_cons]
  exact bind_eq_ok_iff

/-- **A draft takes all tokens that the modes admit**, and is then as the last mode says. -/
theorem Draft.Fits.exists_foldlM (h : d.Fits m) (hm : m.after? ts = some m')
    (ht : ∀ t ∈ ts, t.kind.category = .property → t.text ≠ []) :
    ∃ d', ts.foldlM Draft.add d = .ok d' ∧ d'.Fits m' := by
  induction ts generalizing m d with
  | nil => exact ⟨d, rfl, Option.some.inj hm ▸ h⟩
  | cons t ts ih =>
    obtain ⟨m₁, hn, hm⟩ := Mode.after?_cons.mp hm
    obtain ⟨d₁, hadd, hd₁⟩ : ∃ d₁, d.Adds ⟨t.kind, t.text⟩ d₁ ∧ d₁.Fits m₁ :=
      h.add hn (ht t List.mem_cons_self)
    obtain ⟨d', hfold, hd'⟩ := ih hd₁ hm fun u hu => ht u (List.mem_cons_of_mem t hu)
    exact ⟨d', Draft.foldlM_add_cons.mpr ⟨d₁, hadd t.position, hfold⟩, hd'⟩

end Rows

/-! ## Slots

What a draft holds of a clause goes together with the tokens of it that are still to come. -/

section Slots

variable {m m' : Mode} {d d' : Draft} {t : Token} {ts : List Token} {k : Kind}

@[simp] theorem segmentsOf_nil : segmentsOf [] = [] := rfl

theorem segmentsOf_cons : segmentsOf (t :: ts) =
    (if t.kind.category = .property then [uncapitalize t.text] else []) ++ segmentsOf ts := by
  rw [segmentsOf, List.filter_cons]
  split_ifs <;> simp_all [segmentsOf]

theorem criteriaOf?_cons (h : t.kind.opening? = none) : criteriaOf? (t :: ts) = criteriaOf? ts := by
  rw [criteriaOf?, h]

theorem orderingOf?_cons (h : t.kind ≠ .ordering) : orderingOf? (t :: ts) = orderingOf? ts := by
  simp [orderingOf?, h]

theorem orderingOf?_cons_of_ordering (h : t.kind = .ordering) :
    orderingOf? (t :: ts) = orderItemsOf? ts := by
  simp [orderingOf?, orderItemsOf?, h]

theorem segmentsOf_cons_of_property (h : t.kind.category = .property) :
    segmentsOf (t :: ts) = uncapitalize t.text :: segmentsOf ts := by
  rw [segmentsOf_cons, if_pos h, List.singleton_append]

theorem segmentsOf_cons_of_ne (h : t.kind.category ≠ .property) :
    segmentsOf (t :: ts) = segmentsOf ts := by
  rw [segmentsOf_cons, if_neg h, List.nil_append]

namespace Draft

/-- The draft has noted nothing of a condition but its path. -/
structure Blank (d : Draft) : Prop where
  negated : d.negated = false
  ignoreCase : d.ignoreCase = false
  operator : d.operator = none

/-- The projection, once the tokens have been added. -/
def pendingProjection (d : Draft) (scope : List Token) : Option Projection :=
  match (d.projection.map Projection.kind).or (scope.findSome? fun t => t.kind.shape?),
    Path.ofSegments? (d.segments ++ segmentsOf scope) with
  | none, property => property.map .ofProperty
  | some kind, property => some
    { kind, property
      count := (d.projection.bind Projection.count).or (scope.findSome? fun t => t.kind.count?)
      distinct := d.projection.any Projection.distinct || scope.any fun t => t.kind = .distinct }

/-- The condition, once the tokens have been added. -/
def pendingCondition? (d : Draft) (ts : List Token) : Option Condition :=
  (Path.ofSegments? (d.segments ++ segmentsOf ts)).map fun property =>
    { property
      operator := (d.operator.or (ts.findSome? fun t => t.kind.operator?)).getD .default
      negated := d.negated || ts.any fun t => t.kind = .negation
      ignoreCase := d.ignoreCase || ts.any fun t => t.kind = .ignoreCase }

theorem pendingProjection_of_none (h : d.projection = none) (hs : d.segments = []) :
    d.pendingProjection ts = projectionOf ts := by
  simp [pendingProjection, projectionOf, h, hs]

theorem pendingCondition?_of_blank (h : d.Blank) (hs : d.segments = []) :
    d.pendingCondition? ts = conditionOf? ts := by
  simp [pendingCondition?, conditionOf?, hs, h.operator, h.negated, h.ignoreCase]

theorem closeCondition_eq_ok_iff {n : Nat} : d.closeCondition n = .ok d' ↔
    ∃ c, d.pendingCondition? [] = some c ∧ d' = { d with
      segments := [], operator := none, negated := false, ignoreCase := false, connective := none
      criteria := d.criteria ++ [⟨d.connective, c⟩] } := by
  rw [closeCondition, path, pendingCondition?, segmentsOf_nil, List.append_nil]
  cases Path.ofSegments? d.segments with
  | none => simp [Except.map]
  | some p => simp [Except.map, condition, eq_comm]

theorem closeOrderItem_eq_ok_iff {r : Direction} {n : Nat} : d.closeOrderItem r n = .ok d' ↔
    ∃ p, Path.ofSegments? d.segments = some p ∧
      d' = { d with segments := [], ordering := d.ordering ++ [⟨p, r⟩] } := by
  rw [closeOrderItem, path]
  cases Path.ofSegments? d.segments with
  | none => simp [Except.map]
  | some p => simp [Except.map, eq_comm]

theorem closeProjection_eq_pending (h : ∀ r ∈ d.projection, r.property = none) :
    d.closeProjection = { d with segments := [], projection := d.pendingProjection [] } := by
  rw [closeProjection, pendingProjection, segmentsOf_nil, List.append_nil]
  cases Path.ofSegments? d.segments with
  | none =>
    cases hp : d.projection with
    | none => simp
    | some r =>
      have hr : r.property = none := h r hp
      simp [← hr]
  | some p =>
    cases hp : d.projection with
    | none => simp
    | some r => simp [Projection.withProperty]

theorem close_of_projection (h : d.clause = .projection)
    (hr : ∀ r ∈ d.projection, r.property = none) (n : Nat) :
    d.close n = .ok { d with segments := [], projection := d.pendingProjection [] } := by
  have hclose : d.close n = .ok d.closeProjection := by rw [close, h]
  rw [hclose, closeProjection_eq_pending hr]

theorem add_of_property (h : t.kind.category = .property) (ht : t.text ≠ []) :
    d.add t = .ok { d with segments := d.segments ++ [uncapitalize t.text] } := by
  rw [← addSegment_of_ne_nil ht]
  cases hk : t.kind <;> simp_all [Kind.category, add]

end Draft

end Slots

/-! ## Clauses -/

section Table

variable {m m' : Mode} {k : Kind}

theorem Mode.of_next?_projection (hm : m.clause = .projection) (hi : m ≠ .initial)
    (hn : m.next? k = some m') :
    (m'.clause = .projection ∧ m' ≠ .initial ∧ m' ≠ .done ∧ m' ≠ .narrow ∧ m' ≠ .wide ∧
        k.isInScope = true ∧ (k.shape? = none ∨ k = .distinct ∨ m = .narrow ∨ m = .wide)) ∨
      k = .criteria ∧ m' = .criterionStart ∨ k = .ordering ∧ m' = .orderStart ∨
        k = .finish ∧ m' = .done := by
  cases m <;> cases hm <;> cases k <;> simp [next?, accepts, expected] at hn <;> subst hn <;>
    simp [clause, Kind.isInScope, Kind.shape?] at hi ⊢

theorem Mode.of_next?_criteria (hm : m.clause = .criteria) (hn : m.next? k = some m') :
    (m ≠ .compared ∧ m'.clause = .criteria ∧ k.isInCondition = true ∧
        ∀ o, k = .operator o → m' = .compared) ∨
      (∃ c, k = .connective c ∧ m' = .criterionStart) ∨ k = .ordering ∧ m' = .orderStart ∨
        k = .finish ∧ m' = .done := by
  cases m <;> cases hm <;> cases k <;> simp [next?, accepts, expected] at hn <;> subst hn <;>
    simp [clause, Kind.isInCondition]

theorem Mode.opening?_of_ordering (hm : m.clause = .ordering) (hn : m.next? k = some m') :
    k.opening? = none := by
  cases m <;> cases hm <;> cases k <;> first | rfl | cases hn

theorem Mode.of_next?_ordering (hm : m.clause = .ordering) (hn : m.next? k = some m') :
    m.holdsPath = true ∧ (k.isInPath = true ∧ m'.clause = .ordering ∨
        ∃ r, k = .direction r ∧ m' = .directed) ∨
      m.holdsPath = false ∧ (k = .pathStart ∧ m' = .ordered ∨ k = .separator ∧ m' = .orderStart) ∨
        k = .finish ∧ m' = .done := by
  cases m <;> cases hm <;> cases k <;> simp [next?, accepts, expected] at hn <;> subst hn <;>
    simp [clause, holdsPath, Kind.isInPath]

end Table

/-! ### One draft and a later one -/

section Clauses

variable {m m' : Mode} {d d₁ d' : Draft} {t : Token} {ts : List Token}

theorem Draft.Fits.of_add (h : d.Fits m) (hn : m.next? t.kind = some m')
    (ht : t.kind.category = .property → t.text ≠ []) (hadd : d.add t = .ok d₁) : d₁.Fits m' := by
  obtain ⟨d₂, hadd', hfits⟩ : ∃ d₂, d.Adds ⟨t.kind, t.text⟩ d₂ ∧ d₂.Fits m' := h.add hn ht
  obtain rfl := Except.ok.inj (hadd.symm.trans (hadd' t.position))
  exact hfits

/-- The later draft has the given projection, and behind the clauses of the earlier one it has the
given conditions and order items. -/
structure Draft.Completed (d d' : Draft) (projection : Option Projection)
    (criteria : Option (List CriteriaItem)) (ordering : Option (List OrderItem)) : Prop where
  action : d'.action = d.action
  projection : d'.projection = projection
  criteria : ∃ items, criteria = some items ∧ d'.criteria = d.criteria ++ items
  ordering : ∃ items, ordering = some items ∧ d'.ordering = d.ordering ++ items

/-- The order items, once the tokens have been added; within a path the first one has begun. -/
def Draft.pendingItems? (d : Draft) (ts : List Token) : Option (List OrderItem) :=
  if d.segments = [] then orderItemsOf? ts else do
    let ahead := ts.takeWhile fun t => t.kind.isInPath
    let property ← Path.ofSegments? (d.segments ++ segmentsOf ahead)
    let behind := (ts.dropWhile fun t => t.kind.isInPath).head?
    let items ← orderItemsOf? ts
    return ⟨property, (behind.bind fun t => t.kind.direction?).getD .default⟩ :: items

/-- The conditions, once the tokens have been added; the first one has begun. -/
def Draft.pendingCriteria? (d : Draft) (ts : List Token) : Option (List CriteriaItem) := do
  let condition ← d.pendingCondition? (ts.takeWhile fun t => !t.kind.endsCondition)
  let items ← criteriaOf? ts
  return ⟨d.connective, condition⟩ :: items

namespace Draft

theorem pendingItems?_of_nil (h : d.segments = []) : d.pendingItems? ts = orderItemsOf? ts :=
  if_pos h

/-- Tokens of a path are the same before it is added and after. -/
theorem pendingItems?_of_inPath (ts : List Token) (hs : d.segments ≠ [])
    (hk : t.kind.isInPath = true) (ht : t.kind.category = .property → t.text ≠ [])
    (hadd : d.add t = .ok d₁) :
    d₁ = { d with segments := d₁.segments } ∧ d₁.pendingItems? ts = d.pendingItems? (t :: ts) := by
  have hstart : t.kind ≠ .pathStart := fun h => by rw [h] at hk; cases hk
  have hrest : orderItemsOf? (t :: ts) = orderItemsOf? ts := by rw [orderItemsOf?, if_neg hstart]
  cases hkind : t.kind <;> rw [hkind] at hk <;> cases hk
  case pathPart =>
    have hprop : t.kind.category = .property := by rw [hkind]; rfl
    rw [add_of_property hprop (ht hprop), Except.ok.injEq] at hadd
    subst hadd
    refine ⟨rfl, ?_⟩
    simp [pendingItems?, hs, hrest, hkind, Kind.isInPath, segmentsOf_cons_of_property hprop]
  case separator =>
    have hprop : t.kind.category ≠ .property := by rw [hkind]; nofun
    rw [add, hkind, Except.ok.injEq] at hadd
    subst hadd
    refine ⟨rfl, ?_⟩
    simp [pendingItems?, hs, hrest, hkind, Kind.isInPath, segmentsOf_cons_of_ne hprop]

theorem pendingItems?_of_end {p : Path} (hs : Path.ofSegments? d.segments = some p)
    (hk : t.kind.isInPath = false) (hk' : t.kind ≠ .pathStart) :
    d.pendingItems? (t :: ts) =
      (orderItemsOf? ts).map (⟨p, t.kind.direction?.getD .default⟩ :: ·) := by
  have hne : d.segments ≠ [] := by
    rw [← Path.ofSegments?_eq_some_iff.mp hs]
    exact p.segments_ne_nil
  cases hts : orderItemsOf? ts <;> simp [pendingItems?, orderItemsOf?, hne, hk, hk', hs, hts]

/-- **The order items** of the tokens go behind those of the draft. -/
theorem completed_of_ordering (hd : d.Fits m) (hm : m.clause = .ordering)
    (hts : ∀ t ∈ ts, t.kind.category = .property → t.text ≠ [])
    (hdone : m.after? ts = some .done) (hfold : ts.foldlM add d = .ok d') :
    d.Completed d' d.projection (criteriaOf? ts) (d.pendingItems? ts) := by
  induction ts generalizing m d with
  | nil =>
    obtain rfl := Option.some.inj hdone
    cases hm
  | cons t ts ih =>
    obtain ⟨m₁, hn, hdone⟩ := Mode.after?_cons.mp hdone
    obtain ⟨d₁, hadd, hfold⟩ := foldlM_add_cons.mp hfold
    have ht := hts t List.mem_cons_self
    have hts := fun u hu => hts u (List.mem_cons_of_mem t hu)
    have hd₁ := hd.of_add hn ht hadd
    rw [criteriaOf?_cons (Mode.opening?_of_ordering hm hn)]
    rcases Mode.of_next?_ordering hm hn with
      ⟨hp, ⟨hk, hm₁⟩ | ⟨r, hk, rfl⟩⟩ | ⟨hp, ⟨hk, rfl⟩ | ⟨hk, rfl⟩⟩ | ⟨hk, rfl⟩
    · have hs : d.segments ≠ [] := by rw [ne_eq, hd.segments, hp]; simp
      obtain ⟨he, hpending⟩ := pendingItems?_of_inPath ts hs hk ht hadd
      have ih := ih hd₁ hm₁ hts hdone hfold
      rw [← hpending]
      rw [he] at ih ⊢
      exact ⟨ih.action, ih.projection, ih.criteria, ih.ordering⟩
    · rw [add, hk] at hadd
      obtain ⟨p, hp, rfl⟩ := closeOrderItem_eq_ok_iff.mp hadd
      have ih := ih hd₁ rfl hts hdone hfold
      rw [pendingItems?_of_nil rfl] at ih
      rw [pendingItems?_of_end hp (by rw [hk]; rfl) (by rw [hk]; simp), hk]
      obtain ⟨items, hitems, he⟩ := ih.ordering
      exact ⟨ih.action, ih.projection, ih.criteria, _, congrArg (Option.map _) hitems,
        by rw [he, List.append_assoc]; rfl⟩
    · have hs : d.segments = [] := hd.segments.mpr hp
      have hprop : t.kind.category = .property := by rw [hk]; rfl
      rw [add_of_property hprop (ht hprop), Except.ok.injEq] at hadd
      subst hadd
      have ih := ih hd₁ rfl hts hdone hfold
      rw [pendingItems?_of_nil hs, orderItemsOf?, if_pos hk, segmentsOf_cons_of_property hprop]
      rw [pendingItems?, if_neg (by simp)] at ih
      simp only [hs, List.nil_append, List.singleton_append] at ih
      exact ⟨ih.action, ih.projection, ih.criteria, ih.ordering⟩
    · have hs : d.segments = [] := hd.segments.mpr hp
      rw [add, hk, Except.ok.injEq] at hadd
      subst hadd
      have ih := ih hd₁ rfl hts hdone hfold
      rw [pendingItems?_of_nil hs] at ih ⊢
      rwa [orderItemsOf?, if_neg (by rw [hk]; simp)]
    · obtain rfl := Mode.eq_nil_of_after?_done hdone
      obtain rfl := Except.ok.inj hfold
      have hc : d.clause = .ordering := (hd.clause (by rintro rfl; cases hm)).trans hm
      rw [add, hk] at hadd
      by_cases hs : d.segments = []
      · rw [close, hc] at hadd
        simp only [hs, if_true, Except.ok.injEq] at hadd
        subst hadd
        rw [pendingItems?_of_nil hs, orderItemsOf?, if_neg (by rw [hk]; simp)]
        exact ⟨rfl, rfl, ⟨[], rfl, (List.append_nil _).symm⟩, ⟨[], rfl, (List.append_nil _).symm⟩⟩
      · rw [close_of_ordering hc hs] at hadd
        obtain ⟨p, hp, rfl⟩ := closeOrderItem_eq_ok_iff.mp hadd
        rw [pendingItems?_of_end hp (by rw [hk]; rfl) (by rw [hk]; simp), hk]
        exact ⟨rfl, rfl, ⟨[], rfl, (List.append_nil _).symm⟩, _, rfl, rfl⟩

theorem pendingCriteria?_of_within (ts : List Token) (hk : t.kind.isInCondition = true)
    (ho : d.operator = none) (ht : t.kind.category = .property → t.text ≠ [])
    (hadd : d.add t = .ok d₁) :
    d₁ = { d with
        segments := d₁.segments, negated := d₁.negated, ignoreCase := d₁.ignoreCase
        operator := d₁.operator } ∧
      (d₁.operator = none ∨ ∃ o, t.kind = .operator o) ∧
      d₁.pendingCriteria? ts = d.pendingCriteria? (t :: ts) := by
  have hopening : t.kind.opening? = none := by
    revert hk
    cases t.kind <;> first | exact fun _ => rfl | nofun
  rw [pendingCriteria?, pendingCriteria?, criteriaOf?_cons hopening]
  by_cases hprop : t.kind.category = .property
  · rw [add_of_property hprop (ht hprop), Except.ok.injEq] at hadd
    subst hadd
    refine ⟨rfl, .inl ho, ?_⟩
    rcases Kind.category_eq_property_iff.mp hprop with h | h <;>
      simp [pendingCondition?, segmentsOf_cons_of_property hprop, h, Kind.endsCondition,
        Kind.operator?]
  · cases hkind : t.kind <;> rw [hkind] at hk hprop <;> cases hk <;>
      first | exact absurd rfl hprop | rw [add, hkind, Except.ok.injEq] at hadd
    all_goals
      subst hadd
      refine ⟨rfl, by simp [ho], ?_⟩
      simp [pendingCondition?, segmentsOf_cons, hkind, Kind.category, Kind.endsCondition,
        Kind.operator?, ho]

theorem pendingCriteria?_of_end {c : Condition} (hc : d.pendingCondition? [] = some c)
    (hk : t.kind.endsCondition = true) :
    d.pendingCriteria? (t :: ts) = (criteriaOf? (t :: ts)).map (⟨d.connective, c⟩ :: ·) := by
  cases hts : criteriaOf? (t :: ts) <;> simp [pendingCriteria?, hk, hc, hts]

/-- What opens a condition has left nothing in the slots. -/
theorem pendingCriteria?_of_blank (h : d.Blank) (hs : d.segments = [])
    (hk : t.kind.opening? = some d.connective) :
    d.pendingCriteria? ts = criteriaOf? (t :: ts) := by
  rw [pendingCriteria?, pendingCondition?_of_blank h hs, criteriaOf?, hk]

/-- **The conditions** of the tokens go behind those of the draft, the first of which has begun. -/
theorem completed_of_criteria (hd : d.Fits m) (hm : m.clause = .criteria)
    (ho : m = .compared ∨ d.operator = none)
    (hts : ∀ t ∈ ts, t.kind.category = .property → t.text ≠ [])
    (hdone : m.after? ts = some .done) (hfold : ts.foldlM add d = .ok d') :
    d.Completed d' d.projection (d.pendingCriteria? ts) (orderingOf? ts) := by
  induction ts generalizing m d with
  | nil =>
    obtain rfl := Option.some.inj hdone
    cases hm
  | cons t ts ih =>
    obtain ⟨m₁, hn, hdone⟩ := Mode.after?_cons.mp hdone
    obtain ⟨d₁, hadd, hfold⟩ := foldlM_add_cons.mp hfold
    have ht := hts t List.mem_cons_self
    have hts := fun u hu => hts u (List.mem_cons_of_mem t hu)
    have hd₁ := hd.of_add hn ht hadd
    have hc : d.clause = .criteria := (hd.clause (by rintro rfl; cases hm)).trans hm
    rcases Mode.of_next?_criteria hm hn with
      ⟨hne, hm₁, hk, hcompared⟩ | ⟨k, hk, rfl⟩ | ⟨hk, rfl⟩ | ⟨hk, rfl⟩
    · obtain ⟨he, ho₁, hpending⟩ :=
        pendingCriteria?_of_within ts hk (ho.resolve_left hne) ht hadd
      have hord : t.kind ≠ .ordering := fun h => by rw [h] at hk; cases hk
      have ih := ih hd₁ hm₁ (ho₁.symm.imp_left fun ⟨o, h⟩ => hcompared o h) hts hdone hfold
      rw [← hpending, orderingOf?_cons hord]
      rw [he] at ih ⊢
      exact ⟨ih.action, ih.projection, ih.criteria, ih.ordering⟩
    · rw [add, hk] at hadd
      obtain ⟨d₂, hclose, rfl⟩ := map_eq_ok_iff.mp hadd
      obtain ⟨c, hpending, rfl⟩ := closeCondition_eq_ok_iff.mp hclose
      have ih := ih hd₁ rfl (.inr rfl) hts hdone hfold
      rw [pendingCriteria?_of_blank (t := t) ⟨rfl, rfl, rfl⟩ rfl (by rw [hk]; rfl)] at ih
      rw [pendingCriteria?_of_end hpending (by rw [hk]; rfl), orderingOf?_cons (by rw [hk]; nofun)]
      obtain ⟨items, hitems, he⟩ := ih.criteria
      exact ⟨ih.action, ih.projection, ⟨_, congrArg (Option.map _) hitems,
        by rw [he, List.append_assoc]; rfl⟩, ih.ordering⟩
    · rw [add, hk] at hadd
      obtain ⟨d₂, hclose, rfl⟩ := map_eq_ok_iff.mp hadd
      rw [close_of_criteria hc] at hclose
      obtain ⟨c, hpending, rfl⟩ := closeCondition_eq_ok_iff.mp hclose
      have h := completed_of_ordering hd₁ rfl hts hdone hfold
      rw [pendingItems?_of_nil rfl] at h
      rw [pendingCriteria?_of_end hpending (by rw [hk]; rfl), orderingOf?_cons_of_ordering hk,
        criteriaOf?_cons (by rw [hk]; rfl)]
      obtain ⟨items, hitems, he⟩ := h.criteria
      exact ⟨h.action, h.projection, ⟨_, congrArg (Option.map _) hitems,
        by rw [he, List.append_assoc]; rfl⟩, h.ordering⟩
    · rw [add, hk] at hadd
      rw [close_of_criteria hc] at hadd
      obtain ⟨c, hpending, rfl⟩ := closeCondition_eq_ok_iff.mp hadd
      obtain rfl := Mode.eq_nil_of_after?_done hdone
      obtain rfl := Except.ok.inj hfold
      rw [pendingCriteria?_of_end hpending (by rw [hk]; rfl), orderingOf?_cons (by rw [hk]; nofun),
        criteriaOf?_cons (by rw [hk]; rfl)]
      exact ⟨rfl, rfl, ⟨_, rfl, rfl⟩, ⟨[], rfl, (List.append_nil _).symm⟩⟩

theorem pendingProjection_of_within (ts : List Token) (hk : t.kind.isInScope = true)
    (hp : t.kind.shape? = none ∨ t.kind = .distinct ∨ d.projection = none)
    (hr : ∀ r ∈ d.projection, r.property = none)
    (ht : t.kind.category = .property → t.text ≠ []) (hadd : d.add t = .ok d₁) :
    d₁ = { d with segments := d₁.segments, projection := d₁.projection } ∧
      (∀ r ∈ d₁.projection, r.property = none) ∧
      d₁.pendingProjection ts = d.pendingProjection (t :: ts) := by
  by_cases hprop : t.kind.category = .property
  · rw [add_of_property hprop (ht hprop), Except.ok.injEq] at hadd
    subst hadd
    refine ⟨rfl, hr, ?_⟩
    rcases Kind.category_eq_property_iff.mp hprop with h | h <;>
      simp [pendingProjection, segmentsOf_cons_of_property hprop, h, Kind.shape?, Kind.count?]
  · cases hkind : t.kind with
    | pathStart | pathPart => exact absurd (by rw [hkind]; rfl) hprop
    | all | separator =>
      rw [add, hkind, Except.ok.injEq] at hadd
      subst hadd
      refine ⟨rfl, hr, ?_⟩
      simp [pendingProjection, segmentsOf_cons, hkind, Kind.category, Kind.shape?, Kind.count?]
    | first n =>
      have hp : d.projection = none := by simpa [hkind, Kind.shape?] using hp
      rw [add, hkind, Except.ok.injEq] at hadd
      subst hadd
      refine ⟨rfl, by simp [Projection.first], ?_⟩
      simp [pendingProjection, segmentsOf_cons, hkind, Kind.category, Kind.shape?, Kind.count?, hp,
        Projection.first]
    | aggregate f =>
      have hp : d.projection = none := by simpa [hkind, Kind.shape?] using hp
      rw [add, hkind, Except.ok.injEq] at hadd
      subst hadd
      refine ⟨rfl, by simp, ?_⟩
      simp [pendingProjection, segmentsOf_cons, hkind, Kind.category, Kind.shape?, Kind.count?, hp]
    | distinct =>
      rw [add, hkind, Except.ok.injEq] at hadd
      subst hadd
      refine ⟨rfl, ?_, ?_⟩
      · cases hproj : d.projection with
        | none => simp [Projection.distinctRecords]
        | some r => simpa [Projection.withDistinct] using hr r hproj
      · cases hproj : d.projection <;>
          simp [pendingProjection, segmentsOf_cons, hkind, Kind.category, Kind.shape?, Kind.count?,
            hproj, Projection.distinctRecords, Projection.withDistinct]
    | _ =>
      rw [hkind] at hk
      cases hk

/-- **The projection** is the one that the draft has begun and the tokens go on with. -/
theorem completed_of_projection (hd : d.Fits m) (hm : m.clause = .projection) (hi : m ≠ .initial)
    (hne : m ≠ .done) (hp : m = .narrow ∨ m = .wide → d.projection = none)
    (hr : ∀ r ∈ d.projection, r.property = none) (hb : d.Blank) (hc : d.connective = none)
    (hts : ∀ t ∈ ts, t.kind.category = .property → t.text ≠ [])
    (hdone : m.after? ts = some .done) (hfold : ts.foldlM add d = .ok d') :
    d.Completed d' (d.pendingProjection (ts.takeWhile fun t => !t.kind.endsScope))
      (criteriaOf? ts) (orderingOf? ts) := by
  induction ts generalizing m d with
  | nil => exact absurd (Option.some.inj hdone) hne
  | cons t ts ih =>
    obtain ⟨m₁, hn, hdone⟩ := Mode.after?_cons.mp hdone
    obtain ⟨d₁, hadd, hfold⟩ := foldlM_add_cons.mp hfold
    have ht := hts t List.mem_cons_self
    have hts := fun u hu => hts u (List.mem_cons_of_mem t hu)
    have hd₁ := hd.of_add hn ht hadd
    have hclause : d.clause = .projection := (hd.clause hne).trans hm
    have hclose := close_of_projection hclause hr t.position
    rcases Mode.of_next?_projection hm hi hn with
      ⟨hm₁, hi₁, hne₁, hnarrow, hwide, hk, hshape⟩ | ⟨hk, rfl⟩ | ⟨hk, rfl⟩ | ⟨hk, rfl⟩
    · obtain ⟨he, hr₁, hpending⟩ := pendingProjection_of_within
        (ts.takeWhile fun t => !t.kind.endsScope) hk
        (hshape.imp_right (.imp_right hp)) hr ht hadd
      have ih := ih hd₁ hm₁ hi₁ hne₁ (fun h => (h.elim hnarrow hwide).elim) hr₁
        (by rw [he]; exact ⟨hb.negated, hb.ignoreCase, hb.operator⟩) (by rw [he]; exact hc) hts
        hdone hfold
      have hopening : t.kind.opening? = none := by
        revert hk
        cases t.kind <;> first | exact fun _ => rfl | nofun
      have hends : t.kind.endsScope = false := by
        revert hk
        cases t.kind <;> first | exact fun _ => rfl | nofun
      have hord : t.kind ≠ .ordering := fun h => by rw [h] at hk; cases hk
      rw [criteriaOf?_cons hopening, orderingOf?_cons hord,
        List.takeWhile_cons_of_pos (by rw [hends]; rfl), ← hpending]
      rw [he] at ih ⊢
      exact ⟨ih.action, ih.projection, ih.criteria, ih.ordering⟩
    · rw [add, hk] at hadd
      obtain ⟨d₂, h₂, he⟩ := map_eq_ok_iff.mp hadd
      obtain rfl := Except.ok.inj (hclose.symm.trans h₂)
      have hb₁ : d₁.Blank := by rw [← he]; exact ⟨hb.negated, hb.ignoreCase, hb.operator⟩
      have h := completed_of_criteria hd₁ rfl (.inr hb₁.operator) hts hdone hfold
      have hopening : t.kind.opening? = some d₁.connective := by
        rw [hk, ← he]
        exact congrArg some hc.symm
      rw [pendingCriteria?_of_blank hb₁ (by rw [← he]) hopening] at h
      rw [List.takeWhile_cons_of_neg (by rw [hk]; nofun), orderingOf?_cons (by rw [hk]; nofun)]
      subst he
      exact ⟨h.action, h.projection, h.criteria, h.ordering⟩
    · rw [add, hk] at hadd
      obtain ⟨d₂, h₂, he⟩ := map_eq_ok_iff.mp hadd
      obtain rfl := Except.ok.inj (hclose.symm.trans h₂)
      have h := completed_of_ordering hd₁ rfl hts hdone hfold
      rw [pendingItems?_of_nil (by rw [← he])] at h
      rw [List.takeWhile_cons_of_neg (by rw [hk]; nofun), orderingOf?_cons_of_ordering hk,
        criteriaOf?_cons (by rw [hk]; rfl)]
      subst he
      exact ⟨h.action, h.projection, h.criteria, h.ordering⟩
    · rw [add, hk] at hadd
      obtain rfl := Except.ok.inj (hclose.symm.trans hadd)
      obtain rfl := Mode.eq_nil_of_after?_done hdone
      obtain rfl := Except.ok.inj hfold
      rw [List.takeWhile_cons_of_neg (by rw [hk]; nofun), orderingOf?_cons (by rw [hk]; nofun),
        criteriaOf?_cons (by rw [hk]; rfl)]
      exact ⟨rfl, rfl, ⟨[], rfl, (List.append_nil _).symm⟩, ⟨[], rfl, (List.append_nil _).symm⟩⟩

end Draft

end Clauses

/-! ## All tokens -/

section Names

variable {settings : Settings} {name : Text} {d : Draft} {q : Query} {c c' : Cursor}
  {ps : List Piece} {ts : List Token}

/-- **The query of a draft** is the one that the tokens spell. -/
theorem Draft.queryOf?_eq_finish (hts : ∀ t ∈ ts, t.kind.category = .property → t.text ≠ [])
    (hdone : Mode.initial.after? ts = some .done) (hfold : ts.foldlM Draft.add {} = .ok d) :
    ∃ q, (∀ n, d.finish n = .ok q) ∧ queryOf? ts = some q := by
  induction ts with
  | nil => cases hdone
  | cons t ts ih =>
    obtain ⟨m₁, hn, hdone⟩ := Mode.after?_cons.mp hdone
    obtain ⟨d₁, hadd, hfold⟩ := Draft.foldlM_add_cons.mp hfold
    have ht := hts t List.mem_cons_self
    have hts := fun u hu => hts u (List.mem_cons_of_mem t hu)
    have hd₁ := Draft.fits_empty.of_add hn ht hadd
    cases hkind : t.kind with
    | preamble =>
      rw [hkind] at hn
      rw [Draft.add, hkind, Except.ok.injEq] at hadd
      obtain rfl := Option.some.inj hn
      subst hadd
      obtain ⟨q, hq, hspell⟩ := ih hts hdone hfold
      refine ⟨q, hq, ?_⟩
      rw [← hspell, queryOf?, queryOf?, criteriaOf?_cons (by rw [hkind]; rfl),
        orderingOf?_cons (by rw [hkind]; simp)]
      simp [scopeOf, hkind, Kind.action?]
    | action a =>
      rw [hkind] at hn
      rw [Draft.add, hkind, Except.ok.injEq] at hadd
      obtain rfl := Option.some.inj hn
      subst hadd
      obtain ⟨hact, hproj, ⟨items, hitems, hcriteria⟩, ⟨order, horder, hordering⟩⟩ :=
        Draft.completed_of_projection hd₁ (by cases a <;> rfl) (by cases a <;> decide)
          (by cases a <;> decide) (fun _ => rfl) (by simp) ⟨rfl, rfl, rfl⟩ rfl hts hdone hfold
      rw [Draft.pendingProjection_of_none rfl rfl] at hproj
      refine ⟨_, fun n => by rw [Draft.finish, hact], ?_⟩
      rw [queryOf?, criteriaOf?_cons (by rw [hkind]; rfl), orderingOf?_cons (by rw [hkind]; simp),
        hitems, horder, hproj, hcriteria, hordering]
      simp [scopeOf, hkind, Kind.action?]
    | _ =>
      rw [hkind] at hn
      cases hn

theorem Cuts.text_ne_nil_of_property (h : Cuts settings c ps c') (n : Nat) :
    ∀ t ∈ place n ps, t.kind.category = .property → t.text ≠ [] := by
  induction h generalizing n with
  | nil => simp
  | cons h _ ih =>
    intro t ht
    rcases List.mem_cons.mp ht with rfl | ht
    · exact h.lexeme.text_ne_nil_of_property
    · exact ih _ t ht

/-- **The query of a name** is the one that its tokens spell. -/
theorem parse_eq_ok_iff_queryOf? :
    parse settings name = .ok q ↔ ∃ ts, tokenize settings name = .ok ts ∧ queryOf? ts = some q := by
  have key {ts : List Token} (ht : tokenize settings name = .ok ts) :
      ∃ q, parse settings name = .ok q ∧ queryOf? ts = some q := by
    obtain ⟨ps, c, hcuts, hdone, rfl⟩ := tokenize_eq_ok_iff.mp ht
    have hafter : Mode.initial.after? (place 0 ps) = some .done :=
      (hcuts.foldlM_next? 0).trans (congrArg some hdone)
    have htexts := hcuts.text_ne_nil_of_property 0
    obtain ⟨d, hfold, -⟩ := Draft.fits_empty.exists_foldlM hafter htexts
    obtain ⟨q, hq, hspell⟩ := Draft.queryOf?_eq_finish htexts hafter hfold
    rw [tokenize_eq_ok_iff_transcript] at ht
    exact ⟨q, by simp only [parse, ht, hfold, hq], hspell⟩
  constructor
  · intro hp
    obtain ⟨ts, ht⟩ := (parse_agrees_with_tokenize settings name).2.1.mp ⟨q, hp⟩
    obtain ⟨q', hp', hspell⟩ := key ht
    exact ⟨ts, ht, Except.ok.inj (hp.symm.trans hp') ▸ hspell⟩
  · rintro ⟨ts, ht, hspell⟩
    obtain ⟨q', hp', hspell'⟩ := key ht
    rw [hp', Option.some.inj (hspell.symm.trans hspell')]

/-- **A draft takes all tokens that the modes admit, and its query is what they say**, clause by
clause: the action is that of its token, the projection depends on the tokens of its scope alone,
there is one condition for `By` and for every connective, from the tokens up to the next connective,
`OrderBy` or the end, and one order item for every start of a path behind `OrderBy`. -/
theorem exists_queryOf?_of_admitted (hdone : Mode.initial.after? ts = some .done)
    (hts : ∀ t ∈ ts, t.kind.category = .property → t.text ≠ []) :
    ∃ d q, ts.foldlM Draft.add {} = .ok d ∧ (∀ n, d.finish n = .ok q) ∧ queryOf? ts = some q := by
  obtain ⟨d, hfold, -⟩ := Draft.fits_empty.exists_foldlM hdone hts
  obtain ⟨q, hq, hspell⟩ := Draft.queryOf?_eq_finish hts hdone hfold
  exact ⟨d, q, hfold, hq, hspell⟩

theorem exists_queryOf?_of_neighbouring_modifiers :
    ∃ ts : List Token, ts.map Token.kind =
        [.preamble, .action .find, .first 3, .distinct, .pathStart, .separator, .pathPart,
          .criteria, .pathStart, .ignoreCase, .negation, .operator .like, .connective .or,
          .pathStart, .negation, .connective .and, .pathStart, .ordering, .pathStart,
          .direction .desc, .separator, .pathStart, .finish] ∧
      (Mode.initial.after? ts = some .done ∧
        ∀ t ∈ ts, t.kind.category = .property → t.text ≠ []) ∧
      (∃ d q, ts.foldlM Draft.add {} = .ok d ∧ (∀ n, d.finish n = .ok q) ∧
        queryOf? ts = some q) ∧
      (criteriaOf? ts).map (List.map fun i =>
          (i.connective, i.condition.operator, i.condition.negated, i.condition.ignoreCase)) =
        some [(none, .like, true, true), (some .or, .equal, true, false),
          (some .and, .equal, false, false)] := by
  obtain ⟨ts, hts⟩ : ∃ ts : List Token, ts =
      [⟨.preamble, "my".toList, 0⟩, ⟨.action .find, "Find".toList, 2⟩,
        ⟨.first 3, "First3".toList, 6⟩, ⟨.distinct, "Distinct".toList, 12⟩,
        ⟨.pathStart, "Home".toList, 20⟩, ⟨.separator, "_".toList, 24⟩,
        ⟨.pathPart, "zip".toList, 25⟩, ⟨.criteria, "By".toList, 28⟩,
        ⟨.pathStart, "Name".toList, 30⟩, ⟨.ignoreCase, "IgnoreCase".toList, 34⟩,
        ⟨.negation, "Not".toList, 44⟩, ⟨.operator .like, "Like".toList, 47⟩,
        ⟨.connective .or, "Or".toList, 51⟩, ⟨.pathStart, "Age".toList, 53⟩,
        ⟨.negation, "Not".toList, 56⟩, ⟨.connective .and, "And".toList, 59⟩,
        ⟨.pathStart, "City".toList, 62⟩, ⟨.ordering, "OrderBy".toList, 66⟩,
        ⟨.pathStart, "Age".toList, 73⟩, ⟨.direction .desc, "Desc".toList, 76⟩,
        ⟨.separator, "_".toList, 80⟩, ⟨.pathStart, "Name".toList, 81⟩, ⟨.finish, [], 85⟩] :=
    ⟨_, rfl⟩
  have hdone : Mode.initial.after? ts = some .done := by rw [hts]; decide +kernel
  have htexts : ∀ t ∈ ts, t.kind.category = .property → t.text ≠ [] := by rw [hts]; decide +kernel
  refine ⟨ts, by rw [hts]; rfl, ⟨hdone, htexts⟩, exists_queryOf?_of_admitted hdone htexts, ?_⟩
  rw [hts]
  decide +kernel

end Names

end DerivedQuery
