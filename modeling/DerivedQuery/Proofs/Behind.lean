import DerivedQuery.Proofs.Step

/-!
# Reading behind a query

Conditions and order items are read in the same way wherever in a name they stand: what has been
read before them is carried along.

* `joinedBy`, `Draft.behind`: the draft that is read behind a query; **`Draft.Adds.behind`**: it
  takes the same tokens;
* `Cursor.Alike`, `Cut.alike`: cursors that cut the same lexemes;
* `Draft.Orders`: an order that has been begun has an item in the end;
* **`Reads.behind`**: the end of a name can be read behind a query.
-/

namespace DerivedQuery

/-! ## Drafts -/

/-- The conditions, of which the first one is joined by the connective. -/
def joinedBy (k : Option Connective) : List CriteriaItem → List CriteriaItem
  | [] => []
  | i :: is => { i with connective := k } :: is

theorem joinedBy_append (k : Option Connective) (is : List CriteriaItem)
    (i : CriteriaItem) :
    joinedBy k (is ++ [i]) =
      joinedBy k is ++ [{ i with connective := if is = [] then k else i.connective }] := by
  cases is <;> rfl

/-- The draft behind a query: conditions and order items follow those of the query, and the first
condition is joined by the connective. -/
def Draft.behind (q : Query) (k : Option Connective) (d : Draft) : Draft :=
  { d with
    action := some q.action
    projection := q.projection
    connective := if d.criteria = [] then k else d.connective
    criteria := q.criteria ++ joinedBy k d.criteria
    ordering := q.ordering ++ d.ordering }

namespace Draft

variable {q : Query} {k : Option Connective} {d d' : Draft} {p : Piece}

theorem withCondition_behind (d : Draft) (property : Path) :
    (d.behind q k).withCondition property = (d.withCondition property).behind q k := by
  simp [withCondition, behind, joinedBy_append, condition]

theorem closeCondition_behind (d : Draft) (n : Nat) :
    (d.behind q k).closeCondition n = (d.closeCondition n).map (behind q k) := by
  have hpath : (d.behind q k).path n = d.path n := rfl
  unfold closeCondition
  rw [hpath]
  cases d.path n with
  | error e => rfl
  | ok property => exact congrArg Except.ok (d.withCondition_behind property)

theorem closeOrderItem_behind (d : Draft) (r : Direction) (n : Nat) :
    (d.behind q k).closeOrderItem r n = (d.closeOrderItem r n).map (behind q k) := by
  have hpath : (d.behind q k).path n = d.path n := rfl
  unfold closeOrderItem
  rw [hpath]
  cases d.path n with
  | error e => rfl
  | ok property => simp [Except.map, behind]

theorem close_behind (hd : d.clause ≠ .projection) (n : Nat) :
    (d.behind q k).close n = (d.close n).map (behind q k) := by
  have hclause : (d.behind q k).clause = d.clause := rfl
  have hsegments : (d.behind q k).segments = d.segments := rfl
  unfold close
  rw [hclause, hsegments]
  cases hc : d.clause with
  | projection => exact absurd hc hd
  | criteria => exact d.closeCondition_behind n
  | ordering =>
    dsimp only
    split
    · rfl
    · exact d.closeOrderItem_behind .default n

theorem addSegment_behind (d : Draft) (t : Text) :
    (d.behind q k).addSegment t = (d.addSegment t).behind q k := by
  unfold addSegment
  split <;> rfl

/-- **The draft behind a query** takes every token that the draft takes, if it speaks neither of the
action nor of the projection. -/
theorem Adds.behind (h : d.Adds p d') (hd : d.clause ≠ .projection)
    (ha : ∀ a, p.kind ≠ .action a) (hw : p.kind.isWord = false) :
    (d.behind q k).Adds p (d'.behind q k) := by
  obtain ⟨kind, text⟩ := p
  intro n
  have h := h n
  cases kind with
  | action a => exact absurd rfl (ha a)
  | first | distinct | aggregate => cases hw
  | preamble | all | separator | negation | ignoreCase | operator =>
    obtain rfl := Except.ok.inj h
    rfl
  | pathStart | pathPart =>
    obtain rfl := Except.ok.inj h
    exact congrArg Except.ok (d.addSegment_behind text)
  | criteria | ordering =>
    obtain ⟨d₁, hclose, rfl⟩ := map_eq_ok_iff.mp h
    simp only [add, close_behind hd, hclose]
    rfl
  | connective k' =>
    obtain ⟨d₁, hclose, rfl⟩ := map_eq_ok_iff.mp h
    obtain ⟨property, -, rfl⟩ := exists_of_closeCondition hclose
    simp only [add, closeCondition_behind, hclose]
    simp [Except.map, Draft.behind, withCondition]
  | direction r =>
    have hclose : d.closeOrderItem r n = .ok d' := h
    simp only [add, closeOrderItem_behind, hclose]
    rfl
  | finish =>
    have hclose : d.close n = .ok d' := h
    simp only [add, close_behind hd, hclose]
    rfl

theorem finish_eq_ok_iff {n : Nat} {r : Query} : d.finish n = .ok r ↔
    d.action = some r.action ∧ d.projection = r.projection ∧ d.criteria = r.criteria ∧
      d.ordering = r.ordering := by
  obtain ⟨a, pr, cr, or⟩ := r
  rw [finish]
  cases d.action <;> simp

theorem finish_behind {n : Nat} {r : Query} (h : d.finish n = .ok r) (n' : Nat) :
    (d.behind q k).finish n' = .ok { q with
      criteria := q.criteria ++ joinedBy k r.criteria
      ordering := q.ordering ++ r.ordering } := by
  obtain ⟨-, -, hc, ho⟩ := finish_eq_ok_iff.mp h
  rw [← hc, ← ho]
  rfl

end Draft

/-! ## Cursors -/

/-- The cursors stand in the same mode in front of the same text, both behind a separator or none of
them. -/
structure Cursor.Alike (c e : Cursor) : Prop where
  mode : e.mode = c.mode
  rest : e.rest = c.rest
  previous : c.previous = some separator ↔ e.previous = some separator

section Alike

variable {settings : Settings} {m : Mode} {b b' : Bool} {prev prev' : Option Char} {p : Piece}
  {r : Text} {c c' e : Cursor}

theorem startsPath_congr (h : prev = some separator ↔ prev' = some separator) (d : Char) :
    startsPath prev d = startsPath prev' d := by
  have hb : (prev == some separator) = (prev' == some separator) := by
    rw [Bool.eq_iff_iff, beq_iff_eq, beq_iff_eq, h]
  rw [startsPath, startsPath, hb]

/-- Of what has been cut before, only separators and actions on many records matter to a lexeme. -/
theorem Lexeme.alike (h : Lexeme settings m b prev p r)
    (hp : prev = some separator ↔ prev' = some separator) (hb : p.kind = .ordering → b' = false) :
    Lexeme settings m b' prev' p r := by
  cases h with
  | finish h => exact .finish h
  | leading h => exact .leading h
  | capitalized h => exact .capitalized h
  | preamble hu hl h => exact .preamble hu hl h
  | limit ha hd ht hn => exact .limit ha hd ht hn
  | keyword hs hk ho =>
    exact .keyword (fun hm => mt hp.mpr (hs hm)) hk fun hb' => by simp [hb hb'.1] at hb'
  | pathStart ha hw hs hl hk ht => exact .pathStart ha hw (startsPath_congr hp _ ▸ hs) hl hk ht
  | pathSeparator hm hs hd => exact .pathSeparator hm (mt hp.mpr hs) hd
  | pathPart hm hc ht =>
    obtain rfl := hp.mp rfl
    exact .pathPart hm hc ht
  | itemSeparator hs hd => exact .itemSeparator hs hd

/-- **Cursors that are alike** cut the same lexeme, and then are alike. -/
theorem Cut.alike (h : Cut settings c p c') (he : c.Alike e)
    (hb : p.kind = .ordering → e.isBulk = false) :
    ∃ e', Cut settings e p e' ∧ c'.Alike e' ∧
      e'.isBulk = (e.isBulk || Scan.isBulkAction p.kind) := by
  have hlex : Lexeme settings e.mode e.isBulk e.previous p c'.rest :=
    he.mode ▸ h.lexeme.alike he.previous hb
  have hnext : e.mode.next? p.kind = some c'.mode := he.mode ▸ h.next?
  refine ⟨⟨c'.mode, _, p.text.getLast?.or e.previous, c'.rest⟩,
    ⟨hlex, hnext, he.rest.trans h.rest, rfl, rfl⟩, ⟨rfl, rfl, ?_⟩, rfl⟩
  rw [h.previous]
  cases p.text.getLast? with
  | none => exact he.previous
  | some d => rfl

end Alike

/-! ## The order -/

/-- An order that has been begun has an item, or its first path is still to come or being read. -/
def Draft.Orders (m : Mode) (d : Draft) : Prop :=
  d.clause = .ordering → m = .orderStart ∨ m = .ordered ∨ d.ordering ≠ []

section Reading

variable {settings : Settings} {c c' e : Cursor} {d d' : Draft} {p : Piece} {m m' : Mode} {k : Kind}
  {q : Query} {j : Option Connective}

theorem Mode.of_next?_order (hm : m = .orderStart ∨ m = .ordered) (h : m.next? k = some m') :
    m' = .ordered ∨ m = .ordered ∧ ((∃ r, k = .direction r) ∨ k = .finish) := by
  rcases hm with rfl | rfl
  · cases k <;> cases h
    exact .inl rfl
  · cases k <;> cases h <;> simp

theorem Draft.Closes.clause_eq (h : d.Closes d') : d'.clause = d.clause := by
  cases h with
  | projection => exact d.closeProjection_eq.2.1
  | condition | orderItem | nothing => rfl

theorem Draft.Closes.ordering_ne_nil (h : d.Closes d') (ho : d.ordering ≠ []) :
    d'.ordering ≠ [] := by
  cases h with
  | projection => rwa [d.closeProjection_rest.2.1]
  | condition | nothing => exact ho
  | orderItem => simp [withOrderItem]

/-- **Every token keeps** that an order which has been begun has an item in the end. -/
theorem Draft.Orders.step (h : d.Orders c.mode) (hf : d.Fits c.mode) (hc : Cut settings c p c')
    (hd : d.Adds p d') : d'.Orders c'.mode := by
  have hdone : c.mode ≠ .done := fun hdone => stuck_of_done hdone p c' hc
  have hclause := hf.clause hdone
  have hnext := hc.next?
  intro ho
  -- neither a mark nor a segment ends the path behind the word OrderBy
  have hsame (hcl : d'.clause = d.clause) (hor : d'.ordering = d.ordering)
      (hk : (∀ r, p.kind ≠ .direction r) ∧ p.kind ≠ .finish) :
      c'.mode = .orderStart ∨ c'.mode = .ordered ∨ d'.ordering ≠ [] := by
    have hmode : (c.mode = .orderStart ∨ c.mode = .ordered) ∨ d.ordering ≠ [] :=
      or_assoc.mpr (h (hcl ▸ ho))
    rcases hmode with hm | hne
    · rcases Mode.of_next?_order hm hnext with hm' | ⟨-, ⟨r, hr⟩ | hfin⟩
      · exact .inr (.inl hm')
      · exact absurd hr (hk.1 r)
      · exact absurd hfin hk.2
    · exact .inr (.inr (hor ▸ hne))
  cases hc.step hf hd with
  | preamble hm | action _ _ hm =>
    have hcl : c.mode.clause = .ordering := hclause ▸ ho
    rw [hm] at hcl
    cases hcl
  | word _ hm _ hmarks =>
    have hcl : c.mode.clause = .ordering := hclause ▸ hmarks.clause ▸ ho
    cases hm.symm.trans hcl
  | mark hk _ hmarks =>
    refine hsame hmarks.clause hmarks.ordering ⟨fun r hr => ?_, fun hr => ?_⟩ <;>
      simp [hr, Kind.isMark] at hk
  | segment hk =>
    refine hsame rfl rfl ⟨fun r hr => ?_, fun hr => ?_⟩ <;> simp [hr, Kind.category] at hk
  | criteria => cases ho
  | ordering _ _ hm' => exact .inl hm'
  | connective _ hm =>
    have hcl : c.mode.clause = .ordering := hclause ▸ ho
    cases hm.symm.trans hcl
  | direction => exact .inr (.inr (by simp [withOrderItem]))
  | finish hk _ hcloses =>
    have hcl : d.clause = .ordering := hcloses.clause_eq ▸ ho
    have hmode : (c.mode = .orderStart ∨ c.mode = .ordered) ∨ d.ordering ≠ [] :=
      or_assoc.mpr (h hcl)
    rcases hmode with hm | hne
    · rcases Mode.of_next?_order hm hnext with hm' | ⟨hm, -⟩
      · exact .inr (.inl hm')
      · cases hcloses with
        | projection hcl' | condition hcl' => cases hcl.symm.trans hcl'
        | orderItem => exact .inr (.inr (by simp [withOrderItem]))
        | nothing _ hs =>
          have hp := hf.segments.mp hs
          rw [hm] at hp
          cases hp
    · exact .inr (.inr (hcloses.ordering_ne_nil hne))

theorem Draft.Adds.clause_eq_ordering (hd : d.Adds p d') (hf : d.Fits c.mode)
    (hc : Cut settings c p c') (ho : d.clause = .ordering) : d'.clause = .ordering := by
  have hclause := hf.clause fun hdone => stuck_of_done hdone p c' hc
  cases hc.step hf hd with
  | preamble | action | segment | connective | direction => exact ho
  | word _ _ _ hmarks | mark _ _ hmarks => exact hmarks.clause.trans ho
  | criteria _ hm => cases hm.symm.trans (hclause.symm.trans ho)
  | ordering => rfl
  | finish _ _ hcloses => exact hcloses.clause_eq.trans ho

/-- An order is being read. -/
structure InOrder (c : Cursor) (d : Draft) : Prop where
  fits : d.Fits c.mode
  orders : d.Orders c.mode
  clause : d.clause = .ordering

theorem InOrder.step (h : InOrder c d) (hc : Cut settings c p c') (hd : d.Adds p d') :
    InOrder c' d' :=
  ⟨h.fits.of_adds hc hd, h.orders.step h.fits hc hd, hd.clause_eq_ordering h.fits hc h.clause⟩

/-- **A name that goes on with an order** has an order item in the end. -/
theorem Reads.ordering_ne_nil (h : Reads settings c d c' d') (hf : d.Fits c.mode)
    (hm : c.mode = .orderStart) (hd : c'.mode = .done) : d'.ordering ≠ [] := by
  have hclause : d.clause = .ordering := by
    rw [hf.clause (by rw [hm]; nofun), hm]
    rfl
  have hi : InOrder c' d' :=
    h.invariant (fun h hc hd => h.step hc hd) ⟨hf, fun _ => .inl hm, hclause⟩
  rcases hi.orders hi.clause with ho | ho | ho
  · cases hd.symm.trans ho
  · cases hd.symm.trans ho
  · exact ho

/-! ## Behind a query -/

theorem Mode.of_next?_behind (hm : m.clause ≠ .projection) (h : m.next? k = some m') :
    (∀ a, k ≠ .action a) ∧ k.isWord = false ∧ (m'.clause ≠ .projection ∨ m' = .done) := by
  cases k with
  | action a =>
    obtain ⟨rfl, -⟩ := Option.ite_none_right_eq_some.mp h
    exact absurd rfl hm
  | first | distinct | aggregate =>
    obtain ⟨ha, -⟩ := Option.ite_none_right_eq_some.mp h
    exact absurd (Mode.of_accepts_word (by simp) ha) hm
  | preamble =>
    obtain ⟨rfl, -⟩ := Option.ite_none_right_eq_some.mp h
    exact absurd rfl hm
  | pathStart | pathPart | separator | negation | ignoreCase =>
    refine ⟨by simp, rfl, .inl ?_⟩
    revert hm
    cases m <;> cases h <;> decide
  | all =>
    obtain ⟨ha, -⟩ := Option.ite_none_right_eq_some.mp h
    revert hm ha
    cases m <;> simp [accepts, expected, clause]
  | criteria | ordering | operator | connective | direction =>
    obtain ⟨-, ⟨⟩⟩ := Option.ite_none_right_eq_some.mp h
    exact ⟨by simp, rfl, .inl (by decide)⟩
  | finish =>
    obtain ⟨-, ⟨⟩⟩ := Option.ite_none_right_eq_some.mp h
    exact ⟨by simp, rfl, .inr rfl⟩

/-- **The end of a name can be read behind a query**, if the query takes the order. -/
theorem Reads.behind (h : Reads settings c d c' d') (hf : d.Fits c.mode)
    (hm : c.mode.clause ≠ .projection ∨ c.mode = .done) (hd : c'.mode = .done) (he : c.Alike e)
    (hb : e.isBulk = true → d'.ordering = []) :
    ∃ e', Reads settings e (d.behind q j) e' (d'.behind q j) ∧ e'.mode = .done := by
  induction h generalizing e with
  | refl c d => exact ⟨e, .refl _ _, he.mode.trans hd⟩
  | @step c d p c₁ d₁ c' d' hc hadd t ih =>
    have hdone : c.mode ≠ .done := fun hdone => stuck_of_done hdone p c₁ hc
    have hm := hm.resolve_right hdone
    have hf₁ : d₁.Fits c₁.mode := hf.of_adds hc hadd
    obtain ⟨hact, hword, hm₁⟩ := Mode.of_next?_behind hm hc.next?
    have horder : p.kind = .ordering → e.isBulk = false := by
      intro hk
      by_contra hbulk
      have hstart : c₁.mode = .orderStart := by
        have hn := hc.next?
        rw [hk] at hn
        obtain ⟨-, ho⟩ := Option.ite_none_right_eq_some.mp hn
        exact (Option.some.inj ho).symm
      exact t.ordering_ne_nil hf₁ hstart hd (hb (Bool.not_eq_false _ ▸ hbulk))
    obtain ⟨e₁, hcut, he₁, hbulk⟩ := hc.alike he horder
    have hsame : e₁.isBulk = e.isBulk := by
      rw [hbulk]
      cases hk : p.kind with
      | action a => exact absurd hk (hact a)
      | _ => exact Bool.or_false _
    obtain ⟨e', hreads, hend⟩ := ih hf₁ hm₁ hd he₁ (hsame ▸ hb)
    have hadd' := hadd.behind (q := q) (k := j) (hf.clause hdone ▸ hm) hact hword
    exact ⟨e', .step hcut hadd' hreads, hend⟩

end Reading

end DerivedQuery
