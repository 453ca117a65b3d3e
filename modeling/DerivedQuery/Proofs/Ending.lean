import DerivedQuery.Proofs.Behind
import DerivedQuery.Proofs.Passing
import DerivedQuery.Proofs.Reading

/-!
# Where a name ends

A name that has been read to its end can be read on: what has been cut stays as it is in front of a
text at which its last word stops.

* `Draft.Settled`: outside the conditions, no part of a condition is pending;
* `Reads.exists_close`: the last token closes the last clause;
* `Ends`, **`exists_ends`**: what is known in front of the end of a name;
* **`Reads.extend`**: what has been read stays when a text is appended.
-/

namespace DerivedQuery

/-! ## Pending parts of a condition -/

/-- No part of a condition is pending. -/
structure Draft.Idle (d : Draft) : Prop where
  connective : d.connective = none
  negated : d.negated = false
  ignoreCase : d.ignoreCase = false
  operator : d.operator = none

/-- Outside the conditions, no part of a condition is pending. -/
def Draft.Settled (m : Mode) (d : Draft) : Prop := m.clause ≠ .criteria → d.Idle

/-- The draft that holds the query, and nothing that is not closed. -/
def Draft.ofQuery (clause : Clause) (q : Query) : Draft where
  clause := clause
  action := some q.action
  projection := q.projection
  criteria := q.criteria
  ordering := q.ordering

section Pending

variable {settings : Settings} {c c' : Cursor} {d d' : Draft} {p : Piece} {m m' : Mode} {n : Nat}
  {q : Query} {k : Kind}

theorem Draft.eq_ofQuery (hi : d.Idle) (hs : d.segments = []) (hq : d.finish n = .ok q) :
    d = .ofQuery d.clause q := by
  obtain ⟨ha, hp, hc, ho⟩ := Draft.finish_eq_ok_iff.mp hq
  obtain ⟨hk, hn, hic, hop⟩ := hi
  obtain ⟨⟩ := d
  simp_all [ofQuery]

theorem Draft.fits_ofQuery (q : Query) (hm : m.holdsPath = false) :
    (Draft.ofQuery m.clause q).Fits m where
  clause _ := rfl
  segments := iff_of_true rfl hm
  segment_ne_nil _ hs := absurd hs List.not_mem_nil
  action _ := Option.some_ne_none _

theorem Draft.behind_ofQuery (clause : Clause) (a : Action) (q : Query) (j : Option Connective) :
    (Draft.ofQuery clause { action := a }).behind q j =
      { Draft.ofQuery clause q with connective := j } := by
  simp [behind, ofQuery, joinedBy]

theorem Draft.Idle.of_same (h : d.Idle) (hk : d'.connective = d.connective)
    (hn : d'.negated = d.negated) (hi : d'.ignoreCase = d.ignoreCase)
    (ho : d'.operator = d.operator) : d'.Idle :=
  ⟨hk.trans h.1, hn.trans h.2, hi.trans h.3, ho.trans h.4⟩

theorem Draft.Closes.idle (h : d.Closes d') (hd : d.clause ≠ .criteria → d.Idle) : d'.Idle := by
  cases h with
  | projection hc =>
    have hi := hd (by rw [hc]; nofun)
    unfold closeProjection
    split <;> exact hi.of_same rfl rfl rfl rfl
  | condition => exact ⟨rfl, rfl, rfl, rfl⟩
  | orderItem hc | nothing hc => exact (hd (by rw [hc]; nofun)).of_same rfl rfl rfl rfl

theorem Mode.clause_eq_criteria (hk : k = .negation ∨ k = .ignoreCase ∨ k.category = .operator ∨
    k = .criteria ∨ k.category = .connective) (h : m.next? k = some m') :
    m'.clause = .criteria := by
  cases k with
  | negation | ignoreCase => cases m <;> cases h <;> rfl
  | operator | criteria | connective =>
    obtain ⟨-, ⟨⟩⟩ := Option.ite_none_right_eq_some.mp h
    rfl
  | _ => simp [Kind.category] at hk

/-- **Every token keeps** that nothing is pending outside the conditions. -/
theorem Draft.Settled.step (h : d.Settled c.mode) (hf : d.Fits c.mode) (hc : Cut settings c p c')
    (hd : d.Adds p d') : d'.Settled c'.mode := by
  intro hne
  have hn := hc.next?
  have hclause := hf.clause fun hdone => stuck_of_done hdone p c' hc
  obtain ⟨kind, text⟩ := p
  dsimp only at hn
  have hadd := hd 0
  cases kind with
  | preamble | action =>
    obtain ⟨hm, -⟩ := Option.ite_none_right_eq_some.mp hn
    obtain rfl := Except.ok.inj hadd
    exact (h (by rw [hm]; decide)).of_same rfl rfl rfl rfl
  | all | first | distinct | aggregate | separator =>
    obtain ⟨-, -, hm, -⟩ := Mode.of_next?_mark rfl hn
    obtain rfl := Except.ok.inj hadd
    exact (h (hm ▸ hne)).of_same rfl rfl rfl rfl
  | pathStart | pathPart =>
    obtain ⟨-, -, hm, -⟩ := Mode.of_next?_segment (by simp) hn
    obtain rfl := Except.ok.inj hadd
    rw [addSegment_of_ne_nil (hc.lexeme.text_ne_nil_of_property rfl)]
    exact (h (hm ▸ hne)).of_same rfl rfl rfl rfl
  | negation | ignoreCase | operator | criteria | connective =>
    exact absurd (Mode.clause_eq_criteria (by simp [Kind.category]) hn) hne
  | ordering =>
    obtain ⟨d₁, hclose, rfl⟩ := map_eq_ok_iff.mp hadd
    exact ((closes_of_close hclose).idle (hclause ▸ h)).of_same rfl rfl rfl rfl
  | direction r =>
    obtain ⟨ha, -⟩ := Option.ite_none_right_eq_some.mp hn
    obtain ⟨q, -, rfl⟩ := exists_of_closeOrderItem hadd
    exact (h (by rw [(Mode.of_accepts_direction ha).1]; decide)).of_same rfl rfl rfl rfl
  | finish => exact (closes_of_close hadd).idle (hclause ▸ h)

end Pending

/-! ## The end of a name -/

/-- In front of the end of a name: nothing is left of the name, and its last clause is closed to
make the query. -/
structure Ends (settings : Settings) (name : Text) (q : Query) (c : Cursor) (d : Draft) : Prop where
  reads : Reads settings (.ofName name) {} c d
  rest : c.rest = []
  accepts : c.mode.accepts .finish = true
  previous : c.previous ≠ some separator
  isBulk : c.isBulk = q.isBulk
  clause : d.clause = c.mode.clause
  close : ∀ n, d.close n = .ok (.ofQuery c.mode.clause q)
  /-- A name without an order does not end with one. -/
  unordered : q.ordering = [] → c.mode.clause ≠ .ordering
  /-- Conditions have not been followed by a projection. -/
  criteria : q.criteria ≠ [] → c.mode.clause ≠ .projection

section Ends

variable {settings : Settings} {c c' : Cursor} {d d' : Draft} {p : Piece} {m : Mode}
  {prev : Option Char} {name s : Text} {q : Query}

theorem Reads.eq_or_exists_last (h : Reads settings c d c' d') :
    c = c' ∧ d = d' ∨
      ∃ c₁ d₁ p, Reads settings c d c₁ d₁ ∧ Cut settings c₁ p c' ∧ d₁.Adds p d' := by
  induction h with
  | refl => exact .inl ⟨rfl, rfl⟩
  | @step c d p c₁ d₁ c' d' hc hd _ ih =>
    rcases ih with ⟨rfl, rfl⟩ | ⟨c₂, d₂, p₂, h, hlast⟩
    · exact .inr ⟨c, d, p, .refl c d, hc, hd⟩
    · exact .inr ⟨c₂, d₂, p₂, .step hc hd h, hlast⟩

/-- **The end of a name** closes its last clause. -/
theorem Reads.exists_close (h : Reads settings (.ofName name) {} c' d') (hd : c'.mode = .done) :
    ∃ c d, Reads settings (.ofName name) {} c d ∧ c.rest = [] ∧ c.mode.accepts .finish = true ∧
      ∀ n, d.close n = .ok d' := by
  rcases h.eq_or_exists_last with ⟨rfl, -⟩ | ⟨c, d, p, hreads, hc, hadd⟩
  · cases hd
  have hn := hc.next?
  have hk : p.kind = .finish := Mode.eq_finish_of_done (hd ▸ hn)
  rw [hk] at hn
  obtain ⟨ht, hr⟩ := hc.lexeme.of_finish hk
  have hrest : c.rest = [] := by rw [hc.rest, ht, hr]; rfl
  refine ⟨c, d, hreads, hrest, (Option.ite_none_right_eq_some.mp hn).1, fun n => ?_⟩
  have hclose := hadd n
  rwa [Draft.add, hk] at hclose

theorem Reads.previous_ne_separator (h : Reads settings (.ofName name) {} c d) (hr : c.rest = [])
    (hi : c.mode ≠ .initial) (hd : c.mode ≠ .done) : c.previous ≠ some separator := by
  rcases h.eq_or_exists_last with ⟨rfl, -⟩ | ⟨c₁, d₁, p, -, hc, -⟩
  · exact absurd rfl hi
  rw [hc.previous]
  have hn := hc.next?
  refine hc.lexeme.previous_ne_separator (fun hk => ?_) (fun hk => ?_) (fun hk => ?_)
  · obtain ⟨-, ⟨e, es, he, -⟩, -⟩ := hc.lexeme.of_separator hk
    cases hr.symm.trans he
  · rw [hk] at hn
    exact hi (Option.some.inj (Option.ite_none_right_eq_some.mp hn).2).symm
  · exact hd (Mode.eq_done_of_finish (hk ▸ hn))

/-- What is kept while a name is read. -/
structure Upheld (settings : Settings) (c : Cursor) (d : Draft) : Prop where
  sound : Sound settings c d
  fits : d.Fits c.mode
  settled : d.Settled c.mode
  orders : d.Orders c.mode

theorem Upheld.step (h : Upheld settings c d) (hc : Cut settings c p c') (hd : d.Adds p d') :
    Upheld settings c' d' where
  sound := h.sound.step hc hd
  fits := h.fits.of_adds hc hd
  settled := h.settled.step h.fits hc hd
  orders := h.orders.step h.fits hc hd

theorem Reads.upheld (h : Reads settings (.ofName name) {} c d) : Upheld settings c d :=
  h.invariant (fun h hc hd => h.step hc hd)
    ⟨.start rfl rfl rfl, Draft.fits_empty, fun _ => ⟨rfl, rfl, rfl, rfl⟩, nofun⟩

theorem Sound.exists_acts (h : Sound settings c d) (hi : c.mode ≠ .initial) :
    ∃ a, Kept c.mode d ∧ Acts a c d := by
  cases h with
  | start hm => exact absurd hm hi
  | acted a _ hk _ ha => exact ⟨a, hk, ha⟩

/-- **A name that has a query** comes to its end. -/
theorem exists_ends (h : parse settings name = .ok q) : ∃ c d, Ends settings name q c d := by
  obtain ⟨c', d', hreads', hdone, hq⟩ := parse_eq_ok_iff.mp h
  obtain ⟨c, d, hreads, hrest, haccepts, hclose⟩ := hreads'.exists_close hdone
  obtain ⟨hi, hd⟩ := Mode.ne_of_accepts (by decide) haccepts
  have hup := hreads.upheld
  have hup' := hreads'.upheld
  have hclause := hup.fits.clause hd
  have hcloses := Draft.closes_of_close (hclose 0)
  -- nothing is pending at the end, so the draft is the query
  obtain rfl : d' = .ofQuery c.mode.clause q := by
    rw [← hclause, ← hcloses.clause_eq]
    exact Draft.eq_ofQuery (hup'.settled (by rw [hdone]; decide))
      (hup'.fits.segments.mpr (by rw [hdone]; rfl)) (hq 0)
  obtain ⟨a, hkept, ha⟩ := hup.sound.exists_acts hi
  obtain rfl : a = q.action := Option.some.inj (ha.action.symm.trans hcloses.rest.1.symm)
  refine ⟨c, d, hreads, hrest, haccepts, hreads.previous_ne_separator hrest hi hd, ha.isBulk,
    hclause, hclose, fun hnil hm => ?_, fun hne hm => ?_⟩
  · rcases hup'.orders hm with hm' | hm' | hne
    · cases hdone.symm.trans hm'
    · cases hdone.symm.trans hm'
    · exact hne hnil
  · have he : q.criteria = d.closeProjection.criteria :=
      congrArg Draft.criteria (hcloses.eq_closeProjection (hclause.trans hm))
    rw [he, d.closeProjection_rest.1] at hne
    exact hne (hkept.fresh hm hd).1

/-! ## Texts that are appended -/

/-- A text at which a path stops may stand behind the end of a name. -/
theorem Stops.exchangeable (h : Stops m s) (hi : m ≠ .initial) : Exchangeable m prev [] s where
  subsumes _ := h.detached.subsumes rfl
  atBoundary _ := h.detached.1
  digits _ := takeWhile_isDigit_of_atBoundary h.detached.1
  action hm := absurd hm hi
  letter _ _ := by
    rintro ⟨e, es, he, -⟩
    cases he
  segment _ _ _ := h.segment
  limit _ hne := absurd rfl hne

/-- **What has been read stays** when a text is appended. -/
theorem Reads.extend (h : Reads settings (.ofName name) {} c d) (hr : c.rest = [])
    (hi : c.mode ≠ .initial) (hd : c.mode ≠ .done) (hs : Stops c.mode s) :
    Reads settings (.ofName (name ++ s)) {} (c.withRest s) d := by
  obtain ⟨ps, hcuts, hfold⟩ := h.exists_cuts
  have hname : name = textOf ps := by simpa [Cursor.ofName, hr] using hcuts.rest_eq
  have hx : Exchangeable c.mode c.previous c.rest s := hr ▸ hs.exchangeable hi
  obtain ⟨hcuts', -⟩ := hcuts.exchange hd hx
  rw [← hname] at hcuts'
  obtain ⟨d', hreads, -, hfold'⟩ := hcuts'.exists_reads Draft.fits_empty
  obtain rfl := Except.ok.inj ((hfold 0).symm.trans (hfold' 0))
  exact hreads

end Ends

end DerivedQuery
