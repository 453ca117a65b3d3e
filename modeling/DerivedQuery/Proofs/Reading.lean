import DerivedQuery.Proofs.Scope

/-!
# Queries that are read can be written

While a name is read, what the draft has closed can be written, and what it has open can be written
in front of the text that follows.

* `Kept`: conditions, order items and segments that have been read can be written;
* `Acts`: an action on many records takes neither a projection nor an order;
* `Sound`, **`Sound.step`**: so can all that has been read;
* **`renderable_of_parse`**: the query of a name can be written.
-/

namespace DerivedQuery

/-! ## Conditions, order items and segments -/

/-- The mode within the paths of a clause. -/
def Clause.pathMode : Clause → Mode
  | projection => .projected
  | criteria => .criterion
  | ordering => .ordered

/-- What a draft holds in the mode can be written: the conditions and order items it has closed, and
the segments of the path it has open. -/
structure Kept (m : Mode) (d : Draft) : Prop where
  joined : Joined d.criteria
  criteria : ∀ i ∈ d.criteria, i.condition.property.Fits .criterion
  ordering : ∀ i ∈ d.ordering, i.property.Fits .ordered
  segments : ∀ s ∈ d.segments, Spelled s ∧ HoldsNoKeyword m.clause.pathMode [] s
  connective : m.clause = .criteria → (d.connective = none ↔ d.criteria = [])
  fresh : m.clause = .projection → m ≠ .done → d.criteria = [] ∧ d.connective = none

section Kept

variable {settings : Settings} {c c' : Cursor} {d d' : Draft} {p : Piece} {m m' : Mode}
  {prev : Option Char} {r : Text}

theorem Joined.append {is : List CriteriaItem} {i : CriteriaItem} (h : Joined is)
    (hi : i.connective = none ↔ is = []) : Joined (is ++ [i]) := by
  cases is with
  | nil => exact ⟨hi.mpr rfl, by simp⟩
  | cons j js =>
    refine ⟨h.1, fun k hk => ?_⟩
    rcases List.mem_append.mp hk with hk | hk
    · exact h.2 k hk
    · rw [List.mem_singleton.mp hk]
      exact fun hn => List.cons_ne_nil j js (hi.mp hn)

/-- A token that neither goes on with a path nor closes one. -/
theorem Kept.of_same (h : Kept m d) (hd : m ≠ .done) (hm : m'.clause = m.clause)
    (hc : d'.criteria = d.criteria) (ho : d'.ordering = d.ordering)
    (hs : d'.segments = d.segments) (hn : d'.connective = d.connective) : Kept m' d' where
  joined := hc ▸ h.joined
  criteria := hc ▸ h.criteria
  ordering := ho ▸ h.ordering
  segments := by rw [hs, hm]; exact h.segments
  connective := by rw [hm, hn, hc]; exact h.connective
  fresh hcl _ := by rw [hc, hn]; exact h.fresh (hm ▸ hcl) hd

theorem Kept.path (h : Kept m d) {q : Path} (hq : q.segments = d.segments) :
    q.Fits m.clause.pathMode := by
  intro s hs
  exact h.segments s (hq ▸ hs)

theorem Kept.of_projection (h : Kept m d) (hd : m ≠ .done) (hm : m.clause = .projection) :
    d.criteria = [] ∧ ∀ q : Path, q.segments = d.segments → q.Fits .projected := by
  refine ⟨(h.fresh hm hd).1, fun q hq => ?_⟩
  have hp := h.path hq
  rwa [hm] at hp

/-- What the end of a clause leaves can be written. -/
structure Closed (d : Draft) : Prop where
  joined : Joined d.criteria
  criteria : ∀ i ∈ d.criteria, i.condition.property.Fits .criterion
  ordering : ∀ i ∈ d.ordering, i.property.Fits .ordered
  segments : d.segments = []

theorem Kept.withCondition (h : Kept m d) (hm : m.clause = .criteria) {q : Path}
    (hq : q.segments = d.segments) : Closed (d.withCondition q) where
  joined := h.joined.append (h.connective hm)
  criteria i hi := by
    rcases List.mem_append.mp hi with hi | hi
    · exact h.criteria i hi
    · obtain rfl := List.mem_singleton.mp hi
      have hp := h.path hq
      rwa [hm] at hp
  ordering := h.ordering
  segments := rfl

theorem Kept.withOrderItem (h : Kept m d) (hm : m.clause = .ordering) {q : Path}
    (hq : q.segments = d.segments) (r : Direction) : Closed (d.withOrderItem q r) where
  joined := h.joined
  criteria := h.criteria
  ordering i hi := by
    rcases List.mem_append.mp hi with hi | hi
    · exact h.ordering i hi
    · obtain rfl := List.mem_singleton.mp hi
      have hp := h.path hq
      rwa [hm] at hp
  segments := rfl

theorem Kept.close (h : Kept m d) (hm : d.clause = m.clause) (hd : d.Closes d') : Closed d' := by
  cases hd with
  | projection hc =>
    obtain ⟨hs, -, -⟩ := d.closeProjection_eq
    obtain ⟨hcr, ho, -⟩ := d.closeProjection_rest
    exact ⟨hcr ▸ h.joined, hcr ▸ h.criteria, ho ▸ h.ordering, hs⟩
  | condition hc q hq => exact h.withCondition (hm ▸ hc) hq
  | orderItem hc q hq => exact h.withOrderItem (hm ▸ hc) hq .default
  | nothing hc hs => exact ⟨h.joined, h.criteria, h.ordering, hs⟩

theorem Closed.reopen (h : Closed d) (clause : Clause) (k : Option Connective) :
    Closed { d with clause := clause, connective := k } :=
  ⟨h.joined, h.criteria, h.ordering, h.segments⟩

theorem Closed.kept (h : Closed d)
    (hc : m.clause = .criteria → (d.connective = none ↔ d.criteria = []))
    (hp : m.clause = .projection → m = .done) : Kept m d where
  joined := h.joined
  criteria := h.criteria
  ordering := h.ordering
  segments := by simp [h.segments]
  connective := hc
  fresh hm hd := absurd (hp hm) hd

theorem Kept.segment (h : Kept m d) (hd : m ≠ .done) (hm : m'.clause = m.clause)
    (hs : SegmentCut settings m prev m' p r) :
    Kept m' { d with segments := d.segments ++ [uncapitalize p.text] } := by
  have hmode : m'.clause.pathMode = m' := by
    have hw := hs.isWithinPath
    revert hw
    cases m' <;> decide
  refine ⟨h.joined, h.criteria, h.ordering, fun s hmem => ?_, hm ▸ h.connective,
    fun hc _ => h.fresh (hm ▸ hc) hd⟩
  rcases List.mem_append.mp hmem with hmem | hmem
  · rw [hm]
    exact h.segments s hmem
  · obtain rfl := List.mem_singleton.mp hmem
    rw [hmode]
    exact ⟨hs.spelled, hs.holdsNoKeyword.mono (Subsumes.of_append [] hs.atBoundary)⟩

/-- **Every token keeps** the conditions, the order items and the segments. -/
theorem Kept.step (h : Kept c.mode d) (hf : d.Fits c.mode) (hc : Cut settings c p c')
    (hd : d.Adds p d') : Kept c'.mode d' := by
  have hdone : c.mode ≠ .done := fun hdone => stuck_of_done hdone p c' hc
  have hclause := hf.clause hdone
  cases hc.step hf hd with
  | preamble hm hm' =>
    rw [hm', ← hm]
    exact h
  | action a _ hm hm' =>
    refine h.of_same hdone ?_ rfl rfl rfl rfl
    rw [hm, hm']
    cases a <;> rfl
  | word _ hm hm' hd =>
    exact h.of_same hdone (hm'.trans hm.symm) hd.criteria hd.ordering hd.segments hd.connective
  | mark _ hm hd =>
    exact h.of_same hdone hm hd.criteria hd.ordering hd.segments hd.connective
  | segment _ hm hs => exact h.segment hdone hm hs
  | criteria _ hm hm' =>
    obtain ⟨hcr, -, hk⟩ := d.closeProjection_rest
    obtain ⟨hcr', hk'⟩ := h.fresh hm hdone
    have hclosed := h.close hclause (.projection (hclause.trans hm))
    refine (hclosed.reopen .criteria d.closeProjection.connective).kept (fun _ => ?_) ?_
    · exact iff_of_true (hk.trans hk') (hcr.trans hcr')
    · rw [hm']
      exact fun hc => by cases hc
  | @ordering d₁ _ _ hm' _ hcloses =>
    rw [hm']
    have hclosed := (h.close hclause hcloses).reopen .ordering d₁.connective
    exact hclosed.kept (fun hc => by cases hc) fun hc => by cases hc
  | connective k hm hm' q hq =>
    rw [hm']
    refine ((h.withCondition hm hq).reopen (d.withCondition q).clause (some k)).kept (fun _ => ?_)
      fun hc => by cases hc
    exact iff_of_false (Option.some_ne_none k) (by simp [Draft.withCondition])
  | direction r hm hm' q hq =>
    rw [hm']
    exact (h.withOrderItem hm hq r).kept (fun hc => by cases hc) fun hc => by cases hc
  | finish _ hm' hcloses =>
    rw [hm']
    exact (h.close hclause hcloses).kept (fun hc => by cases hc) fun _ => rfl

end Kept

/-! ## Whole names -/

/-- The draft holds the action, which takes no order if it is one on many records. -/
structure Acts (a : Action) (c : Cursor) (d : Draft) : Prop where
  action : d.action = some a
  isBulk : c.isBulk = a.isBulk
  unordered : a.isBulk = true → d.ordering = [] ∧ c.mode.clause ≠ .ordering

/-- What has been read can be written: nothing before the action, and then every part of the
draft. -/
inductive Sound (settings : Settings) (c : Cursor) (d : Draft) : Prop
  | start (hm : c.mode = .initial) (hb : c.isBulk = false) (hd : d = {})
  | acted (a : Action) (hf : d.Fits c.mode) (hk : Kept c.mode d) (hs : Scope settings a c d)
    (ha : Acts a c d)

section Sound

variable {settings : Settings} {a : Action} {c c' : Cursor} {d d' : Draft} {p : Piece}
  {name : Text} {q : Query}

theorem Acts.of_same (h : Acts a c d) (hb : c'.isBulk = c.isBulk) (ha : d'.action = d.action)
    (ho : c.mode.clause ≠ .ordering → d'.ordering = d.ordering)
    (hm : c'.mode.clause ≠ .ordering ∨ c'.mode.clause = c.mode.clause) : Acts a c' d' where
  action := ha.trans h.action
  isBulk := hb.trans h.isBulk
  unordered hbulk := by
    obtain ⟨h₁, h₂⟩ := h.unordered hbulk
    exact ⟨(ho h₂).trans h₁, hm.elim id fun hm => hm ▸ h₂⟩

theorem Cut.isBulk_eq (h : Cut settings c p c') (hi : c.mode ≠ .initial) :
    c'.isBulk = c.isBulk := by
  have hn := h.next?
  have hb := h.isBulk
  cases hk : p.kind with
  | action a =>
    rw [hk] at hn
    exact absurd (Option.ite_none_right_eq_some.mp hn).1 hi
  | _ =>
    rw [hk] at hb
    exact hb.trans (Bool.or_false _)

/-- **Every token keeps the action**, and an action on many records takes no order. -/
theorem Acts.step (h : Acts a c d) (hi : c.mode ≠ .initial) (hf : d.Fits c.mode)
    (hc : Cut settings c p c') (hd : d.Adds p d') : Acts a c' d' := by
  have hclause := hf.clause fun hdone => stuck_of_done hdone p c' hc
  have hb := hc.isBulk_eq hi
  cases hc.step hf hd with
  | preamble hm | action _ _ hm => exact absurd hm hi
  | word _ hm hm' hd =>
    exact h.of_same hb hd.action (fun _ => hd.ordering) (.inr (hm'.trans hm.symm))
  | mark _ hm hd => exact h.of_same hb hd.action (fun _ => hd.ordering) (.inr hm)
  | segment _ hm => exact h.of_same hb rfl (fun _ => rfl) (.inr hm)
  | criteria _ hm hm' =>
    exact h.of_same hb d.closeProjection_eq.2.2 (fun _ => d.closeProjection_rest.2.1)
      (.inl (by rw [hm']; nofun))
  | ordering _ _ _ hfalse hcloses =>
    refine ⟨hcloses.rest.1.trans h.action, hb.trans h.isBulk, fun hbulk => ?_⟩
    rw [← h.isBulk, hfalse] at hbulk
    cases hbulk
  | connective _ _ hm' => exact h.of_same hb rfl (fun _ => rfl) (.inl (by rw [hm']; nofun))
  | direction _ hm hm' =>
    exact h.of_same hb rfl (fun hne => absurd hm hne) (.inr (by rw [hm, hm']; rfl))
  | finish _ hm' hcloses =>
    obtain ⟨ha, ho⟩ := hcloses.rest
    exact h.of_same hb ha (fun hne => ho (hclause ▸ hne)) (.inl (by rw [hm']; nofun))

/-- **Every token keeps what can be written.** -/
theorem Sound.step (h : Sound settings c d) (hc : Cut settings c p c') (hd : d.Adds p d') :
    Sound settings c' d' := by
  cases h with
  | start hm hb he =>
    have hn := hc.next?
    have hprev := hc.previous
    have hbulk := hc.isBulk
    have hlex := hc.lexeme
    have hf : d'.Fits c'.mode := by
      refine Draft.Fits.of_adds ?_ hc hd
      rw [hm, he]
      exact Draft.fits_empty
    subst he
    obtain ⟨kind, text⟩ := p
    dsimp only at hn hbulk hprev
    rw [hm] at hn
    rw [hb] at hbulk
    have hadd := hd 0
    cases kind with
    | preamble =>
      obtain rfl := Except.ok.inj hadd
      exact .start (Option.some.inj hn).symm hbulk rfl
    | action a =>
      obtain rfl := Except.ok.inj hadd
      have hm' : c'.mode = .afterAction a := (Option.some.inj hn).symm
      have hp : c'.previous ≠ some separator := by
        rw [hprev]
        exact hlex.previous_ne_separator nofun nofun nofun
      refine .acted a hf ?_ (.words (hm' ▸ .bare) hp) ⟨rfl, hbulk, fun _ => ⟨rfl, ?_⟩⟩
      · exact ⟨trivial, nofun, nofun, nofun, fun _ => iff_of_true rfl rfl, fun _ _ => ⟨rfl, rfl⟩⟩
      · rw [hm']
        cases a <;> decide
    | _ => cases hn
  | acted a hf hk hs ha =>
    have hi := hs.mode_ne_initial
    have hdone : c.mode ≠ .done := fun hdone => stuck_of_done hdone p c' hc
    exact .acted a (hf.of_adds hc hd) (hk.step hf hc hd) (hs.step hf hc hd (hk.of_projection hdone))
      (ha.step hi hf hc hd)

theorem Sound.renderable (h : Sound settings c d) (hm : c.mode = .done)
    (hq : ∀ n, d.finish n = .ok q) : q.Renderable settings := by
  cases h with
  | start hi => cases hm.symm.trans hi
  | acted a hf hk hs ha =>
    have hq := hq 0
    rw [Draft.finish, ha.action] at hq
    obtain rfl := Except.ok.inj hq
    have hproj : ∀ r, d.projection = some r → a.isBulk = false ∧
        r.Fits settings a (if d.criteria = [] then [] else "By".toList) := by
      cases hs with
      | complete _ h => exact h
      | words h => exact absurd h.mode_mem (by rw [hm]; decide)
      | everything hc | path hc => cases hm.symm.trans hc
      | criteria hc => rw [hm] at hc; cases hc
    refine ⟨fun hb => ⟨?_, (ha.unordered hb).1⟩, fun r hr => (hproj r hr).2, hk.joined, hk.criteria,
      hk.ordering⟩
    rw [Option.eq_none_iff_forall_ne_some]
    intro r hr
    cases (hproj r hr).1.symm.trans hb

/-- **The query of a name** can be written. -/
theorem renderable_of_parse (h : parse settings name = .ok q) : q.Renderable settings := by
  obtain ⟨c, d, hreads, hm, hq⟩ := parse_eq_ok_iff.mp h
  have hsound : Sound settings c d :=
    hreads.invariant (fun h hc hd => h.step hc hd) (.start rfl rfl rfl)
  exact hsound.renderable hm hq

end Sound

end DerivedQuery
