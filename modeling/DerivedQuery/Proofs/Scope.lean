import DerivedQuery.Proofs.Projection

/-!
# The scope of a query

The projection can be written at any time while a name is read: its words, the part of its path that
has been read, and the whole of it once another clause has begun.

* `Scope`: how much of the projection has been read;
* `Scope.close`, `Scope.ends`: where it ends, it can be written;
* **`Scope.step`**: every token keeps the scope.
-/

namespace DerivedQuery

/-- The projection that has been read can be written. -/
inductive Scope (settings : Settings) (a : Action) (c : Cursor) (d : Draft) : Prop
  /-- Its words have been read. -/
  | words (h : Words settings a d.projection c.mode) (hp : c.previous ≠ some separator)
  /-- `All` has been read, which leaves no trace. -/
  | everything (hm : c.mode = .everything) (h : d.projection = none)
  /-- Its path is being read, which began in the mode `m`. -/
  | path {m : Mode} (hm : c.mode = .projected) (ha : a.isBulk = false)
    (h : Words settings a d.projection m)
    (ho : OpenPath settings m c.previous c.rest d.segments)
  /-- It is complete, and conditions follow. -/
  | criteria (hm : c.mode.clause = .criteria)
    (h : ∀ r, d.projection = some r → a.isBulk = false ∧ r.Fits settings a "By".toList)
  /-- It is complete, and no conditions follow any more. -/
  | complete (hm : c.mode.clause = .ordering ∨ c.mode = .done)
    (h : ∀ r, d.projection = some r →
      a.isBulk = false ∧ r.Fits settings a (if d.criteria = [] then [] else "By".toList))

section Scope

variable {settings : Settings} {a : Action} {c c' : Cursor} {d d' : Draft} {p : Piece}
  {m m' : Mode} {k : Kind} {s : Text}

/-! ## Where it stands -/

theorem Scope.mode_ne_initial (h : Scope settings a c d) : c.mode ≠ .initial := by
  intro hi
  cases h with
  | words h => exact absurd h.mode_mem (by rw [hi]; decide)
  | everything hm | path hm => cases hi.symm.trans hm
  | criteria hm => rw [hi] at hm; cases hm
  | complete hm => rw [hi] at hm; rcases hm with hm | hm <;> cases hm

theorem Scope.of_criteria (h : Scope settings a c d) (hm : c.mode.clause = .criteria) :
    ∀ r, d.projection = some r → a.isBulk = false ∧ r.Fits settings a "By".toList := by
  cases h with
  | words h => cases h.clause_eq.symm.trans hm
  | everything hev => rw [hev] at hm; cases hm
  | path hmode => rw [hmode] at hm; cases hm
  | criteria _ h => exact h
  | complete ho =>
    rcases ho with ho | ho
    · cases ho.symm.trans hm
    · rw [ho] at hm; cases hm

theorem Scope.of_ordering (h : Scope settings a c d)
    (hm : c.mode.clause = .ordering ∨ c.mode = .done) :
    ∀ r, d.projection = some r →
      a.isBulk = false ∧ r.Fits settings a (if d.criteria = [] then [] else "By".toList) := by
  have hne : c.mode.clause = .projection → c.mode = .done := fun hc =>
    hm.resolve_left fun ho => by cases hc.symm.trans ho
  cases h with
  | words h => exact absurd h.mode_mem (by rw [hne h.clause_eq]; decide)
  | everything hev => cases hev.symm.trans (hne (by rw [hev]; rfl))
  | path hmode => cases hmode.symm.trans (hne (by rw [hmode]; rfl))
  | criteria hcr =>
    rcases hm with hm | hm
    · cases hcr.symm.trans hm
    · rw [hm] at hcr; cases hcr
  | complete _ h => exact h

theorem Scope.frame (h : Scope settings a c d) (hcl : c.mode.clause ≠ .projection)
    (hm : c'.mode.clause = c.mode.clause) (hp : d'.projection = d.projection)
    (hc : d'.criteria = d.criteria) : Scope settings a c' d' := by
  cases h with
  | words h => exact absurd h.clause_eq hcl
  | everything hev => exact absurd (by rw [hev]; rfl) hcl
  | path hmode => exact absurd (by rw [hmode]; rfl) hcl
  | criteria hcr h => exact .criteria (hm.trans hcr) (hp ▸ h)
  | complete ho h =>
    refine .complete ?_ (by rw [hp, hc]; exact h)
    rcases ho with ho | ho
    · exact .inl (hm.trans ho)
    · exact absurd (by rw [ho]; rfl) hcl

/-! ## Where it ends -/

theorem Draft.closeProjection_projection (d : Draft) {q : Path} (hq : q.segments = d.segments) :
    d.closeProjection.projection = some (Projection.closed d.projection q) := by
  rw [closeProjection, Path.ofSegments?_eq_some_iff.mpr hq]
  rfl

theorem Draft.closeProjection_of_nil (h : d.segments = []) : d.closeProjection = d := by
  rw [closeProjection, h]
  obtain ⟨⟩ := d
  cases h
  rfl

theorem Words.fits_closed {pr : Option Projection} {q : Path} (h : Words settings a pr m)
    (hq : q.Fits .projected) (ho : OpenPath settings m c.previous c.rest q.segments)
    (hp : c.previous ≠ some separator) (hx : CutsDown c.rest s) :
    (Projection.closed pr q).Fits settings a s := by
  obtain ⟨hlast, hclear⟩ := ho.fits hp hx
  have hprop : (Projection.closed pr q).property = some q := by cases pr <;> rfl
  refine ⟨h.worded q, .inr (.inr (by simp [hprop])), fun p' hp' => ?_⟩
  obtain rfl := Option.some.inj (hprop.symm.trans hp')
  rw [h.scopeMode_eq]
  exact ⟨hq, hlast, hclear⟩

theorem Scope.close (h : Scope settings a c d) (hf : d.Fits c.mode)
    (hm : c.mode.clause = .projection)
    (hpath : ∀ q : Path, q.segments = d.segments → q.Fits .projected)
    (hd : c.mode ≠ .done) (ha : c.mode ≠ .aggregate)
    (hp : c.mode = .projected → c.previous ≠ some separator) (hx : CutsDown c.rest s) :
    ∀ r, d.closeProjection.projection = some r → a.isBulk = false ∧ r.Fits settings a s := by
  have hnil (hh : c.mode.holdsPath = false) : d.closeProjection = d :=
    Draft.closeProjection_of_nil (hf.segments.mpr hh)
  intro r hr
  cases h with
  | words h =>
    rw [hnil h.holdsPath_eq_false] at hr
    rw [hr] at h
    exact h.fits ha s
  | everything hev h =>
    rw [hnil (by rw [hev]; rfl), h] at hr
    cases hr
  | path hmode hb h ho =>
    obtain ⟨q, hq⟩ := hf.exists_path (by rw [hmode]; rfl)
    rw [d.closeProjection_projection hq] at hr
    obtain rfl := Option.some.inj hr
    rw [← hq] at ho
    exact ⟨hb, h.fits_closed (hpath q hq) ho (hp hmode) hx⟩
  | criteria hc => cases hm.symm.trans hc
  | complete hc => exact absurd (hc.resolve_left fun hc => by cases hm.symm.trans hc) hd

theorem Kind.cases_endsScope (h : k.endsScope = true) :
    k = .criteria ∨ k = .ordering ∨ k = .finish := by
  cases k <;> simp_all [endsScope]

/-- The word at which the projection ends, as far as a property can make a longer word of it. -/
theorem Cut.cutsDown (h : Cut settings c p c') (hk : p.kind.endsScope = true) :
    CutsDown c.rest (if p.kind = .criteria then "By".toList else []) := by
  have hlex := h.lexeme
  rw [h.rest]
  rcases Kind.cases_endsScope hk with hk | hk | hk
  · obtain ⟨ht, hb, -⟩ := hlex.of_keyword (Keyword.mem_table .criteria rfl) hk
    rw [ht, if_pos hk]
    exact cutsDown_criteria hb
  · obtain ⟨ht, hb, -⟩ := hlex.of_keyword (Keyword.mem_table .ordering rfl) hk
    rw [ht, if_neg (by simp [hk])]
    exact cutsDown_ordering hb
  · obtain ⟨ht, hr⟩ := hlex.of_finish hk
    rw [ht, hr, if_neg (by simp [hk])]
    exact cutsDown_nil

theorem Scope.previous_ne (h : Scope settings a c d) (hc : Cut settings c p c')
    (hm : c.mode = .projected) (hk : p.kind.endsScope = true) : c.previous ≠ some separator := by
  have hlex := hc.lexeme
  have hw : c.mode.isWithinPath = true := by rw [hm]; rfl
  rcases Kind.cases_endsScope hk with hk | hk | hk
  · exact (hlex.of_keyword (Keyword.mem_table .criteria rfl) hk).2.2.1 hw
  · exact (hlex.of_keyword (Keyword.mem_table .ordering rfl) hk).2.2.1 hw
  · obtain ⟨ht, hr⟩ := hlex.of_finish hk
    cases h with
    | path _ _ _ ho => exact fun hp => ho.rest hp (by rw [hc.rest, ht, hr]; rfl)
    | words h => exact absurd h.mode_mem (by rw [hm]; decide)
    | everything hev => cases hm.symm.trans hev
    | criteria hcr => rw [hm] at hcr; cases hcr
    | complete ho => rw [hm] at ho; rcases ho with ho | ho <;> cases ho

/-- **The projection is complete** where another clause or the end follows. -/
theorem Scope.ends (h : Scope settings a c d) (hf : d.Fits c.mode) (hc : Cut settings c p c')
    (hpath : ∀ q : Path, q.segments = d.segments → q.Fits .projected)
    (hm : c.mode.clause = .projection) (hk : p.kind.endsScope = true) :
    ∀ r, d.closeProjection.projection = some r → a.isBulk = false ∧
      r.Fits settings a (if p.kind = .criteria then "By".toList else []) := by
  have hn := hc.next?
  refine h.close hf hm hpath (fun hdone => stuck_of_done hdone p c' hc) ?_
    (fun hw => h.previous_ne hc hw hk) (hc.cutsDown hk)
  intro ha
  rw [ha] at hn
  rcases Kind.cases_endsScope hk with hk | hk | hk <;> rw [hk] at hn <;> cases hn

theorem Scope.complete_of_closes (h : Scope settings a c d) (hf : d.Fits c.mode)
    (hc : Cut settings c p c') (hpath : c.mode.clause = .projection →
      d.criteria = [] ∧ ∀ q : Path, q.segments = d.segments → q.Fits .projected)
    (hk : p.kind = .ordering ∨ p.kind = .finish) (hd : d.Closes d') :
    ∀ r, d'.projection = some r →
      a.isBulk = false ∧ r.Fits settings a (if d'.criteria = [] then [] else "By".toList) := by
  have hclause := hf.clause fun hdone => stuck_of_done hdone p c' hc
  cases hd with
  | projection hm =>
    rw [hclause] at hm
    obtain ⟨hcr, hfits⟩ := hpath hm
    have hends := h.ends hf hc hfits hm (by rcases hk with hk | hk <;> rw [hk] <;> rfl)
    rw [if_neg (by rcases hk with hk | hk <;> rw [hk] <;> nofun)] at hends
    rwa [if_pos (d.closeProjection_rest.1.trans hcr)]
  | condition hm q hq =>
    rw [if_neg (by simp [Draft.withCondition])]
    exact h.of_criteria (hclause ▸ hm)
  | orderItem hm | nothing hm => exact h.of_ordering (.inl (hclause ▸ hm))

/-! ## One token -/

theorem Words.step (h : Words settings a d.projection c.mode) (hp : c.previous ≠ some separator)
    (hf : d.Fits c.mode) (hc : Cut settings c p c') (hd : d.Adds p d')
    (hk : p.kind.endsScope = false) : Scope settings a c' d' := by
  have hn := hc.next?
  have hlex := hc.lexeme
  have hfollows := h.of_next? hn
  have hprev := hc.previous
  obtain ⟨kind, text⟩ := p
  dsimp only at hn hk hfollows hprev
  have hadd := hd 0
  have hl (h₁ : kind ≠ .separator) (h₂ : kind ≠ .preamble) (h₃ : kind ≠ .finish) :
      c'.previous ≠ some separator := by
    rw [hprev]
    exact hlex.previous_ne_separator h₁ h₂ h₃
  cases kind with
  | all =>
    obtain ⟨ha, hm⟩ := Option.ite_none_right_eq_some.mp hn
    obtain rfl := Except.ok.inj hadd
    exact .everything (Option.some.inj hm).symm (h.eq_none (.inr (.inr rfl)) ha).1
  | first n =>
    obtain ⟨ha, hm⟩ := Option.ite_none_right_eq_some.mp hn
    obtain rfl := Except.ok.inj hadd
    obtain ⟨hlt, hz⟩ := hlex.of_limit rfl
    refine .words ?_ (hl nofun nofun nofun)
    rw [← Option.some.inj hm]
    exact h.limit ha hlt hz
  | distinct =>
    obtain ⟨ha, hm⟩ := Option.ite_none_right_eq_some.mp hn
    obtain rfl := Except.ok.inj hadd
    refine .words ?_ (hl nofun nofun nofun)
    rw [← Option.some.inj hm]
    exact h.unique ha
  | aggregate k =>
    obtain ⟨ha, hm⟩ := Option.ite_none_right_eq_some.mp hn
    obtain rfl := Except.ok.inj hadd
    refine .words ?_ (hl nofun nofun nofun)
    rw [← Option.some.inj hm]
    exact h.fold ha (hlex.of_aggregate rfl)
  | pathStart =>
    obtain ⟨hm, hb⟩ := h.next?_pathStart hn
    have hs := hlex.segment rfl hn
    have hsegs := hf.segments.mpr h.holdsPath_eq_false
    obtain rfl := Except.ok.inj hadd
    rw [Draft.addSegment_of_ne_nil (hlex.text_ne_nil_of_property rfl)]
    refine .path hm hb h ?_
    rw [hprev]
    dsimp only
    rw [hsegs]
    exact .start hs hm rfl hp (hprev ▸ hl nofun nofun nofun)
  | criteria | ordering | finish => cases hk
  | _ => cases hfollows

theorem OpenPath.step (ho : OpenPath settings m c.previous c.rest d.segments)
    (h : Words settings a d.projection m) (ha : a.isBulk = false) (hm : c.mode = .projected)
    (hf : d.Fits c.mode) (hc : Cut settings c p c') (hd : d.Adds p d')
    (hk : p.kind.endsScope = false) : Scope settings a c' d' := by
  have hn := hc.next?
  have hlex := hc.lexeme
  have hprev := hc.previous
  have hrest := hc.rest
  have hsegs : d.segments ≠ [] := fun he => by
    have hp := hf.segments.mp he
    rw [hm] at hp
    cases hp
  have hne := pathText_ne_nil hsegs hf.segment_ne_nil
  obtain ⟨kind, text⟩ := p
  dsimp only at hn hk hprev hrest
  rw [hm] at hn hlex
  have hadd := hd 0
  cases kind with
  | separator =>
    obtain ⟨ht, ⟨e, es, hr, -⟩, hw⟩ := hlex.of_separator rfl
    dsimp only at ht
    have hp : c.previous ≠ some DerivedQuery.separator := hw.elim (fun h => h.2) nofun
    obtain rfl := Except.ok.inj hadd
    refine .path (Option.some.inj hn).symm ha h ?_
    rw [hrest, ht, List.singleton_append] at ho
    rw [hprev, ht]
    exact ho.separator hp hne (by simp [hr])
  | pathPart =>
    obtain ⟨-, hp, -⟩ := hlex.of_pathPart rfl
    have hm' : Mode.projected = c'.mode := Option.some.inj hn
    have hs := hlex.segment rfl hn
    have hl := hlex.previous_ne_separator nofun nofun nofun
    rw [← hm'] at hs
    obtain rfl := Except.ok.inj hadd
    rw [Draft.addSegment_of_ne_nil (hlex.text_ne_nil_of_property rfl)]
    refine .path hm'.symm ha h ?_
    rw [hp] at ho
    rw [hprev]
    exact ho.part hs hne hsegs hl
  | criteria | ordering | finish => cases hk
  | _ => cases hn

theorem Mode.endsScope_of_everything (h : Mode.everything.next? k = some m') :
    k.endsScope = true := by
  cases k with
  | criteria | ordering | finish => rfl
  | _ => cases h

/-- A token that neither ends the projection nor stands behind it. -/
theorem Scope.step_open (h : Scope settings a c d) (hf : d.Fits c.mode)
    (hc : Cut settings c p c') (hd : d.Adds p d') (hm : c.mode.clause = .projection)
    (hk : p.kind.endsScope = false) : Scope settings a c' d' := by
  cases h with
  | words h hp => exact h.step hp hf hc hd hk
  | everything hev h =>
    have hn := hc.next?
    rw [hev] at hn
    cases hk.symm.trans (Mode.endsScope_of_everything hn)
  | path hmode ha h ho => exact ho.step h ha hmode hf hc hd hk
  | criteria hcr => cases hm.symm.trans hcr
  | complete ho =>
    rcases ho with ho | ho
    · cases hm.symm.trans ho
    · exact absurd hc (stuck_of_done ho p c')

theorem Kind.endsScope_eq_false (h : k.isWord = true ∨ k.isMark = true ∨ k.category = .property) :
    k.endsScope = false := by
  cases k <;> simp_all [endsScope, isWord, isMark, category]

/-- **Every token keeps the projection** so that it can be written. -/
theorem Scope.step (h : Scope settings a c d) (hf : d.Fits c.mode) (hc : Cut settings c p c')
    (hd : d.Adds p d') (hpath : c.mode.clause = .projection →
      d.criteria = [] ∧ ∀ q : Path, q.segments = d.segments → q.Fits .projected) :
    Scope settings a c' d' := by
  -- behind the projection all but the ends of clauses leave it as it is
  cases hc.step hf hd with
  | preamble hm | action _ _ hm => exact absurd hm h.mode_ne_initial
  | word hk hm => exact h.step_open hf hc hd hm (Kind.endsScope_eq_false (.inl hk))
  | mark hk hm hmarks hp =>
    by_cases hcl : c.mode.clause = .projection
    · exact h.step_open hf hc hd hcl (Kind.endsScope_eq_false (.inr (.inl hk)))
    · exact h.frame hcl hm hp hmarks.criteria
  | segment hk hm =>
    by_cases hcl : c.mode.clause = .projection
    · exact h.step_open hf hc hd hcl (Kind.endsScope_eq_false (.inr (.inr hk)))
    · exact h.frame hcl hm rfl rfl
  | criteria hk hm hm' =>
    have hends := h.ends hf hc (hpath hm).2 hm (by rw [hk]; rfl)
    rw [if_pos hk] at hends
    exact .criteria (by rw [hm']; rfl) hends
  | ordering hk _ hm' _ hcloses =>
    have hcomplete := h.complete_of_closes hf hc hpath (.inl hk) hcloses
    exact .complete (.inl (by rw [hm']; rfl)) hcomplete
  | connective _ hm hm' => exact .criteria (by rw [hm']; rfl) (h.of_criteria hm)
  | direction _ hm hm' =>
    exact h.frame (by rw [hm]; nofun) (by rw [hm, hm']; rfl) rfl rfl
  | finish hk hm' hcloses =>
    have hcomplete := h.complete_of_closes hf hc hpath (.inr hk) hcloses
    exact .complete (.inr hm') hcomplete

end Scope

end DerivedQuery
