import DerivedQuery.Proofs.Renderable

/-!
# What a token does

While a name is read, each token takes the mode and the draft a step further. The steps are fewer
than the kinds of tokens.

* `Draft.Closes`: what the end of a clause does to a draft;
* `SegmentCut`: what is known of a segment that has been cut;
* `Step`; **`Cut.step`**: every token takes one of the steps;
* `Reads.of_front`: up to the end, a name is read in one way.
-/

namespace DerivedQuery

/-! ## The end of a clause -/

namespace Draft

variable {d d' d₁ d₂ : Draft} {p : Piece} {n : Nat}

theorem Adds.unique (h : d.Adds p d₁) (h' : d.Adds p d₂) : d₁ = d₂ :=
  Except.ok.inj ((h 0).symm.trans (h' 0))

/-- The draft with its condition closed. -/
def withCondition (d : Draft) (q : Path) : Draft :=
  { d with
    segments := [], operator := none, negated := false, ignoreCase := false, connective := none
    criteria := d.criteria ++ [⟨d.connective, d.condition q⟩] }

/-- The draft with its order item closed. -/
def withOrderItem (d : Draft) (q : Path) (r : Direction) : Draft :=
  { d with segments := [], ordering := d.ordering ++ [⟨q, r⟩] }

theorem exists_of_closeCondition (h : d.closeCondition n = .ok d') :
    ∃ q : Path, q.segments = d.segments ∧ d' = d.withCondition q := by
  obtain ⟨q, hq, rfl⟩ := map_eq_ok_iff.mp h
  exact ⟨q, path_eq_ok_iff.mp hq, rfl⟩

theorem exists_of_closeOrderItem {r : Direction} (h : d.closeOrderItem r n = .ok d') :
    ∃ q : Path, q.segments = d.segments ∧ d' = d.withOrderItem q r := by
  obtain ⟨q, hq, rfl⟩ := map_eq_ok_iff.mp h
  exact ⟨q, path_eq_ok_iff.mp hq, rfl⟩

/-- What the end of a clause does to a draft. -/
inductive Closes (d : Draft) : Draft → Prop
  | projection (h : d.clause = .projection) : Closes d d.closeProjection
  | condition (h : d.clause = .criteria) (q : Path) (hq : q.segments = d.segments) :
    Closes d (d.withCondition q)
  | orderItem (h : d.clause = .ordering) (q : Path) (hq : q.segments = d.segments) :
    Closes d (d.withOrderItem q .default)
  | nothing (h : d.clause = .ordering) (hs : d.segments = []) : Closes d d

theorem closeProjection_rest (d : Draft) : d.closeProjection.criteria = d.criteria ∧
    d.closeProjection.ordering = d.ordering ∧ d.closeProjection.connective = d.connective := by
  unfold closeProjection
  split <;> exact ⟨rfl, rfl, rfl⟩

theorem Closes.eq_closeProjection (h : d.Closes d') (hc : d.clause = .projection) :
    d' = d.closeProjection := by
  cases h with
  | projection => rfl
  | condition h | orderItem h | nothing h => cases hc.symm.trans h

theorem Closes.rest (h : d.Closes d') :
    d'.action = d.action ∧ (d.clause ≠ .ordering → d'.ordering = d.ordering) := by
  cases h with
  | projection => exact ⟨d.closeProjection_eq.2.2, fun _ => d.closeProjection_rest.2.1⟩
  | condition | nothing => exact ⟨rfl, fun _ => rfl⟩
  | orderItem h => exact ⟨rfl, fun hne => absurd h hne⟩

theorem closes_of_close (h : d.close n = .ok d') : d.Closes d' := by
  rw [close] at h
  split at h
  · next hc =>
    cases h
    exact .projection hc
  · next hc =>
    obtain ⟨q, hq, rfl⟩ := exists_of_closeCondition h
    exact .condition hc q hq
  · next hc =>
    split at h
    · next hs =>
      cases h
      exact .nothing hc hs
    · obtain ⟨q, hq, rfl⟩ := exists_of_closeOrderItem h
      exact .orderItem hc q hq

end Draft

/-! ## Words that are cut -/

section Cut

variable {settings : Settings} {m : Mode} {b : Bool} {prev : Option Char} {p : Piece} {r : Text}

theorem Lexeme.of_keyword {k : Keyword} (h : Lexeme settings m b prev p r)
    (hk : k ∈ Keyword.table) (hp : p.kind = k.kind) :
    p.text = k.text ∧ DerivedQuery.atBoundary r = true ∧
      (m.isWithinPath = true → prev ≠ some separator) ∧ ¬ (k.kind = .ordering ∧ b = true) := by
  have hkey := Keyword.isKeyword hk
  rw [← hp] at hkey
  cases h with
  | keyword hs hl ho =>
    obtain ⟨hmem, -, hlead, -⟩ := longestKeyword?_eq_some_iff.mp hl
    obtain rfl := Keyword.kind_injective hmem hk hp
    exact ⟨rfl, leads_append_iff.mp hlead, hs, ho⟩
  | _ => cases hkey

/-- A token that is cut as a segment of a path. -/
structure SegmentCut (settings : Settings) (m : Mode) (prev : Option Char) (m' : Mode)
    (p : Piece) (r : Text) : Prop where
  spelled : Spelled (uncapitalize p.text)
  holdsNoKeyword : HoldsNoKeyword m' r (uncapitalize p.text)
  isWithinPath : m'.isWithinPath = true
  atBoundary : atBoundary r = true
  start : p.kind = .pathStart → Clear settings m (p.text ++ r) ∧
    (prev ≠ some separator → capitalize (uncapitalize p.text) = p.text)

theorem Lexeme.segment {m' : Mode} (h : Lexeme settings m b prev p r)
    (hk : p.kind.category = .property) (hn : m.next? p.kind = some m') :
    SegmentCut settings m prev m' p r := by
  have key {c : Char} {cs : Text} (ha : c.isAlpha = true)
      (ht : segmentTail m'.accepts (cs ++ r) = cs) :
      Spelled (uncapitalize (c :: cs)) ∧ HoldsNoKeyword m' r (uncapitalize (c :: cs)) ∧
        DerivedQuery.atBoundary r = true := by
    obtain ⟨hs, hcs, hw⟩ := (segmentTail_tail_eq_iff (s := uncapitalize (c :: cs))).mp ht
    exact ⟨spelled_uncapitalize ha hcs, hw, atBoundary_of_not_segmentContinues hs⟩
  cases h with
  | @pathStart _ within _ _ c cs _ _ hw hs hl hk ht =>
    obtain rfl := Option.some.inj (hw.symm.trans hn)
    obtain ⟨hsp, hno, hb⟩ := key (isAlpha_of_startsPath hs) ht
    refine ⟨hsp, hno, Mode.isWithinPath_of_pathMode? hw, hb, fun _ => ⟨⟨hl, hk⟩, fun hp => ?_⟩⟩
    refine capitalize_uncapitalize ?_
    simpa [startsPath, hp] using hs
  | pathPart hm hc ht =>
    obtain rfl := Option.some.inj ((Mode.next?_part hm).2.symm.trans hn)
    obtain ⟨hsp, hno, hb⟩ := key hc ht
    exact ⟨hsp, hno, hm, hb, fun hk => by cases hk⟩
  | @keyword _ _ _ k _ _ hk' =>
    have hne : k.kind.category ≠ .property := by
      have key : ∀ k ∈ Keyword.table, k.kind.category ≠ .property := by decide
      exact key k (longestKeyword?_eq_some_iff.mp hk').1
    exact absurd hk hne
  | _ => cases hk

end Cut

/-! ## One token -/

/-- The draft differs from another one in no path and no clause. -/
structure Draft.Marks (d d' : Draft) : Prop where
  clause : d'.clause = d.clause
  action : d'.action = d.action
  segments : d'.segments = d.segments
  connective : d'.connective = d.connective
  criteria : d'.criteria = d.criteria
  ordering : d'.ordering = d.ordering

/-- The kinds of tokens that change the words of a projection. -/
def Kind.isWord : Kind → Bool
  | first _ | distinct | aggregate _ => true
  | _ => false

/-- **What a token does**, to the mode and to the draft. -/
inductive Step (settings : Settings) (c : Cursor) (d : Draft) (p : Piece) (c' : Cursor) :
    Draft → Prop
  | preamble (hm : c.mode = .initial) (hm' : c'.mode = .initial) : Step settings c d p c' d
  | action (a : Action) (hk : p.kind = .action a) (hm : c.mode = .initial)
    (hm' : c'.mode = .afterAction a) : Step settings c d p c' { d with action := some a }
  | word {d'} (hk : p.kind.isWord = true) (hm : c.mode.clause = .projection)
    (hm' : c'.mode.clause = .projection) (hd : d.Marks d') : Step settings c d p c' d'
  | mark {d'} (hk : p.kind.isMark = true) (hm : c'.mode.clause = c.mode.clause) (hd : d.Marks d')
    (hp : d'.projection = d.projection) : Step settings c d p c' d'
  | segment (hk : p.kind.category = .property) (hm : c'.mode.clause = c.mode.clause)
    (hs : SegmentCut settings c.mode c.previous c'.mode p c'.rest) :
    Step settings c d p c' { d with segments := d.segments ++ [uncapitalize p.text] }
  | criteria (hk : p.kind = .criteria) (hm : c.mode.clause = .projection)
    (hm' : c'.mode = .criterionStart) :
    Step settings c d p c' { d.closeProjection with clause := .criteria }
  | ordering {d₁} (hk : p.kind = .ordering) (hm : c.mode.clause ≠ .ordering)
    (hm' : c'.mode = .orderStart) (hb : c.isBulk = false) (hd : d.Closes d₁) :
    Step settings c d p c' { d₁ with clause := .ordering }
  | connective (k : Connective) (hm : c.mode.clause = .criteria) (hm' : c'.mode = .criterionStart)
    (q : Path) (hq : q.segments = d.segments) :
    Step settings c d p c' { d.withCondition q with connective := some k }
  | direction (r : Direction) (hm : c.mode.clause = .ordering) (hm' : c'.mode = .directed)
    (q : Path) (hq : q.segments = d.segments) : Step settings c d p c' (d.withOrderItem q r)
  | finish {d'} (hk : p.kind = .finish) (hm' : c'.mode = .done) (hd : d.Closes d') :
    Step settings c d p c' d'

section Step

variable {settings : Settings} {c c' c'' c₁ : Cursor} {d d' d'' d₁ : Draft} {p : Piece} {m : Mode}

theorem Mode.of_accepts_word {e : Category} (he : e = .first ∨ e = .distinct ∨ e = .aggregate)
    (h : m.accepts e = true) : m.clause = .projection := by
  revert h
  rcases he with rfl | rfl | rfl <;> cases m <;> decide

/-- Every token that is cut and added takes one of the steps. -/
theorem Cut.step (hc : Cut settings c p c') (hf : d.Fits c.mode) (hd : d.Adds p d') :
    Step settings c d p c' d' := by
  have hn := hc.next?
  have hlex := hc.lexeme
  obtain ⟨kind, text⟩ := p
  dsimp only at hn
  have hadd := hd 0
  cases kind with
  | preamble =>
    obtain ⟨hm, hm'⟩ := Option.ite_none_right_eq_some.mp hn
    obtain rfl := Except.ok.inj hadd
    exact .preamble hm (Option.some.inj hm').symm
  | action a =>
    obtain ⟨hm, hm'⟩ := Option.ite_none_right_eq_some.mp hn
    obtain rfl := Except.ok.inj hadd
    exact .action a rfl hm (Option.some.inj hm').symm
  | first | distinct | aggregate =>
    obtain ⟨ha, hm'⟩ := Option.ite_none_right_eq_some.mp hn
    obtain rfl := Except.ok.inj hadd
    exact .word rfl (Mode.of_accepts_word (by simp) ha) (by rw [← Option.some.inj hm']; rfl)
      ⟨rfl, rfl, rfl, rfl, rfl, rfl⟩
  | all | separator | negation | ignoreCase | operator =>
    obtain ⟨-, -, hm, -⟩ := Mode.of_next?_mark rfl hn
    obtain rfl := Except.ok.inj hadd
    exact .mark rfl hm ⟨rfl, rfl, rfl, rfl, rfl, rfl⟩ rfl
  | pathStart | pathPart =>
    obtain ⟨-, -, hm, -⟩ := Mode.of_next?_segment (by simp) hn
    obtain rfl := Except.ok.inj hadd
    rw [Draft.addSegment_of_ne_nil (hlex.text_ne_nil_of_property rfl)]
    exact .segment rfl hm (hlex.segment rfl hn)
  | criteria =>
    obtain ⟨ha, hm'⟩ := Option.ite_none_right_eq_some.mp hn
    obtain ⟨d₁, hclose, rfl⟩ := map_eq_ok_iff.mp hadd
    have hm := Mode.of_accepts_criteria ha
    have hclause := hf.clause (Mode.ne_of_accepts (by decide) ha).2
    obtain rfl := (Draft.closes_of_close hclose).eq_closeProjection (hclause.trans hm)
    exact .criteria rfl hm (Option.some.inj hm').symm
  | ordering =>
    obtain ⟨ha, hm'⟩ := Option.ite_none_right_eq_some.mp hn
    obtain ⟨d₁, hclose, rfl⟩ := map_eq_ok_iff.mp hadd
    have hb : c.isBulk = false := by
      simpa using (hlex.of_keyword (Keyword.mem_table .ordering rfl) rfl).2.2.2
    refine .ordering rfl ?_ (Option.some.inj hm').symm hb (Draft.closes_of_close hclose)
    rcases Mode.of_accepts_ordering ha with hm | ⟨hm, -⟩ <;> rw [hm] <;> nofun
  | connective k =>
    obtain ⟨ha, hm'⟩ := Option.ite_none_right_eq_some.mp hn
    obtain ⟨d₁, hclose, rfl⟩ := map_eq_ok_iff.mp hadd
    obtain ⟨q, hq, rfl⟩ := Draft.exists_of_closeCondition hclose
    exact .connective k (Mode.of_accepts_connective ha).1 (Option.some.inj hm').symm q hq
  | direction r =>
    obtain ⟨ha, hm'⟩ := Option.ite_none_right_eq_some.mp hn
    obtain ⟨q, hq, rfl⟩ := Draft.exists_of_closeOrderItem hadd
    exact .direction r (Mode.of_accepts_direction ha).1 (Option.some.inj hm').symm q hq
  | finish =>
    obtain ⟨-, hm'⟩ := Option.ite_none_right_eq_some.mp hn
    exact .finish rfl (Option.some.inj hm').symm (Draft.closes_of_close hadd)

theorem Draft.Fits.of_adds (h : d.Fits c.mode) (hc : Cut settings c p c') (hd : d.Adds p d') :
    d'.Fits c'.mode := by
  obtain ⟨d'', hadd, hfits⟩ := h.add hc.next? hc.lexeme.text_ne_nil_of_property
  rwa [hd.unique hadd]

theorem Reads.of_cut (h : Reads settings c d c'' d'') (hdone : c''.mode = .done)
    (hc : Cut settings c p c') (hd : d.Adds p d') : Reads settings c' d' c'' d'' := by
  cases h with
  | refl => exact absurd hc (stuck_of_done hdone p c')
  | step hc₁ hd₁ t =>
    obtain ⟨rfl, rfl⟩ := hc.unique hc₁
    rwa [hd.unique hd₁]

theorem Reads.of_front (h : Reads settings c d c₁ d₁) (h' : Reads settings c d c' d')
    (hdone : c'.mode = .done) : Reads settings c₁ d₁ c' d' := by
  induction h with
  | refl => exact h'
  | step hcut hadd _ ih => exact ih (h'.of_cut hdone hcut hadd)

end Step

end DerivedQuery
