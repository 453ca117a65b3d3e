import DerivedQuery.Proofs.Calls
import DerivedQuery.Proofs.Completion
import DerivedQuery.Proofs.Passing

/-!
# What a mode expects can follow

For each category that a mode expects there is a text that begins with it, with which the scan goes
on to the end. What has been cut stays in front of that text, unless it is read as a longer word
together with it: the word By after the letters Order is the one that does so.

* `Opens`, **`exists_opens`**: a text that begins with the category;
* `Behind`, `Apart`: what such a text and the piece in front of it are like, so that the piece
  stays;
* `Cuts.exchange_before_segment`, `Cuts.exchange_scope`, `Cuts.exchange_path`: what stays in front
  of a segment, behind a word and behind a path;
* **`Cuts.exchange_last`**: what has been cut stays.
-/

namespace DerivedQuery

/-! ## Texts that begin with a category -/

/-- With the text ahead, the scan goes on to the end, with a lexeme of the category first. -/
def Opens (settings : Settings) (c : Cursor) (category : Category) (s : Text) : Prop :=
  ∃ p c', Cut settings (c.withRest s) p c' ∧ p.kind.category = category ∧ Finishes settings c'

/-- A keyword of the category. -/
def Category.keyword? : Category → Option Keyword
  | all => some ⟨"All".toList, .all⟩
  | distinct => some ⟨"Distinct".toList, .distinct⟩
  | aggregate => some (.ofAggregate .max)
  | criteria => some ⟨"By".toList, .criteria⟩
  | ordering => some ⟨"OrderBy".toList, .ordering⟩
  | negation => some ⟨"Not".toList, .negation⟩
  | ignoreCase => some ⟨"IgnoreCase".toList, .ignoreCase⟩
  | operator => some (.ofOperator .like)
  | connective => some (.ofConnective .and)
  | direction => some (.ofDirection .asc)
  | action | first | digits | property | separator | finish => none

section Samples

variable {settings : Settings} {m m' : Mode} {c : Cursor} {category : Category} {k : Keyword}
  {r s : Text} {p : Piece}

theorem Opens.of_lexeme {r : Text} (h : Lexeme settings c.mode c.isBulk c.previous p r)
    (hn : c.mode.next? p.kind = some m')
    (hf : Finishes settings
      ⟨m', c.isBulk || Scan.isBulkAction p.kind, p.text.getLast?.or c.previous, r⟩) :
    Opens settings c p.kind.category (p.text ++ r) :=
  ⟨p, _, h.cut hn, rfl, hf⟩

theorem Category.keyword?_spec (hm : category ∈ m.expected) (hk : category.keyword? = some k) :
    k ∈ Keyword.table ∧ k.kind.category = category ∧
      (k.text ∈ innerWords → category = .criteria) ∧
      ¬ (k.kind = .operator .greaterThan ∨ k.kind = .operator .lessThan) ∧
      ∃ m', m.next? k.kind = some m' ∧ m' ≠ .initial ∧ m' ≠ .done := by
  have key : ∀ m ∈ Mode.every, ∀ category ∈ m.expected, ∀ k ∈ category.keyword?,
      k ∈ Keyword.table ∧ k.kind.category = category ∧
        (k.text ∈ innerWords → category = .criteria) ∧
        ¬ (k.kind = .operator .greaterThan ∨ k.kind = .operator .lessThan) ∧
        ∃ m' ∈ Mode.every, m.next? k.kind = some m' ∧ m' ≠ .initial ∧ m' ≠ .done := by
    decide +kernel
  obtain ⟨hmem, hc, hi, hg, m', -, hm'⟩ := key m m.mem_every category hm k hk
  exact ⟨hmem, hc, hi, hg, m', hm'⟩

theorem Mode.atBoundary_completion (m : Mode) : atBoundary m.completion = true := by
  cases m <;> rfl

/-- A text that may stand behind what has been cut, and in front of which a path stops. -/
structure Behind (m : Mode) (category : Category) (s : Text) : Prop where
  detached : category ≠ .criteria → Detached s
  criteria : category = .criteria → ∃ t, s = "By".toList ++ t ∧ atBoundary t = true
  segment : m.isWithinPath = true → segmentContinues m.accepts s = false
  separator : category = .separator → ∃ t, s = DerivedQuery.separator :: t

theorem behind_keyword (hk : k ∈ Keyword.table) (hm : k.kind.category ∈ m.expected)
    (hi : k.text ∈ innerWords → k.kind.category = .criteria) (hb : atBoundary r = true)
    (hg : ¬ (k.kind = .operator .greaterThan ∨ k.kind = .operator .lessThan)) :
    Behind m k.kind.category (k.text ++ r) := by
  have ha : m.accepts k.kind.category = true := by simpa [Mode.accepts] using hm
  refine ⟨fun hne => Keyword.detached hk (fun h => hne (hi h)) r, fun hc => ?_,
    fun _ => segmentContinues_keyword hk ha hb fun h => absurd h hg, fun hc => ?_⟩
  · have htext : ∀ k ∈ Keyword.table, k.kind.category = .criteria → k.text = "By".toList := by
      decide +kernel
    exact ⟨r, by rw [htext k hk hc], hb⟩
  · have hne : ∀ k ∈ Keyword.table, k.kind.category ≠ .separator := by decide
    exact absurd hc (hne k hk)

theorem behind_separator (m : Mode) (r : Text) : Behind m .separator (separator :: r) :=
  ⟨fun _ => detached_separator r, by simp, fun _ => by simp [segmentContinues, separator],
    fun _ => ⟨r, rfl⟩⟩

theorem behind_nil (m : Mode) : Behind m .finish [] :=
  ⟨fun _ => by decide +kernel, by simp, fun _ => rfl, by simp⟩

theorem opens_keyword (hm : category ∈ c.mode.expected) (hk : category.keyword? = some k)
    (hp : c.previous ≠ some separator) (ho : category = .ordering → c.isBulk = false) :
    ∃ s, Opens settings c category s ∧ Behind c.mode category s := by
  obtain ⟨hmem, rfl, hi, hg, m', hn, hinit, hdone⟩ := Category.keyword?_spec hm hk
  have hb := m'.atBoundary_completion
  have hlex : Lexeme settings c.mode c.isBulk c.previous ⟨k.kind, k.text⟩ m'.completion := by
    refine .keyword (fun _ => hp) (Keyword.longestKeyword?_append hmem
      (Keyword.accepts_of_next? hmem hn) hb fun h => absurd h hg) ?_
    rintro ⟨hk, hbulk⟩
    rw [ho (by rw [hk]; rfl)] at hbulk
    cases hbulk
  exact ⟨k.text ++ m'.completion, .of_lexeme hlex hn (finishes_completion _ hinit hdone
    (getLast?_or_ne_of_mem_words (Keyword.mem_words hmem) _)), behind_keyword hmem hm hi hb hg⟩

theorem opens_first (ha : c.mode.accepts .first = true) :
    ∃ s, Opens settings c .first s ∧ Behind c.mode .first s := by
  have hw : c.mode.isWithinPath = false := by revert ha; cases c.mode <;> decide
  have hlex : Lexeme settings c.mode c.isBulk c.previous ⟨.first 1, limitWord ++ ['1']⟩ [] :=
    .limit ha (by simp) rfl rfl
  refine ⟨_, .of_lexeme hlex (if_pos ha) (finishes_nil _ _ rfl), ?_, by simp, ?_, by simp⟩
  · exact fun _ => by decide +kernel
  · exact fun h => by rw [hw] at h; cases h

theorem opens_property (ha : c.mode.accepts .property = true) :
    ∃ s, Opens settings c .property s ∧ Behind c.mode .property s := by
  obtain ⟨within, hw⟩ : ∃ within, c.mode.pathMode? = some within := by
    revert ha; cases c.mode <;> first | exact fun _ => ⟨_, rfl⟩ | (intro h; cases h)
  have hwithin := Mode.isWithinPath_of_pathMode? hw
  have hkey : ∀ k ∈ Keyword.table, ¬ Leads k.text ['X', separator, 'X'] := by decide +kernel
  have hlex : Lexeme settings c.mode c.isBulk c.previous ⟨.pathStart, ['X']⟩ [separator, 'X'] :=
    .pathStart ha hw rfl (fun _ => rfl) (longestKeyword?_eq_none_iff.mpr fun k hk _ => hkey k hk)
      (by simp [segmentTail, segmentContinues, separator])
  refine ⟨_, .of_lexeme hlex hw (finishes_part _ hwithin (by simp [separator])), ?_, by simp, ?_,
    by simp⟩
  · exact fun _ => by decide +kernel
  · exact fun h => by rw [(Mode.accepts_eq_false h).2] at ha; cases ha

theorem opens_separator (hm : .separator ∈ c.mode.expected) (hp : c.previous ≠ some separator)
    (hs : c.mode = .directed → settings.separatedOrderItems = true) :
    ∃ s, Opens settings c .separator s ∧ Behind c.mode .separator s := by
  refine ⟨[separator, 'X'], ?_, behind_separator _ _⟩
  by_cases hd : c.mode = .directed
  · have hlex : Lexeme settings c.mode c.isBulk c.previous ⟨.separator, [separator]⟩ ['X'] := by
      rw [hd]
      exact .itemSeparator (hs hd) (by decide)
    have hw : Mode.orderStart.pathMode? = some .ordered := rfl
    exact .of_lexeme hlex (by rw [hd]; rfl) (finishes_path _ _ rfl rfl hw)
  · have hw : c.mode.isWithinPath = true := by
      revert hm hd; cases c.mode <;> decide
    have hsep : Lexeme settings c.mode c.isBulk c.previous ⟨.separator, [separator]⟩ ['X'] :=
      .pathSeparator hw hp (by decide)
    have hpart (b : Bool) : Lexeme settings c.mode b (some separator) ⟨.pathPart, ['X']⟩ [] :=
      .pathPart hw (by decide) rfl
    refine .of_lexeme hsep (Mode.next?_part hw).1 ((hpart _).finishes (Mode.next?_part hw).2 ?_)
    exact finishes_nil _ _ (by revert hw; cases c.mode <;> decide)

theorem opens_finish (hm : .finish ∈ c.mode.expected) :
    ∃ s, Opens settings c .finish s ∧ Behind c.mode .finish s := by
  have ha : c.mode.accepts .finish = true := by simpa [Mode.accepts] using hm
  exact ⟨_, .of_lexeme (.finish ha) (if_pos ha) ⟨[], _, .nil _, rfl⟩, behind_nil _⟩

/-- **What a mode expects can follow**, unless it is an order or a separator that is forbidden. -/
theorem exists_opens (hi : c.mode ≠ .initial) (hm : category ∈ c.mode.expected)
    (hp : c.previous ≠ some separator) (ho : category = .ordering → c.isBulk = false)
    (hs : category = .separator → c.mode = .directed → settings.separatedOrderItems = true) :
    ∃ s, Opens settings c category s ∧ Behind c.mode category s := by
  cases hk : category.keyword? with
  | some k => exact opens_keyword hm hk hp ho
  | none =>
    have ha : c.mode.accepts category = true := by simpa [Mode.accepts] using hm
    cases category with
    | all | distinct | aggregate | criteria | ordering | negation | ignoreCase | operator
    | connective | direction => cases hk
    | action =>
      have hnone : ∀ m ∈ Mode.every, .action ∈ m.expected → m = .initial := by decide
      exact absurd (hnone _ c.mode.mem_every hm) hi
    | digits =>
      have hnone : ∀ m ∈ Mode.every, .digits ∉ m.expected := by decide
      exact absurd hm (hnone _ c.mode.mem_every)
    | first => exact opens_first ha
    | property => exact opens_property ha
    | separator => exact opens_separator hm hp (hs rfl)
    | finish => exact opens_finish hm

end Samples

/-! ## What has been cut stays -/

section Exchange

variable {settings : Settings} {m m' within : Mode} {b : Bool} {prev : Option Char} {p : Piece}
  {r s t u : Text} {c c₀ c₁ : Cursor} {ps qs : List Piece} {category : Category} {e : Diagnostic}

theorem Behind.atBoundary (h : Behind m category s) : atBoundary s = true := by
  by_cases hc : category = .criteria
  · obtain ⟨t, rfl, -⟩ := h.criteria hc
    rfl
  · exact (h.detached hc).1

theorem Behind.safe (h : Behind m category s) (hr : DerivedQuery.atBoundary r = true) (hu : u ≠ [])
    (ho : category = .criteria → u ≠ orderWord) : Safe r s u := by
  by_cases hc : category = .criteria
  · obtain ⟨t, rfl, -⟩ := h.criteria hc
    exact safe_criteria hr hu (ho hc)
  · exact ((h.detached hc).subsumes hr).safe hu

/-- A text may be exchanged together with the word in front of it. -/
theorem Behind.subsumes (h : Behind m category s) (hr : DerivedQuery.atBoundary r = true)
    (hu : u ≠ []) (ho : category = .criteria → ∀ v, v ≠ [] → v ++ u ≠ orderWord) :
    Subsumes (u ++ r) (u ++ s) := by
  by_cases hc : category = .criteria
  · obtain ⟨t, rfl, -⟩ := h.criteria hc
    rintro w ⟨v, hv, hword⟩ hl
    have hsafe := safe_criteria (t := t) hr (u := v ++ u) (by simp [hu]) (ho hc v hv) _ hword ?_
    · obtain ⟨x, hx, hb⟩ := hsafe
      rw [List.append_assoc, List.append_assoc] at hx
      exact ⟨x, List.append_cancel_left hx, hb⟩
    · obtain ⟨x, hx, hb⟩ := hl
      exact ⟨x, by rw [List.append_assoc, hx, List.append_assoc], hb⟩
  · exact ((h.detached hc).subsumes hr).append u

theorem Exchangeable.of_front (hu : u ≠ []) (hw : m.isWithinPath = false)
    (hsub : Subsumes (u ++ r) (u ++ s))
    (ha : m = .initial →
      ∀ a : Action, Leads a.capitalized (u ++ r) → Leads a.capitalized (u ++ s)) :
    Exchangeable m prev (u ++ r) (u ++ s) := by
  obtain ⟨d, ds, rfl⟩ := List.exists_cons_of_ne_nil hu
  have hnot : m.isWithinPath ≠ true := by simp [hw]
  refine ⟨fun _ => hsub, by simp [DerivedQuery.atBoundary], by simp [List.takeWhile_cons], ha, ?_,
    fun h => absurd h hnot, fun h => absurd h hnot⟩
  rintro - - ⟨e, es, he, hd⟩
  rw [List.cons_append, List.cons.injEq] at he
  exact ⟨d, ds ++ s, rfl, he.1 ▸ hd⟩

theorem Cuts.replace (h : Cuts settings c₀ qs c₁) (hcut : Cut settings c₁ p c)
    (hl : Lexeme settings c₁.mode c₁.isBulk c₁.previous p s)
    (hx : Exchangeable c₁.mode c₁.previous c₁.rest (p.text ++ s)) :
    Cuts settings (c₀.withRest (textOf (qs ++ [p]) ++ s)) (qs ++ [p]) (c.withRest s) := by
  have hd : c₁.mode ≠ .done := fun hd => stuck_of_done hd _ _ hcut
  have hfront := (h.exchange hd hx).1
  have hlast : Cut settings (c₁.withRest (p.text ++ s)) p (c.withRest s) :=
    ⟨hl, hcut.next?, rfl, hcut.isBulk, hcut.previous⟩
  rw [textOf_append, textOf_cons, textOf_nil, List.append_nil, List.append_assoc]
  exact hfront.append hlast.cuts

theorem Cuts.eq_nil_or_exists_last (h : Cuts settings c₀ ps c) :
    ps = [] ∧ c₀ = c ∨
      ∃ qs p c₁, ps = qs ++ [p] ∧ Cuts settings c₀ qs c₁ ∧ Cut settings c₁ p c := by
  rcases List.eq_nil_or_concat' ps with rfl | ⟨qs, p, rfl⟩
  · cases h
    exact .inl ⟨rfl, rfl⟩
  · obtain ⟨c₁, hfront, hlast⟩ := h.exists_of_append
    cases hlast with
    | cons hcut hnil =>
      cases hnil
      exact .inr ⟨qs, p, c₁, rfl, hfront, hcut⟩

theorem Mode.of_expected_criteria (hm : .criteria ∈ m.expected) :
    m = .narrow ∨ m = .wide ∨ m = .bulk ∨ m = .limited ∨ m = .distinct ∨ m = .projected := by
  revert hm; cases m <;> decide

theorem Mode.of_next?_criteria_expected {k : Kind} (hn : m.next? k = some m')
    (hm' : .criteria ∈ m'.expected) (hw : m'.isWithinPath = false) (hl : m' ≠ .limited) :
    m = .initial ∧ (∃ a, k = .action a) ∨ k = .distinct := by
  cases k with
  | preamble =>
    obtain ⟨-, ⟨⟩⟩ := Option.ite_none_right_eq_some.mp hn
    simp [expected] at hm'
  | action a =>
    obtain ⟨hi, -⟩ := Option.ite_none_right_eq_some.mp hn
    exact .inl ⟨hi, a, rfl⟩
  | distinct => exact .inr rfl
  | pathStart | pathPart | separator | negation | ignoreCase =>
    cases m <;> cases hn <;> simp [expected, isWithinPath] at hm' hw
  | _ =>
    obtain ⟨-, ⟨⟩⟩ := Option.ite_none_right_eq_some.mp hn
    simp [expected] at hm' hl

theorem Lexeme.of_boundary (h : Lexeme settings m b prev p r)
    (hs : DerivedQuery.atBoundary s = true)
    (hk : m = .initial ∧ (∃ a, p.kind = .action a) ∨ p.kind = .distinct) :
    p.text ∈ words ∧ m.isWithinPath = false ∧ Lexeme settings m b prev p s := by
  cases h with
  | @leading a => exact ⟨a.keyword_mem_words, rfl, .leading hs⟩
  | @capitalized a => exact ⟨a.capitalized_mem_words, rfl, .capitalized hs⟩
  | @keyword _ _ _ k _ hp hl ho =>
    obtain ⟨hmem, ha, -, -⟩ := longestKeyword?_eq_some_iff.mp hl
    rcases hk with ⟨rfl, a, hk⟩ | hk
    · exact absurd hk (kind_ne_of_longestKeyword? hl rfl)
    · have hk : k.kind = .distinct := hk
      have hw : ∀ m ∈ Mode.every, m.accepts .distinct = true → m.isWithinPath = false := by decide
      rw [hk] at ha
      refine ⟨Keyword.mem_words hmem, hw m m.mem_every ha,
        .keyword hp (Keyword.longestKeyword?_append hmem ?_ hs ?_) ho⟩
      · rw [hk]
        exact ha
      · rw [hk]
        simp
  | _ => simp at hk

theorem Cuts.exchange_scope (h : Cuts settings c₀ qs c₁) (hcut : Cut settings c₁ p c)
    (hb : c.mode ≠ .limited → DerivedQuery.atBoundary c.rest = true)
    (hprev : c.previous ≠ some separator) (hi : c.mode ≠ .initial)
    (hw : c.mode.isWithinPath = false) (hc : category ∈ c.mode.expected)
    (hs : Behind c.mode category s) :
    Cuts settings (c₀.withRest (textOf (qs ++ [p]) ++ s)) (qs ++ [p]) (c.withRest s) := by
  have hd : c.mode ≠ .done := by rintro hd; rw [hd] at hc; cases hc
  have hnot : c.mode.isWithinPath ≠ true := by simp [hw]
  by_cases hcriteria : category = .criteria
  · by_cases hl : c.mode = .limited
    · have hx : Exchangeable c.mode c.previous c.rest s :=
        ⟨fun h => absurd hl h, fun _ => hs.atBoundary,
          fun _ => takeWhile_isDigit_of_atBoundary hs.atBoundary, fun h => absurd h hi,
          fun h => absurd h hprev, fun h => absurd h hnot, fun h => absurd h hnot⟩
      exact ((h.append hcut.cuts).exchange hd hx).1
    · have hk := Mode.of_next?_criteria_expected hcut.next? (hcriteria ▸ hc) hw hl
      obtain ⟨hword, hw₁, hlex⟩ := hcut.lexeme.of_boundary hs.atBoundary hk
      have hkey : ∀ word ∈ words, word ≠ [] ∧ ¬ word <:+ orderWord := by decide +kernel
      obtain ⟨hne, hsuf⟩ := hkey _ hword
      refine h.replace hcut hlex ?_
      rw [hcut.rest]
      refine .of_front hne hw₁ (hs.subsumes (hb hl) hne ?_) ?_
      · exact fun _ v _ he => hsuf (he ▸ List.suffix_append v _)
      · intro hinit a ha
        have hlex := hcut.lexeme
        rw [hinit] at hlex
        exact hlex.leads_capitalized (fun _ => hs.atBoundary) ha
  · have hx : Exchangeable c.mode c.previous c.rest s :=
      .of_detached hi hprev hb (hs.detached hcriteria) fun h => absurd h hnot
    exact ((h.append hcut.cuts).exchange hd hx).1

theorem Cuts.previous_ne_of_projected {name : Text} (h : Cuts settings (.ofName name) qs c₁)
    (hm : c₁.mode.pathMode? = some .projected) : c₁.previous ≠ some separator := by
  rcases h.eq_nil_or_exists_last with ⟨-, rfl⟩ | ⟨-, q, c₂, -, -, hcut⟩
  · cases hm
  · have hn := hcut.next?
    rw [hcut.previous]
    refine hcut.lexeme.previous_ne_separator (fun hk => ?_) (fun hk => ?_) (fun hk => ?_) <;>
      rw [hk] at hn
    · generalize c₂.mode = m at hn
      cases m <;> first | cases hn | (rw [← Option.some.inj hn] at hm; cases hm)
    all_goals
      obtain ⟨-, he⟩ := Option.ite_none_right_eq_some.mp hn
      rw [← Option.some.inj he] at hm
      cases hm

theorem Cuts.exists_separator {name : Text} (h : Cuts settings (.ofName name) qs c₁)
    (hw : c₁.mode.isWithinPath = true) (hp : c₁.previous = some separator) :
    ∃ qs' c₂, qs = qs' ++ [⟨.separator, [separator]⟩] ∧ Cuts settings (.ofName name) qs' c₂ ∧
      Cut settings c₂ ⟨.separator, [separator]⟩ c₁ ∧ c₂.mode.isWithinPath = true ∧
        c₂.previous ≠ some separator := by
  rcases h.eq_nil_or_exists_last with ⟨-, rfl⟩ | ⟨qs', q, c₂, rfl, hfront, hcut⟩
  · cases hp
  · have hn := hcut.next?
    have hkind : q.kind = .separator := by
      by_contra hk
      rw [hcut.previous] at hp
      refine hcut.lexeme.previous_ne_separator hk (fun hk => ?_) (fun hk => ?_) hp <;>
        rw [hk] at hn <;> obtain ⟨-, hm⟩ := Option.ite_none_right_eq_some.mp hn <;>
          rw [← Option.some.inj hm] at hw <;> cases hw
    obtain ⟨htext, -, hm⟩ := hcut.lexeme.of_separator hkind
    obtain ⟨kind, text⟩ := q
    obtain rfl : kind = .separator := hkind
    obtain rfl : text = [separator] := htext
    refine ⟨qs', c₂, rfl, hfront, hcut, hm.resolve_right fun hd => ?_⟩
    rw [hd] at hn
    rw [← Option.some.inj hn] at hw
    cases hw

theorem Cut.kind_of_isWithinPath (h : Cut settings c₁ p c) (hw : c.mode.isWithinPath = true)
    (hp : c.previous ≠ some separator) : p.kind = .pathStart ∨ p.kind = .pathPart := by
  rcases Mode.eq_of_isWithinPath h.next? hw with hk | ⟨-, hk | hk⟩
  · exact .inl hk
  · exact .inr hk
  · refine absurd ?_ hp
    rw [h.previous, (h.lexeme.of_separator hk).1]
    rfl

theorem Lexeme.of_pathStart (h : Lexeme settings m b prev p r) (hk : p.kind = .pathStart)
    (hn : m.next? .pathStart = some within) : ∃ d ds, p.text = d :: ds ∧
      startsPath prev d = true ∧ segmentTail within.accepts (ds ++ r) = ds := by
  cases h with
  | pathStart _ hw hd _ _ ht =>
    obtain rfl := Option.some.inj (hw.symm.trans hn)
    exact ⟨_, _, rfl, hd, ht⟩
  | keyword _ hl => exact absurd hk (kind_ne_of_longestKeyword? hl rfl)
  | _ => cases hk

theorem Mode.of_next?_pathStart (hn : m.next? .pathStart = some within) :
    m ≠ .initial ∧ m.isWithinPath = false := by
  revert hn
  cases m <;> first | exact fun _ => by decide | (intro h; cases h)

/-- What leads to the path of a projection takes an order in its place, unless it needs a property;
where a limit may be read, so may an order. -/
theorem Mode.clear_or_accepts_ordering (hn : m.next? .pathStart = some within) :
    (m = .criterionStart ∨ m = .orderStart ∨ m = .directed ∨ m = .aggregate) ∨
      m.accepts .ordering = true := by
  revert hn
  cases m <;> first | exact fun _ => by decide | (intro h; cases h)

theorem clear_of_safe (hn : m.next? .pathStart = some within) (h : Clear settings m (u ++ r))
    (hb : DerivedQuery.atBoundary s = true) (hu : u ≠ [])
    (hwhole : m.accepts .ordering = true → Safe r s u)
    (hl : m.accepts .first = true → u = limitWord → s ≠ [] ∧ longestKeyword? endsLimit s = none)
    (hsafe : m.accepts .first = true → ∀ w, w ≠ [] → u = limitWord ++ w → Safe r s w) :
    Clear settings m (u ++ s) := by
  rcases Mode.clear_or_accepts_ordering hn with hm | ho
  · exact clear_of_mode hm _
  · exact ⟨fun hf => limitRun?_eq_none_of_safe hb hu (fun he _ _ => hl hf he) (hsafe hf) (h.1 hf),
      (hwhole ho).longestKeyword?_eq_none h.2⟩

theorem suffix_of_eq_limitWord_append {d : Char} {ds : Text} (h : d :: ds = limitWord ++ u) :
    u <:+ ds := by
  have hword : limitWord = 'F' :: "irst".toList := by decide
  rw [hword, List.cons_append, List.cons.injEq] at h
  exact h.2 ▸ List.suffix_append _ _

/-- No word is read across the end of the piece, cut in the mode, when a text of the category is put
behind it. -/
structure Apart (m : Mode) (p : Piece) (category : Category) : Prop where
  /-- The end of a segment makes `OrderBy` of `By`. -/
  segment : p.kind.category = .property → category = .criteria →
    ∀ u, u ≠ [] → p.text ≠ u ++ orderWord
  /-- So does a whole path where an order may be read. -/
  path : p.kind = .pathStart → m.accepts .ordering = true → category = .criteria →
    p.text ≠ orderWord
  /-- A path that is spelled as the word which opens a limit is one, unless it goes on. -/
  limit : p.kind = .pathStart → m.accepts .first = true → p.text = limitWord → category = .separator

theorem Lexeme.pathStart_exchange (h : Lexeme settings m b prev p r) (hk : p.kind = .pathStart)
    (hn : m.next? .pathStart = some within) (hs : Behind within category s)
    (ha : Apart m p category) : Lexeme settings m b prev p s := by
  cases h with
  | @pathStart _ within' _ _ d ds _ hp hw hd hl hkey ht =>
    obtain rfl : within' = within := Option.some.inj (hw.symm.trans hn)
    have hr := atBoundary_of_not_segmentContinues (segmentTail_append_eq_iff.mp ht).1
    have hsafe : ∀ w, w <:+ ds → w ≠ [] → Safe r s w := by
      rintro w ⟨v, rfl⟩ hne
      refine hs.safe hr hne ?_
      rintro hc rfl
      exact ha.segment rfl hc (d :: v) (List.cons_ne_nil d v) rfl
    have hstop := hs.segment (Mode.isWithinPath_of_pathMode? hw)
    have hclear : Clear settings m (d :: ds ++ s) := by
      refine clear_of_safe hw ⟨hl, hkey⟩ hs.atBoundary (List.cons_ne_nil d ds) ?_ ?_ ?_
      · exact fun ho => hs.safe hr (List.cons_ne_nil d ds) fun hc => ha.path rfl ho hc
      · intro hf he
        obtain ⟨t, rfl⟩ := hs.separator (ha.limit rfl hf he)
        exact ⟨List.cons_ne_nil _ _, longestKeyword?_cons_eq_none _ (by decide)⟩
      · exact fun _ w hne he => hsafe w (suffix_of_eq_limitWord_append he) hne
    exact .pathStart hp hw hd hclear.1 hclear.2 (Safe.segmentTail_eq hsafe hstop ht)
  | keyword _ hl => exact absurd hk (kind_ne_of_longestKeyword? hl rfl)
  | _ => cases hk

/-- What stands before a segment stays, when the text behind the segment is exchanged. -/
theorem Cuts.exchange_before_segment {name : Text} (h : Cuts settings (.ofName name) qs c₁)
    (hcut : Cut settings c₁ p c) (hk : p.kind = .pathStart ∨ p.kind = .pathPart)
    (hs : Behind c.mode category s) (hc : category ∈ c.mode.expected) :
    Cuts settings (.ofName (textOf qs ++ (p.text ++ s))) qs (c₁.withRest (p.text ++ s)) := by
  have hn := hcut.next?
  have hd₁ : c₁.mode ≠ .done := fun hd => stuck_of_done hd _ _ hcut
  rcases hk with hk | hk
  · rw [hk] at hn
    obtain ⟨d, ds, htext, hd, ht⟩ := hcut.lexeme.of_pathStart hk hn
    have hr := atBoundary_of_not_segmentContinues (segmentTail_append_eq_iff.mp ht).1
    obtain ⟨hi, hm⟩ := Mode.of_next?_pathStart hn
    have hx : Exchangeable c₁.mode c₁.previous c₁.rest (p.text ++ s) := by
      rw [hcut.rest, htext]
      refine .of_front (List.cons_ne_nil d ds) hm (hs.subsumes hr (List.cons_ne_nil d ds) ?_)
        fun h => absurd h hi
      -- a path that conditions may follow begins in upper case, so no word Order goes on with it
      rintro rfl v hv he
      have hwithin : c.mode = .projected := by
        have hw := Mode.isWithinPath_of_pathMode? hn
        rcases Mode.of_expected_criteria hc with h | h | h | h | h | h <;> rw [h] at hw <;>
          first | exact h | cases hw
      have hp₁ := h.previous_ne_of_projected (hn.trans (congrArg some hwithin))
      have hup : d.isUpper = true := by simpa [startsPath, hp₁] using hd
      have hlow := isLower_of_eq_append (by decide) hv he.symm
      rw [isLower_eq_false_of_isUpper hup] at hlow
      cases hlow
    exact (h.exchange hd₁ hx).1
  · obtain ⟨hm, hsep, d, ds, htext, hd, -⟩ := hcut.lexeme.of_pathPart hk
    -- the segment begins with a letter, so it is the separator in front of it that is exchanged
    obtain ⟨qs', c₂, rfl, hfront, hsepcut, hm₂, hp₂⟩ := h.exists_separator hm hsep
    have hi₂ : c₂.mode ≠ .initial := by rintro h; rw [h] at hm₂; cases hm₂
    have hx : Exchangeable c₂.mode c₂.previous c₂.rest ([separator] ++ (p.text ++ s)) := by
      refine .of_detached hi₂ hp₂ (fun _ => ?_) (detached_separator _) fun _ => ⟨?_, ?_, ?_⟩
      · rw [hsepcut.rest]
        rfl
      · simp [segmentContinues, separator]
      · simp
      · exact longestKeyword?_cons_eq_none _ (by decide)
    refine hfront.replace hsepcut ?_ hx
    rw [htext]
    exact .pathSeparator hm₂ hp₂ hd

/-- **A path stays** in front of a text that stops it. -/
theorem Cuts.exchange_path {name : Text} (h : Cuts settings (.ofName name) qs c₁)
    (hcut : Cut settings c₁ p c) (hw : c.mode.isWithinPath = true)
    (hprev : c.previous ≠ some separator) (hs : Behind c.mode category s)
    (hc : category ∈ c.mode.expected) (ha : Apart c₁.mode p category) :
    Cuts settings (.ofName (textOf (qs ++ [p]) ++ s)) (qs ++ [p]) (c.withRest s) := by
  have hn := hcut.next?
  have hlex := hcut.lexeme
  have hkind := hcut.kind_of_isWithinPath hw hprev
  have hlast : Lexeme settings c₁.mode c₁.isBulk c₁.previous p s := by
    rcases hkind with hk | hk
    · rw [hk] at hn
      exact hlex.pathStart_exchange hk hn hs ha
    · obtain ⟨hm, hsep, d, ds, htext, hd, ht⟩ := hlex.of_pathPart hk
      obtain ⟨kind, text⟩ := p
      obtain rfl : kind = .pathPart := hk
      obtain rfl : text = d :: ds := htext
      have hmode : c.mode = c₁.mode := Option.some.inj (hn.symm.trans (Mode.next?_part hm).2)
      have hr := atBoundary_of_not_segmentContinues (segmentTail_append_eq_iff.mp ht).1
      have hstop := hs.segment hw
      rw [hmode] at hstop
      rw [hsep]
      refine .pathPart hm hd (Safe.segmentTail_eq ?_ hstop ht)
      rintro w ⟨v, rfl⟩ hne
      refine hs.safe hr hne ?_
      rintro hc rfl
      exact ha.segment rfl hc (d :: v) (List.cons_ne_nil d v) rfl
  have hcut' : Cut settings (c₁.withRest (p.text ++ s)) p (c.withRest s) :=
    ⟨hlast, hcut.next?, rfl, hcut.isBulk, hcut.previous⟩
  rw [textOf_append, textOf_cons, textOf_nil, List.append_nil, List.append_assoc]
  exact (h.exchange_before_segment hcut hkind hs hc).append hcut'.cuts

/-- **What has been cut stays** in front of what the mode expects. -/
theorem Cuts.exchange_last {name : Text} (h : Cuts settings (.ofName name) qs c₁)
    (hcut : Cut settings c₁ p c) (hd : c.mode ≠ .done) (he : nextPiece settings c = .error e)
    (hs : Behind c.mode category s) (hc : category ∈ c.mode.expected)
    (ha : Apart c₁.mode p category) :
    Cuts settings (.ofName (textOf (qs ++ [p]) ++ s)) (qs ++ [p]) (c.withRest s) := by
  obtain ⟨hi, hprev, hb⟩ := hcut.of_error hd he
  by_cases hw : c.mode.isWithinPath = true
  · exact h.exchange_path hcut hw hprev hs hc ha
  · exact h.exchange_scope hcut hb hprev hi (by simpa using hw) hc hs

end Exchange

end DerivedQuery
